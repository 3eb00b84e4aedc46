import Mathlib.Algebra.Order.BigOperators.Group.List
import MatchingEngine.Book.Ledger

/-!
# The engine

`engine.h` wraps a book for its callers, the gateway and the backtester.  They see the trades of the
last placement, and otherwise only ids.

`Standing` is what an engine in use satisfies, and `Standing.placeLimit` what a caller may rely on
when it places an order: the call goes through, and the quantity is in the trades or rests under
the id that was returned.  With one exception, which the caller is not told about: the pool is
full, and nothing crosses.
-/

set_option autoImplicit false

namespace MatchingEngine

open Greedy LevelQueue

structure Engine where
  book : OrderBook
  /-- The trades of the last placement. -/
  lastTrades : List Trade

namespace Engine

/-- `kDefaultPoolCapacity`, the capacity of an engine's book. -/
def defaultPoolCapacity : Nat := 2000000

def new (poolCapacity : Nat) : Engine := { book := .new poolCapacity, lastTrades := [] }

def placeLimit (e : Engine) (side : Side) (price qty : Int) : Option (Engine × Nat) := do
  let (book, id, trades) ← e.book.placeLimit side price qty []
  return ({ book, lastTrades := trades }, id)

def cancel (e : Engine) (id : Nat) : Option (Engine × Bool) := do
  let (book, ok) ← e.book.cancel id
  return ({ e with book }, ok)

/-- The engine's book has been reached by these calls. -/
def Reached (N : Nat) (calls : List Call) (e : Engine) : Prop :=
  ∃ replies, (OrderBook.new N).run calls = some (e.book, replies)

/-- What holds of an engine after any calls: its ids may have wrapped. -/
structure Usable (N : Nat) (e : Engine) (m : QueueBook) : Prop where
  represents : Represents N e.book m
  valid : m.Valid N

/-- What holds of an engine after `k` placements. -/
structure Standing (N k : Nat) (e : Engine) (m : QueueBook) : Prop where
  represents : Represents N e.book m
  valid : m.Valid N
  counted : m.Counted k

/-- An order gets the id that the book has ready. -/
theorem id_of_placeLimit {e e' : Engine} {side : Side} {price qty : Int} {id : Nat}
    (h : e.placeLimit side price qty = some (e', id)) : id = e.book.nextId := by
  cases side <;>
  · simp only [placeLimit, OrderBook.placeLimit, Option.pure_def, Option.bind_eq_bind,
      Option.bind_eq_some_iff, Option.some.injEq, Prod.mk.injEq] at h
    obtain ⟨_, ⟨_, _, _, _, rfl⟩, -, rfl⟩ := h
    rfl

end Engine

/-! ## When a remainder is lost -/

namespace OrderBook

/-- Is there no slot for another order? -/
def full (b : OrderBook) : Bool := b.pool.freeHead.isNone

/-- Does the best opposite level cross this limit? -/
def crosses (b : OrderBook) : Side → Int → Bool
  | .Buy, price => b.asks.begin?.any fun e ↦ KeyCompare.less.cross e.1 price
  | .Sell, price => b.bids.begin?.any fun e ↦ KeyCompare.greater.cross e.1 price

/-- The order that rests under an id. -/
def orderOf (b : OrderBook) (id : Nat) : Option OrderNode := (b.index.find? id).bind b.pool.deref

end OrderBook

/-- Does an opposite level cross the limit of a taker on this side? -/
def Side.crosses : Side → Int → Int → Bool
  | .Buy => KeyCompare.less.cross
  | .Sell => KeyCompare.greater.cross

section Pair

variable {c c' : KeyCompare} {N k : Nat} {own : Queues c} {opp : Queues c'} {free : List Ptr}
  {index : Index} {t : QueueBook.Settling}

theorem begin?_any_eq_false {p : Int × List Resting → Bool} (h : opp.begin?.any p = false) :
    ∀ e ∈ opp.begin?, p e = false := by
  intro e he
  simpa [Option.mem_def.mp he] using h

/-- **A remainder is dropped** only if no slot was free and nothing was traded. -/
theorem dropped_matchQueues (hfull : Full opp) (hq : 0 < t.qty) (id : Nat) (price : Int) :
    (QueueBook.matchQueues id price opp t).2.dropped
      = if t.free = [] ∧ (opp.begin?.any fun e ↦ c'.cross e.1 price) = false then t.qty else 0 := by
  rw [QueueBook.Settling.dropped]
  cases hcross : opp.begin?.any fun e ↦ c'.cross e.1 price with
  | false =>
    have hswept := swept_of_refused (c'.cross · price) t.qty (begin?_any_eq_false hcross)
    simp only [QueueBook.matchQueues, QueueBook.settle, hswept, consumed, List.filterMap_nil,
      List.map_nil, List.reverse_nil, List.nil_append, hq, true_and, and_true]
  | true =>
    obtain ⟨e, he, hc⟩ : ∃ e, opp.begin? = some e ∧ c'.cross e.1 price = true := by
      cases hb : opp.begin? with
      | none => simp [hb] at hcross
      | some e => exact ⟨e, rfl, by simpa [hb] using hcross⟩
    have hkept : ¬(0 < (QueueBook.matchQueues id price opp t).2.qty ∧
        (QueueBook.matchQueues id price opp t).2.free = []) := by
      rintro ⟨hleft, hnone⟩
      have hsome := consumed_ne_nil_of_left hfull he hc hleft
      simp only [QueueBook.matchQueues, QueueBook.settle, List.append_eq_nil_iff,
        List.reverse_eq_nil_iff, List.map_eq_nil_iff] at hnone
      exact hsome hnone.1
    rw [if_neg hkept, if_neg (by simp)]

theorem sum_qty_nonneg {ts : List Trade} (h : ∀ t ∈ ts, 1 ≤ t.qty) :
    0 ≤ (ts.map Trade.qty).sum := by
  refine List.sum_nonneg fun q hq ↦ ?_
  obtain ⟨t, ht, rfl⟩ := List.mem_map.mp hq
  exact Int.one_nonneg.trans (h t ht)

theorem takerTotal_eq_sum {ts : List Trade} {id : Nat} (h : ∀ t ∈ ts, t.takerId = id) :
    takerTotal ts id = (ts.map Trade.qty).sum := by
  rw [takerTotal, total, List.filter_eq_self.mpr fun t ht ↦ by simp [h t ht]]

/-- No order gives twice to one taker. -/
theorem nodup_makerId (h : Consistent N own opp free index)
    (hn : Numbered k own opp index) (id : Nat) (cross : Int → Bool) (qty : Int) :
    ((QueueBook.tradesOf id (swept cross qty opp).fills).map Trade.makerId).Nodup := by
  have hids : ((lots opp).map (·.2.id)).Nodup := by
    have := hn.nodup_ids h
    rw [resting, List.map_append] at this
    exact this.of_append_right
  have hsub := ((lots_swept_isPrefix cross qty opp).sublist.map (·.2.id)).nodup hids
  rw [QueueBook.tradesOf, List.map_map]
  rw [List.map_map] at hsub
  exact hsub

end Pair

section Sides

variable {N : Nat} {b : OrderBook} {m : QueueBook}

theorem Represents.full_eq (h : Represents N b m) : b.full = m.free.isEmpty := by
  rw [OrderBook.full, h.layout.chain.head_eq]
  cases m.free <;> rfl

theorem Represents.crosses_buy (h : Represents N b m) (price : Int) :
    b.crosses .Buy price = m.asks.begin?.any fun x ↦ KeyCompare.less.cross x.1 price := by
  rw [OrderBook.crosses, h.eq_withPool]
  simp only [QueueBook.withPool, SortedMap.begin?_map, Option.any_map]

theorem Represents.crosses_sell (h : Represents N b m) (price : Int) :
    b.crosses .Sell price = m.bids.begin?.any fun x ↦ KeyCompare.greater.cross x.1 price := by
  rw [OrderBook.crosses, h.eq_withPool]
  simp only [QueueBook.withPool, SortedMap.begin?_map, Option.any_map]

end Sides

/-! ## What a caller may rely on -/

namespace Engine

variable {N k : Nat} {e : Engine} {m : QueueBook} {calls : List Call}

theorem Reached.represents (h : e.Reached N calls) :
    Represents N e.book ((QueueBook.new N).run calls).1 ∧
      ((QueueBook.new N).run calls).1.Valid N := by
  obtain ⟨replies, hrun⟩ := h
  exact represents_of_run hrun

theorem Reached.usable (h : e.Reached N calls) : e.Usable N ((QueueBook.new N).run calls).1 :=
  ⟨h.represents.1, h.represents.2⟩

theorem Standing.usable (h : e.Standing N k m) : e.Usable N m := ⟨h.represents, h.valid⟩

theorem Reached.standing (h : e.Reached N calls) (hlt : placements calls < 2 ^ 64) :
    e.Standing N (placements calls) ((QueueBook.new N).run calls).1 :=
  ⟨h.represents.1, h.represents.2, QueueBook.counted_run_new N calls hlt⟩

/-- **Placing an order.** -/
theorem Standing.placeLimit (h : e.Standing N k m) (hlt : k + 1 < 2 ^ 64) (side : Side)
    (price qty : Int) :
    ∃ e', e.placeLimit side price qty = some (e', k + 1) ∧
      e'.Standing N (k + 1) (m.placeLimit side price qty []).1 ∧
      e'.lastTrades = (m.placeLimit side price qty []).2.2 ∧
      (∀ t ∈ e'.lastTrades, t.takerId = k + 1 ∧ 1 ≤ t.qty) ∧
      (0 < qty → qty = (e'.lastTrades.map Trade.qty).sum + e'.book.restingQty (k + 1)
        + if e.book.full = true ∧ e.book.crosses side price = false then qty else 0) := by
  obtain ⟨b, he, hr⟩ := h.represents.placeLimit h.valid side price qty []
  have hid := h.counted.nextId_eq hlt
  have hv := h.valid.placeLimit side price qty []
  have hk := h.counted.placeLimit h.valid hlt side price qty []
  have hreturned : (m.placeLimit side price qty []).2.1 = k + 1 := by cases side <;> exact hid
  refine ⟨⟨b, (m.placeLimit side price qty []).2.2⟩, ?_, ⟨hr, hv, hk⟩, rfl, ?_⟩
  · rw [Engine.placeLimit, he, ← hreturned]
    rfl
  have hresting : b.restingQty (k + 1) = _ := hr.restingQty_eq hv hk (k + 1)
  dsimp only
  rw [hresting]
  cases side with
  | Buy =>
    have hp := placeOn_placement (t := ⟨m.index, m.free, qty, []⟩) h.valid.consistent
      h.counted.numbered rfl price m.nextTs
    simp only [QueueBook.placeLimit, hid]
    refine ⟨fun t ht ↦ ⟨hp.taker t ht, (hp.maker t ht).1⟩, fun hq ↦ ?_⟩
    have hdropped := dropped_matchQueues (t := ⟨m.index, m.free, qty, []⟩)
      h.valid.consistent.fullOpp hq (k + 1) price
    simp only [h.represents.full_eq, List.isEmpty_iff, h.represents.crosses_buy]
    rw [← hdropped, ← takerTotal_eq_sum hp.taker]
    exact hp.self hq
  | Sell =>
    have hp := placeOn_placement (t := ⟨m.index, m.free, qty, []⟩) h.valid.consistent.symm
      h.counted.numbered.symm rfl price m.nextTs
    simp only [QueueBook.placeLimit, hid]
    refine ⟨fun t ht ↦ ⟨hp.taker t ht, (hp.maker t ht).1⟩, fun hq ↦ ?_⟩
    have hdropped := dropped_matchQueues (t := ⟨m.index, m.free, qty, []⟩)
      h.valid.consistent.fullOwn hq (k + 1) price
    simp only [h.represents.full_eq, List.isEmpty_iff, h.represents.crosses_sell]
    rw [← hdropped, ← takerTotal_eq_sum hp.taker, restingTotal_symm]
    exact hp.self hq

/-- What `index_` leads to for a resting order. -/
theorem Standing.orderOf_eq (h : e.Standing N k m) (side : Side) {price : Int} {r : Resting}
    (hr : r ∈ m.queueAt side price) :
    ∃ x, e.book.orderOf r.id = some x ∧ x.side = side ∧ x.price = price := by
  have hmem := QueueBook.mem_resting_iff.mpr ⟨side, hr⟩
  have hindex : e.book.index.find? r.id = some r.slot := by
    rw [h.represents.index_eq]
    exact h.counted.numbered.complete _ hmem
  obtain ⟨prev, next, hd⟩ := (h.represents.holdsAt side price).exists_deref hr
  exact ⟨_, by rw [OrderBook.orderOf, hindex]; exact hd, rfl, rfl⟩

/-- **The makers of a placement** are different orders, and each of them rested on the other side
and crossed. -/
theorem Standing.makers (h : e.Standing N k m) (hlt : k + 1 < 2 ^ 64) (side : Side)
    (price qty : Int) :
    (((m.placeLimit side price qty []).2.2).map Trade.makerId).Nodup ∧
      ∀ t ∈ (m.placeLimit side price qty []).2.2, t.makerId ≤ k ∧
        ∃ x, e.book.orderOf t.makerId = some x ∧ x.side = side.opposite ∧
          side.crosses x.price price = true := by
  have hid := h.counted.nextId_eq hlt
  have hle := h.counted.numbered.le
  cases side with
  | Buy =>
    have hp := placeOn_placement (t := ⟨m.index, m.free, qty, []⟩) h.valid.consistent
      h.counted.numbered rfl price m.nextTs
    have hnd := nodup_makerId h.valid.consistent h.counted.numbered (k + 1)
      (KeyCompare.less.cross · price) qty
    simp only [QueueBook.placeLimit, hid]
    refine ⟨by rw [trades_placeOn]; exact hnd, fun t ht ↦ ?_⟩
    obtain ⟨-, hcross, ⟨px, r⟩, hx, hpx, hmaker⟩ := hp.maker t ht
    obtain ⟨x, hx', hside, hprice⟩ := h.orderOf_eq .Sell (mem_queue.mpr hx)
    rw [← hmaker]
    refine ⟨hle _ (mem_resting.mpr (.inr hx)), x, hx', hside, ?_⟩
    rw [hprice, show px = t.price from hpx]
    exact hcross
  | Sell =>
    have hp := placeOn_placement (t := ⟨m.index, m.free, qty, []⟩) h.valid.consistent.symm
      h.counted.numbered.symm rfl price m.nextTs
    have hnd := nodup_makerId h.valid.consistent.symm h.counted.numbered.symm (k + 1)
      (KeyCompare.greater.cross · price) qty
    simp only [QueueBook.placeLimit, hid]
    refine ⟨by rw [trades_placeOn]; exact hnd, fun t ht ↦ ?_⟩
    obtain ⟨-, hcross, ⟨px, r⟩, hx, hpx, hmaker⟩ := hp.maker t ht
    obtain ⟨x, hx', hside, hprice⟩ := h.orderOf_eq .Buy (mem_queue.mpr hx)
    rw [← hmaker]
    refine ⟨hle _ (mem_resting.mpr (.inl hx)), x, hx', hside, ?_⟩
    rw [hprice, show px = t.price from hpx]
    exact hcross

theorem Standing.restingQty_nonneg (h : e.Standing N k m) (id : Nat) :
    0 ≤ e.book.restingQty id := by
  rw [h.represents.restingQty_eq h.valid h.counted]
  exact restingTotal_nonneg h.valid.consistent id

theorem Standing.cancel (h : e.Standing N k m) (id : Nat) :
    ∃ e', e.cancel id = some (e', (m.cancel id).2) ∧ e'.Standing N k (m.cancel id).1 := by
  obtain ⟨b, he, hr⟩ := h.represents.cancel h.valid id
  exact ⟨{ e with book := b }, by rw [Engine.cancel, he]; rfl,
    ⟨hr, h.valid.cancel id, h.counted.cancel id⟩⟩

end Engine

end MatchingEngine
