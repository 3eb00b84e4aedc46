import MatchingEngine.Book.Cancelling

/-!
# What is still open under an id

`OrderBook.openQty` is the quantity an order still has on offer on a side; it is positive if and
only if the order rests there.  Callers that keep track of their own orders need nothing else of the
book: `Engine.Opens` says how a placement changes it, and `Standing.openQty_cancel` how a cancel
does.
-/

set_option autoImplicit false

namespace MatchingEngine

open Greedy LevelQueue

/-- The quantity the order with this id has open on a side. -/
def OrderBook.openQty (b : OrderBook) (side : Side) (id : Nat) : Int :=
  match b.orderOf id with
  | none => 0
  | some x => if x.side = side then x.qty else 0

/-- What a placement under the id `k + 1` does to what is open. -/
structure Engine.Opens (k : Nat) (e e' : Engine) (side : Side) (qty : Int) : Prop where
  own : ∀ id ≤ k, e'.book.openQty side id = e.book.openQty side id
  opposite : ∀ id ≤ k, e.book.openQty side.opposite id
    = makerTotal e'.lastTrades id + e'.book.openQty side.opposite id
  /-- The new order is only on its own side, with what it did not trade at most. -/
  other : e'.book.openQty side.opposite (k + 1) = 0
  self : (e'.lastTrades.map Trade.qty).sum + e'.book.openQty side (k + 1) ≤ max qty 0

section Queues

variable {c c' : KeyCompare} {N k : Nat} {own : Queues c} {opp : Queues c'} {free : List Ptr}
  {index : Index} {t : QueueBook.Settling}

theorem idTotal_eq_zero {l : List (Int × Resting)} {id : Nat} (h : ∀ x ∈ l, x.2.id ≠ id) :
    idTotal l id = 0 :=
  total_eq_zero fun x hx ↦ by simpa using h x hx

/-- How a placement changes what is open, in terms of the queues. -/
structure QueuesOpen (k : Nat) (own own' opp opp' : List (Int × Resting)) (qty : Int)
    (trades : List Trade) : Prop where
  own : ∀ id ≤ k, idTotal own' id = idTotal own id
  opposite : ∀ id ≤ k, idTotal opp id = makerTotal trades id + idTotal opp' id
  other : idTotal opp' (k + 1) = 0
  self : (trades.map Trade.qty).sum + idTotal own' (k + 1) ≤ max qty 0

theorem placeOn_open (h : Consistent N own opp t.free t.index) (hn : Numbered k own opp t.index)
    (htrades : t.trades = []) (price : Int) (ts : Nat) :
    QueuesOpen k (lots own) (lots (QueueBook.placeOn own opp t (k + 1) price ts).1) (lots opp)
      (lots (QueueBook.placeOn own opp t (k + 1) price ts).2.1) t.qty
      (QueueBook.placeOn own opp t (k + 1) price ts).2.2.1.trades := by
  have hp := placeOn_placement h hn htrades price ts
  have hnew : ∀ x ∈ resting own opp, x.2.id ≠ k + 1 := fun x hx ↦ by have := hn.le x hx; omega
  have hopp : ∀ x ∈ lots (QueueBook.placeOn own opp t (k + 1) price ts).2.1, x.2.id ≠ k + 1 := by
    intro x hx
    obtain ⟨y, hy, he⟩ := hp.opp x hx
    simp only [tag, Prod.mk.injEq] at he
    exact he.2.2 ▸ hnew y (mem_resting.mpr (.inr hy))
  constructor
  case own =>
    intro id hid
    simp only [QueueBook.placeOn, idTotal_restQueue]
    rw [if_neg (fun hc ↦ by omega), Int.add_zero]
  case opposite =>
    intro id _
    rw [trades_placeOn, htrades, List.nil_append]
    exact idTotal_matchQueues opp t (k + 1) price id
  case other => exact idTotal_eq_zero hopp
  case self =>
    rw [← takerTotal_eq_sum hp.taker]
    by_cases hq : 0 < t.qty
    · have hself := hp.self hq
      have hdropped := hp.nonneg
      rw [restingTotal_eq_add, idTotal_eq_zero hopp] at hself
      omega
    · obtain ⟨hown, -, hnone⟩ := placeOn_of_nonpos own opp (by omega : t.qty ≤ 0) (k + 1) price ts
      rw [hnone, htrades, hown, idTotal_eq_zero fun x hx ↦ hnew x (mem_resting.mpr (.inl hx))]
      exact le_max_right _ _

end Queues

section Code

variable {N k : Nat} {b : OrderBook} {m : QueueBook}

theorem QueueBook.mem_lotsOn {side : Side} {x : Int × Resting} :
    x ∈ m.lotsOn side ↔ x.2 ∈ m.queueAt side x.1 := by
  cases side with
  | Buy => exact mem_queue.symm
  | Sell => exact mem_queue.symm

theorem QueueBook.mem_resting_of_lotsOn {side : Side} {x : Int × Resting} (hx : x ∈ m.lotsOn side) :
    x ∈ resting m.bids m.asks :=
  QueueBook.mem_resting_iff.mpr ⟨side, QueueBook.mem_lotsOn.mp hx⟩

theorem QueueBook.restingTotal_eq_sides (m : QueueBook) (side : Side) (id : Nat) :
    restingTotal m.bids m.asks id
      = idTotal (m.lotsOn side) id + idTotal (m.lotsOn side.opposite) id := by
  cases side with
  | Buy => exact restingTotal_eq_add _ _ id
  | Sell => exact (restingTotal_eq_add _ _ id).trans (Int.add_comm _ _)

theorem Represents.openQty_eq (h : Represents N b m) (hv : m.Valid N) (hk : m.Counted k)
    (side : Side) (id : Nat) : b.openQty side id = idTotal (m.lotsOn side) id := by
  have hzero : (∀ x ∈ m.lotsOn side, x.2.id ≠ id) → idTotal (m.lotsOn side) id = 0 :=
    idTotal_eq_zero
  rw [OrderBook.openQty, OrderBook.orderOf, h.index_eq]
  cases hid : m.index.find? id with
  | none =>
    refine (hzero fun x hx he ↦ ?_).symm
    have hxi := hk.numbered.complete x (QueueBook.mem_resting_of_lotsOn hx)
    rw [he, hid] at hxi
    simp at hxi
  | some n =>
    obtain ⟨⟨price, r⟩, hx, rfl, rfl⟩ := hv.consistent.sound id n hid
    obtain ⟨s, hr⟩ := QueueBook.mem_resting_iff.mp hx
    obtain ⟨prev, next, hd⟩ := (h.holdsAt s price).exists_deref hr
    simp only [Option.bind_some, hd]
    -- an order with the id is this one, so it is on this side
    have hother : ∀ s', s' ≠ s → ∀ y ∈ m.lotsOn s', y.2.id ≠ r.id := by
      intro s' hne y hy hid
      have hy' := QueueBook.mem_lotsOn.mp hy
      have he := hk.numbered.eq_of_id hv.consistent (QueueBook.mem_resting_iff.mpr ⟨s', hy'⟩) hx hid
      have hside := hv.queue_eq_of_slot hy' hr (congrArg (·.2.slot) he)
      exact hne (congrArg Prod.fst hside)
    change (if s = side then r.qty else 0) = _
    by_cases hs : s = side
    · subst hs
      have hsum := m.restingTotal_eq_sides s r.id
      have hopp : s.opposite ≠ s := by cases s <;> simp [Side.opposite]
      rw [restingTotal_eq hv.consistent hk.numbered hx, idTotal_eq_zero (hother _ hopp)] at hsum
      rw [if_pos rfl]
      dsimp only at hsum
      omega
    · rw [if_neg hs, hzero (hother side (Ne.symm hs))]

end Code

namespace Engine

variable {N k : Nat} {e e' : Engine} {m : QueueBook}

theorem Standing.openQty_eq (h : e.Standing N k m) (side : Side) (id : Nat) :
    e.book.openQty side id = idTotal (m.lotsOn side) id :=
  h.represents.openQty_eq h.valid h.counted side id

theorem Standing.openQty_nonneg (h : e.Standing N k m) (side : Side) (id : Nat) :
    0 ≤ e.book.openQty side id := by
  rw [h.openQty_eq]
  refine total_nonneg fun x hx ↦ ?_
  have := h.valid.consistent.pos x (QueueBook.mem_resting_of_lotsOn hx)
  omega

/-- Nothing is open under an id that has not been handed out. -/
theorem Standing.openQty_of_lt (h : e.Standing N k m) (side : Side) {id : Nat} (hid : k < id) :
    e.book.openQty side id = 0 := by
  rw [h.openQty_eq]
  refine idTotal_eq_zero fun x hx ↦ ?_
  have := h.counted.numbered.le x (QueueBook.mem_resting_of_lotsOn hx)
  omega

/-- What rests on a side is open there, each order under its own id. -/
theorem Standing.quotes (h : e.Standing N k m) (side : Side) :
    ∃ qs, e.book.quotes side = some qs ∧ (qs.map Quote.id).Nodup ∧
      ∀ q ∈ qs, e.book.openQty side q.id ≠ 0 := by
  refine ⟨_, h.represents.quotes h.valid side, ?_, ?_⟩
  · have hids := h.counted.numbered.nodup_ids h.valid.consistent
    rw [resting, List.map_append] at hids
    rw [List.map_map]
    cases side with
    | Buy => exact hids.of_append_left
    | Sell => exact hids.of_append_right
  · rintro _ hq
    obtain ⟨x, hx, rfl⟩ := List.mem_map.mp hq
    have hpos : ∀ y ∈ m.lotsOn side, 1 ≤ y.2.qty := fun y hy ↦
      h.valid.consistent.pos y (QueueBook.mem_resting_of_lotsOn hy)
    obtain ⟨l, r, hlr⟩ := List.append_of_mem hx
    rw [h.openQty_eq, idTotal, hlr, total_append, total_cons, if_pos (by simp [quoteOf])]
    have hx := hpos x hx
    have hl : 0 ≤ total (fun y : Int × Resting ↦ y.2.id == (quoteOf x).id) (·.2.qty) l :=
      total_nonneg fun y hy ↦ le_trans Int.one_nonneg (hpos y (by simp [hlr, hy]))
    have hr : 0 ≤ total (fun y : Int × Resting ↦ y.2.id == (quoteOf x).id) (·.2.qty) r :=
      total_nonneg fun y hy ↦ le_trans Int.one_nonneg (hpos y (by simp [hlr, hy]))
    omega

/-- **Placing an order**, as its owner sees it. -/
theorem Standing.opens (h : e.Standing N k m) (hlt : k + 1 < 2 ^ 64) (side : Side)
    (price qty : Int) {id : Nat} (he : e.placeLimit side price qty = some (e', id)) :
    Opens k e e' side qty := by
  obtain ⟨e₁, he₁, hs, htrades, -⟩ := h.placeLimit hlt side price qty
  obtain ⟨rfl, rfl⟩ : e₁ = e' ∧ k + 1 = id := by simpa [he₁] using he
  have hid := h.counted.nextId_eq hlt
  have hq : QueuesOpen k (m.lotsOn side) ((m.placeLimit side price qty []).1.lotsOn side)
      (m.lotsOn side.opposite) ((m.placeLimit side price qty []).1.lotsOn side.opposite) qty
      e₁.lastTrades := by
    rw [htrades]
    cases side with
    | Buy =>
      simp only [QueueBook.placeLimit, hid]
      exact placeOn_open (t := ⟨m.index, m.free, qty, []⟩) h.valid.consistent h.counted.numbered rfl
        price m.nextTs
    | Sell =>
      simp only [QueueBook.placeLimit, hid]
      exact placeOn_open (t := ⟨m.index, m.free, qty, []⟩) h.valid.consistent.symm
        h.counted.numbered.symm rfl price m.nextTs
  constructor
  · intro id hle
    rw [hs.openQty_eq, h.openQty_eq, hq.own id hle]
  · intro id hle
    rw [hs.openQty_eq, h.openQty_eq, hq.opposite id hle]
  · rw [hs.openQty_eq, hq.other]
  · rw [hs.openQty_eq]
    exact hq.self

theorem Standing.nextId_eq (h : e.Standing N k m) (hlt : k + 1 < 2 ^ 64) :
    e.book.nextId = k + 1 := h.represents.nextId_eq.trans (h.counted.nextId_eq hlt)

/-- An order that rests has something open. -/
theorem Standing.openQty_of_hasOrder (h : e.Standing N k m) {id : Nat} (hid : e.book.HasOrder id) :
    ∃ side, e.book.openQty side id ≠ 0 := by
  obtain ⟨side, price, orders, ho, hid⟩ := hid
  rw [h.represents.ordersAt h.valid, Option.some_inj] at ho
  rw [← ho, List.map_map] at hid
  obtain ⟨r, hr, rfl⟩ := List.mem_map.mp hid
  obtain ⟨qs, hqs, -, hopen⟩ := h.quotes side
  rw [h.represents.quotes h.valid, Option.some_inj] at hqs
  refine ⟨side, hopen (quoteOf (price, r)) ?_⟩
  rw [← hqs]
  exact List.mem_map_of_mem (QueueBook.mem_lotsOn.mpr hr)

/-- A cancel removes the order that rests under the id, or does nothing. -/
theorem Standing.cancel_cases (h : e.Standing N k m) (id : Nat) :
    ¬ e.book.HasOrder id ∧ e.cancel id = some (e, false) ∨
      e.book.HasOrder id ∧ ∃ e' side price, e.cancel id = some (e', true) ∧
        e.book.Removes e'.book id side price := by
  rw [h.represents.hasOrder_iff h.valid, ← h.valid.find?_eq_none_iff h.counted]
  rcases h.represents.cancel_cases h.valid id with ⟨hid, hc⟩ | ⟨hid, b, side, price, hc, hr⟩
  · refine .inl ⟨not_not.mpr hid, ?_⟩
    rw [Engine.cancel, hc]
    rfl
  · exact .inr ⟨hid, { e with book := b }, side, price, by rw [Engine.cancel, hc]; rfl, hr⟩

/-- **Cancelling** closes what is open under the id, and nothing else. -/
theorem Standing.openQty_cancel (h : e.Standing N k m) {id : Nat} {ok : Bool}
    (he : e.cancel id = some (e', ok)) (side : Side) (id' : Nat) :
    e'.book.openQty side id' = if id' = id then 0 else e.book.openQty side id' := by
  obtain ⟨e₁, he₁, hs⟩ := h.cancel id
  obtain ⟨rfl, -⟩ : e₁ = e' ∧ _ = ok := by simpa [he₁] using he
  rw [hs.openQty_eq, h.openQty_eq, QueueBook.cancel]
  cases hid : m.index.find? id with
  | none =>
    dsimp only
    split
    · rename_i he
      have hgone := (h.valid.find?_eq_none_iff h.counted id).mp hid
      exact idTotal_eq_zero fun x hx ↦ he ▸ hgone x (QueueBook.mem_resting_of_lotsOn hx)
    · rfl
  | some n =>
    have hprune : (m.remove id n).lotsOn side = (m.lotsOn side).filter fun x ↦ x.2.slot != n := by
      cases side with
      | Buy => exact lots_prune _
      | Sell => exact lots_prune _
    dsimp only
    rw [hprune]
    exact idTotal_remove h.valid.consistent h.counted.numbered hid
      (fun _ hx ↦ QueueBook.mem_resting_of_lotsOn hx) id'

end Engine

end MatchingEngine
