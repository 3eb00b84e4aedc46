import MatchingEngine.Book.Refinement

/-!
# Price–time priority

`PriceTimeBook` says what an order book is for, with nothing of how the code stores it: two maps
from price to the orders resting there, first come first served, and the number of orders there is
room for.  A taker is served from the best opposite price on, and what it still wants afterwards
queues up on its own side if there is room.

`run_simulates` relates the code to it.  The two differ in how they find an order to cancel: the
abstract book looks for the id, the code asks `index_` for a slot.  They agree as long as ids are
unique, that is, until the 64-bit counter of ids has wrapped.
-/

set_option autoImplicit false

namespace MatchingEngine

open Greedy LevelQueue

/-- An order, as everyone but the code sees it. -/
structure Order where
  id : Nat
  qty : Int
  deriving DecidableEq

instance : Lot Order where
  size o := o.qty
  resize o q := { o with qty := q }
  size_resize _ _ := rfl

/-- One side: the orders at each price, oldest first. -/
abbrev Orders (c : KeyCompare) := SortedMap Int (List Order) c.before

structure PriceTimeBook where
  bids : Orders .greater
  asks : Orders .less
  /-- How many more orders may rest. -/
  free : Nat
  nextId : Nat

namespace PriceTimeBook

def new (capacity : Nat) : PriceTimeBook :=
  { bids := .empty, asks := .empty, free := capacity, nextId := 1 }

/-- Serve a taker from the opposite side, and queue what it still wants on its own if there is
room. -/
def place {c c' : KeyCompare} (own : Orders c) (opp : Orders c') (free id : Nat) (price qty : Int) :
    Orders c × Orders c' × Nat × List Trade :=
  let w := swept (c'.cross · price) qty opp
  let opp := afterSweep (c'.cross · price) qty opp
  let free := free + (consumed w.fills).length
  let trades := w.fills.map fun f ↦ ⟨id, f.lot.2.id, f.lot.1, f.amount⟩
  if 0 < w.left ∧ 0 < free then (pushBack own price ⟨id, w.left⟩, opp, free - 1, trades)
  else (own, opp, free, trades)

def placeLimit (a : PriceTimeBook) (side : Side) (price qty : Int) :
    PriceTimeBook × Nat × List Trade :=
  match side with
  | .Buy =>
    let (bids, asks, free, trades) := place a.bids a.asks a.free a.nextId price qty
    ({ bids, asks, free, nextId := a.nextId + 1 }, a.nextId, trades)
  | .Sell =>
    let (asks, bids, free, trades) := place a.asks a.bids a.free a.nextId price qty
    ({ bids, asks, free, nextId := a.nextId + 1 }, a.nextId, trades)

/-- All the orders, with their prices. -/
def orders (a : PriceTimeBook) : List (Int × Order) := lots a.bids ++ lots a.asks

/-- Remove the order with an id, if it rests. -/
def cancel (a : PriceTimeBook) (id : Nat) : PriceTimeBook × Bool :=
  if a.orders.any fun x ↦ x.2.id == id then
    ({ a with
      bids := prune (fun o ↦ o.id != id) a.bids
      asks := prune (fun o ↦ o.id != id) a.asks
      free := a.free + 1 }, true)
  else (a, false)

def perform (a : PriceTimeBook) : Call → PriceTimeBook × Reply
  | .placeLimit side price qty =>
    let (a, id, trades) := a.placeLimit side price qty
    (a, .placed id trades)
  | .cancel id =>
    let (a, ok) := a.cancel id
    (a, .cancelled ok)

def run : PriceTimeBook → List Call → PriceTimeBook × List Reply
  | a, [] => (a, [])
  | a, call :: calls =>
    let (a, reply) := a.perform call
    let (a, replies) := run a calls
    (a, reply :: replies)

def bestBid (a : PriceTimeBook) : Int := (a.bids.begin?.map Prod.fst).getD 0

def bestAsk (a : PriceTimeBook) : Int := (a.asks.begin?.map Prod.fst).getD OrderBook.priceMax

def size (a : PriceTimeBook) : Nat := a.orders.length

def ordersAt (a : PriceTimeBook) : Side → Int → List Order
  | .Buy, price => queue a.bids price
  | .Sell, price => queue a.asks price

end PriceTimeBook

/-! ## Forgetting the representation -/

def Resting.toOrder (r : Resting) : Order := ⟨r.id, r.qty⟩

/-- The abstract book after `k` placements. -/
def QueueBook.abs (m : QueueBook) (k : Nat) : PriceTimeBook :=
  { bids := mapLots Resting.toOrder m.bids
    asks := mapLots Resting.toOrder m.asks
    free := m.free.length
    nextId := k + 1 }

section Pair

variable {c c' : KeyCompare} {N k : Nat} {own : Queues c} {opp : Queues c'} {free : List Ptr}
  {index : Index}

/-- **Placing does not look at slots.** -/
theorem place_mapLots (own : Queues c) (opp : Queues c') (t : QueueBook.Settling) (id : Nat)
    (price : Int) (ts : Nat) (htrades : t.trades = []) :
    PriceTimeBook.place (mapLots Resting.toOrder own) (mapLots Resting.toOrder opp) t.free.length id
        price t.qty
      = (mapLots Resting.toOrder (QueueBook.placeOn own opp t id price ts).1,
        mapLots Resting.toOrder (QueueBook.placeOn own opp t id price ts).2.1,
        (QueueBook.placeOn own opp t id price ts).2.2.1.free.length,
        (QueueBook.placeOn own opp t id price ts).2.2.1.trades) := by
  have hsize : ∀ r : Resting, size r.toOrder = size r := fun _ ↦ rfl
  have hresize : ∀ (r : Resting) q, (resize r q).toOrder = resize r.toOrder q := fun _ _ ↦ rfl
  have hlen := congrArg List.length (consumed_map (fun x : Int × Resting ↦ (x.1, x.2.toOrder))
    (fun _ ↦ rfl) (swept (c'.cross · price) t.qty opp).fills)
  rw [List.length_map] at hlen
  have hfree : (QueueBook.matchQueues id price opp t).2.free.length
      = t.free.length + (consumed (swept (c'.cross · price) t.qty opp).fills).length := by
    simp only [QueueBook.matchQueues, QueueBook.settle, List.length_append, List.length_reverse,
      List.length_map]
    exact Nat.add_comm _ _
  rw [PriceTimeBook.place, swept_mapLots Resting.toOrder _ _ hsize hresize,
    afterSweep_mapLots Resting.toOrder _ _ hsize hresize]
  simp only [hlen, ← hfree, QueueBook.placeOn]
  rcases restQueue_cases own (QueueBook.matchQueues id price opp t).2 id price ts with
    ⟨hstop, he⟩ | ⟨p, free, hq, hf, he⟩
  · rw [he, if_neg (fun h ↦ hstop ⟨h.1, List.length_pos_iff.mp h.2⟩)]
    simp [QueueBook.matchQueues, QueueBook.settle, QueueBook.tradesOf, htrades, Resting.toOrder,
      Function.comp_def]
  · rw [he, if_pos ⟨hq, by simp [hf]⟩, hf]
    simp [QueueBook.matchQueues, QueueBook.settle, QueueBook.tradesOf, htrades, Resting.toOrder,
      Function.comp_def, ← pushBack_mapLots]

/-- While ids are unique, removing by id is removing by slot. -/
theorem prune_id_eq {c : KeyCompare} {side : Queues c} (hn : Numbered k own opp index)
    (h : Consistent N own opp free index) {id : Nat} {n : Ptr} (hid : index.find? id = some n)
    (hside : ∀ x ∈ lots side, x ∈ resting own opp) :
    prune (fun o : Order ↦ o.id != id) (mapLots Resting.toOrder side)
      = mapLots Resting.toOrder (prune (fun r ↦ r.slot != n) side) := by
  rw [prune_mapLots]
  refine congrArg _ (prune_congr fun x hx ↦ ?_)
  have hx := hside x hx
  rw [Bool.eq_iff_iff, bne_iff_ne, bne_iff_ne]
  refine not_congr ⟨fun he ↦ ?_, fun he ↦ h.id_eq hx (he ▸ hid)⟩
  have hxi := hn.complete x hx
  rw [show x.2.id = id from he, hid] at hxi
  exact (Option.some_inj.mp hxi).symm

end Pair

namespace QueueBook

variable {N k : Nat} {m : QueueBook}

theorem abs_orders (m : QueueBook) (k : Nat) :
    (m.abs k).orders = (resting m.bids m.asks).map fun x ↦ (x.1, x.2.toOrder) := by
  rw [PriceTimeBook.orders, abs, lots_mapLots, lots_mapLots, resting, List.map_append]

theorem abs_placeLimit (hk : Counted k m) (hlt : k + 1 < 2 ^ 64) (side : Side) (price qty : Int) :
    (m.abs k).placeLimit side price qty
      = ((m.placeLimit side price qty []).1.abs (k + 1), (m.placeLimit side price qty []).2) := by
  have hid := hk.nextId_eq hlt
  cases side with
  | Buy =>
    have h := place_mapLots m.bids m.asks ⟨m.index, m.free, qty, []⟩ (k + 1) price m.nextTs rfl
    simp only [PriceTimeBook.placeLimit, abs, QueueBook.placeLimit, hid]
    dsimp only at h
    rw [h]
  | Sell =>
    have h := place_mapLots m.asks m.bids ⟨m.index, m.free, qty, []⟩ (k + 1) price m.nextTs rfl
    simp only [PriceTimeBook.placeLimit, abs, QueueBook.placeLimit, hid]
    dsimp only at h
    rw [h]

theorem abs_cancel (hk : Counted k m) (hv : Valid N m) (id : Nat) :
    (m.abs k).cancel id = ((m.cancel id).1.abs k, (m.cancel id).2) := by
  rw [PriceTimeBook.cancel, abs_orders, QueueBook.cancel]
  cases hid : m.index.find? id with
  | none =>
    rw [if_neg]
    simp only [List.any_map, List.any_eq_true, Function.comp_def, beq_iff_eq, not_exists, not_and]
    intro x hx he
    rw [← show x.2.id = id from he, hk.numbered.complete x hx] at hid
    exact absurd hid (by simp)
  | some n =>
    obtain ⟨x, hx, -, hxid⟩ := hv.consistent.sound id n hid
    rw [if_pos]
    · simp only [abs, remove, List.length_cons]
      rw [prune_id_eq hk.numbered hv.consistent hid fun x hx ↦ mem_resting.mpr (.inl hx),
        prune_id_eq hk.numbered hv.consistent hid fun x hx ↦ mem_resting.mpr (.inr hx)]
    · rw [List.any_map, List.any_eq_true]
      exact ⟨x, hx, beq_iff_eq.mpr hxid⟩

/-- **One call** on the abstract side. -/
theorem abs_perform (hk : Counted k m) (hv : Valid N m) (call : Call)
    (hlt : k + placements [call] < 2 ^ 64) :
    (m.abs k).perform call
      = ((m.perform call).1.abs (k + placements [call]), (m.perform call).2) := by
  cases call with
  | placeLimit side price qty =>
    rw [PriceTimeBook.perform, abs_placeLimit hk hlt]
    rfl
  | cancel id =>
    rw [PriceTimeBook.perform, abs_cancel hk hv]
    rfl

theorem abs_run (hk : Counted k m) (hv : Valid N m) (calls : List Call)
    (hlt : k + placements calls < 2 ^ 64) :
    (m.abs k).run calls = ((m.run calls).1.abs (k + placements calls), (m.run calls).2) := by
  induction calls generalizing m k with
  | nil => rfl
  | cons call calls ih =>
    rw [placements_cons, ← Nat.add_assoc] at hlt
    rw [PriceTimeBook.run, abs_perform hk hv call (by omega)]
    simp only [QueueBook.run]
    rw [ih (hk.perform hv call (by omega)) (hv.perform call) hlt, placements_cons call calls,
      Nat.add_assoc]

/-- After a run of less than `2 ^ 64` placements the abstract book is what the queues look like. -/
theorem abs_run_new (N : Nat) (calls : List Call) (hlt : placements calls < 2 ^ 64) :
    (PriceTimeBook.new N).run calls
      = (((new N).run calls).1.abs (placements calls), ((new N).run calls).2) := by
  have habs : (new N).abs 0 = PriceTimeBook.new N := by
    simp only [abs, new, PriceTimeBook.new, List.length_range]
    rfl
  have h := abs_run (counted_new N) (valid_new N) calls (by omega)
  rwa [habs, Nat.zero_add] at h

end QueueBook

/-! ## What can be seen of a book -/

section Observe

variable {N k : Nat} {b : OrderBook} {m : QueueBook}

theorem Represents.bestBid_eq (h : Represents N b m) : b.bestBid = (m.abs k).bestBid := by
  rw [h.eq_withPool, OrderBook.bestBid, PriceTimeBook.bestBid]
  simp only [QueueBook.withPool, QueueBook.abs, mapLots, SortedMap.begin?_map]
  cases m.bids.begin? <;> rfl

theorem Represents.bestAsk_eq (h : Represents N b m) : b.bestAsk = (m.abs k).bestAsk := by
  rw [h.eq_withPool, OrderBook.bestAsk, PriceTimeBook.bestAsk]
  simp only [QueueBook.withPool, QueueBook.abs, mapLots, SortedMap.begin?_map]
  cases m.asks.begin? <;> rfl

theorem Represents.size_eq (h : Represents N b m) (hv : m.Valid N) (hk : m.Counted k) :
    b.size = (m.abs k).size := by
  rw [OrderBook.size, h.index_eq, PriceTimeBook.size, QueueBook.abs_orders, List.length_map]
  exact hk.numbered.size_index hv.consistent

theorem Represents.ordersAt_eq (h : Represents N b m) (hv : m.Valid N) (side : Side)
    (price : Int) :
    b.ordersAt side price
      = some (((m.abs k).ordersAt side price).map fun o ↦ (o.id, o.qty)) := by
  rw [h.ordersAt hv]
  cases side
  all_goals
    simp [PriceTimeBook.ordersAt, QueueBook.queueAt, QueueBook.abs, queue_mapLots,
      Function.comp_def, Resting.toOrder]

end Observe

/-- The code's book and the abstract one look alike. -/
structure Agree (b : OrderBook) (a : PriceTimeBook) : Prop where
  bestBid : b.bestBid = a.bestBid
  bestAsk : b.bestAsk = a.bestAsk
  size : b.size = a.size
  ordersAt : ∀ side price,
    b.ordersAt side price = some ((a.ordersAt side price).map fun o ↦ (o.id, o.qty))

/-- **The order book is a price–time priority book.**  At every point of a run with less than
`2 ^ 64` placements, the code has given the replies the abstract book gives, and looks like it. -/
theorem run_simulates (N : Nat) (calls : List Call) (hlt : placements calls < 2 ^ 64) :
    ∀ done, done <+: calls → ∃ b,
      (OrderBook.new N).run done = some (b, ((PriceTimeBook.new N).run done).2) ∧
        Agree b ((PriceTimeBook.new N).run done).1 := by
  intro done hdone
  have hdlt : placements done < 2 ^ 64 := hdone.sublist.countP_le.trans_lt hlt
  obtain ⟨b, he, h, hv⟩ := run_new N done
  have hk := QueueBook.counted_run_new N done hdlt
  rw [QueueBook.abs_run_new N done hdlt]
  exact ⟨b, he, h.bestBid_eq, h.bestAsk_eq, h.size_eq hv hk, h.ordersAt_eq hv⟩

/-- A buy of seven meets two sells of five and three; what the second has left is cancelled. -/
theorem run_simulates_example :
    placements [.placeLimit .Sell 100 5, .placeLimit .Sell 101 3, .placeLimit .Buy 101 7, .cancel 2]
        < 2 ^ 64 ∧
      ∃ b, (OrderBook.new 4).run
          [.placeLimit .Sell 100 5, .placeLimit .Sell 101 3, .placeLimit .Buy 101 7, .cancel 2]
        = some (b, [.placed 1 [], .placed 2 [], .placed 3 [⟨3, 1, 100, 5⟩, ⟨3, 2, 101, 2⟩],
          .cancelled true]) ∧ b.size = 0 := by
  refine ⟨by decide, ?_⟩
  obtain ⟨b, he, h⟩ := run_simulates 4
    [.placeLimit .Sell 100 5, .placeLimit .Sell 101 3, .placeLimit .Buy 101 7, .cancel 2]
    (by decide) _ List.prefix_rfl
  exact ⟨b, he, h.size⟩

end MatchingEngine
