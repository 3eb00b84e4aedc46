import MatchingEngine.Book.OrderBook
import MatchingEngine.Util.LevelQueue

/-!
# The order book with its pointers resolved

`QueueBook` is the state of an `OrderBook` in which every pointer structure has been replaced by
the list it spells out: a level is the list of its resting orders, oldest first, and the free-list
is the list of free slots.  What it keeps of the representation is the *slot* each order occupies,
because `index_` maps ids to slots and the order of the free-list decides which slot is handed out
next.

The operations are those of the code on that state, and they are total: matching is
`Greedy.sweep`, resting is `LevelQueue.pushBack` and cancelling is `LevelQueue.prune`.  Nothing
is assumed about ids here: they may have wrapped, and two resting orders may share one.
-/

set_option autoImplicit false

namespace MatchingEngine

open Greedy LevelQueue

/-- A resting order, and the slot its node occupies. -/
structure Resting where
  slot : Ptr
  id : Nat
  qty : Int
  ts : Nat
  deriving DecidableEq

instance : Lot Resting where
  size r := r.qty
  resize r q := { r with qty := q }
  size_resize _ _ := rfl

@[simp] theorem Resting.size_eq (r : Resting) : size r = r.qty := rfl

/-- One side of the book: a queue of resting orders at each price. -/
abbrev Queues (c : KeyCompare) := SortedMap Int (List Resting) c.before

/-- The slots the orders of a side occupy. -/
def slots {c : KeyCompare} (m : Queues c) : List Ptr := (lots m).map fun x ↦ x.2.slot

structure QueueBook where
  bids : Queues .greater
  asks : Queues .less
  index : Index
  free : List Ptr
  nextId : Nat
  nextTs : Nat

namespace QueueBook

def new (poolCapacity : Nat) : QueueBook :=
  { bids := .empty, asks := .empty, index := .empty, free := List.range poolCapacity, nextId := 1,
    nextTs := 1 }

/-- What matching changes besides the opposite side. -/
structure Settling where
  index : Index
  free : List Ptr
  qty : Int
  trades : List Trade

/-- The trades a list of fills stands for. -/
def tradesOf (takerId : Nat) (fills : List (Fill (Int × Resting))) : List Trade :=
  fills.map fun f ↦ ⟨takerId, f.lot.2.id, f.lot.1, f.amount⟩

/-- Forget the ids of the orders that were filled completely. -/
def forget (index : Index) (gone : List Resting) : Index :=
  gone.foldl (fun index r ↦ index.erase r.id) index

/-- The orders that were filled completely leave the index and give their slots back, the first to
be filled first. -/
def settle (takerId : Nat) (w : Swept Int Resting) (s : Settling) : Settling :=
  { index := forget s.index ((consumed w.fills).map Prod.snd)
    free := ((consumed w.fills).map fun x ↦ x.2.slot).reverse ++ s.free
    qty := w.left
    trades := s.trades ++ tradesOf takerId w.fills }

/-- Match a taker against the opposite side. -/
def matchQueues {c : KeyCompare} (takerId : Nat) (limit : Int) (opp : Queues c) (s : Settling) :
    Queues c × Settling :=
  (afterSweep (c.cross · limit) s.qty opp, settle takerId (swept (c.cross · limit) s.qty opp) s)

/-- Rest a remainder, if a slot is free. -/
def restQueue {c : KeyCompare} (own : Queues c) (s : Settling) (id : Nat) (price : Int)
    (nextTs : Nat) : Queues c × Settling × Nat :=
  if 0 < s.qty then
    match s.free with
    | [] => (own, s, nextTs)
    | p :: free =>
      (pushBack own price ⟨p, id, s.qty, nextTs⟩, { s with free, index := s.index.insert id p },
        (nextTs + 1) % 2 ^ 64)
  else (own, s, nextTs)

/-- Match a taker and rest what remains: the taker's own side, the opposite side, and the rest of
the state. -/
def placeOn {c c' : KeyCompare} (own : Queues c) (opp : Queues c') (s : Settling) (id : Nat)
    (price : Int) (nextTs : Nat) : Queues c × Queues c' × Settling × Nat :=
  let (opp, s) := matchQueues id price opp s
  let (own, s, nextTs) := restQueue own s id price nextTs
  (own, opp, s, nextTs)

def placeLimit (m : QueueBook) (side : Side) (price : Int) (qty : Int) (trades : List Trade) :
    QueueBook × Nat × List Trade :=
  let id := m.nextId
  let nextId := (m.nextId + 1) % 2 ^ 64
  let s : Settling := { index := m.index, free := m.free, qty, trades }
  match side with
  | .Buy =>
    let (bids, asks, s, nextTs) := placeOn m.bids m.asks s id price m.nextTs
    ({ bids, asks, index := s.index, free := s.free, nextId, nextTs }, id, s.trades)
  | .Sell =>
    let (asks, bids, s, nextTs) := placeOn m.asks m.bids s id price m.nextTs
    ({ bids, asks, index := s.index, free := s.free, nextId, nextTs }, id, s.trades)

/-- Remove the order in slot `n`, which `index_` has for the id. -/
def remove (m : QueueBook) (id : Nat) (n : Ptr) : QueueBook :=
  { m with
    bids := prune (fun r ↦ r.slot != n) m.bids
    asks := prune (fun r ↦ r.slot != n) m.asks
    index := m.index.erase id
    free := n :: m.free }

def cancel (m : QueueBook) (id : Nat) : QueueBook × Bool :=
  match m.index.find? id with
  | none => (m, false)
  | some n => (m.remove id n, true)

def perform (m : QueueBook) : Call → QueueBook × Reply
  | .placeLimit side price qty =>
    let (m, id, trades) := m.placeLimit side price qty []
    (m, .placed id trades)
  | .cancel id =>
    let (m, ok) := m.cancel id
    (m, .cancelled ok)

def run : QueueBook → List Call → QueueBook × List Reply
  | m, [] => (m, [])
  | m, call :: calls =>
    let (m, reply) := m.perform call
    let (m, replies) := run m calls
    (m, reply :: replies)

end QueueBook

end MatchingEngine
