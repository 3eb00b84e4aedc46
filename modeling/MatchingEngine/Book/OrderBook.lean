import Mathlib.Algebra.Order.Ring.Int
import Mathlib.Order.Nat
import MatchingEngine.Book.Pool
import MatchingEngine.Util.SortedMap

/-!
# The order book, as the code has it

A transcription of `order_book.h` and `order_book.cpp`.  The two sides are `std::map`s from price
to `Level`, `bids_` sorted by `std::greater` and `asks_` by `std::less`; a level is the head and
tail of an intrusive doubly linked list of `OrderNode`s; the nodes live in an `ObjectPool`, and
`index_` maps the id of a resting order to its node.

Every operation returns an `Option`.  `none` is what the source leaves undefined — a read through a
pointer that does not point at a live node — and also a loop that has not ended within its fuel.
The fuel is generous: an inner iteration either exhausts the taker or releases a node, and an
outer one either exhausts the taker or erases a level.  `Book.Refinement` proves that neither
kind of `none` can come up.

`Price` and `Quantity` are only compared, and subtracted from one another, so they are integers of
unbounded range, except in `qty_at`, which adds quantities up; `OrderId` and `Timestamp` are natural
numbers, and the two counters that hand them out wrap at `2 ^ 64`.
-/

set_option autoImplicit false

namespace MatchingEngine

inductive Side where
  | Buy
  | Sell
  deriving DecidableEq, Repr

/-- The other side of the book. -/
def Side.opposite : Side → Side
  | .Buy => .Sell
  | .Sell => .Buy

/-- A node of the intrusive list of a price level. -/
structure OrderNode where
  id : Nat
  side : Side
  price : Int
  qty : Int
  ts : Nat
  prev : Option Ptr
  next : Option Ptr
  deriving DecidableEq

structure Trade where
  takerId : Nat
  makerId : Nat
  price : Int
  qty : Int
  deriving DecidableEq, Repr

/-- A price level: a FIFO queue of nodes, oldest at the head. -/
structure Level where
  head : Option Ptr
  tail : Option Ptr
  deriving DecidableEq

def Level.empty (lvl : Level) : Bool := lvl.head.isNone

/-! ## The two sides -/

/-- The comparators the two maps are instantiated with. -/
inductive KeyCompare where
  | less
  | greater
  deriving DecidableEq

/-- `a` comes before `b` in a map with this comparator. -/
def KeyCompare.before : KeyCompare → Int → Int → Prop
  | .less, a, b => a < b
  | .greater, a, b => a > b

instance (c : KeyCompare) : DecidableRel c.before := fun a b ↦
  match c with
  | .less => inferInstanceAs (Decidable (a < b))
  | .greater => inferInstanceAs (Decidable (a > b))

instance (c : KeyCompare) : IsStrictTotalOrder Int c.before where
  irrefl a := by cases c <;> simp [KeyCompare.before]
  trans a b d := by cases c <;> simp only [KeyCompare.before] <;> omega
  trichotomous a b := by cases c <;> simp only [KeyCompare.before] <;> omega

/-- `std::map<Price, Level, Compare>`. -/
abbrev BookSide (c : KeyCompare) := SortedMap Int Level c.before

/-- `index_`.  Only the destructor iterates over the source's hash map (see `Book.Lifetime`), and it
gives back all slots in whatever order; so any order of the entries will do. -/
abbrev Index := SortedMap Nat Ptr (· < ·)

/-- Does a level at `levelPx` cross a taker's limit?  For a buy taker the opposite side is sorted by
`std::less` and a level crosses when it asks no more than the limit; for a sell taker it is the
other way round. -/
def KeyCompare.cross : KeyCompare → Int → Int → Bool
  | .less, levelPx, limit => levelPx ≤ limit
  | .greater, levelPx, limit => levelPx ≥ limit

structure OrderBook where
  bids : BookSide .greater
  asks : BookSide .less
  index : Index
  pool : ObjectPool OrderNode
  nextId : Nat
  nextTs : Nat

namespace OrderBook

/-- The constructor. -/
def new (poolCapacity : Nat) : OrderBook :=
  { bids := .empty, asks := .empty, index := .empty, pool := .new poolCapacity, nextId := 1,
    nextTs := 1 }

/-- `std::numeric_limits<Price>::max()`. -/
def priceMax : Int := 2 ^ 63 - 1

/-- The highest bid; `0` when there are none. -/
def bestBid (b : OrderBook) : Int :=
  match b.bids.begin? with
  | none => 0
  | some e => e.1

/-- The lowest ask; the largest price when there are none. -/
def bestAsk (b : OrderBook) : Int :=
  match b.asks.begin? with
  | none => priceMax
  | some e => e.1

/-- The number of resting orders. -/
def size (b : OrderBook) : Nat := b.index.size

/-- The level of a side at a price. -/
def levelAt (b : OrderBook) : Side → Int → Option Level
  | .Buy, price => b.bids.find? price
  | .Sell, price => b.asks.find? price

/-! ## Level helpers -/

/-- `if (p) p->next = v; else lvl.head = v;` -/
def setNext (pool : ObjectPool OrderNode) (lvl : Level) (p v : Option Ptr) :
    Option (ObjectPool OrderNode × Level) :=
  match p with
  | some p => do
    let pool ← pool.modify p fun x ↦ { x with next := v }
    return (pool, lvl)
  | none => some (pool, { lvl with head := v })

/-- `if (p) p->prev = v; else lvl.tail = v;` -/
def setPrev (pool : ObjectPool OrderNode) (lvl : Level) (p v : Option Ptr) :
    Option (ObjectPool OrderNode × Level) :=
  match p with
  | some p => do
    let pool ← pool.modify p fun x ↦ { x with prev := v }
    return (pool, lvl)
  | none => some (pool, { lvl with tail := v })

def levelPushBack (pool : ObjectPool OrderNode) (lvl : Level) (n : Ptr) :
    Option (ObjectPool OrderNode × Level) := do
  let pool ← pool.modify n fun x ↦ { x with prev := lvl.tail, next := none }
  let (pool, lvl) ← setNext pool lvl lvl.tail (some n)
  return (pool, { lvl with tail := some n })

def levelUnlink (pool : ObjectPool OrderNode) (lvl : Level) (n : Ptr) :
    Option (ObjectPool OrderNode × Level) := do
  let x ← pool.deref n
  let (pool, lvl) ← setNext pool lvl x.prev x.next
  let x ← pool.deref n
  let (pool, lvl) ← setPrev pool lvl x.next x.prev
  let pool ← pool.modify n fun x ↦ { x with prev := none, next := none }
  return (pool, lvl)

/-! ## Matching -/

/-- What `match_against` changes besides the opposite side. -/
structure Matching where
  pool : ObjectPool OrderNode
  index : Index
  /-- What the taker still wants. -/
  qty : Int
  trades : List Trade

/-- The inner loop of `match_against`: fill against the queue at one price. -/
def matchLevel (takerId : Nat) (levelPx : Int) :
    Nat → Level → Matching → Option (Level × Matching)
  | 0, _, _ => none
  | fuel + 1, lvl, s =>
    if 0 < s.qty ∧ lvl.empty = false then do
      let maker ← lvl.head
      let x ← s.pool.deref maker
      let fill := min s.qty x.qty
      let trades := s.trades ++ [{ takerId, makerId := x.id, price := levelPx, qty := fill }]
      let pool ← s.pool.modify maker fun y ↦ { y with qty := y.qty - fill }
      let x ← pool.deref maker
      if x.qty = 0 then
        let index := s.index.erase x.id
        let (pool, lvl) ← levelUnlink pool lvl maker
        let pool ← pool.release maker
        matchLevel takerId levelPx fuel lvl { pool, index, qty := s.qty - fill, trades }
      else
        matchLevel takerId levelPx fuel lvl { s with pool, qty := s.qty - fill, trades }
    else some (lvl, s)

/-- `match_against`: fill against the opposite side, best level first. -/
def matchAgainst {c : KeyCompare} (takerId : Nat) (limit : Int) :
    Nat → BookSide c → Matching → Option (BookSide c × Matching)
  | 0, _, _ => none
  | fuel + 1, opp, s =>
    if 0 < s.qty ∧ opp.isEmpty = false then do
      let (levelPx, lvl) ← opp.begin?
      if c.cross levelPx limit then
        let (lvl, s) ← matchLevel takerId levelPx (s.pool.capacity + 1) lvl s
        -- `lvl` is a reference into the map, so the level changes in place
        let opp := if lvl.empty then opp.erase levelPx else opp.insert levelPx lvl
        matchAgainst takerId limit fuel opp s
      else some (opp, s)
    else some (opp, s)

/-- What `place_limit` does with a remainder after matching: rest it on the taker's own side,
unless the pool is exhausted. -/
def restRemainder {c : KeyCompare} (own : BookSide c) (s : Matching) (id : Nat) (side : Side)
    (price : Int) (nextTs : Nat) : Option (BookSide c × Matching × Nat) :=
  if 0 < s.qty then do
    let (n?, pool) ← s.pool.acquire
    match n? with
    | none => return (own, { s with pool }, nextTs)
    | some n =>
      let pool ← pool.construct n
        { id, side, price, qty := s.qty, ts := nextTs, prev := none, next := none }
      -- `operator[]` makes an empty level when there is none at this price
      let lvl := (own.find? price).getD { head := none, tail := none }
      let (pool, lvl) ← levelPushBack pool lvl n
      return (own.insert price lvl, { s with pool, index := s.index.insert id n },
        (nextTs + 1) % 2 ^ 64)
  else return (own, s, nextTs)

/-- `place_limit`: match, then rest.  The new trades are appended to `trades`. -/
def placeLimit (b : OrderBook) (side : Side) (price : Int) (qty : Int)
    (trades : List Trade) : Option (OrderBook × Nat × List Trade) := do
  let id := b.nextId
  let nextId := (b.nextId + 1) % 2 ^ 64
  let s : Matching := { pool := b.pool, index := b.index, qty, trades }
  match side with
  | .Buy =>
    let (asks, s) ← matchAgainst id price (b.asks.size + 1) b.asks s
    let (bids, s, nextTs) ← restRemainder b.bids s id side price b.nextTs
    return ({ bids, asks, index := s.index, pool := s.pool, nextId, nextTs }, id, s.trades)
  | .Sell =>
    let (bids, s) ← matchAgainst id price (b.bids.size + 1) b.bids s
    let (asks, s, nextTs) ← restRemainder b.asks s id side price b.nextTs
    return ({ bids, asks, index := s.index, pool := s.pool, nextId, nextTs }, id, s.trades)

/-! ## Cancelling -/

/-- Unlink a node from its level, and erase the level if that empties it.  `none` inside the
result is the early return for a price that is not in the map. -/
def unlinkFrom {c : KeyCompare} (own : BookSide c) (pool : ObjectPool OrderNode) (px : Int)
    (n : Ptr) : Option (Option (BookSide c × ObjectPool OrderNode)) :=
  match own.find? px with
  | none => some none
  | some lvl => do
    let (pool, lvl) ← levelUnlink pool lvl n
    return some (if lvl.empty then own.erase px else own.insert px lvl, pool)

def cancel (b : OrderBook) (id : Nat) : Option (OrderBook × Bool) :=
  match b.index.find? id with
  | none => some (b, false)
  | some n => do
    let x ← b.pool.deref n
    match x.side with
    | .Buy =>
      match ← unlinkFrom b.bids b.pool x.price n with
      | none => return (b, false)
      | some (bids, pool) =>
        let pool ← pool.release n
        return ({ b with bids, pool, index := b.index.erase id }, true)
    | .Sell =>
      match ← unlinkFrom b.asks b.pool x.price n with
      | none => return (b, false)
      | some (asks, pool) =>
        let pool ← pool.release n
        return ({ b with asks, pool, index := b.index.erase id }, true)

/-! ## Reading the book -/

/-- The nodes met when following `next` from the head of a level. -/
def nodesFromHead (b : OrderBook) (lvl : Level) : Option (List Ptr) :=
  LinkedList.walk (fun p ↦ (b.pool.deref p).map OrderNode.next) b.pool.capacity lvl.head

/-- The nodes met when following `prev` from the tail of a level. -/
def nodesFromTail (b : OrderBook) (lvl : Level) : Option (List Ptr) :=
  LinkedList.walk (fun p ↦ (b.pool.deref p).map OrderNode.prev) b.pool.capacity lvl.tail

/-- The slots met when following the free-list. -/
def freeSlots (b : OrderBook) : Option (List Ptr) :=
  LinkedList.walk b.pool.nextFree b.pool.capacity b.pool.freeHead

/-- The orders resting on a side at a price, oldest first. -/
def ordersAt (b : OrderBook) (side : Side) (price : Int) : Option (List (Nat × Int)) :=
  match b.levelAt side price with
  | none => some []
  | some lvl => do
    let ps ← b.nodesFromHead lvl
    ps.mapM fun p ↦ (b.pool.deref p).map fun x ↦ (x.id, x.qty)

/-- `qty_at`: the quantity resting on a side at a price.  The loop adds up in 64 bits. -/
def qtyAt (b : OrderBook) (side : Side) (price : Int) : Option Int :=
  match b.levelAt side price with
  | none => some 0
  | some lvl => do
    let ps ← b.nodesFromHead lvl
    ps.foldlM (fun q p ↦ (b.pool.deref p).map fun x ↦ (q + x.qty).bmod (2 ^ 64)) 0

end OrderBook

/-! ## Runs -/

/-- A call on the book. -/
inductive Call where
  | placeLimit (side : Side) (price : Int) (qty : Int)
  | cancel (id : Nat)

/-- What a call returns: the id and the trades of a placement, the answer of a cancel. -/
inductive Reply where
  | placed (id : Nat) (trades : List Trade)
  | cancelled (ok : Bool)
  deriving DecidableEq

namespace OrderBook

/-- Perform one call, with an empty trade vector. -/
def perform (b : OrderBook) : Call → Option (OrderBook × Reply)
  | .placeLimit side price qty => do
    let (b, id, trades) ← b.placeLimit side price qty []
    return (b, .placed id trades)
  | .cancel id => do
    let (b, ok) ← b.cancel id
    return (b, .cancelled ok)

/-- Perform a sequence of calls and collect the replies. -/
def run : OrderBook → List Call → Option (OrderBook × List Reply)
  | b, [] => some (b, [])
  | b, call :: calls => do
    let (b, reply) ← b.perform call
    let (b, replies) ← run b calls
    return (b, reply :: replies)

end OrderBook

/-- How many placements a sequence of calls makes. -/
def placements (calls : List Call) : Nat :=
  calls.countP fun call ↦ match call with
    | .placeLimit .. => true
    | .cancel _ => false

end MatchingEngine
