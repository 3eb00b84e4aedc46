import Mathlib.Data.List.Sort
import MatchingEngine.Book.Engine
import MatchingEngine.Book.Invariants

/-!
# One placement, order by order

`run_simulates` compares whole runs of the code with a book that is built like it: levels, best one
first.  Here a single `place_limit` is compared with a definition that knows nothing of levels.  The
orders a taker may trade with are collected from the opposite side, *sorted* by price and then by
id, and served one after the other (`allocate`); what that leaves of each of them is what the
opposite side holds afterwards (`placeLimit_priceTime`).

The sort is where the id counter comes in.  At one price the code serves the order that came first,
and that is the order with the smallest id only until the counter has come round:
`exists_placeLimit_not_by_id` has a level where it is not.

What is not served rests, with one exception, and `remainder_lost_iff` says which.
-/

set_option autoImplicit false

namespace MatchingEngine

open Greedy LevelQueue

/-! ## Serving by price and id -/

/-- A resting order and its price. -/
structure Quote where
  price : Int
  id : Nat
  qty : Int
  deriving DecidableEq

namespace OrderBook

/-- The prices at which a side has a level. -/
def prices (b : OrderBook) : Side → List Int
  | .Buy => b.bids.keys
  | .Sell => b.asks.keys

/-- The resting orders of a side, level by level. -/
def quotes (b : OrderBook) (side : Side) : Option (List Quote) := do
  let qss ← (b.prices side).mapM fun price ↦
    (b.ordersAt side price).map (List.map fun o ↦ ⟨price, o.1, o.2⟩)
  return qss.flatten

end OrderBook

/-- Is the first price of a resting order on this side more attractive than the second? -/
def Side.better : Side → Int → Int → Bool
  | .Buy, price, price' => price' < price
  | .Sell, price, price' => price < price'

/-- Does an order of this side have priority, by price and then by id? -/
def Quote.ahead (side : Side) (q q' : Quote) : Bool :=
  side.better q.price q'.price || q.price == q'.price && q.id ≤ q'.id

/-- The orders a taker may trade with, sorted by priority. -/
def OrderBook.makersFor (b : OrderBook) (side : Side) (price : Int) : Option (List Quote) := do
  let qs ← b.quotes side.opposite
  return (qs.filter fun q ↦ side.crosses q.price price).insertionSort
    fun q q' ↦ Quote.ahead side.opposite q q' = true

/-- Hand out a quantity over a list of orders: each in turn gets what it has or what is still
wanted, whichever is less. -/
def allocate : Int → List Quote → List (Quote × Int)
  | _, [] => []
  | want, q :: qs =>
    if 0 < want then (q, min want q.qty) :: allocate (want - min want q.qty) qs else []

/-- An order with its share of an allocation deducted; `none` when nothing is left of it. -/
def Quote.reduce (fills : List (Quote × Int)) (q : Quote) : Option Quote :=
  let left := q.qty - ((fills.filter fun f ↦ f.1.id = q.id).map Prod.snd).sum
  if left = 0 then none else some { q with qty := left }

/-- What a placement that is served by an allocation does. -/
structure ServedBy (b b' : OrderBook) (side : Side) (price qty : Int) (id : Nat)
    (trades : List Trade) (fills : List (Quote × Int)) : Prop where
  /-- Each maker trades its share at its own price. -/
  trades_eq : trades = fills.map fun f ↦ ⟨id, f.1.id, f.1.price, f.2⟩
  /-- The opposite side is the old one with the shares deducted. -/
  opposite : ∀ qs, b.quotes side.opposite = some qs →
    b'.quotes side.opposite = some (qs.filterMap (Quote.reduce fills))
  /-- No level is empty. -/
  levels : ∀ p, b'.levelAt side.opposite p = none ↔ b'.ordersAt side.opposite p = some []
  /-- A maker that has something left is first at its price. -/
  front : ∀ f ∈ fills, f.2 < f.1.qty →
    ∃ behind, b'.ordersAt side.opposite f.1.price = some ((f.1.id, f.1.qty - f.2) :: behind)
  /-- A remainder goes to the back of the taker's own level, if a slot was free or a maker has
  given up its own. -/
  own : ∀ p orders, b.ordersAt side p = some orders →
    b'.ordersAt side p = some (
      if p = price ∧ 0 < qty - (fills.map Prod.snd).sum ∧
          (b.full = false ∨ ∃ f ∈ fills, f.2 = f.1.qty) then
        orders ++ [(id, qty - (fills.map Prod.snd).sum)]
      else orders)

/-! ## From queues to quotes -/

/-- The orders of a side in the order of priority, with their prices. -/
def QueueBook.lotsOn (m : QueueBook) : Side → List (Int × Resting)
  | .Buy => lots m.bids
  | .Sell => lots m.asks

def quoteOf (x : Int × Resting) : Quote := ⟨x.1, x.2.id, x.2.qty⟩

section Read

variable {N k : Nat} {b : OrderBook} {m : QueueBook}

theorem QueueBook.queueAt_eq (m : QueueBook) (side : Side) (price : Int) :
    m.queueAt side price = ((m.lotsOn side).filter fun x ↦ x.1 = price).map Prod.snd := by
  cases side with
  | Buy => exact queue_eq_filter price
  | Sell => exact queue_eq_filter price

theorem Represents.quotes (h : Represents N b m) (hv : m.Valid N) (side : Side) :
    b.quotes side = some ((m.lotsOn side).map quoteOf) := by
  have key : ∀ {c : KeyCompare} (own : Queues c),
      (∀ price, b.ordersAt side price = some ((queue own price).map fun r ↦ (r.id, r.qty))) →
      ((own.map levelOf).keys.mapM fun price ↦ (b.ordersAt side price).map
          (List.map fun o ↦ (⟨price, o.1, o.2⟩ : Quote)))
        = some (own.entries.map fun e ↦ e.2.map fun r ↦ quoteOf (e.1, r)) := by
    intro c own horders
    have hkeys : (own.map levelOf).keys = own.entries.map Prod.fst := by
      simp [SortedMap.keys, Function.comp_def]
    rw [hkeys]
    refine mapM_map_eq_some fun e he ↦ ?_
    rw [horders, queue_eq_of_mem he]
    simp [quoteOf, Function.comp_def]
  have hflat : ∀ {c : KeyCompare} (own : Queues c),
      (own.entries.map fun e ↦ e.2.map fun r ↦ quoteOf (e.1, r)).flatten
        = (lots own).map quoteOf := by
    intro c own
    simp [lots, flat, List.flatMap_def, List.map_flatten, Function.comp_def]
  have horders := h.ordersAt hv side
  rw [OrderBook.quotes]
  cases side with
  | Buy =>
    rw [OrderBook.prices, h.bids_eq, key m.bids horders]
    exact congrArg some (hflat m.bids)
  | Sell =>
    rw [OrderBook.prices, h.asks_eq, key m.asks horders]
    exact congrArg some (hflat m.asks)

/-- There is no level at a price where nothing rests. -/
theorem Represents.levelAt_eq_none_iff (h : Represents N b m) (hv : m.Valid N) (side : Side)
    (price : Int) : b.levelAt side price = none ↔ b.ordersAt side price = some [] := by
  rw [h.ordersAt hv, Option.some_inj, List.map_eq_nil_iff]
  constructor
  · intro hl
    rcases h.levelAt_eq side price with ⟨-, hq⟩ | hl'
    · exact hq
    · simp [hl] at hl'
  · intro hq
    refine Option.eq_none_iff_forall_ne_some.mpr fun lvl hl ↦ ?_
    exact (h.levelAt_some hv hl).2 hq

end Read

/-- Allocating is what serving a queue gives out. -/
theorem allocate_eq_take (qty : Int) (l : List (Int × Resting)) :
    allocate qty (l.map quoteOf) = (take qty l).fills.map fun f ↦ (quoteOf f.lot, f.amount) := by
  induction l generalizing qty with
  | nil => rfl
  | cons x l ih =>
    rw [List.map_cons, allocate, take]
    split
    · rename_i hq
      have hsize : size x = (quoteOf x).qty := rfl
      split
      · rw [List.map_cons, ← hsize, ih]
      · -- a maker that is not used up has given all that was wanted
        rename_i hs
        have hdone : qty - min qty (size x) ≤ 0 := by omega
        rw [← hsize, ih, take_of_nonpos hdone]
        rfl
    · rfl

theorem quoteOf_leftOf (fs : List (Fill (Int × Resting))) (x : Int × Resting) :
    (leftOf (·.2.id) fs x).map quoteOf
      = Quote.reduce (fs.map fun f ↦ (quoteOf f.lot, f.amount)) (quoteOf x) := by
  have hsum : (((fs.map fun f ↦ (quoteOf f.lot, f.amount)).filter
      fun f ↦ f.1.id = (quoteOf x).id).map Prod.snd).sum = givenBy (·.2.id) fs x := by
    rw [List.filter_map, List.map_map]
    rfl
  rw [Quote.reduce, hsum, leftOf]
  have hsize : size x = (quoteOf x).qty := rfl
  simp only [← hsize]
  split <;> rfl

section Pair

variable {c c' : KeyCompare} {N k : Nat} {own : Queues c} {opp : Queues c'} {free : List Ptr}
  {index : Index} {t : QueueBook.Settling}

/-- The orders that give are the first of those that cross. -/
theorem fills_swept (opp : Queues c') (qty price : Int) :
    (swept (c'.cross · price) qty opp).fills
      = (take qty ((lots opp).filter fun x ↦ c'.cross x.1 price)).fills := by
  have hfilter := flat_takeWhile_eq_filter (c'.cross · price) opp
    fun _ _ hlt hc ↦ KeyCompare.cross_of_before hlt hc
  rw [swept, (sweep_eq_take (c'.cross · price) qty opp.entries).1, hfilter]

/-- While ids are unique, a side is listed by price and then by id. -/
theorem Numbered.pairwise_lots (hn : Numbered k own opp index) :
    (lots opp).Pairwise fun x y ↦ c'.before x.1 y.1 ∨ x.1 = y.1 ∧ x.2.id < y.2.id := by
  refine (LevelQueue.pairwise_lots opp).imp₂ (fun x y hxy hid ↦ ?_) hn.ascOpp
  rcases hxy with he | hlt
  · exact .inr ⟨he, hid he⟩
  · exact .inl hlt

theorem Numbered.nodup_lots (hn : Numbered k own opp index) (h : Consistent N own opp free index) :
    ((lots opp).map (·.2.id)).Nodup := by
  have hnd := hn.nodup_ids h
  rw [resting, List.map_append] at hnd
  exact hnd.of_append_right

/-- **What a placement leaves of the opposite side.** -/
theorem lots_matchQueues (h : Consistent N own opp t.free t.index)
    (hn : Numbered k own opp t.index) (id : Nat) (price : Int) :
    ((lots (QueueBook.matchQueues id price opp t).1).map quoteOf)
      = ((lots opp).map quoteOf).filterMap
        (Quote.reduce (allocate t.qty (((lots opp).filter fun x ↦ c'.cross x.1 price).map
          quoteOf))) := by
  have hpos : ∀ x ∈ lots opp, 1 ≤ size x := fun x hx ↦ h.pos x (mem_resting.mpr (.inr hx))
  have hlots := lots_afterSweep_eq_filterMap (c'.cross · price) t.qty
    (fun _ ↦ rfl) (hn.nodup_lots h) hpos
  rw [QueueBook.matchQueues, hlots, allocate_eq_take, ← fills_swept, List.map_filterMap,
    List.filterMap_map]
  exact List.filterMap_congr fun x _ ↦ quoteOf_leftOf _ x

/-- A slot is free after matching if one was before, or if an order has been used up. -/
theorem free_matchQueues (id : Nat) (price : Int) (opp : Queues c') (t : QueueBook.Settling) :
    (QueueBook.matchQueues id price opp t).2.free ≠ [] ↔
      t.free ≠ [] ∨ ∃ f ∈ (swept (c'.cross · price) t.qty opp).fills, f.amount = size f.lot := by
  have hconsumed : consumed (swept (c'.cross · price) t.qty opp).fills ≠ [] ↔
      ∃ f ∈ (swept (c'.cross · price) t.qty opp).fills, f.amount = size f.lot := by
    rw [Ne, consumed, List.filterMap_eq_nil_iff]
    push Not
    refine exists_congr fun f ↦ and_congr_right fun _ ↦ ?_
    simp
  rw [← hconsumed]
  simp only [QueueBook.matchQueues, QueueBook.settle, ne_eq, List.append_eq_nil_iff,
    List.reverse_eq_nil_iff, List.map_eq_nil_iff]
  tauto

/-- **What a placement does to the taker's own side.** -/
theorem queue_placeOn (own : Queues c) (opp : Queues c') (t : QueueBook.Settling) (id : Nat)
    (price : Int) (ts : Nat) (p : Int) :
    (queue (QueueBook.placeOn own opp t id price ts).1 p).map (fun r ↦ (r.id, r.qty))
      = if p = price ∧ 0 < (QueueBook.matchQueues id price opp t).2.qty ∧
          (QueueBook.matchQueues id price opp t).2.free ≠ [] then
        (queue own p).map (fun r ↦ (r.id, r.qty))
          ++ [(id, (QueueBook.matchQueues id price opp t).2.qty)]
      else (queue own p).map fun r ↦ (r.id, r.qty) := by
  simp only [QueueBook.placeOn]
  rcases restQueue_cases own (QueueBook.matchQueues id price opp t).2 id price ts with
    ⟨hstop, he⟩ | ⟨n, free, hq, hf, he⟩
  · rw [he, if_neg fun hc ↦ hstop hc.2]
  · rw [he, queue_pushBack]
    by_cases hp : p = price
    · subst hp
      simp [hq, hf]
    · simp [hp]

/-- What matching does not serve. -/
theorem sub_given (opp : Queues c') (t : QueueBook.Settling) (id : Nat) (price : Int) :
    t.qty - given (swept (c'.cross · price) t.qty opp).fills
      = (QueueBook.matchQueues id price opp t).2.qty := by
  have hgiven := given_swept_add_left (c'.cross · price) t.qty opp
  simp only [QueueBook.matchQueues, QueueBook.settle]
  omega

theorem sub_sum_allocate (opp : Queues c') (t : QueueBook.Settling) (id : Nat) (price : Int) :
    t.qty - ((allocate t.qty (((lots opp).filter fun x ↦ c'.cross x.1 price).map quoteOf)).map
        Prod.snd).sum = (QueueBook.matchQueues id price opp t).2.qty := by
  rw [allocate_eq_take, ← fills_swept, List.map_map]
  exact sub_given opp t id price

/-- A taker that wants nothing leaves both sides alone. -/
theorem placeOn_of_nonpos (own : Queues c) (opp : Queues c') (hq : t.qty ≤ 0) (id : Nat)
    (price : Int) (ts : Nat) :
    (QueueBook.placeOn own opp t id price ts).1 = own ∧
      (QueueBook.placeOn own opp t id price ts).2.1 = opp ∧
      (QueueBook.placeOn own opp t id price ts).2.2.1.trades = t.trades := by
  have hswept : swept (c'.cross · price) t.qty opp = ⟨[], opp.entries, t.qty⟩ :=
    sweep_of_nonpos hq _
  refine ⟨?_, SortedMap.ext (congrArg Swept.rest hswept), ?_⟩
  · simp only [QueueBook.placeOn]
    rcases restQueue_cases own (QueueBook.matchQueues id price opp t).2 id price ts with
      ⟨-, he⟩ | ⟨p, free, hpos, -, -⟩
    · rw [he]
    · simp only [QueueBook.matchQueues, QueueBook.settle, hswept] at hpos
      omega
  · rw [trades_placeOn, hswept]
    exact List.append_nil _

/-- What a placement that is served by an allocation does to the queues. -/
structure QueuesServedBy (own own' : Int → List Resting) (opp opp' : List (Int × Resting))
    (full : Bool) (price qty : Int) (id : Nat) (trades : List Trade)
    (fills : List (Quote × Int)) : Prop where
  trades_eq : trades = fills.map fun f ↦ ⟨id, f.1.id, f.1.price, f.2⟩
  opposite : opp'.map quoteOf = (opp.map quoteOf).filterMap (Quote.reduce fills)
  front : ∀ f ∈ fills, f.2 < f.1.qty →
    ∃ behind, opp'.map quoteOf = ⟨f.1.price, f.1.id, f.1.qty - f.2⟩ :: behind
  own : ∀ p, (own' p).map (fun r ↦ (r.id, r.qty)) =
    if p = price ∧ 0 < qty - (fills.map Prod.snd).sum ∧
        (full = false ∨ ∃ f ∈ fills, f.2 = f.1.qty) then
      (own p).map (fun r ↦ (r.id, r.qty)) ++ [(id, qty - (fills.map Prod.snd).sum)]
    else (own p).map fun r ↦ (r.id, r.qty)

theorem placeOn_servedBy (h : Consistent N own opp t.free t.index)
    (hn : Numbered k own opp t.index) (htrades : t.trades = []) (id : Nat) (price : Int)
    (ts : Nat) :
    QueuesServedBy (queue own) (queue (QueueBook.placeOn own opp t id price ts).1) (lots opp)
      (lots (QueueBook.placeOn own opp t id price ts).2.1) t.free.isEmpty price t.qty id
      (QueueBook.placeOn own opp t id price ts).2.2.1.trades
      (allocate t.qty (((lots opp).filter fun x ↦ c'.cross x.1 price).map quoteOf)) where
  trades_eq := by
    rw [trades_placeOn, htrades, List.nil_append, allocate_eq_take, ← fills_swept, List.map_map]
    rfl
  opposite := lots_matchQueues h hn id price
  front f hf hlt := by
    rw [allocate_eq_take, ← fills_swept] at hf
    obtain ⟨x, hx, rfl⟩ := List.mem_map.mp hf
    obtain ⟨r, hr⟩ := lots_afterSweep_of_amount_lt hx hlt
    exact ⟨r.map quoteOf, congrArg (List.map quoteOf) hr⟩
  own p := by
    have hused : (∃ f ∈ allocate t.qty (((lots opp).filter fun x ↦ c'.cross x.1 price).map quoteOf),
        f.2 = f.1.qty) ↔ ∃ f ∈ (swept (c'.cross · price) t.qty opp).fills,
          f.amount = size f.lot := by
      rw [allocate_eq_take, ← fills_swept]
      simp only [List.mem_map, exists_exists_and_eq_and]
      rfl
    rw [queue_placeOn]
    simp only [free_matchQueues, hused, sub_sum_allocate opp t id price,
      List.isEmpty_eq_false_iff]

end Pair

/-! ## The two sides of the book -/

section Sides

variable {N k : Nat} {b b' : OrderBook} {m : QueueBook}

/-- The orders a taker may trade with, in the order the code keeps them. -/
def QueueBook.makersFor (m : QueueBook) (side : Side) (price : Int) : List (Int × Resting) :=
  (m.lotsOn side.opposite).filter fun x ↦ side.crosses x.1 price

/-- While ids are unique, there is nothing to sort. -/
theorem Represents.makersFor (h : Represents N b m) (hv : m.Valid N) (hk : m.Counted k)
    (side : Side) (price : Int) :
    b.makersFor side price = some ((m.makersFor side price).map quoteOf) := by
  have hsorted : ((m.lotsOn side.opposite).map quoteOf).Pairwise
      fun q q' ↦ Quote.ahead side.opposite q q' = true := by
    rw [List.pairwise_map]
    cases side with
    | Buy =>
      refine hk.numbered.pairwise_lots.imp fun {x y} hxy ↦ ?_
      simp only [Quote.ahead, Side.better, quoteOf, Side.opposite, Bool.or_eq_true,
        decide_eq_true_eq, Bool.and_eq_true, beq_iff_eq]
      exact hxy.imp id fun h ↦ ⟨h.1, decide_eq_true h.2.le⟩
    | Sell =>
      refine hk.numbered.symm.pairwise_lots.imp fun {x y} hxy ↦ ?_
      simp only [Quote.ahead, Side.better, quoteOf, Side.opposite, Bool.or_eq_true,
        decide_eq_true_eq, Bool.and_eq_true, beq_iff_eq]
      exact hxy.imp id fun h ↦ ⟨h.1, decide_eq_true h.2.le⟩
  have hmakers : ((m.lotsOn side.opposite).map quoteOf).filter (fun q ↦ side.crosses q.price price)
      = (m.makersFor side price).map quoteOf := List.filter_map
  rw [OrderBook.makersFor, h.quotes hv]
  simp only [Option.bind_eq_bind, Option.bind_some, Option.pure_def]
  rw [(hsorted.filter _).insertionSort_eq, hmakers]

/-- What a side holds at a price, read off its quotes. -/
theorem Represents.ordersAt_of_quotes (h : Represents N b m) (hv : m.Valid N) {side : Side}
    {q : Quote} {behind : List Quote} (hq : (m.lotsOn side).map quoteOf = q :: behind) :
    ∃ orders, b.ordersAt side q.price = some ((q.id, q.qty) :: orders) := by
  obtain ⟨x, l, hx, rfl, -⟩ := List.map_eq_cons_iff.mp hq
  refine ⟨((l.filter fun y ↦ y.1 = (quoteOf x).price).map Prod.snd).map fun r ↦ (r.id, r.qty), ?_⟩
  rw [h.ordersAt hv, QueueBook.queueAt_eq, hx, List.filter_cons, if_pos (by simp [quoteOf])]
  rfl

theorem QueueBook.Valid.queuesServedBy (hv : m.Valid N) (hk : m.Counted k) (side : Side)
    (price qty : Int) :
    QueuesServedBy (m.queueAt side) ((m.placeLimit side price qty []).1.queueAt side)
      (m.lotsOn side.opposite) ((m.placeLimit side price qty []).1.lotsOn side.opposite)
      m.free.isEmpty price qty m.nextId (m.placeLimit side price qty []).2.2
      (allocate qty ((m.makersFor side price).map quoteOf)) := by
  cases side with
  | Buy =>
    exact placeOn_servedBy (t := ⟨m.index, m.free, qty, []⟩) hv.consistent hk.numbered rfl
      m.nextId price m.nextTs
  | Sell =>
    exact placeOn_servedBy (t := ⟨m.index, m.free, qty, []⟩) hv.consistent.symm hk.numbered.symm
      rfl m.nextId price m.nextTs

theorem QueueBook.placeLimit_of_nonpos (m : QueueBook) (side : Side) (price : Int) {qty : Int}
    (hq : qty ≤ 0) :
    (m.placeLimit side price qty []).2.2 = [] ∧
      ∀ s, (m.placeLimit side price qty []).1.lotsOn s = m.lotsOn s := by
  cases side with
  | Buy =>
    obtain ⟨hown, hopp, htrades⟩ := placeOn_of_nonpos (t := ⟨m.index, m.free, qty, []⟩) m.bids
      m.asks hq m.nextId price m.nextTs
    refine ⟨htrades, fun s ↦ ?_⟩
    cases s
    · exact congrArg lots hown
    · exact congrArg lots hopp
  | Sell =>
    obtain ⟨hown, hopp, htrades⟩ := placeOn_of_nonpos (t := ⟨m.index, m.free, qty, []⟩) m.asks
      m.bids hq m.nextId price m.nextTs
    refine ⟨htrades, fun s ↦ ?_⟩
    cases s
    · exact congrArg lots hopp
    · exact congrArg lots hown

theorem QueueBook.id_placeLimit (m : QueueBook) (side : Side) (price qty : Int) :
    (m.placeLimit side price qty []).2.1 = m.nextId := by cases side <;> rfl

theorem Represents.nextId_eq (h : Represents N b m) : b.nextId = m.nextId := by
  rw [h.eq_withPool]
  rfl

theorem Represents.servedBy (h : Represents N b m) (hv : m.Valid N) (hk : m.Counted k)
    (side : Side) (price qty : Int) (h' : Represents N b' (m.placeLimit side price qty []).1) :
    ServedBy b b' side price qty m.nextId (m.placeLimit side price qty []).2.2
      (allocate qty ((m.makersFor side price).map quoteOf)) := by
  have hv' := hv.placeLimit side price qty []
  have hs := hv.queuesServedBy hk side price qty
  refine ⟨hs.trades_eq, fun qs hqs ↦ ?_, h'.levelAt_eq_none_iff hv' _, fun f hf hlt ↦ ?_,
    fun p orders ho ↦ ?_⟩
  · rw [h.quotes hv, Option.some_inj] at hqs
    rw [h'.quotes hv', ← hqs, hs.opposite]
  · obtain ⟨behind, hb⟩ := hs.front f hf hlt
    exact h'.ordersAt_of_quotes hv' hb
  · rw [h.ordersAt hv, Option.some_inj] at ho
    rw [h'.ordersAt hv', ← ho, h.full_eq, hs.own p]

end Sides

/-! ## Placing an order -/

/-- **`place_limit` serves by price and then by id**, as long as less than `2 ^ 64` orders have been
placed before. -/
theorem placeLimit_priceTime (N : Nat) (calls : List Call) (hlt : placements calls < 2 ^ 64) :
    ∃ b replies, (OrderBook.new N).run calls = some (b, replies) ∧
      ∀ side price qty, ∃ b' trades makers,
        b.placeLimit side price qty [] = some (b', b.nextId, trades) ∧
        b.makersFor side price = some makers ∧
        ServedBy b b' side price qty b.nextId trades (allocate qty makers) ∧
        (qty ≤ 0 → trades = [] ∧ ∀ s, b'.quotes s = b.quotes s) := by
  obtain ⟨b, he, h, hv⟩ := run_new N calls
  have hk := QueueBook.counted_run_new N calls hlt
  refine ⟨b, _, he, fun side price qty ↦ ?_⟩
  obtain ⟨b', hp, h'⟩ := h.placeLimit hv side price qty []
  have hid := h.nextId_eq
  refine ⟨b', _, _, by rw [hp, hid, ← QueueBook.id_placeLimit], h.makersFor hv hk side price, ?_,
    fun hq ↦ ?_⟩
  · rw [hid]
    exact h.servedBy hv hk side price qty h'
  · obtain ⟨htrades, hlots⟩ := QueueBook.placeLimit_of_nonpos _ side price hq
    refine ⟨htrades, fun s ↦ ?_⟩
    rw [h'.quotes (hv.placeLimit side price qty []), h.quotes hv, hlots]

/-- A buy of seven is served by two sells of five and three at different prices, the cheaper one
first, and leaves one at the front of its level. -/
theorem placeLimit_priceTime_two_levels :
    placements [.placeLimit .Sell 101 3, .placeLimit .Sell 100 5] < 2 ^ 64 ∧
      ∃ b replies, (OrderBook.new 4).run [.placeLimit .Sell 101 3, .placeLimit .Sell 100 5]
          = some (b, replies) ∧
        ∃ b', b.placeLimit .Buy 101 7 [] = some (b', 3, [⟨3, 2, 100, 5⟩, ⟨3, 1, 101, 2⟩]) ∧
          b'.quotes .Sell = some [⟨101, 1, 1⟩] := by
  refine ⟨by decide, ?_⟩
  obtain ⟨b, replies, he, h⟩ := placeLimit_priceTime 4
    [.placeLimit .Sell 101 3, .placeLimit .Sell 100 5] (by decide)
  refine ⟨b, replies, he, ?_⟩
  obtain ⟨b', trades, makers, hp, hm, hs, -⟩ := h .Buy 101 7
  have hread : ((OrderBook.new 4).run [.placeLimit .Sell 101 3, .placeLimit .Sell 100 5]).map
      (fun x ↦ (x.1.nextId, x.1.quotes .Sell, x.1.makersFor .Buy 101))
        = some (3, some [⟨100, 2, 5⟩, ⟨101, 1, 3⟩], some [⟨100, 2, 5⟩, ⟨101, 1, 3⟩]) := by
    decide +kernel
  rw [he, Option.map_some, Option.some_inj, Prod.mk.injEq, Prod.mk.injEq] at hread
  obtain ⟨hid, hquotes, hmakers⟩ := hread
  obtain rfl : makers = _ := Option.some_inj.mp (hm.symm.trans hmakers)
  rw [hid] at hp hs
  refine ⟨b', ?_, hs.opposite _ hquotes⟩
  rw [hp, hs.trades_eq]
  rfl

/-- **The order with the smallest id does not always go first**: once the counter of ids has come
round, the order `1` is served before the order `0` at the same price. -/
theorem exists_placeLimit_not_by_id : ∃ calls b replies,
    (OrderBook.new 2).run calls = some (b, replies) ∧ placements calls = 2 ^ 64 ∧
      ∃ b' trades makers, b.placeLimit .Sell 100 1 [] = some (b', b.nextId, trades) ∧
        b.makersFor .Sell 100 = some makers ∧ makers = [⟨100, 0, 1⟩, ⟨100, 1, 1⟩] ∧
        trades = [⟨b.nextId, 1, 100, 1⟩] ∧
        ¬ ServedBy b b' .Sell 100 1 b.nextId trades (allocate 1 makers) := by
  obtain ⟨b₁, h₁, hid, b, h₂, hid', hm, b', hp⟩ : ∃ b₁,
      (OrderBook.new 2).run [.placeLimit .Buy 100 1] = some (b₁, [.placed 1 []]) ∧ b₁.nextId = 2 ∧
      ∃ b, OrderBook.run { b₁ with nextId := 0 } [.placeLimit .Buy 100 1]
          = some (b, [.placed 0 []]) ∧ b.nextId = 1 ∧
        b.makersFor .Sell 100 = some [⟨100, 0, 1⟩, ⟨100, 1, 1⟩] ∧
        ∃ b', b.placeLimit .Sell 100 1 [] = some (b', 1, [⟨1, 1, 100, 1⟩]) :=
    ⟨_, rfl, rfl, _, rfl, rfl, rfl, _, rfl⟩
  obtain ⟨rs, hrs⟩ := OrderBook.run_replicate_zero (2 ^ 64 - 2) (b := b₁) (by rw [hid]; decide)
  rw [hid] at hrs
  refine ⟨comingRound (2 ^ 64 - 2), b, _,
    OrderBook.run_append h₁ (OrderBook.run_append hrs h₂),
    (placements_comingRound _).trans (by decide), b', _, _, by rw [hp, hid'], hm, rfl,
    by rw [hid'], fun hs ↦ ?_⟩
  have htrades := hs.trades_eq
  simp [allocate] at htrades

/-! ## When a remainder is lost -/

section Pair

variable {c c' : KeyCompare} {N : Nat} {own : Queues c} {opp : Queues c'} {t : QueueBook.Settling}

/-- What becomes of a remainder, in terms of the queues. -/
structure QueuesRest (own own' : Int → List Resting) (opp : Int → List Resting)
    (free free' : List Ptr) (price left : Int) (id : Nat) (trades : List Trade) : Prop where
  own : ∀ p, (own' p).map (fun r ↦ (r.id, r.qty)) =
    if p = price ∧ (free.isEmpty = false ∨ trades ≠ []) then
      (own p).map (fun r ↦ (r.id, r.qty)) ++ [(id, left)]
    else (own p).map fun r ↦ (r.id, r.qty)
  /-- The whole of a maker is traded. -/
  makers : ∀ t ∈ trades, (t.makerId, t.qty) ∈ (opp t.price).map fun r ↦ (r.id, r.qty)
  free : trades ≠ [] → free.length ≤ free'.length

theorem placeOn_rest (h : Consistent N own opp t.free t.index) (htrades : t.trades = []) (id : Nat)
    (price : Int) (ts : Nat) (hleft : 0 < (QueueBook.matchQueues id price opp t).2.qty) :
    QueuesRest (queue own) (queue (QueueBook.placeOn own opp t id price ts).1) (queue opp) t.free
      (QueueBook.placeOn own opp t id price ts).2.2.1.free price
      (QueueBook.matchQueues id price opp t).2.qty id
      (QueueBook.placeOn own opp t id price ts).2.2.1.trades := by
  have hpos : ∀ x ∈ lots opp, 1 ≤ size x := fun x hx ↦ h.pos x (mem_resting.mpr (.inr hx))
  have hall := amount_eq_of_left hpos hleft
  have htr : (QueueBook.placeOn own opp t id price ts).2.2.1.trades
      = QueueBook.tradesOf id (swept (c'.cross · price) t.qty opp).fills := by
    rw [trades_placeOn, htrades, List.nil_append]
  -- an order that trades at all is served from makers that are used up
  have hne : (QueueBook.matchQueues id price opp t).2.free ≠ [] ↔ t.free.isEmpty = false ∨
      QueueBook.tradesOf id (swept (c'.cross · price) t.qty opp).fills ≠ [] := by
    rw [free_matchQueues, List.isEmpty_eq_false_iff]
    simp only [QueueBook.tradesOf, ne_eq, List.map_eq_nil_iff]
    refine or_congr_right ⟨?_, fun hfills ↦ ?_⟩
    · rintro ⟨f, hf, -⟩
      exact List.ne_nil_of_mem hf
    · obtain ⟨f, hf⟩ := List.exists_mem_of_ne_nil _ hfills
      exact ⟨f, hf, hall f hf⟩
  rw [htr]
  constructor
  case own =>
    intro p
    rw [queue_placeOn]
    simp only [hleft, hne, true_and]
  case makers =>
    intro x hx
    obtain ⟨f, hf, rfl⟩ := List.mem_map.mp hx
    have hlot := (fill_spec hpos f hf).1
    refine List.mem_map.mpr ⟨f.lot.2, mem_queue.mpr hlot, ?_⟩
    rw [hall f hf]
    rfl
  case free =>
    intro htrades
    rw [QueueBook.tradesOf, Ne, List.map_eq_nil_iff] at htrades
    obtain ⟨f, hf⟩ := List.exists_mem_of_ne_nil _ htrades
    have hused : 0 < (consumed (swept (c'.cross · price) t.qty opp).fills).length :=
      List.length_pos_iff_exists_mem.mpr ⟨f.lot, mem_consumed.mpr ⟨f, hf, hall f hf, rfl⟩⟩
    have hlen : (QueueBook.matchQueues id price opp t).2.free.length
        = (consumed (swept (c'.cross · price) t.qty opp).fills).length + t.free.length := by
      simp [QueueBook.matchQueues, QueueBook.settle]
    simp only [QueueBook.placeOn]
    rcases restQueue_cases own (QueueBook.matchQueues id price opp t).2 id price ts with
      ⟨-, he⟩ | ⟨p, free, -, hfree, he⟩
    · rw [he]
      dsimp only
      omega
    · rw [hfree, List.length_cons] at hlen
      rw [he]
      dsimp only
      omega

end Pair

section Sides

variable {N : Nat} {b : OrderBook} {m : QueueBook}

theorem QueueBook.sub_sum_trades {c' : KeyCompare} (opp : Queues c') (t : Settling) (id : Nat)
    (price : Int) :
    t.qty - ((tradesOf id (swept (c'.cross · price) t.qty opp).fills).map Trade.qty).sum
      = (matchQueues id price opp t).2.qty := by
  rw [tradesOf, List.map_map]
  exact sub_given opp t id price

theorem QueueBook.Valid.queuesRest (hv : m.Valid N) (side : Side) (price qty : Int)
    (hleft : 0 < qty - ((m.placeLimit side price qty []).2.2.map Trade.qty).sum) :
    QueuesRest (m.queueAt side) ((m.placeLimit side price qty []).1.queueAt side)
      (m.queueAt side.opposite) m.free (m.placeLimit side price qty []).1.free price
      (qty - ((m.placeLimit side price qty []).2.2.map Trade.qty).sum) m.nextId
      (m.placeLimit side price qty []).2.2 := by
  cases side with
  | Buy =>
    have he := QueueBook.sub_sum_trades m.asks ⟨m.index, m.free, qty, []⟩ m.nextId price
    have htr := trades_placeOn m.bids m.asks ⟨m.index, m.free, qty, []⟩ m.nextId price m.nextTs
    simp only [QueueBook.placeLimit, htr, List.nil_append] at hleft ⊢
    rw [he] at hleft ⊢
    have h := placeOn_rest (t := ⟨m.index, m.free, qty, []⟩) hv.consistent rfl m.nextId price
      m.nextTs hleft
    rwa [htr] at h
  | Sell =>
    have he := QueueBook.sub_sum_trades m.bids ⟨m.index, m.free, qty, []⟩ m.nextId price
    have htr := trades_placeOn m.asks m.bids ⟨m.index, m.free, qty, []⟩ m.nextId price m.nextTs
    simp only [QueueBook.placeLimit, htr, List.nil_append] at hleft ⊢
    rw [he] at hleft ⊢
    have h := placeOn_rest (t := ⟨m.index, m.free, qty, []⟩) hv.consistent.symm rfl m.nextId price
      m.nextTs hleft
    rwa [htr] at h

theorem Represents.inUse_add_free (h : Represents N b m) (hv : m.Valid N) :
    b.pool.inUse + m.free.length = N := by
  have hlen := hv.consistent.partition.length_eq
  rw [List.length_append, List.length_range] at hlen
  rw [h.layout.inUse]
  omega

end Sides

/-- **A remainder is lost if and only if the pool was full and nothing was traded.**  An order that
traded has used up its makers, and one of their slots is free for what remains of it. -/
theorem remainder_lost_iff (N : Nat) (calls : List Call) :
    ∃ b replies, (OrderBook.new N).run calls = some (b, replies) ∧
      ∀ side price qty, ∃ b' trades,
        b.placeLimit side price qty [] = some (b', b.nextId, trades) ∧
        (0 < qty - (trades.map Trade.qty).sum →
          ((∀ p, b'.ordersAt side p = b.ordersAt side p) ↔ b.full = true ∧ trades = []) ∧
          (¬ (b.full = true ∧ trades = []) → ∃ orders, b.ordersAt side price = some orders ∧
            b'.ordersAt side price
              = some (orders ++ [(b.nextId, qty - (trades.map Trade.qty).sum)])) ∧
          (trades ≠ [] → b'.pool.inUse ≤ b.pool.inUse ∧ ∀ t ∈ trades, ∃ orders,
            b.ordersAt side.opposite t.price = some orders ∧ (t.makerId, t.qty) ∈ orders)) := by
  obtain ⟨b, he, h, hv⟩ := run_new N calls
  refine ⟨b, _, he, fun side price qty ↦ ?_⟩
  generalize ((QueueBook.new N).run calls).1 = m at h hv
  obtain ⟨b', hp, h'⟩ := h.placeLimit hv side price qty []
  have hv' := hv.placeLimit side price qty []
  refine ⟨b', _, by rw [hp, h.nextId_eq, ← QueueBook.id_placeLimit], fun hleft ↦ ?_⟩
  have hr := hv.queuesRest side price qty hleft
  have hown : ∀ p, b'.ordersAt side p = some _ := fun p ↦ (h'.ordersAt hv' side p).trans
    (congrArg some (hr.own p))
  have hrests : ¬ (b.full = true ∧ (m.placeLimit side price qty []).2.2 = []) →
      b'.ordersAt side price = some ((m.queueAt side price).map (fun r ↦ (r.id, r.qty))
        ++ [(b.nextId, qty - ((m.placeLimit side price qty []).2.2.map Trade.qty).sum)]) := by
    intro hn
    rw [h.full_eq, not_and_or, Bool.not_eq_true] at hn
    rw [hown, h.nextId_eq, if_pos ⟨rfl, hn⟩]
  refine ⟨⟨fun hsame ↦ ?_, fun ⟨hfull, hnone⟩ p ↦ ?_⟩, fun hn ↦ ⟨_, h.ordersAt hv side price,
    hrests hn⟩, fun htrades ↦ ⟨?_, fun t ht ↦ ⟨_, h.ordersAt hv side.opposite t.price,
    hr.makers t ht⟩⟩⟩
  · by_contra hn
    have hsame := (hrests hn).symm.trans ((hsame price).trans (h.ordersAt hv side price))
    simp at hsame
  · rw [h.full_eq] at hfull
    rw [hown, if_neg (by simp [hfull, hnone]), h.ordersAt hv]
  · have hfree := hr.free htrades
    have hb := h.inUse_add_free hv
    have hb' := h'.inUse_add_free hv'
    omega

-- with one slot, the second of two orders on the same side is lost
example : ((OrderBook.new 1).run [.placeLimit .Buy 100 1, .placeLimit .Buy 100 1]).map
    (fun x ↦ (x.1.full, x.1.ordersAt .Buy 100)) = some (true, some [(1, 1)]) := by decide +kernel

end MatchingEngine
