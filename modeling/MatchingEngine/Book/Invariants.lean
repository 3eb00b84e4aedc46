import MatchingEngine.Book.Refinement

/-!
# What holds in every reachable state of the order book

The invariants are stated over the code's own state — by following its pointers, reading its nodes
and asking its maps — and proved from the book of queues that state represents.

Most of `run_wellFormed` has no bound on the length of the run.  What it says about ids does, as the
counter of ids is a 64-bit number.  After `2 ^ 64` placements it has come round, and
`exists_ids_not_ascending` is a run of that length in which a level holds the orders `1` and `0`,
in that order.
-/

set_option autoImplicit false

namespace MatchingEngine

open Greedy LevelQueue LinkedList

namespace OrderBook

/-- The nodes linked from the levels of a side, level by level. -/
def sideNodes {c : KeyCompare} (b : OrderBook) (side : BookSide c) : Option (List Ptr) := do
  let pss ← side.entries.mapM fun e ↦ b.nodesFromHead e.2
  return pss.flatten

/-- The nodes linked from all levels. -/
def linkedNodes (b : OrderBook) : Option (List Ptr) := do
  let bids ← b.sideNodes b.bids
  let asks ← b.sideNodes b.asks
  return bids ++ asks

/-- The node at `p` is linked from the level of its own side and price. -/
def Linked (b : OrderBook) (p : Ptr) (x : OrderNode) : Prop :=
  ∃ lvl ps, b.levelAt x.side x.price = some lvl ∧ b.nodesFromHead lvl = some ps ∧ p ∈ ps

/-- What holds of a level: it is not empty, its pointers lead through the same nodes from both ends,
and these are orders for this side and price that still want something. -/
structure WellLinked (b : OrderBook) (side : Side) (price : Int) (lvl : Level) : Prop where
  nonempty : lvl.empty = false
  walks : ∃ ps, b.nodesFromHead lvl = some ps ∧ b.nodesFromTail lvl = some ps.reverse ∧
    ∀ p ∈ ps, ∃ x, b.pool.deref p = some x ∧ x.side = side ∧ x.price = price ∧ 1 ≤ x.qty

/-- What holds of a book with `N` slots, whatever its ids. -/
structure WellFormed (N : Nat) (b : OrderBook) : Prop where
  /-- Every slot is free or linked, and only one of the two. -/
  slots : ∃ free linked, b.freeSlots = some free ∧ b.linkedNodes = some linked ∧
    (free ++ linked).Perm (List.range N) ∧ b.pool.inUse = linked.length
  level : ∀ side price lvl, b.levelAt side price = some lvl → b.WellLinked side price lvl
  /-- What `index_` points at is a linked node with the id. -/
  index : ∀ id p, b.index.find? id = some p →
    ∃ x, b.pool.deref p = some x ∧ x.id = id ∧ b.Linked p x

/-- What holds of a book in which no two orders share an id. -/
structure WellNumbered (b : OrderBook) : Prop where
  size : b.pool.inUse = b.index.size
  /-- `index_` knows every linked node. -/
  index : ∀ p x, b.pool.deref p = some x → b.Linked p x → b.index.find? x.id = some p
  ascending : ∀ side price orders, b.ordersAt side price = some orders →
    (orders.map Prod.fst).Pairwise (· < ·)

end OrderBook

/-! ## From the queues to the pointers -/

section Read

variable {N k : Nat} {b : OrderBook} {m : QueueBook}

theorem Represents.freeSlots (h : Represents N b m) (hv : m.Valid N) :
    b.freeSlots = some m.free := by
  refine h.layout.chain.walk_eq ?_
  have hlen := hv.consistent.partition.length_eq
  rw [List.length_append, List.length_range] at hlen
  rw [h.layout.capacity]
  omega

theorem sideNodes_eq {c : KeyCompare} {own : Queues c}
    (hwalk : ∀ e ∈ own.entries, b.nodesFromHead (levelOf e.2) = some (e.2.map Resting.slot)) :
    b.sideNodes (own.map levelOf) = some (slots own) := by
  have hread : (own.entries.map fun e ↦ (e.1, levelOf e.2)).mapM (fun e ↦ b.nodesFromHead e.2)
      = some (own.entries.map fun e ↦ e.2.map Resting.slot) := mapM_map_eq_some hwalk
  rw [OrderBook.sideNodes, SortedMap.entries_map, hread]
  simp [slots, lots, flat, List.flatMap_def, List.map_flatten, Function.comp_def]

theorem Represents.linkedNodes (h : Represents N b m) (hv : m.Valid N) :
    b.linkedNodes = some (slots m.bids ++ slots m.asks) := by
  have hbids : b.sideNodes b.bids = some (slots m.bids) := by
    rw [h.bids_eq]
    refine sideNodes_eq fun e hmem ↦ ?_
    have hw := (h.walks hv .Buy e.1).1
    rwa [QueueBook.queueAt, queue_eq_of_mem hmem] at hw
  have hasks : b.sideNodes b.asks = some (slots m.asks) := by
    rw [h.asks_eq]
    refine sideNodes_eq fun e hmem ↦ ?_
    have hw := (h.walks hv .Sell e.1).1
    rwa [QueueBook.queueAt, queue_eq_of_mem hmem] at hw
  rw [OrderBook.linkedNodes, hbids, hasks]
  rfl

/-- The level at a price is the level of a queue that is not empty. -/
theorem Represents.levelAt_some (h : Represents N b m) (hv : m.Valid N) {side : Side} {price : Int}
    {lvl : Level} (hl : b.levelAt side price = some lvl) :
    lvl = levelOf (m.queueAt side price) ∧ m.queueAt side price ≠ [] := by
  have key : ∀ {c : KeyCompare} {own : Queues c}, Full own →
      (own.map levelOf).find? price = some lvl →
      lvl = levelOf (queue own price) ∧ queue own price ≠ [] := by
    intro c own hfull hl
    rw [SortedMap.find?_map, Option.map_eq_some_iff] at hl
    obtain ⟨q, hq, rfl⟩ := hl
    have hmem := own.find?_eq_some_iff.mp hq
    rw [queue_eq_of_mem hmem]
    exact ⟨rfl, hfull _ hmem⟩
  rw [h.eq_withPool] at hl
  cases side with
  | Buy => exact key hv.consistent.fullOwn hl
  | Sell => exact key hv.consistent.fullOpp hl

/-- A linked node is the node of a resting order. -/
theorem Represents.exists_of_linked (h : Represents N b m) (hv : m.Valid N) {p : Ptr}
    {x : OrderNode} (hx : b.pool.deref p = some x) (hl : b.Linked p x) :
    ∃ r ∈ m.queueAt x.side x.price, r.slot = p ∧ r.id = x.id := by
  obtain ⟨lvl, ps, hlvl, hps, hp⟩ := hl
  rw [(h.levelAt_some hv hlvl).1, (h.walks hv x.side x.price).1] at hps
  obtain rfl := Option.some_inj.mp hps
  obtain ⟨r, hr, rfl⟩ := List.mem_map.mp hp
  obtain ⟨prev, next, hd⟩ := (h.holdsAt x.side x.price).exists_deref hr
  rw [hx, Option.some_inj] at hd
  exact ⟨r, hr, rfl, by rw [hd]; rfl⟩

/-- The node of a resting order is linked. -/
theorem Represents.linked (h : Represents N b m) (hv : m.Valid N) {side : Side} {price : Int}
    {r : Resting} (hr : r ∈ m.queueAt side price) (prev next : Option Ptr) :
    b.Linked r.slot (nodeOf side price r prev next) := by
  refine ⟨levelOf (m.queueAt side price), _, ?_, (h.walks hv side price).1, List.mem_map_of_mem hr⟩
  rcases h.levelAt_eq side price with ⟨-, hnil⟩ | hl
  · rw [hnil] at hr
    simp at hr
  · exact hl

theorem Represents.wellFormed (h : Represents N b m) (hv : m.Valid N) : b.WellFormed N where
  slots := ⟨m.free, slots m.bids ++ slots m.asks, h.freeSlots hv, h.linkedNodes hv,
    hv.consistent.partition, h.layout.inUse⟩
  level side price lvl hl := by
    obtain ⟨rfl, hne⟩ := h.levelAt_some hv hl
    have hw := h.walks hv side price
    refine ⟨by rw [levelOf_empty]; simpa using hne, _, hw.1, hw.2, fun p hp ↦ ?_⟩
    obtain ⟨r, hr, rfl⟩ := List.mem_map.mp hp
    obtain ⟨prev, next, hd⟩ := (h.holdsAt side price).exists_deref hr
    exact ⟨_, hd, rfl, rfl, hv.consistent.pos _ (QueueBook.mem_resting_iff.mpr ⟨side, hr⟩)⟩
  index id p hid := by
    obtain ⟨⟨price, r⟩, hx, rfl, rfl⟩ := hv.consistent.sound id p (h.index_eq ▸ hid)
    obtain ⟨side, hr⟩ := QueueBook.mem_resting_iff.mp hx
    obtain ⟨prev, next, hd⟩ := (h.holdsAt side price).exists_deref hr
    exact ⟨_, hd, rfl, h.linked hv hr prev next⟩

theorem Represents.wellNumbered (h : Represents N b m) (hv : m.Valid N) (hk : m.Counted k) :
    b.WellNumbered := by
  constructor
  case size =>
    rw [h.layout.inUse, h.index_eq, hk.numbered.size_index hv.consistent, slots_append_eq,
      List.length_map]
  case index =>
    intro p x hx hl
    obtain ⟨r, hr, rfl, hid⟩ := h.exists_of_linked hv hx hl
    rw [h.index_eq, ← hid]
    exact hk.numbered.complete _ (QueueBook.mem_resting_iff.mpr ⟨x.side, hr⟩)
  case ascending =>
    intro side price orders ho
    rw [h.ordersAt hv, Option.some_inj] at ho
    rw [← ho, List.map_map, List.pairwise_map]
    have key : ∀ {c : KeyCompare} {own : Queues c},
        (lots own).Pairwise (fun x y ↦ x.1 = y.1 → x.2.id < y.2.id) →
        (queue own price).Pairwise fun r r' ↦ r.id < r'.id := by
      intro c own hasc
      have hq := hasc.sublist (queue_sublist price)
      rw [List.pairwise_map] at hq
      exact hq.imp fun hlt ↦ hlt rfl
    cases side with
    | Buy => exact key hk.numbered.ascOwn
    | Sell => exact key hk.numbered.ascOpp

end Read

/-! ## Runs -/

/-- **The pool, the levels and the index fit together** after every run, and as long as the run has
less than `2 ^ 64` placements the ids do too. -/
theorem run_wellFormed (N : Nat) (calls : List Call) :
    ∃ b replies, (OrderBook.new N).run calls = some (b, replies) ∧ b.WellFormed N ∧
      (placements calls < 2 ^ 64 → b.WellNumbered) := by
  obtain ⟨b, he, h, hv⟩ := run_new N calls
  exact ⟨b, _, he, h.wellFormed hv, fun hlt ↦
    h.wellNumbered hv (QueueBook.counted_run_new N calls hlt)⟩

theorem run_wellFormed_two_orders :
    placements [.placeLimit .Buy 100 1, .placeLimit .Buy 100 1, .cancel 1] < 2 ^ 64 ∧
      ∃ b replies, (OrderBook.new 2).run
          [.placeLimit .Buy 100 1, .placeLimit .Buy 100 1, .cancel 1] = some (b, replies) ∧
        b.WellFormed 2 ∧ b.WellNumbered := by
  refine ⟨by decide, ?_⟩
  obtain ⟨b, replies, he, hw, hn⟩ := run_wellFormed 2
    [.placeLimit .Buy 100 1, .placeLimit .Buy 100 1, .cancel 1]
  exact ⟨b, replies, he, hw, hn (by decide)⟩

theorem Represents.lt_of_mem_keys {N : Nat} {b : OrderBook} {m : QueueBook} (h : Represents N b m)
    (hv : m.Valid N) {bid ask : Int} (hbid : bid ∈ b.bids.keys) (hask : ask ∈ b.asks.keys) :
    bid < ask := by
  rw [h.eq_withPool] at hbid hask
  simp only [SortedMap.keys, QueueBook.withPool, SortedMap.entries_map, List.map_map,
    List.mem_map] at hbid hask
  obtain ⟨e, he, rfl⟩ := hbid
  obtain ⟨e', he', rfl⟩ := hask
  have hc := hv.uncrossed e he e' he'
  simpa [KeyCompare.cross] using hc

/-- **The book is never locked or crossed**, after runs of any length. -/
theorem run_uncrossed (N : Nat) (calls : List Call) :
    ∃ b replies, (OrderBook.new N).run calls = some (b, replies) ∧
      ∀ bid ∈ b.bids.keys, ∀ ask ∈ b.asks.keys, bid < ask := by
  obtain ⟨b, he, h, hv⟩ := run_new N calls
  exact ⟨b, _, he, fun bid hbid ask hask ↦ h.lt_of_mem_keys hv hbid hask⟩

/-! ## After the counter has come round -/

namespace OrderBook

/-- A placement that wants nothing only takes an id. -/
theorem placeLimit_zero (b : OrderBook) (price : Int) :
    b.placeLimit .Buy price 0 []
      = some ({ b with nextId := (b.nextId + 1) % 2 ^ 64 }, b.nextId, []) := by
  simp [placeLimit, matchAgainst, restRemainder]

theorem run_append {b b' b'' : OrderBook} {calls calls' : List Call} {rs rs' : List Reply}
    (h : b.run calls = some (b', rs)) (h' : b'.run calls' = some (b'', rs')) :
    b.run (calls ++ calls') = some (b'', rs ++ rs') := by
  induction calls generalizing b rs with
  | nil =>
    rw [run, Option.some_inj, Prod.mk.injEq] at h
    rw [h.1, ← h.2]
    exact h'
  | cons call calls ih =>
    simp only [run, Option.bind_eq_bind, Option.bind_eq_some_iff, Option.pure_def, Option.some_inj,
      Prod.mk.injEq] at h
    obtain ⟨x, hx, y, hy, rfl, rfl⟩ := h
    simp only [List.cons_append, run, hx, Option.bind_eq_bind, Option.bind_some, ih hy]
    rfl

/-- Placements that want nothing advance the counter. -/
theorem run_replicate_zero (n : Nat) {b : OrderBook} (hb : b.nextId < 2 ^ 64) :
    ∃ replies, b.run (List.replicate n (.placeLimit .Buy 0 0))
      = some ({ b with nextId := (b.nextId + n) % 2 ^ 64 }, replies) := by
  induction n generalizing b with
  | zero =>
    refine ⟨[], ?_⟩
    rw [List.replicate_zero, run, Nat.add_zero, Nat.mod_eq_of_lt hb]
  | succ n ih =>
    obtain ⟨replies, he⟩ := ih (b := { b with nextId := (b.nextId + 1) % 2 ^ 64 })
      (Nat.mod_lt _ (by decide))
    refine ⟨.placed b.nextId [] :: replies, ?_⟩
    have hmod : ((b.nextId + 1) % 2 ^ 64 + n) % 2 ^ 64 = (b.nextId + (n + 1)) % 2 ^ 64 := by omega
    rw [List.replicate_succ, run, perform, placeLimit_zero]
    simp only [Option.bind_eq_bind, Option.bind_some, Option.pure_def, he, hmod]

end OrderBook

/-- An order, `n` placements of nothing, and the order again. -/
def comingRound (n : Nat) : List Call :=
  [.placeLimit .Buy 100 1] ++ (List.replicate n (.placeLimit .Buy 0 0) ++ [.placeLimit .Buy 100 1])

theorem placements_comingRound (n : Nat) : placements (comingRound n) = n + 2 := by
  simp only [placements, comingRound, List.countP_append, List.countP_replicate,
    List.countP_singleton, if_true]
  omega

theorem run_comingRound {n : Nat} (hn : (2 + n) % 2 ^ 64 = 0) :
    ∃ b replies, (OrderBook.new 2).run (comingRound n) = some (b, replies) ∧
      b.ordersAt .Buy 100 = some [(1, 1), (0, 1)] := by
  obtain ⟨b₁, h₁, hid, b₂, h₂, ho⟩ : ∃ b₁,
      (OrderBook.new 2).run [.placeLimit .Buy 100 1] = some (b₁, [.placed 1 []]) ∧ b₁.nextId = 2 ∧
      ∃ b₂, OrderBook.run { b₁ with nextId := 0 } [.placeLimit .Buy 100 1]
          = some (b₂, [.placed 0 []]) ∧ b₂.ordersAt .Buy 100 = some [(1, 1), (0, 1)] :=
    ⟨_, rfl, rfl, _, rfl, rfl⟩
  obtain ⟨rs, hrs⟩ := OrderBook.run_replicate_zero n (b := b₁) (by rw [hid]; decide)
  rw [hid, hn] at hrs
  exact ⟨b₂, _, OrderBook.run_append h₁ (OrderBook.run_append hrs h₂), ho⟩

/-- **After `2 ^ 64` placements a level can hold the order `1` and behind it the order `0`.** -/
theorem exists_ids_not_ascending : ∃ calls b replies,
    (OrderBook.new 2).run calls = some (b, replies) ∧ placements calls = 2 ^ 64 ∧
      b.ordersAt .Buy 100 = some [(1, 1), (0, 1)] ∧ ¬ b.WellNumbered := by
  obtain ⟨b, replies, he, ho⟩ := run_comingRound (n := 2 ^ 64 - 2) (by decide)
  refine ⟨_, b, replies, he, (placements_comingRound _).trans (by decide), ho, fun hb ↦ ?_⟩
  have hasc := hb.ascending _ _ _ ho
  simp at hasc

end MatchingEngine
