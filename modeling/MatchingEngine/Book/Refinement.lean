import MatchingEngine.Book.Pointers
import MatchingEngine.Book.QueueInvariants

/-!
# The order book refines the book of queues

`Represents N b m` relates a state of the code to the `QueueBook` its pointers spell out: each level
is a linked list of live nodes, the free-list runs through the remaining slots, and everything that
is not a pointer is equal.  Every call on the code's side goes through — it never follows a dangling
pointer and never runs out of fuel — with the reply the queues give, and leads to a state that
represents what the queues become (`Represents.perform`).  Over a run this is
`Represents.run`, and `run_new` is the form the rest of the development uses.

As in `MatchingEngine.Book.QueueInvariants` the argument is made for a taker's own side and the
opposite one, so that it is made once.
-/

set_option autoImplicit false

namespace MatchingEngine

open Greedy LevelQueue LinkedList

/-- The pool holds the queues of two sides, and its free-list is `free`. -/
structure Layout {c c' : KeyCompare} (N : Nat) (pool : ObjectPool OrderNode) (side : Side)
    (own : Queues c) (side' : Side) (opp : Queues c') (free : List Ptr) : Prop where
  holdsOwn : ∀ e ∈ own.entries, Holds pool side e.1 e.2
  holdsOpp : ∀ e ∈ opp.entries, Holds pool side' e.1 e.2
  chain : Chain pool.nextFree pool.freeHead free
  capacity : pool.capacity = N
  slab : ∀ p, (pool.slots p).isSome = decide (p < N)
  inUse : pool.inUse = (slots own ++ slots opp).length

/-- The matching state of the code, given the part of it that is not the pool. -/
def QueueBook.Settling.withPool (t : QueueBook.Settling) (pool : ObjectPool OrderNode) :
    OrderBook.Matching :=
  { pool, index := t.index, qty := t.qty, trades := t.trades }

section Pair

variable {c c' : KeyCompare} {N : Nat} {pool : ObjectPool OrderNode} {side side' : Side}
  {own : Queues c} {opp : Queues c'} {free : List Ptr} {index : Index} {t : QueueBook.Settling}

theorem Layout.symm (h : Layout N pool side own side' opp free) :
    Layout N pool side' opp side own free where
  holdsOwn := h.holdsOpp
  holdsOpp := h.holdsOwn
  chain := h.chain
  capacity := h.capacity
  slab := h.slab
  inUse := by rw [h.inUse, List.length_append, List.length_append, Nat.add_comm]

/-- The slots of a queue are slots of its side. -/
theorem slot_mem_slots {e : Int × List Resting} {p : Ptr} (he : e ∈ own.entries)
    (hp : p ∈ e.2.map Resting.slot) : p ∈ slots own := by
  obtain ⟨r, hr, rfl⟩ := List.mem_map.mp hp
  exact List.mem_map.mpr ⟨(e.1, r), mem_lots.mpr ⟨e.2, he, hr⟩, rfl⟩

theorem Consistent.length_slots_le (h : Consistent N own opp free index) :
    (slots own ++ slots opp).length ≤ N := by
  have hlen := h.partition.length_eq
  rw [List.length_append, List.length_range] at hlen
  omega

theorem Layout.sweepable (h : Layout N pool side own side' opp free)
    (hc : Consistent N own opp free index) : Sweepable side' opp pool free where
  holds := h.holdsOpp
  nodup := hc.nodup.of_append_right.of_append_right
  chain := h.chain
  disjoint p hp hm := List.disjoint_of_nodup_append hc.nodup hp (List.mem_append_right _ hm)
  length_le := by
    have hlen := hc.length_slots_le
    rw [List.length_append] at hlen
    rw [h.capacity]
    omega

/-- **Matching** on the code's side. -/
theorem Layout.matchAgainst (h : Layout N pool side own side' opp t.free)
    (hc : Consistent N own opp t.free t.index) (takerId : Nat) (limit : Int) :
    ∃ pool', OrderBook.matchAgainst takerId limit ((opp.map levelOf).size + 1) (opp.map levelOf)
        (t.withPool pool) = some ((QueueBook.matchQueues takerId limit opp t).1.map levelOf,
          (QueueBook.matchQueues takerId limit opp t).2.withPool pool') ∧
      Layout N pool' side own side' (QueueBook.matchQueues takerId limit opp t).1
        (QueueBook.matchQueues takerId limit opp t).2.free := by
  have hnd := hc.nodup
  have hsize : (opp.map levelOf).size = opp.size := by simp [SortedMap.size]
  rw [hsize]
  obtain ⟨pool', hout, h', hfree', hw'⟩ := matchAgainst_serves (s := t.withPool pool)
    takerId limit opp.size (h.sweepable hc) (Nat.le_refl _)
  refine ⟨pool', hout, ⟨fun e he ↦ (h.holdsOwn e he).congr fun p hp ↦ ?_, h', hfree', ?_, ?_, ?_⟩⟩
  · refine hw'.slots p fun hm ↦ ?_
    exact List.disjoint_of_nodup_append hnd.of_append_right (slot_mem_slots he hp) hm
  · exact hw'.capacity.trans h.capacity
  · exact fun p ↦ (hw'.slab p).trans (h.slab p)
  · have hslots := congrArg List.length (slots_swept (c'.cross · limit) t.qty opp)
    have huse := h.inUse
    rw [List.length_append, List.length_map] at hslots
    rw [hw'.inUse]
    simp only [QueueBook.Settling.withPool, QueueBook.matchQueues, List.length_append] at huse ⊢
    omega

/-- Two queues of a consistent pair of sides do not share a slot. -/
theorem Consistent.price_eq (hc : Consistent N own opp free index) {e : Int × List Resting}
    {price : Int} {p : Ptr} (he : e ∈ own.entries) (hp : p ∈ e.2.map Resting.slot)
    (hp' : p ∈ (queue own price).map Resting.slot) : e.1 = price := by
  obtain ⟨r, hr, rfl⟩ := List.mem_map.mp hp
  obtain ⟨r', hr', hslot⟩ := List.mem_map.mp hp'
  have hx : (e.1, r) ∈ resting own opp := mem_resting.mpr (.inl (mem_lots.mpr ⟨e.2, he, hr⟩))
  have hy : (price, r') ∈ resting own opp := mem_resting.mpr (.inl (mem_queue.mp hr'))
  exact congrArg Prod.fst (hc.eq_of_slot hx hy hslot.symm)

theorem queue_slots_sublist (own : Queues c) (price : Int) :
    ((queue own price).map Resting.slot).Sublist (slots own) := by
  have h := (queue_sublist (m := own) price).map fun x ↦ x.2.slot
  rwa [List.map_map] at h

theorem Layout.holds_queue (h : Layout N pool side own side' opp free) (price : Int) :
    Holds pool side price (queue own price) := by
  rw [queue]
  cases hf : own.find? price with
  | none => trivial
  | some q => exact h.holdsOwn (price, q) (own.find?_eq_some_iff.mp hf)

/-- The level `operator[]` gives for a price. -/
theorem levelOf_queue (own : Queues c) (price : Int) :
    ((own.map levelOf).find? price).getD ⟨none, none⟩ = levelOf (queue own price) := by
  rw [SortedMap.find?_map, queue]
  cases own.find? price <;> rfl

/-- **A new node** at the back of a queue, in the first free slot. -/
theorem Layout.pushBack (price : Int) (r : Resting)
    (h : Layout N pool side own side' opp (r.slot :: free))
    (hc : Consistent N own opp (r.slot :: free) index) :
    ∃ pool₁ pool₂ pool₃, pool.acquire = some (some r.slot, pool₁) ∧
      pool₁.construct r.slot (nodeOf side price r none none) = some pool₂ ∧
      OrderBook.levelPushBack pool₂ (levelOf (queue own price)) r.slot
        = some (pool₃, levelOf (queue own price ++ [r])) ∧
      Layout N pool₃ side (pushBack own price r) side' opp free := by
  have hnd := hc.nodup
  rw [List.cons_append, List.nodup_cons, List.mem_append, not_or] at hnd
  have hdisj := List.disjoint_of_nodup_append hnd.2
  have hsub := (queue_slots_sublist own price).subset
  have hqnd : ((queue own price).map Resting.slot).Nodup :=
    (queue_slots_sublist own price).nodup hnd.2.of_append_right.of_append_left
  obtain ⟨pool₁, pool₂, pool₃, he₁, he₂, he₃, h₃, hchain₃, hw₃⟩ :=
    acquireBack_eq (h.holds_queue price) hqnd h.chain hnd.1.1
      (fun hm ↦ hnd.1.2 (List.mem_append_left _ (hsub hm)))
      (fun x hx hm ↦ hdisj hx (List.mem_append_left _ (hsub hm)))
  -- what is neither the new slot nor in this queue is as it was
  have hframe : ∀ x ∈ slots own ++ slots opp, x ∉ (queue own price).map Resting.slot →
      pool₃.slots x = pool.slots x := fun x hx hxq ↦
    hw₃.slots x
      (List.not_mem_cons_of_ne_of_not_mem (fun hxr : x = r.slot ↦ hnd.1.2 (hxr ▸ hx)) hxq)
  refine ⟨pool₁, pool₂, pool₃, he₁, he₂, he₃,
    ⟨fun e hmem ↦ ?_, fun e hmem ↦ ?_, hchain₃, ?_, ?_, ?_⟩⟩
  · rcases SortedMap.mem_insert.mp hmem with rfl | ⟨hne, hmem⟩
    · exact h₃
    · refine (h.holdsOwn e hmem).congr fun x hx ↦ hframe x ?_ fun hxq ↦ hne ?_
      · exact List.mem_append_left _ (slot_mem_slots hmem hx)
      · exact hc.price_eq hmem hx hxq
  · have hopp : ∀ x ∈ e.2.map Resting.slot, x ∈ slots opp := fun x hx ↦ slot_mem_slots hmem hx
    refine (h.holdsOpp e hmem).congr fun x hx ↦ hframe x ?_ fun hxq ↦ ?_
    · exact List.mem_append_right _ (hopp x hx)
    · exact List.disjoint_of_nodup_append hnd.2.of_append_right (hsub hxq) (hopp x hx)
  · exact hw₃.capacity.trans h.capacity
  · exact fun x ↦ (hw₃.slab x).trans (h.slab x)
  · have hlen := (lots_pushBack (m := own) price r).length_eq
    rw [hw₃.inUse, h.inUse]
    simp only [slots, List.length_append, List.length_map, List.length_cons] at hlen ⊢
    omega

/-- **Resting** on the code's side. -/
theorem Layout.restRemainder (h : Layout N pool side own side' opp t.free)
    (hc : Consistent N own opp t.free t.index) (id : Nat) (price : Int) (ts : Nat) :
    ∃ pool', OrderBook.restRemainder (own.map levelOf) (t.withPool pool) id side price ts
        = some ((QueueBook.restQueue own t id price ts).1.map levelOf,
          (QueueBook.restQueue own t id price ts).2.1.withPool pool',
          (QueueBook.restQueue own t id price ts).2.2) ∧
      Layout N pool' side (QueueBook.restQueue own t id price ts).1 side' opp
        (QueueBook.restQueue own t id price ts).2.1.free := by
  rw [OrderBook.restRemainder]
  rcases restQueue_cases own t id price ts with ⟨hstop, he⟩ | ⟨p, free, hq, hf, he⟩
  · -- there is nothing to rest, or no slot to rest it in
    rw [he]
    refine ⟨pool, ?_, h⟩
    split
    · rename_i hq
      have hfree : t.free = [] := by
        by_contra hne
        exact hstop ⟨hq, hne⟩
      have hhead : pool.freeHead = none := by rw [h.chain.head_eq, hfree]; rfl
      have hacq : (t.withPool pool).pool.acquire = some (none, pool) :=
        ObjectPool.acquire_none hhead
      rw [hacq]
      rfl
    · rfl
  · rw [hf] at h hc
    obtain ⟨pool₁, pool₂, pool₃, he₁, he₂, he₃, h₃⟩ :=
      Layout.pushBack price ⟨p, id, t.qty, ts⟩ h hc
    have he₁' : (t.withPool pool).pool.acquire = some (some p, pool₁) := he₁
    have he₂' : pool₁.construct p ⟨id, side, price, (t.withPool pool).qty, ts, none, none⟩
        = some pool₂ := he₂
    have he₃' : OrderBook.levelPushBack pool₂ (levelOf (queue own price)) p
        = some (pool₃, levelOf (queue own price ++ [⟨p, id, t.qty, ts⟩])) := he₃
    rw [he]
    refine ⟨pool₃, ?_, h₃⟩
    rw [if_pos (show 0 < (t.withPool pool).qty from hq), he₁']
    simp only [Option.bind_eq_bind, Option.bind_some, he₂', levelOf_queue, he₃',
      LevelQueue.pushBack]
    rw [SortedMap.insert_map]
    rfl

/-- **Placing** on the code's side. -/
theorem Layout.placeOn (h : Layout N pool side own side' opp t.free)
    (hc : Consistent N own opp t.free t.index) (id : Nat) (price : Int) (ts : Nat) :
    ∃ s pool', OrderBook.matchAgainst id price ((opp.map levelOf).size + 1) (opp.map levelOf)
        (t.withPool pool) = some ((QueueBook.placeOn own opp t id price ts).2.1.map levelOf, s) ∧
      OrderBook.restRemainder (own.map levelOf) s id side price ts
        = some ((QueueBook.placeOn own opp t id price ts).1.map levelOf,
          (QueueBook.placeOn own opp t id price ts).2.2.1.withPool pool',
          (QueueBook.placeOn own opp t id price ts).2.2.2) ∧
      Layout N pool' side (QueueBook.placeOn own opp t id price ts).1 side'
        (QueueBook.placeOn own opp t id price ts).2.1
        (QueueBook.placeOn own opp t id price ts).2.2.1.free := by
  obtain ⟨pool₁, he₁, h₁⟩ := h.matchAgainst hc id price
  obtain ⟨pool₂, he₂, h₂⟩ := h₁.restRemainder (hc.matchQueues id price) id price ts
  exact ⟨_, pool₂, he₁, he₂, h₂⟩

/-- Removing by slot removes one order of a queue. -/
theorem filter_slot_ne {xs ys : List Resting} {r : Resting}
    (hnd : ((xs ++ r :: ys).map Resting.slot).Nodup) :
    (xs ++ r :: ys).filter (fun x ↦ x.slot != r.slot) = xs ++ ys := by
  rw [List.map_append, List.map_cons, List.nodup_middle, List.nodup_cons, List.mem_append] at hnd
  have hne : ∀ x ∈ xs ++ ys, (x.slot != r.slot) = true := fun x hx ↦ bne_iff_ne.mpr fun he ↦ by
    refine hnd.1 ?_
    rcases List.mem_append.mp hx with hx | hx
    · exact .inl (he ▸ List.mem_map_of_mem hx)
    · exact .inr (he ▸ List.mem_map_of_mem hx)
  rw [List.filter_append, List.filter_cons_of_neg (by simp), ← List.filter_append,
    List.filter_eq_self.mpr hne]

/-- Removing an order by its slot leaves the other side. -/
theorem Consistent.prune_opp (hc : Consistent N own opp free index) {x : Int × Resting}
    (hx : x ∈ lots own) : prune (fun y ↦ y.slot != x.2.slot) opp = opp := by
  refine prune_eq_self hc.fullOpp fun y hy ↦ bne_iff_ne.mpr fun hslot ↦ ?_
  refine List.disjoint_of_nodup_append hc.nodup.of_append_right (List.mem_map.mpr ⟨x, hx, rfl⟩) ?_
  exact List.mem_map.mpr ⟨y, hy, hslot⟩

/-- Removing an order by its slot takes it out of its queue, and the queue away if that is all. -/
theorem Consistent.prune_own (hc : Consistent N own opp free index) {price : Int} {r : Resting}
    {xs ys : List Resting} (hq : (price, xs ++ r :: ys) ∈ own.entries) :
    prune (fun x ↦ x.slot != r.slot) own
      = if (xs ++ ys).isEmpty then own.erase price else own.insert price (xs ++ ys) := by
  have hr : (price, r) ∈ resting own opp :=
    mem_resting.mpr (.inl (mem_lots.mpr ⟨_, hq, by simp⟩))
  have hnd : ((xs ++ r :: ys).map Resting.slot).Nodup := by
    rw [← queue_eq_of_mem hq]
    exact (queue_slots_sublist own price).nodup hc.nodup.of_append_right.of_append_left
  have hown := prune_eq_of_split (fun x ↦ x.slot != r.slot) hc.fullOwn
    (own.find?_eq_some_iff.mpr hq) fun x hx hne ↦ bne_iff_ne.mpr fun hslot ↦
      hne (congrArg Prod.fst (hc.eq_of_slot (mem_resting.mpr (.inl hx)) hr hslot))
  rwa [filter_slot_ne hnd] at hown

/-- A queue after that is another queue, or what is left of this one. -/
theorem Consistent.mem_prune_own (hc : Consistent N own opp free index) {price : Int} {r : Resting}
    {xs ys : List Resting} (hq : (price, xs ++ r :: ys) ∈ own.entries) {e : Int × List Resting}
    (he : e ∈ (prune (fun x ↦ x.slot != r.slot) own).entries) :
    e ∈ own.entries ∧ e.1 ≠ price ∨ e = (price, xs ++ ys) := by
  rw [hc.prune_own hq] at he
  split at he
  · exact .inl (SortedMap.mem_erase.mp he).symm
  · rcases SortedMap.mem_insert.mp he with he | ⟨hne, he⟩
    · exact .inr he
    · exact .inl ⟨he, hne⟩

/-- **Unlinking** on the code's side, and giving the node back. -/
theorem Layout.unlinkFrom (h : Layout N pool side own side' opp free)
    (hc : Consistent N own opp free index) {price : Int} {r : Resting}
    (hr : (price, r) ∈ lots own) :
    ∃ prev next pool₁ pool₂, pool.deref r.slot = some (nodeOf side price r prev next) ∧
      OrderBook.unlinkFrom (own.map levelOf) pool price r.slot
        = some (some ((prune (fun x ↦ x.slot != r.slot) own).map levelOf, pool₁)) ∧
      pool₁.release r.slot = some pool₂ ∧ prune (fun x ↦ x.slot != r.slot) opp = opp ∧
      Layout N pool₂ side (prune (fun x ↦ x.slot != r.slot) own) side'
        (prune (fun x ↦ x.slot != r.slot) opp) (r.slot :: free) := by
  have hnd := hc.nodup
  have hopp := hc.prune_opp hr
  -- the queue the order is in, cut at the order
  obtain ⟨q, hq, hrq⟩ := mem_lots.mp hr
  obtain ⟨xs, ys, rfl⟩ := List.append_of_mem hrq
  have hqsub : ∀ x ∈ (xs ++ r :: ys).map Resting.slot, x ∈ slots own := fun x hx ↦
    slot_mem_slots hq hx
  have hqnd : ((xs ++ r :: ys).map Resting.slot).Nodup := by
    rw [← queue_eq_of_mem hq]
    exact (queue_slots_sublist own price).nodup hnd.of_append_right.of_append_left
  obtain ⟨pool₁, pool₂, he₁, he₂, h₂, hchain, hw⟩ :=
    unlinkRelease_eq (h.holdsOwn _ hq) hqnd h.chain fun p hp hm ↦
      List.disjoint_of_nodup_append hnd hp (List.mem_append_left _ (hqsub p hm))
  refine ⟨_, _, pool₁, pool₂, (h.holdsOwn _ hq).deref_eq, ?_, he₂, hopp,
    ⟨fun e he ↦ ?_, fun e he ↦ ?_, hchain, ?_, ?_, ?_⟩⟩
  · rw [OrderBook.unlinkFrom, SortedMap.find?_map, own.find?_eq_some_iff.mpr hq]
    simp only [Option.map_some, Option.bind_eq_bind, he₁, Option.bind_some, levelOf_empty,
      hc.prune_own hq]
    split
    · rw [SortedMap.erase_map]
      rfl
    · rw [SortedMap.insert_map]
      rfl
  · rcases hc.mem_prune_own hq he with ⟨he, hne⟩ | rfl
    · refine (h.holdsOwn e he).congr fun x hx ↦ hw.slots x fun hxq ↦ hne ?_
      exact hc.price_eq he hx (queue_eq_of_mem hq ▸ hxq)
    · exact h₂
  · rw [hopp] at he
    refine (h.holdsOpp e he).congr fun x hx ↦ hw.slots x fun hxq ↦ ?_
    exact List.disjoint_of_nodup_append hnd.of_append_right (hqsub x hxq) (slot_mem_slots he hx)
  · exact hw.capacity.trans h.capacity
  · exact fun p ↦ (hw.slab p).trans (h.slab p)
  · have hmem : r.slot ∈ slots own ++ slots opp :=
      List.mem_append_left _ (List.mem_map.mpr ⟨_, hr, rfl⟩)
    rw [hw.inUse, h.inUse, hc.slots_remove, List.length_erase_of_mem hmem]

end Pair

/-! ## Whole books -/

/-- The book whose pointers, in the given pool, spell out `m`. -/
def QueueBook.withPool (m : QueueBook) (pool : ObjectPool OrderNode) : OrderBook :=
  { bids := m.bids.map levelOf, asks := m.asks.map levelOf, index := m.index, pool,
    nextId := m.nextId, nextTs := m.nextTs }

/-- The pointers of `b` spell out `m`. -/
structure Represents (N : Nat) (b : OrderBook) (m : QueueBook) : Prop where
  eq_withPool : b = m.withPool b.pool
  layout : Layout N b.pool .Buy m.bids .Sell m.asks m.free

section Fields

variable {N : Nat} {b : OrderBook} {m : QueueBook} (h : Represents N b m)
include h

theorem Represents.bids_eq : b.bids = m.bids.map levelOf := congrArg OrderBook.bids h.eq_withPool

theorem Represents.asks_eq : b.asks = m.asks.map levelOf := congrArg OrderBook.asks h.eq_withPool

theorem Represents.index_eq : b.index = m.index := congrArg OrderBook.index h.eq_withPool

end Fields

theorem represents_new (N : Nat) : Represents N (OrderBook.new N) (QueueBook.new N) where
  eq_withPool := rfl
  layout :=
    { holdsOwn := by simp [QueueBook.new]
      holdsOpp := by simp [QueueBook.new]
      chain := ObjectPool.new_chain N
      capacity := (ObjectPool.thread_fields N _).1
      slab := fun p ↦ ((ObjectPool.thread_fields N _).2.2 p).trans (by
        by_cases hp : p < N <;> simp [hp])
      inUse := (ObjectPool.thread_fields N _).2.1 }

variable {N : Nat} {b : OrderBook} {m : QueueBook}

theorem Represents.placeLimit (h : Represents N b m) (hv : m.Valid N) (side : Side)
    (price qty : Int) (trades : List Trade) :
    ∃ b', b.placeLimit side price qty trades = some (b', (m.placeLimit side price qty trades).2) ∧
      Represents N b' (m.placeLimit side price qty trades).1 := by
  cases side with
  | Buy =>
    obtain ⟨s, pool', he₁, he₂, h'⟩ := h.layout.placeOn (t := ⟨m.index, m.free, qty, trades⟩)
      hv.consistent m.nextId price m.nextTs
    refine ⟨(m.placeLimit .Buy price qty trades).1.withPool pool', ?_, ⟨rfl, h'⟩⟩
    rw [h.eq_withPool, OrderBook.placeLimit]
    exact (congrArg (Option.bind · _) he₁).trans (congrArg (Option.bind · _) he₂)
  | Sell =>
    obtain ⟨s, pool', he₁, he₂, h'⟩ := h.layout.symm.placeOn (t := ⟨m.index, m.free, qty, trades⟩)
      hv.consistent.symm m.nextId price m.nextTs
    refine ⟨(m.placeLimit .Sell price qty trades).1.withPool pool', ?_, ⟨rfl, h'.symm⟩⟩
    rw [h.eq_withPool, OrderBook.placeLimit]
    exact (congrArg (Option.bind · _) he₁).trans (congrArg (Option.bind · _) he₂)

theorem Represents.cancel (h : Represents N b m) (hv : m.Valid N) (id : Nat) :
    ∃ b', b.cancel id = some (b', (m.cancel id).2) ∧ Represents N b' (m.cancel id).1 := by
  rw [OrderBook.cancel, QueueBook.cancel, h.index_eq]
  cases hid : m.index.find? id with
  | none => exact ⟨b, rfl, h⟩
  | some n =>
    obtain ⟨⟨price, r⟩, hx, rfl, -⟩ := hv.consistent.sound id n hid
    rcases mem_resting.mp hx with hr | hr
    · obtain ⟨prev, next, pool₁, pool₂, hd, he₁, he₂, hopp, h'⟩ :=
        h.layout.unlinkFrom hv.consistent hr
      refine ⟨(m.remove id r.slot).withPool pool₂, ?_, ⟨rfl, h'⟩⟩
      rw [h.eq_withPool]
      simp only [QueueBook.withPool, QueueBook.remove, hd, nodeOf, Option.bind_eq_bind,
        Option.bind_some, he₁, he₂, hopp]
      rfl
    · obtain ⟨prev, next, pool₁, pool₂, hd, he₁, he₂, hopp, h'⟩ :=
        h.layout.symm.unlinkFrom hv.consistent.symm hr
      refine ⟨(m.remove id r.slot).withPool pool₂, ?_, ⟨rfl, h'.symm⟩⟩
      rw [h.eq_withPool]
      simp only [QueueBook.withPool, QueueBook.remove, hd, nodeOf, Option.bind_eq_bind,
        Option.bind_some, he₁, he₂, hopp]
      rfl

/-- **One call**: the code goes through, answers as the queues do, and represents what they
become. -/
theorem Represents.perform (h : Represents N b m) (hv : m.Valid N) (call : Call) :
    ∃ b', b.perform call = some (b', (m.perform call).2) ∧ Represents N b' (m.perform call).1 := by
  cases call with
  | placeLimit side price qty =>
    obtain ⟨b', he, h'⟩ := h.placeLimit hv side price qty []
    exact ⟨b', by rw [OrderBook.perform, he]; rfl, h'⟩
  | cancel id =>
    obtain ⟨b', he, h'⟩ := h.cancel hv id
    exact ⟨b', by rw [OrderBook.perform, he]; rfl, h'⟩

theorem Represents.run (h : Represents N b m) (hv : m.Valid N) (calls : List Call) :
    ∃ b', b.run calls = some (b', (m.run calls).2) ∧ Represents N b' (m.run calls).1 := by
  induction calls generalizing b m with
  | nil => exact ⟨b, rfl, h⟩
  | cons call calls ih =>
    obtain ⟨b₁, he₁, h₁⟩ := h.perform hv call
    obtain ⟨b₂, he₂, h₂⟩ := ih h₁ (hv.perform call)
    exact ⟨b₂, by rw [OrderBook.run, he₁]; simp [he₂, QueueBook.run], h₂⟩

/-- **Every run of the code goes through**, and its state represents a valid book of queues. -/
theorem run_new (N : Nat) (calls : List Call) :
    ∃ b, (OrderBook.new N).run calls = some (b, ((QueueBook.new N).run calls).2) ∧
      Represents N b ((QueueBook.new N).run calls).1 ∧
      ((QueueBook.new N).run calls).1.Valid N := by
  obtain ⟨b, he, h⟩ := (represents_new N).run (QueueBook.valid_new N) calls
  exact ⟨b, he, h, (QueueBook.valid_new N).run calls⟩

theorem represents_of_run {N : Nat} {calls : List Call} {b : OrderBook} {replies : List Reply}
    (hrun : (OrderBook.new N).run calls = some (b, replies)) :
    Represents N b ((QueueBook.new N).run calls).1 ∧
      ((QueueBook.new N).run calls).1.Valid N := by
  obtain ⟨b', he, h, hv⟩ := run_new N calls
  obtain ⟨rfl, -⟩ := Prod.mk.inj (Option.some.inj (he.symm.trans hrun))
  exact ⟨h, hv⟩

/-! ## Reading the book -/

/-- The queues of a side. -/
def QueueBook.queueAt (m : QueueBook) : Side → Int → List Resting
  | .Buy, price => queue m.bids price
  | .Sell, price => queue m.asks price

section Read

variable {c c' : KeyCompare} {pool : ObjectPool OrderNode} {side side' : Side} {own : Queues c}
  {opp : Queues c'} {free : List Ptr} {index : Index}

/-- What the pool holds for a resting order. -/
theorem Holds.exists_deref {price : Int} {q : List Resting} (h : Holds pool side price q)
    {r : Resting} (hr : r ∈ q) :
    ∃ prev next, pool.deref r.slot = some (nodeOf side price r prev next) := by
  obtain ⟨xs, ys, rfl⟩ := List.append_of_mem hr
  exact ⟨_, _, h.deref_eq⟩

theorem Consistent.length_queue_le (hc : Consistent N own opp free index) (price : Int) :
    (queue own price).length ≤ N := by
  have h := (queue_slots_sublist own price).length_le
  have h' := hc.length_slots_le
  rw [List.length_map] at h
  rw [List.length_append] at h'
  omega

/-- Readings that all succeed. -/
theorem mapM_map_eq_some {α β γ : Type} {k : α → β} {f : β → Option γ} {g : α → γ} {l : List α}
    (h : ∀ a ∈ l, f (k a) = some (g a)) : (l.map k).mapM f = some (l.map g) := by
  induction l with
  | nil => rfl
  | cons a l ih =>
    obtain ⟨ha, hl⟩ := List.forall_mem_cons.mp h
    rw [List.map_cons, List.mapM_cons, ha, ih hl]
    rfl

/-- Both directions of a level list its queue. -/
theorem Layout.walks (h : Layout N pool side own side' opp free)
    (hc : Consistent N own opp free index) (price : Int) :
    walk (fun p ↦ (pool.deref p).map OrderNode.next) pool.capacity (levelOf (queue own price)).head
        = some ((queue own price).map Resting.slot) ∧
      walk (fun p ↦ (pool.deref p).map OrderNode.prev) pool.capacity
        (levelOf (queue own price)).tail = some ((queue own price).map Resting.slot).reverse := by
  have hlen := hc.length_queue_le price
  rw [← h.capacity] at hlen
  have hq := h.holds_queue price
  exact ⟨hq.walk_next (fun _ _ _ ↦ rfl) hlen, hq.walk_prev (fun _ _ _ ↦ rfl) hlen⟩

theorem Layout.mapM_deref (h : Layout N pool side own side' opp free) (price : Int) :
    ((queue own price).map Resting.slot).mapM
        (fun p ↦ (pool.deref p).map fun x ↦ (x.id, x.qty))
      = some ((queue own price).map fun r ↦ (r.id, r.qty)) := by
  refine mapM_map_eq_some fun r hr ↦ ?_
  obtain ⟨prev, next, hd⟩ := (h.holds_queue price).exists_deref hr
  rw [hd]
  rfl

theorem find?_levelOf (own : Queues c) (price : Int) :
    (own.map levelOf).find? price = none ∧ queue own price = [] ∨
      (own.map levelOf).find? price = some (levelOf (queue own price)) := by
  rw [SortedMap.find?_map, queue]
  cases own.find? price with
  | none => exact .inl ⟨rfl, rfl⟩
  | some q => exact .inr rfl

end Read

theorem Represents.levelAt_eq (h : Represents N b m) (side : Side) (price : Int) :
    b.levelAt side price = none ∧ m.queueAt side price = [] ∨
      b.levelAt side price = some (levelOf (m.queueAt side price)) := by
  rw [h.eq_withPool]
  cases side with
  | Buy => exact find?_levelOf m.bids price
  | Sell => exact find?_levelOf m.asks price

theorem Represents.holdsAt (h : Represents N b m) (side : Side) (price : Int) :
    Holds b.pool side price (m.queueAt side price) := by
  cases side with
  | Buy => exact h.layout.holds_queue price
  | Sell => exact h.layout.symm.holds_queue price

theorem QueueBook.mem_resting_iff {price : Int} {r : Resting} :
    (price, r) ∈ resting m.bids m.asks ↔ ∃ side, r ∈ m.queueAt side price := by
  rw [mem_resting]
  constructor
  · rintro (h | h)
    · exact ⟨.Buy, mem_queue.mpr h⟩
    · exact ⟨.Sell, mem_queue.mpr h⟩
  · rintro ⟨_ | _, h⟩
    · exact .inl (mem_queue.mp h)
    · exact .inr (mem_queue.mp h)

/-- Following the pointers of a level visits its queue, and in reverse from the tail. -/
theorem Represents.walks (h : Represents N b m) (hv : m.Valid N) (side : Side) (price : Int) :
    b.nodesFromHead (levelOf (m.queueAt side price))
        = some ((m.queueAt side price).map Resting.slot) ∧
      b.nodesFromTail (levelOf (m.queueAt side price))
        = some ((m.queueAt side price).map Resting.slot).reverse := by
  cases side with
  | Buy => exact h.layout.walks hv.consistent price
  | Sell => exact h.layout.symm.walks hv.consistent.symm price

theorem Represents.ordersAt (h : Represents N b m) (hv : m.Valid N) (side : Side) (price : Int) :
    b.ordersAt side price = some ((m.queueAt side price).map fun r ↦ (r.id, r.qty)) := by
  have hmap : ((m.queueAt side price).map Resting.slot).mapM
      (fun p ↦ (b.pool.deref p).map fun x ↦ (x.id, x.qty))
        = some ((m.queueAt side price).map fun r ↦ (r.id, r.qty)) := by
    cases side with
    | Buy => exact h.layout.mapM_deref price
    | Sell => exact h.layout.symm.mapM_deref price
  rw [OrderBook.ordersAt]
  rcases h.levelAt_eq side price with ⟨hl, hq⟩ | hl
  · rw [hl, hq]
    rfl
  · rw [hl]
    simp only [(h.walks hv side price).1, Option.bind_eq_bind, Option.bind_some, hmap]

/-- The quantity at a price, added up in 64 bits. -/
def QueueBook.qtyAt (m : QueueBook) (side : Side) (price : Int) : Int :=
  (m.queueAt side price).foldl (fun q r ↦ (q + r.qty).bmod (2 ^ 64)) 0

theorem Represents.qtyAt (h : Represents N b m) (hv : m.Valid N) (side : Side) (price : Int) :
    b.qtyAt side price = some (m.qtyAt side price) := by
  have hfold : ∀ (q : List Resting) (acc : Int), (∀ r ∈ q, r ∈ m.queueAt side price) →
      (q.map Resting.slot).foldlM
        (fun q p ↦ (b.pool.deref p).map fun x ↦ (q + x.qty).bmod (2 ^ 64)) acc
          = some (q.foldl (fun q r ↦ (q + r.qty).bmod (2 ^ 64)) acc) := by
    intro q
    induction q with
    | nil => exact fun _ _ ↦ rfl
    | cons r q ih =>
      intro acc hmem
      obtain ⟨hr, hmem⟩ := List.forall_mem_cons.mp hmem
      obtain ⟨prev, next, hd⟩ := (h.holdsAt side price).exists_deref hr
      rw [List.map_cons, List.foldlM_cons, hd]
      exact ih _ hmem
  rw [OrderBook.qtyAt, QueueBook.qtyAt]
  rcases h.levelAt_eq side price with ⟨hl, hq⟩ | hl
  · rw [hl, hq]
    rfl
  · rw [hl]
    simp only [(h.walks hv side price).1, Option.bind_eq_bind, Option.bind_some]
    exact hfold _ 0 fun _ hr ↦ hr

end MatchingEngine
