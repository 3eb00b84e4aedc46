import MatchingEngine.Book.Queues

/-!
# The pointers spell out the queues

The nodes of a level are linked in the pool, and `Holds` says which queue they spell out.  Each
function of the code that follows or changes pointers is matched here with what it does to that
queue: `levelUnlink_eq` and `levelPushBack_eq` for a level, `matchLevel_serves` for the loop over
the makers of a level, `matchAgainst_serves` for the loop over the levels.

`Rewrites` and `Frees` are the frame of these: which slots may have been written, and how many have
gone back to the free list.
-/

set_option autoImplicit false

namespace MatchingEngine

open Greedy LevelQueue LinkedList

/-- The level of a queue: its first and its last node. -/
def levelOf (q : List Resting) : Level :=
  { head := q.head?.map Resting.slot, tail := q.getLast?.map Resting.slot }

/-- A level does not record quantities. -/
theorem levelOf_resize (r : Resting) (n : Int) (q : List Resting) :
    levelOf (resize r n :: q) = levelOf (r :: q) := by
  rw [levelOf, levelOf, List.getLast?_cons, List.getLast?_cons]
  cases q.getLast? <;> rfl

/-- The node of a resting order. -/
def nodeOf (side : Side) (price : Int) (r : Resting) (prev next : Option Ptr) : OrderNode :=
  { id := r.id, side, price, qty := r.qty, ts := r.ts, prev, next }

/-- The pool holds a queue as a linked list. -/
def Holds (pool : ObjectPool OrderNode) (side : Side) (price : Int) (q : List Resting) : Prop :=
  Seg pool.deref Resting.slot (nodeOf side price) none q none

/-! ## Writing to nodes -/

/-- `pool'` is `pool` with the objects in the slots `ps` rewritten. -/
structure Rewrites (pool pool' : ObjectPool OrderNode) (ps : List Ptr) : Prop where
  capacity : pool'.capacity = pool.capacity
  freeHead : pool'.freeHead = pool.freeHead
  inUse : pool'.inUse = pool.inUse
  slots : ∀ p, p ∉ ps → pool'.slots p = pool.slots p
  slab : ∀ p, (pool'.slots p).isSome = (pool.slots p).isSome

theorem Rewrites.refl (pool : ObjectPool OrderNode) (ps : List Ptr) : Rewrites pool pool ps :=
  ⟨rfl, rfl, rfl, fun _ _ ↦ rfl, fun _ ↦ rfl⟩

theorem Rewrites.trans {pool pool' pool'' : ObjectPool OrderNode} {ps : List Ptr}
    (h : Rewrites pool pool' ps) (h' : Rewrites pool' pool'' ps) : Rewrites pool pool'' ps :=
  ⟨h'.capacity.trans h.capacity, h'.freeHead.trans h.freeHead, h'.inUse.trans h.inUse,
    fun p hp ↦ (h'.slots p hp).trans (h.slots p hp), fun p ↦ (h'.slab p).trans (h.slab p)⟩

theorem Rewrites.mono {pool pool' : ObjectPool OrderNode} {ps qs : List Ptr}
    (h : Rewrites pool pool' ps) (hsub : ps ⊆ qs) : Rewrites pool pool' qs :=
  ⟨h.capacity, h.freeHead, h.inUse, fun p hp ↦ h.slots p fun hm ↦ hp (hsub hm), h.slab⟩

theorem Rewrites.put {pool : ObjectPool OrderNode} {p : Ptr} {v : OrderNode} {ps : List Ptr}
    (hp : p ∈ ps) (hv : pool.deref p = some v) (x : OrderNode) :
    Rewrites pool (pool.put p x) ps := by
  refine ⟨rfl, rfl, rfl, fun q hq ↦ Function.update_of_ne ?_ _ _, fun q ↦ ?_⟩
  · rintro rfl
    exact hq hp
  by_cases h : q = p
  · subst h
    rw [ObjectPool.deref_eq_some_iff.mp hv]
    simp [ObjectPool.put]
  · simp [ObjectPool.put, h]

theorem deref_congr {pool pool' : ObjectPool OrderNode} {p : Ptr}
    (h : pool'.slots p = pool.slots p) : pool'.deref p = pool.deref p := by
  rw [ObjectPool.deref, ObjectPool.deref, h]

theorem nextFree_congr {pool pool' : ObjectPool OrderNode} {p : Ptr}
    (h : pool'.slots p = pool.slots p) : pool'.nextFree p = pool.nextFree p := by
  rw [ObjectPool.nextFree, ObjectPool.nextFree, h]

/-- Rewriting other slots leaves the free-list. -/
theorem Rewrites.chain {pool pool' : ObjectPool OrderNode} {ps free : List Ptr}
    (h : Rewrites pool pool' ps) (hdisj : ∀ p ∈ free, p ∉ ps)
    (hfree : Chain pool.nextFree pool.freeHead free) :
    Chain pool'.nextFree pool'.freeHead free := by
  rw [h.freeHead]
  exact hfree.congr fun p hp ↦ nextFree_congr (h.slots p (hdisj p hp))

/-! ## Linking and unlinking -/

/-- A queue only depends on the slots it occupies. -/
theorem Holds.congr {pool pool' : ObjectPool OrderNode} {side : Side} {price : Int}
    {q : List Resting} (h : Holds pool side price q)
    (heq : ∀ p ∈ q.map Resting.slot, pool'.slots p = pool.slots p) : Holds pool' side price q :=
  Seg.congr h fun r hr ↦ deref_congr (heq r.slot (List.mem_map_of_mem hr))

/-- What the heap holds at an element of a queue. -/
theorem Holds.deref_eq {pool : ObjectPool OrderNode} {side : Side} {price : Int}
    {xs ys : List Resting} {r : Resting} (h : Holds pool side price (xs ++ r :: ys)) :
    pool.deref r.slot = some (nodeOf side price r (xs.getLast?.map Resting.slot)
      (ys.head?.map Resting.slot)) := by
  have := Seg.heap_eq h
  rwa [Option.or_none, Option.or_none] at this

section Links

variable {pool : ObjectPool OrderNode} {side : Side} {price : Int}

/-- Pointing the end of a list, or the head of the level when the list is empty, at `v`. -/
theorem setNext_eq {xs : List Resting} {after : Option Ptr} (u t v : Option Ptr)
    (h : Seg pool.deref Resting.slot (nodeOf side price) none xs after)
    (hnd : (xs.map Resting.slot).Nodup) :
    ∃ pool', OrderBook.setNext pool ⟨(xs.head?.map Resting.slot).or u, t⟩
        (xs.getLast?.map Resting.slot) v = some (pool', ⟨(xs.head?.map Resting.slot).or v, t⟩) ∧
      Seg pool'.deref Resting.slot (nodeOf side price) none xs v ∧
      Rewrites pool pool' (xs.map Resting.slot) := by
  rcases List.eq_nil_or_concat' xs with rfl | ⟨xs, z, rfl⟩
  · exact ⟨pool, rfl, trivial, Rewrites.refl _ _⟩
  · rw [List.map_append, List.nodup_append] at hnd
    have hz : z.slot ∉ xs.map Resting.slot := fun hm ↦ hnd.2.2 _ hm _ (by simp) rfl
    have hzd := h.heap_eq
    refine ⟨_, ?_, ?_, Rewrites.put (by simp) hzd
      (nodeOf side price z ((xs.getLast?.map Resting.slot).or none) v)⟩
    · rw [List.getLast?_concat, Option.map_some, OrderBook.setNext, ObjectPool.modify_eq _ hzd]
      have hhead : ∀ w : Option Ptr, ((xs ++ [z]).head?.map Resting.slot).or w
          = (xs ++ [z]).head?.map Resting.slot := by
        intro w
        cases xs <;> rfl
      rw [hhead, hhead]
      rfl
    · rw [ObjectPool.deref_put]
      exact h.update_last hz

/-- Pointing the start of a list, or the tail of the level when the list is empty, at `v`. -/
theorem setPrev_eq {ys : List Resting} {before : Option Ptr} (hd u v : Option Ptr)
    (h : Seg pool.deref Resting.slot (nodeOf side price) before ys none)
    (hnd : (ys.map Resting.slot).Nodup) :
    ∃ pool', OrderBook.setPrev pool ⟨hd, (ys.getLast?.map Resting.slot).or u⟩
        (ys.head?.map Resting.slot) v = some (pool', ⟨hd, (ys.getLast?.map Resting.slot).or v⟩) ∧
      Seg pool'.deref Resting.slot (nodeOf side price) v ys none ∧
      Rewrites pool pool' (ys.map Resting.slot) := by
  cases ys with
  | nil => exact ⟨pool, rfl, trivial, Rewrites.refl _ _⟩
  | cons w ys =>
    rw [List.map_cons, List.nodup_cons] at hnd
    refine ⟨_, ?_, ?_, Rewrites.put (by simp) h.1
      (nodeOf side price w v ((ys.head?.map Resting.slot).or none))⟩
    · rw [List.head?_cons, Option.map_some, OrderBook.setPrev, ObjectPool.modify_eq _ h.1,
        List.getLast?_cons]
      rfl
    · rw [ObjectPool.deref_put]
      exact h.update_head rfl hnd.1

/-- Taking a node out of the middle of a list. -/
theorem levelUnlink_eq {xs ys : List Resting} {r : Resting}
    (h : Holds pool side price (xs ++ r :: ys)) (hnd : ((xs ++ r :: ys).map Resting.slot).Nodup) :
    ∃ pool', OrderBook.levelUnlink pool (levelOf (xs ++ r :: ys)) r.slot
        = some (pool', levelOf (xs ++ ys)) ∧
      Holds pool' side price (xs ++ ys) ∧
      Rewrites pool pool' ((xs ++ r :: ys).map Resting.slot) := by
  have hr := h.deref_eq
  obtain ⟨hxs, -, hys⟩ := seg_append.mp h
  rw [List.map_append, List.map_cons, List.nodup_append, List.nodup_cons] at hnd
  obtain ⟨hndx, ⟨hry, hndy⟩, hdisj⟩ := hnd
  have hrx : r.slot ∉ xs.map Resting.slot := fun hm ↦ hdisj _ hm _ List.mem_cons_self rfl
  have hxy : ∀ p ∈ ys.map Resting.slot, p ∉ xs.map Resting.slot := fun p hp hm ↦
    hdisj p hm p (List.mem_cons_of_mem _ hp) rfl
  -- first the forward pointer of the predecessor
  obtain ⟨pool₁, he₁, hxs₁, hw₁⟩ := setNext_eq (some r.slot)
    ((ys.getLast?.map Resting.slot).or (some r.slot)) (ys.head?.map Resting.slot) hxs hndx
  have hr₁ := (deref_congr (hw₁.slots _ hrx)).trans hr
  have hys₁ := hys.congr fun a ha ↦ deref_congr (hw₁.slots a.slot (hxy _ (List.mem_map_of_mem ha)))
  -- then the back pointer of the successor
  obtain ⟨pool₂, he₂, hys₂, hw₂⟩ := setPrev_eq
    ((xs.head?.map Resting.slot).or (ys.head?.map Resting.slot)) (some r.slot)
    (xs.getLast?.map Resting.slot) hys₁ hndy
  have hr₂ := (deref_congr (hw₂.slots _ hry)).trans hr₁
  have hxs₂ := hxs₁.congr fun a ha ↦ deref_congr (hw₂.slots a.slot fun hm ↦
    hxy _ hm (List.mem_map_of_mem ha))
  refine ⟨pool₂.put r.slot (nodeOf side price r none none), ?_, ?_, ?_⟩
  · have hlvl : levelOf (xs ++ r :: ys) = ⟨(xs.head?.map Resting.slot).or (some r.slot),
        (ys.getLast?.map Resting.slot).or (some r.slot)⟩ := by
      rw [levelOf, List.head?_append, List.getLast?_append, List.getLast?_cons]
      cases xs.head? <;> cases ys.getLast? <;> rfl
    have hlvl' : levelOf (xs ++ ys) = ⟨(xs.head?.map Resting.slot).or (ys.head?.map Resting.slot),
        (ys.getLast?.map Resting.slot).or (xs.getLast?.map Resting.slot)⟩ := by
      rw [levelOf, List.head?_append, List.getLast?_append]
      cases xs.head? <;> cases ys.getLast? <;> rfl
    rw [OrderBook.levelUnlink, hr, hlvl, hlvl']
    simp only [Option.bind_eq_bind, Option.bind_some, nodeOf]
    rw [he₁]
    simp only [Option.bind_some, hr₁, nodeOf]
    rw [he₂]
    simp only [Option.bind_some, ObjectPool.modify_eq _ hr₂, nodeOf]
    rfl
  · rw [Holds, ObjectPool.deref_put]
    refine seg_append.mpr ⟨?_, ?_⟩
    · rw [Option.or_none]
      exact hxs₂.update_of_notMem hrx
    · rw [Option.or_none]
      exact hys₂.update_of_notMem hry
  · refine ((hw₁.mono ?_).trans (hw₂.mono ?_)).trans (Rewrites.put (by simp) hr₂ _)
    · intro p hp
      rw [List.map_append]
      exact List.mem_append_left _ hp
    · intro p hp
      rw [List.map_append, List.map_cons]
      exact List.mem_append_right _ (List.mem_cons_of_mem _ hp)

/-- Appending a node at the end of a list. -/
theorem levelPushBack_eq {q : List Resting} {r : Resting} {prev next : Option Ptr}
    (h : Holds pool side price q) (hr : pool.deref r.slot = some (nodeOf side price r prev next))
    (hnd : (q.map Resting.slot).Nodup) (hnew : r.slot ∉ q.map Resting.slot) :
    ∃ pool', OrderBook.levelPushBack pool (levelOf q) r.slot = some (pool', levelOf (q ++ [r])) ∧
      Holds pool' side price (q ++ [r]) ∧ Rewrites pool pool' (r.slot :: q.map Resting.slot) := by
  have hput : (pool.put r.slot (nodeOf side price r (levelOf q).tail none)).deref r.slot
      = some (nodeOf side price r (levelOf q).tail none) := by
    rw [ObjectPool.deref_put, Function.update_self]
  have hq₁ : Seg (pool.put r.slot (nodeOf side price r (levelOf q).tail none)).deref Resting.slot
      (nodeOf side price) none q none := by
    rw [ObjectPool.deref_put]
    exact h.update_of_notMem hnew
  obtain ⟨pool₂, he₂, hq₂, hw₂⟩ := setNext_eq none (levelOf q).tail (some r.slot) hq₁ hnd
  have hr₂ := (deref_congr (hw₂.slots _ hnew)).trans hput
  refine ⟨pool₂, ?_, seg_append.mpr ⟨hq₂, ?_, trivial⟩, ?_⟩
  · have hlvl : levelOf q = ⟨(q.head?.map Resting.slot).or none, (levelOf q).tail⟩ := by
      rw [Option.or_none]; rfl
    have hlvl' : levelOf (q ++ [r]) = ⟨(q.head?.map Resting.slot).or (some r.slot),
        some r.slot⟩ := by
      rw [levelOf, List.getLast?_concat, List.head?_append]
      cases q.head? <;> rfl
    rw [OrderBook.levelPushBack, ObjectPool.modify_eq _ hr, hlvl']
    simp only [Option.bind_eq_bind, Option.bind_some]
    rw [hlvl]
    exact congrArg (Option.bind · _) he₂
  · rw [Option.or_none]
    exact hr₂
  · exact (Rewrites.put List.mem_cons_self hr _).trans (hw₂.mono (List.subset_cons_self _ _))

end Links

/-! ## Matching -/

/-- `pool'` is `pool` after objects in the slots `ps` were rewritten and `n` of them released. -/
structure Frees (pool pool' : ObjectPool OrderNode) (ps : List Ptr) (n : Nat) : Prop where
  capacity : pool'.capacity = pool.capacity
  inUse : pool'.inUse = pool.inUse - n
  slots : ∀ p, p ∉ ps → pool'.slots p = pool.slots p
  slab : ∀ p, (pool'.slots p).isSome = (pool.slots p).isSome

theorem Frees.trans {pool pool' pool'' : ObjectPool OrderNode} {ps : List Ptr} {m n : Nat}
    (h : Frees pool pool' ps m) (h' : Frees pool' pool'' ps n) : Frees pool pool'' ps (m + n) :=
  ⟨h'.capacity.trans h.capacity, by rw [h'.inUse, h.inUse]; omega,
    fun p hp ↦ (h'.slots p hp).trans (h.slots p hp), fun p ↦ (h'.slab p).trans (h.slab p)⟩

theorem Frees.mono {pool pool' : ObjectPool OrderNode} {ps qs : List Ptr} {n : Nat}
    (h : Frees pool pool' ps n) (hsub : ps ⊆ qs) : Frees pool pool' qs n :=
  ⟨h.capacity, h.inUse, fun p hp ↦ h.slots p fun hm ↦ hp (hsub hm), h.slab⟩

theorem Rewrites.frees {pool pool' : ObjectPool OrderNode} {ps : List Ptr}
    (h : Rewrites pool pool' ps) : Frees pool pool' ps 0 :=
  ⟨h.capacity, h.inUse, h.slots, h.slab⟩

theorem Frees.push {pool : ObjectPool OrderNode} {p : Ptr} {ps : List Ptr} (hp : p ∈ ps)
    (hs : (pool.slots p).isSome) : Frees pool (pool.push p) ps 1 := by
  refine ⟨rfl, rfl, fun q hq ↦ Function.update_of_ne ?_ _ _, fun q ↦ ?_⟩
  · rintro rfl
    exact hq hp
  · by_cases h : q = p
    · subst h
      rw [hs]
      simp [ObjectPool.push]
    · simp [ObjectPool.push, h]

/-- The trades a taker makes at one price. -/
def tradesAt (takerId : Nat) (price : Int) (fills : List (Fill Resting)) : List Trade :=
  fills.map fun f ↦ ⟨takerId, f.lot.id, price, f.amount⟩

section Matching

variable {side : Side} {price : Int} {r : Resting} {q : List Resting} {s : OrderBook.Matching}

/-- One iteration of the inner loop, up to the test on what the maker has left. -/
theorem matchLevel_cons (takerId fuel : Nat) (h : Holds s.pool side price (r :: q))
    (hnd : r.slot ∉ q.map Resting.slot) (hq : 0 < s.qty) :
    ∃ pool₁, Holds pool₁ side price (resize r (r.qty - min s.qty r.qty) :: q) ∧
      Rewrites s.pool pool₁ ((r :: q).map Resting.slot) ∧
      OrderBook.matchLevel takerId price (fuel + 1) (levelOf (r :: q)) s =
        if r.qty - min s.qty r.qty = 0 then do
          let (pool, lvl) ← OrderBook.levelUnlink pool₁ (levelOf (r :: q)) r.slot
          let pool ← pool.release r.slot
          OrderBook.matchLevel takerId price fuel lvl
            { pool, index := s.index.erase r.id, qty := s.qty - min s.qty r.qty
              trades := s.trades ++ [⟨takerId, r.id, price, min s.qty r.qty⟩] }
        else
          OrderBook.matchLevel takerId price fuel (levelOf (r :: q))
            { pool := pool₁, index := s.index, qty := s.qty - min s.qty r.qty
              trades := s.trades ++ [⟨takerId, r.id, price, min s.qty r.qty⟩] } := by
  have hr := h.1
  refine ⟨_, ?_, Rewrites.put (by simp) hr (nodeOf side price
    (resize r (r.qty - min s.qty r.qty)) none ((q.head?.map Resting.slot).or none)), ?_⟩
  · rw [Holds, ObjectPool.deref_put]
    exact h.update_head rfl hnd
  · have hhead : (levelOf (r :: q)).head = some r.slot := rfl
    rw [OrderBook.matchLevel, if_pos ⟨hq, rfl⟩, hhead]
    simp only [Option.bind_eq_bind, Option.bind_some, hr, ObjectPool.modify_eq _ hr,
      ObjectPool.deref_put, Function.update_self]
    rfl

/-- **Unlinking an order and releasing its node.** -/
theorem unlinkRelease_eq {pool : ObjectPool OrderNode} {free : List Ptr} {xs ys : List Resting}
    (h : Holds pool side price (xs ++ r :: ys)) (hnd : ((xs ++ r :: ys).map Resting.slot).Nodup)
    (hfree : Chain pool.nextFree pool.freeHead free)
    (hdisj : ∀ p ∈ free, p ∉ (xs ++ r :: ys).map Resting.slot) :
    ∃ pool₁ pool₂, OrderBook.levelUnlink pool (levelOf (xs ++ r :: ys)) r.slot
        = some (pool₁, levelOf (xs ++ ys)) ∧
      pool₁.release r.slot = some pool₂ ∧ Holds pool₂ side price (xs ++ ys) ∧
      Chain pool₂.nextFree pool₂.freeHead (r.slot :: free) ∧
      Frees pool pool₂ ((xs ++ r :: ys).map Resting.slot) 1 := by
  obtain ⟨pool₁, he₁, h₁, hw₁⟩ := levelUnlink_eq h hnd
  have hmem : r.slot ∈ (xs ++ r :: ys).map Resting.slot := by simp
  have hlive : (pool₁.slots r.slot).isSome := by
    rw [hw₁.slab, ObjectPool.deref_eq_some_iff.mp h.deref_eq]
    rfl
  have hnew : r.slot ∉ (xs ++ ys).map Resting.slot := by
    rw [List.map_append, List.map_cons, List.nodup_middle, List.nodup_cons] at hnd
    rw [List.map_append]
    exact hnd.1
  refine ⟨pool₁, pool₁.push r.slot, he₁, ObjectPool.release_eq hlive, ?_,
    ⟨rfl, pool₁.freeHead, ?_, ?_⟩, hw₁.frees.trans (Frees.push hmem hlive)⟩
  · rw [Holds, ObjectPool.deref_push]
    exact h₁.update_of_notMem hnew
  · rw [ObjectPool.nextFree_push, Function.update_self]
  · rw [ObjectPool.nextFree_push]
    refine (hw₁.chain hdisj hfree).congr fun p hp ↦ Function.update_of_ne ?_ _ _
    rintro rfl
    exact hdisj _ hp hmem

/-- `out` is what the inner loop leaves of a queue and of the state `s`.  The orders it fills
completely go back to the pool. -/
def ServesQueue (side : Side) (price : Int) (takerId : Nat) (q : List Resting) (free : List Ptr)
    (s : OrderBook.Matching) (out : Option (Level × OrderBook.Matching)) : Prop :=
  ∃ pool', out = some (levelOf (take s.qty q).rest,
      { pool := pool'
        index := QueueBook.forget s.index (consumed (take s.qty q).fills)
        qty := (take s.qty q).left
        trades := s.trades ++ tradesAt takerId price (take s.qty q).fills }) ∧
    Holds pool' side price (take s.qty q).rest ∧
    Chain pool'.nextFree pool'.freeHead
      (((consumed (take s.qty q).fills).map Resting.slot).reverse ++ free) ∧
    Frees s.pool pool' (q.map Resting.slot) (consumed (take s.qty q).fills).length

/-- The maker is used up: it has left the queue, and the loop goes on with the others. -/
theorem ServesQueue.cons {takerId : Nat} {free : List Ptr} {pool₁ : ObjectPool OrderNode}
    {out : Option (Level × OrderBook.Matching)} (hq : 0 < s.qty)
    (hz : r.qty - min s.qty r.qty = 0) (hw : Frees s.pool pool₁ ((r :: q).map Resting.slot) 1)
    (h : ServesQueue side price takerId q (r.slot :: free)
      { pool := pool₁, index := s.index.erase r.id, qty := s.qty - min s.qty r.qty
        trades := s.trades ++ [⟨takerId, r.id, price, min s.qty r.qty⟩] } out) :
    ServesQueue side price takerId (r :: q) free s out := by
  obtain ⟨pool', rfl, h', hfree', hw'⟩ := h
  have hfull : min s.qty r.qty = r.qty := by omega
  have hcons : consumed (⟨r, min s.qty r.qty⟩ :: (take (s.qty - min s.qty r.qty) q).fills)
      = r :: consumed (take (s.qty - min s.qty r.qty) q).fills :=
    (consumed_cons _ _).trans (if_pos hfull)
  rw [ServesQueue, take, if_pos hq]
  simp only [Resting.size_eq]
  rw [if_pos hz]
  refine ⟨pool', ?_, h', ?_, ?_⟩
  · rw [hcons]
    simp [tradesAt, QueueBook.forget]
  · rw [hcons, List.map_cons, List.reverse_cons, List.append_assoc]
    exact hfree'
  · rw [hcons, List.length_cons, Nat.add_comm]
    exact hw.trans (hw'.mono (List.subset_cons_self _ _))

/-- The taker is used up: the maker keeps its place, and the loop ends. -/
theorem servesQueue_partial (takerId fuel : Nat) {free : List Ptr} {pool₁ : ObjectPool OrderNode}
    (hq : 0 < s.qty) (hz : r.qty - min s.qty r.qty ≠ 0)
    (h₁ : Holds pool₁ side price (resize r (r.qty - min s.qty r.qty) :: q))
    (hw₁ : Rewrites s.pool pool₁ ((r :: q).map Resting.slot))
    (hfree : Chain pool₁.nextFree pool₁.freeHead free) :
    ServesQueue side price takerId (r :: q) free s
      (OrderBook.matchLevel takerId price (fuel + 1) (levelOf (r :: q))
        { pool := pool₁, index := s.index, qty := s.qty - min s.qty r.qty
          trades := s.trades ++ [⟨takerId, r.id, price, min s.qty r.qty⟩] }) := by
  have hpart : min s.qty r.qty ≠ r.qty := by omega
  have hcons : consumed [⟨r, min s.qty r.qty⟩] = [] := (consumed_cons _ _).trans (if_neg hpart)
  rw [ServesQueue, take, if_pos hq]
  simp only [Resting.size_eq]
  rw [if_neg hz]
  refine ⟨pool₁, ?_, h₁, ?_, ?_⟩
  · rw [OrderBook.matchLevel, if_neg (by dsimp only; omega), hcons, levelOf_resize]
    rfl
  · rw [hcons]
    exact hfree
  · rw [hcons]
    exact hw₁.frees

/-- **The inner loop serves the queue.** -/
theorem matchLevel_serves {side : Side} {price : Int} (takerId fuel : Nat) {q : List Resting}
    {s : OrderBook.Matching} {free : List Ptr} (h : Holds s.pool side price q)
    (hnd : (q.map Resting.slot).Nodup) (hfree : Chain s.pool.nextFree s.pool.freeHead free)
    (hdisj : ∀ p ∈ free, p ∉ q.map Resting.slot) (hfuel : q.length < fuel) :
    ServesQueue side price takerId q free s
      (OrderBook.matchLevel takerId price fuel (levelOf q) s) := by
  induction q generalizing s free fuel with
  | nil =>
    cases fuel with
    | zero => simp at hfuel
    | succ fuel =>
      refine ⟨s.pool, ?_, trivial, by simpa [take, consumed] using hfree,
        (Rewrites.refl s.pool []).frees⟩
      simp [OrderBook.matchLevel, Level.empty, levelOf, take, tradesAt, consumed, QueueBook.forget]
  | cons r q ih =>
    cases fuel with
    | zero => simp at hfuel
    | succ fuel =>
      have hnd' := List.nodup_cons.mp hnd
      by_cases hq : 0 < s.qty
      · obtain ⟨pool₁, h₁, hw₁, he₁⟩ := matchLevel_cons takerId fuel h hnd'.1 hq
        have hfree₁ := hw₁.chain hdisj hfree
        rw [he₁]
        by_cases hz : r.qty - min s.qty r.qty = 0
        · obtain ⟨pool₂, pool₃, he₂, he₃, h₃, hfree₃, hw₃⟩ := unlinkRelease_eq
            (show Holds pool₁ side price ([] ++ _ :: q) from h₁) hnd hfree₁ hdisj
          have hdisj₃ : ∀ p ∈ r.slot :: free, p ∉ q.map Resting.slot := by
            intro p hp
            rcases List.mem_cons.mp hp with rfl | hp
            · exact hnd'.1
            · exact fun hm ↦ hdisj p hp (List.mem_cons_of_mem _ hm)
          rw [List.nil_append, levelOf_resize] at he₂
          have he₂' : OrderBook.levelUnlink pool₁ (levelOf (r :: q)) r.slot
              = some (pool₂, levelOf q) := he₂
          have he₃' : pool₂.release r.slot = some pool₃ := he₃
          rw [if_pos hz, he₂']
          simp only [Option.bind_eq_bind, Option.bind_some, he₃']
          exact .cons hq hz (hw₁.frees.trans hw₃)
            (ih fuel h₃ hnd'.2 hfree₃ hdisj₃ (Nat.lt_of_succ_lt_succ hfuel))
        · cases fuel with
          | zero => simp at hfuel
          | succ fuel =>
            rw [if_neg hz]
            exact servesQueue_partial takerId fuel hq hz h₁ hw₁ hfree₁
      · rw [ServesQueue, take_of_nonpos (by omega)]
        refine ⟨s.pool, ?_, h, hfree, (Rewrites.refl _ _).frees⟩
        rw [OrderBook.matchLevel, if_neg (fun hc ↦ hq hc.1)]
        simp [tradesAt, consumed, QueueBook.forget]

end Matching

theorem levelOf_empty (q : List Resting) : (levelOf q).empty = q.isEmpty := by
  cases q <;> rfl

theorem slots_eq_of_entries {c : KeyCompare} {m : Queues c} {e : Int × List Resting}
    {es : List (Int × List Resting)} (h : m.entries = e :: es) :
    slots m = e.2.map Resting.slot ++ (flat es).map fun x ↦ x.2.slot := by
  rw [slots, lots, h, flat_cons, List.map_append, List.map_map]
  rfl

/-- The trades made at a price are the trades of the fills filed under it. -/
theorem tradesOf_keyed (takerId : Nat) (price : Int) (fills : List (Fill Resting)) :
    QueueBook.tradesOf takerId (fills.map fun f ↦ ⟨(price, f.lot), f.amount⟩)
      = tradesAt takerId price fills := by
  rw [QueueBook.tradesOf, List.map_map, tradesAt]
  rfl

theorem consumed_keyed (price : Int) (fills : List (Fill Resting)) :
    consumed (fills.map fun f ↦ (⟨(price, f.lot), f.amount⟩ : Fill (Int × Resting)))
      = (consumed fills).map fun r ↦ (price, r) :=
  consumed_map (fun r ↦ (price, r)) (fun _ ↦ rfl) fills

/-- `out` is what matching leaves of the side `opp'` and of the state `s` when it gives out the
fills of `w`: the queues of `opp'` are in the pool, the orders filled completely are out of the
index, and their slots are back on the free-list. -/
def Serves {c : KeyCompare} (side : Side) (takerId : Nat) (touched free : List Ptr)
    (s : OrderBook.Matching) (w : Swept Int Resting) (opp' : Queues c)
    (out : Option (BookSide c × OrderBook.Matching)) : Prop :=
  ∃ pool', out = some (opp'.map levelOf,
      { pool := pool'
        index := QueueBook.forget s.index ((consumed w.fills).map Prod.snd)
        qty := w.left
        trades := s.trades ++ QueueBook.tradesOf takerId w.fills }) ∧
    (∀ e ∈ opp'.entries, Holds pool' side e.1 e.2) ∧
    Chain pool'.nextFree pool'.freeHead
      (((consumed w.fills).map fun x ↦ x.2.slot).reverse ++ free) ∧
    Frees s.pool pool' touched (consumed w.fills).length

/-- Serving a queue, and then what is left of the side. -/
theorem Serves.cons {c : KeyCompare} {side : Side} {takerId : Nat}
    {touched touched' free : List Ptr} {s : OrderBook.Matching} {pool₁ : ObjectPool OrderNode}
    {price : Int} {t : Taken Resting}
    {w : Swept Int Resting} {opp' : Queues c} {out : Option (BookSide c × OrderBook.Matching)}
    (hw₁ : Frees s.pool pool₁ touched (consumed t.fills).length) (hsub : touched' ⊆ touched)
    (h : Serves side takerId touched' (((consumed t.fills).map Resting.slot).reverse ++ free)
      { pool := pool₁
        index := QueueBook.forget s.index (consumed t.fills)
        qty := t.left
        trades := s.trades ++ tradesAt takerId price t.fills } w opp' out) :
    Serves side takerId touched free s (w.after price t.fills) opp' out := by
  obtain ⟨pool', hout, h', hfree', hw'⟩ := h
  have hcons : consumed (w.after price t.fills).fills
      = (consumed t.fills).map (fun r ↦ (price, r)) ++ consumed w.fills := by
    rw [← consumed_keyed, consumed, Swept.after, List.filterMap_append]
    rfl
  refine ⟨pool', ?_, h', ?_, ?_⟩
  · rw [hout, hcons, ← tradesOf_keyed]
    simp [Swept.after, QueueBook.forget, QueueBook.tradesOf, Function.comp_def]
  · rw [hcons]
    simpa [Function.comp_def] using hfree'
  · rw [hcons, List.length_append, List.length_map]
    exact hw₁.trans (hw'.mono hsub)

section Sweeping

variable {c : KeyCompare} {side : Side} {opp : Queues c} {s : OrderBook.Matching}
  {free : List Ptr} {limit : Int}

/-- Matching that has nothing to do changes nothing: the taker is satisfied, the side is empty or
its best level does not cross. -/
theorem matchAgainst_idle (takerId fuel : Nat) {touched : List Ptr}
    (h : ∀ e ∈ opp.entries, Holds s.pool side e.1 e.2)
    (hfree : Chain s.pool.nextFree s.pool.freeHead free)
    (hstop : ∀ e ∈ opp.entries.head?, ¬ (0 < s.qty ∧ c.cross e.1 limit = true)) :
    Serves side takerId touched free s (swept (c.cross · limit) s.qty opp)
      (afterSweep (c.cross · limit) s.qty opp)
      (OrderBook.matchAgainst takerId limit (fuel + 1) (opp.map levelOf) s) := by
  have hw : swept (c.cross · limit) s.qty opp = ⟨[], opp.entries, s.qty⟩ := by
    rw [swept]
    cases hes : opp.entries with
    | nil => rfl
    | cons e es => rw [sweep, if_neg (hstop e (by rw [hes]; rfl))]
  have hafter : afterSweep (c.cross · limit) s.qty opp = opp := by
    ext1
    exact congrArg Swept.rest hw
  have hout : OrderBook.matchAgainst takerId limit (fuel + 1) (opp.map levelOf) s
      = some (opp.map levelOf, s) := by
    rw [OrderBook.matchAgainst]
    split
    · cases hes : opp.entries with
      | nil => rename_i hn; simp [SortedMap.isEmpty, hes] at hn
      | cons e es =>
        rename_i hn
        have hc : ¬ c.cross e.1 limit = true := fun hc ↦ hstop e (by rw [hes]; rfl) ⟨hn.1, hc⟩
        simp [SortedMap.begin?, hes, hc]
    · rfl
  rw [hw, hafter, hout]
  exact ⟨s.pool, by simp [QueueBook.tradesOf, QueueBook.forget, consumed], h, hfree,
    (Rewrites.refl _ _).frees⟩

/-- The queues of a side in a pool, with its free-list. -/
structure Sweepable (side : Side) (opp : Queues c) (pool : ObjectPool OrderNode) (free : List Ptr) :
    Prop where
  holds : ∀ e ∈ opp.entries, Holds pool side e.1 e.2
  nodup : (slots opp).Nodup
  chain : Chain pool.nextFree pool.freeHead free
  disjoint : ∀ p ∈ free, p ∉ slots opp
  length_le : (slots opp).length ≤ pool.capacity

/-- One iteration of the outer loop: the best level is served, and erased if that empties it. -/
theorem matchAgainst_cons (takerId fuel : Nat) {e : Int × List Resting}
    {es : List (Int × List Resting)} (hes : opp.entries = e :: es)
    (h : Sweepable side opp s.pool free) (hq : 0 < s.qty) (hc : c.cross e.1 limit = true) :
    ∃ pool₁, OrderBook.matchAgainst takerId limit (fuel + 1) (opp.map levelOf) s
        = OrderBook.matchAgainst takerId limit fuel
          ((serveFirst opp e.1 (take s.qty e.2)).map levelOf)
          { pool := pool₁
            index := QueueBook.forget s.index (consumed (take s.qty e.2).fills)
            qty := (take s.qty e.2).left
            trades := s.trades ++ tradesAt takerId e.1 (take s.qty e.2).fills } ∧
      Holds pool₁ side e.1 (take s.qty e.2).rest ∧ (∀ x ∈ es, Holds pool₁ side x.1 x.2) ∧
      Chain pool₁.nextFree pool₁.freeHead
        (((consumed (take s.qty e.2).fills).map Resting.slot).reverse ++ free) ∧
      Frees s.pool pool₁ (slots opp) (consumed (take s.qty e.2).fills).length := by
  have hslots := slots_eq_of_entries hes
  have hbegin : (opp.map levelOf).begin? = some (e.1, levelOf e.2) := by
    rw [SortedMap.begin?_map, SortedMap.begin?, hes]
    rfl
  have hne : (opp.map levelOf).isEmpty = false := by simp [SortedMap.isEmpty, hes]
  have hnd := hslots ▸ h.nodup
  have hsub : e.2.map Resting.slot ⊆ slots opp := by
    rw [hslots]
    exact List.subset_append_left _ _
  have hfuel : e.2.length < s.pool.capacity + 1 := by
    have hcap := hslots ▸ h.length_le
    rw [List.length_append, List.length_map] at hcap
    omega
  obtain ⟨pool₁, he₁, h₁, hfree₁, hw₁⟩ := matchLevel_serves takerId (s.pool.capacity + 1)
    (h.holds e (by simp [hes])) hnd.of_append_left h.chain
    (fun p hp hm ↦ h.disjoint p hp (hsub hm)) hfuel
  refine ⟨pool₁, ?_, h₁, fun x hx ↦ ?_, hfree₁, hw₁.mono hsub⟩
  · rw [OrderBook.matchAgainst, if_pos ⟨hq, hne⟩, hbegin]
    simp only [Option.bind_eq_bind, Option.bind_some]
    rw [if_pos hc, he₁]
    simp only [Option.bind_some, levelOf_empty, serveFirst]
    split
    · rw [SortedMap.erase_map]
    · rw [SortedMap.insert_map]
  · refine (h.holds x (by simp [hes, hx])).congr fun p hp ↦ hw₁.slots p fun hm ↦ ?_
    obtain ⟨r, hr, rfl⟩ := List.mem_map.mp hp
    refine (List.disjoint_of_nodup_append hnd) hm (List.mem_map.mpr ⟨(x.1, r), ?_, rfl⟩)
    exact mem_flat.mpr ⟨x.2, hx, hr⟩

/-- The side without its best level, which has been used up and released. -/
theorem Sweepable.next {opp' : Queues c} {pool pool₁ : ObjectPool OrderNode} {touched : List Ptr}
    {e : Int × List Resting} {n : Nat} (h : Sweepable side opp pool free)
    (hes : opp.entries = e :: opp'.entries) (qty : Int)
    (holds : ∀ x ∈ opp'.entries, Holds pool₁ side x.1 x.2)
    (hchain : Chain pool₁.nextFree pool₁.freeHead
      (((consumed (take qty e.2).fills).map Resting.slot).reverse ++ free))
    (hw : Frees pool pool₁ touched n) :
    slots opp' ⊆ slots opp ∧ Sweepable side opp' pool₁
      (((consumed (take qty e.2).fills).map Resting.slot).reverse ++ free) := by
  have hslots : slots opp = e.2.map Resting.slot ++ slots opp' := slots_eq_of_entries hes
  have hnd := hslots ▸ h.nodup
  have hsub : slots opp' ⊆ slots opp := by
    rw [hslots]
    exact List.subset_append_right _ _
  refine ⟨hsub, holds, hnd.of_append_right, hchain, fun p hp hm ↦ ?_, ?_⟩
  · rcases List.mem_append.mp hp with hp | hp
    · have hkey := map_key Resting.slot (fun _ _ ↦ rfl) qty e.2
      refine List.disjoint_of_nodup_append hnd ?_ hm
      rw [hkey]
      exact List.mem_append_left _ (List.mem_reverse.mp hp)
    · exact h.disjoint p hp (hsub hm)
  · have hcap := hslots ▸ h.length_le
    rw [List.length_append] at hcap
    rw [hw.capacity]
    omega

/-- **The outer loop sweeps the side.** -/
theorem matchAgainst_serves (takerId : Nat) (limit : Int) (fuel : Nat)
    (h : Sweepable side opp s.pool free) (hfuel : opp.size ≤ fuel) :
    Serves side takerId (slots opp) free s (swept (c.cross · limit) s.qty opp)
      (afterSweep (c.cross · limit) s.qty opp)
      (OrderBook.matchAgainst takerId limit (fuel + 1) (opp.map levelOf) s) := by
  induction fuel generalizing opp s free with
  | zero =>
    refine matchAgainst_idle takerId 0 h.holds h.chain fun e he ↦ ?_
    rw [List.eq_nil_of_length_eq_zero (Nat.le_zero.mp hfuel)] at he
    simp at he
  | succ fuel ih =>
    cases hes : opp.entries with
    | nil =>
      refine matchAgainst_idle takerId _ h.holds h.chain fun e he ↦ ?_
      rw [hes] at he
      simp at he
    | cons e es =>
      by_cases hstop : 0 < s.qty ∧ c.cross e.1 limit = true
      · obtain ⟨pool₁, he₁, h₁, hes₁, hfree₁, hw₁⟩ := matchAgainst_cons takerId (fuel + 1) hes h
          hstop.1 hstop.2
        obtain ⟨hsw, hafter⟩ := swept_cons (c.cross · limit) hes hstop.1 hstop.2
        have hentries := entries_serveFirst hes (take s.qty e.2)
        rw [he₁, hsw, hafter]
        by_cases hrest : (take s.qty e.2).rest.isEmpty = true
        · -- the level is used up, and the rest of the side is served from what it leaves
          rw [if_pos hrest] at hentries
          obtain ⟨hsub, hnext⟩ :=
            h.next (hentries.symm ▸ hes) s.qty (hentries.symm ▸ hes₁) hfree₁ hw₁
          refine Serves.cons hw₁ hsub (ih hnext ?_)
          rw [SortedMap.size, hes, List.length_cons] at hfuel
          rw [SortedMap.size, hentries]
          omega
        · -- the taker is used up, and the loop stops
          rw [if_neg hrest] at hentries
          have hleft := left_nonpos_of_rest (fun h ↦ hrest (List.isEmpty_iff.mpr h))
          refine Serves.cons hw₁ (List.Subset.refl _)
            (matchAgainst_idle takerId fuel ?_ hfree₁ fun x _ hx ↦
              absurd hx.1 (by dsimp only; omega))
          rw [hentries]
          exact List.forall_mem_cons.mpr ⟨h₁, hes₁⟩
      · refine matchAgainst_idle takerId _ h.holds h.chain fun x hx ↦ ?_
        rw [hes, List.head?_cons, Option.mem_some_iff] at hx
        exact hx ▸ hstop

end Sweeping

/-! ## Resting -/

/-- `pool'` is `pool` with one more slot handed out and the slots `ps` rewritten. -/
structure Takes (pool pool' : ObjectPool OrderNode) (ps : List Ptr) : Prop where
  capacity : pool'.capacity = pool.capacity
  inUse : pool'.inUse = pool.inUse + 1
  slots : ∀ p, p ∉ ps → pool'.slots p = pool.slots p
  slab : ∀ p, (pool'.slots p).isSome = (pool.slots p).isSome

/-- **A new node at the back of a queue**, in the first free slot. -/
theorem acquireBack_eq {pool : ObjectPool OrderNode} {side : Side} {price : Int} {q : List Resting}
    {r : Resting} {free : List Ptr} (h : Holds pool side price q)
    (hnd : (q.map Resting.slot).Nodup) (hchain : Chain pool.nextFree pool.freeHead (r.slot :: free))
    (hfree : r.slot ∉ free) (hnew : r.slot ∉ q.map Resting.slot)
    (hdisj : ∀ p ∈ free, p ∉ q.map Resting.slot) :
    ∃ pool₁ pool₂ pool₃, pool.acquire = some (some r.slot, pool₁) ∧
      pool₁.construct r.slot (nodeOf side price r none none) = some pool₂ ∧
      OrderBook.levelPushBack pool₂ (levelOf q) r.slot = some (pool₃, levelOf (q ++ [r])) ∧
      Holds pool₃ side price (q ++ [r]) ∧ Chain pool₃.nextFree pool₃.freeHead free ∧
      Takes pool pool₃ (r.slot :: q.map Resting.slot) := by
  obtain ⟨hhead, n, hn, hrest⟩ := hchain
  have hslot := ObjectPool.nextFree_eq_some_iff.mp hn
  have hlive : (({ pool with freeHead := n, inUse := pool.inUse + 1 } : ObjectPool OrderNode).slots
      r.slot).isSome := by
    rw [show _ = _ from hslot]
    rfl
  have hq₁ : Holds ({ pool with freeHead := n, inUse := pool.inUse + 1 } : ObjectPool OrderNode)
      side price q := h
  have hq₂ := hq₁.update_of_notMem (v := some (nodeOf side price r none none)) hnew
  rw [← ObjectPool.deref_put] at hq₂
  obtain ⟨pool₃, he₃, h₃, hw₃⟩ := levelPushBack_eq (r := r) hq₂
    (by rw [ObjectPool.deref_put, Function.update_self]) hnd hnew
  refine ⟨_, _, pool₃, ObjectPool.acquire_some hhead hn, ObjectPool.construct_eq _ hlive, he₃, h₃,
    ?_, hw₃.capacity, hw₃.inUse, fun p hp ↦ ?_, fun p ↦ ?_⟩
  · rw [hw₃.freeHead]
    refine hrest.congr fun p hp ↦ ?_
    have hne : p ≠ r.slot := fun he ↦ hfree (he ▸ hp)
    rw [nextFree_congr (hw₃.slots p (by simp [hne]; simpa using hdisj p hp)),
      ObjectPool.nextFree_put, Function.update_of_ne hne]
    rfl
  · have hne : p ≠ r.slot := fun he ↦ hp (by simp [he])
    rw [hw₃.slots p hp]
    exact Function.update_of_ne hne _ _
  · rw [hw₃.slab]
    by_cases hp : p = r.slot
    · subst hp
      simp [ObjectPool.put, hslot]
    · simp [ObjectPool.put, hp]

end MatchingEngine
