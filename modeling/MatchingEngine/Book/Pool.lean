import MatchingEngine.Util.LinkedList

/-!
# The object pool

`ObjectPool<T>` is a slab of slots with an intrusive free-list: a slot that is free holds the
pointer to the next free slot, a slot that is in use holds a `T`, and both live in the same bytes.
`Slot` is that union, tagged by what was last written to it.

A pointer into the slab is the index of a slot, and `none` is `nullptr`.  Reading a slot as
something it does not hold, or touching an address outside the slab, is undefined behaviour in the
source; here such a read gives `none`, and so does every operation that performs one.  That an
operation answers `some` therefore says that it went through without touching a dead object.
-/

set_option autoImplicit false

namespace MatchingEngine

/-- A non-null pointer into a slab: the index of the slot. -/
abbrev Ptr := Nat

/-- One slot of the slab, tagged by the member of the union that is live. -/
inductive Slot (T : Type) where
  /-- Never written. -/
  | raw
  /-- On the free-list, or popped from it and not yet constructed. -/
  | next (p : Option Ptr)
  /-- Holding an object. -/
  | storage (v : T)

/-- `ObjectPool<T>`. -/
structure ObjectPool (T : Type) where
  /-- The number of slots. -/
  capacity : Nat
  /-- The slab; `none` outside it. -/
  slots : Ptr → Option (Slot T)
  /-- The first free slot. -/
  freeHead : Option Ptr
  /-- How many slots have been handed out. -/
  inUse : Nat

namespace ObjectPool

variable {T : Type}

/-- Thread the slots below `i` into the free-list, from the last to the first. -/
def thread : Nat → ObjectPool T → ObjectPool T
  | 0, pool => pool
  | i + 1, pool =>
    thread i { pool with
      slots := Function.update pool.slots i (some (.next pool.freeHead))
      freeHead := some i }

/-- The constructor: a slab of `capacity` slots, all of them free. -/
def new (capacity : Nat) : ObjectPool T :=
  thread capacity
    { capacity
      slots := fun p ↦ if p < capacity then some .raw else none
      freeHead := none
      inUse := 0 }

/-- Pop a slot off the free-list; `nullptr` when there is none. -/
def acquire (pool : ObjectPool T) : Option (Option Ptr × ObjectPool T) :=
  match pool.freeHead with
  | none => some (none, pool)
  | some s =>
    match pool.slots s with
    | some (.next n) => some (some s, { pool with freeHead := n, inUse := pool.inUse + 1 })
    | _ => none

/-- Push a slot back onto the free-list. -/
def release (pool : ObjectPool T) (p : Ptr) : Option (ObjectPool T) :=
  match pool.slots p with
  | none => none
  | some _ =>
    some { pool with
      slots := Function.update pool.slots p (some (.next pool.freeHead))
      freeHead := some p
      inUse := pool.inUse - 1 }

/-- Read through a pointer to an object. -/
def deref (pool : ObjectPool T) (p : Ptr) : Option T :=
  match pool.slots p with
  | some (.storage v) => some v
  | _ => none

/-- Read the free-list pointer of a slot. -/
def nextFree (pool : ObjectPool T) (p : Ptr) : Option (Option Ptr) :=
  match pool.slots p with
  | some (.next n) => some n
  | _ => none

/-- Placement-new: build `v` in the slot `p`. -/
def construct (pool : ObjectPool T) (p : Ptr) (v : T) : Option (ObjectPool T) :=
  match pool.slots p with
  | none => none
  | some _ => some { pool with slots := Function.update pool.slots p (some (.storage v)) }

/-- Assign to fields of the object at `p`. -/
def modify (pool : ObjectPool T) (p : Ptr) (f : T → T) : Option (ObjectPool T) := do
  let v ← pool.deref p
  pool.construct p (f v)

/-! ## What the operations do

Each lemma gives the result of an operation that goes through, so that nothing later unfolds it. -/

/-- The pool with the object `v` at `p`. -/
def put (pool : ObjectPool T) (p : Ptr) (v : T) : ObjectPool T :=
  { pool with slots := Function.update pool.slots p (some (.storage v)) }

/-- The pool with `p` at the front of the free-list. -/
def push (pool : ObjectPool T) (p : Ptr) : ObjectPool T :=
  { pool with
    slots := Function.update pool.slots p (some (.next pool.freeHead))
    freeHead := some p
    inUse := pool.inUse - 1 }

theorem deref_eq_some_iff {pool : ObjectPool T} {p : Ptr} {v : T} :
    pool.deref p = some v ↔ pool.slots p = some (.storage v) := by
  rw [deref]
  cases h : pool.slots p with
  | none => simp
  | some s => cases s <;> simp

theorem nextFree_eq_some_iff {pool : ObjectPool T} {p : Ptr} {n : Option Ptr} :
    pool.nextFree p = some n ↔ pool.slots p = some (.next n) := by
  rw [nextFree]
  cases h : pool.slots p with
  | none => simp
  | some s => cases s <;> simp

theorem construct_eq {pool : ObjectPool T} {p : Ptr} (v : T) (h : (pool.slots p).isSome) :
    pool.construct p v = some (pool.put p v) := by
  rw [construct]
  obtain ⟨s, hs⟩ := Option.isSome_iff_exists.mp h
  rw [hs]
  rfl

theorem modify_eq {pool : ObjectPool T} {p : Ptr} {v : T} (f : T → T)
    (h : pool.deref p = some v) : pool.modify p f = some (pool.put p (f v)) := by
  rw [modify, h]
  exact construct_eq (f v) (by rw [deref_eq_some_iff.mp h]; rfl)

theorem release_eq {pool : ObjectPool T} {p : Ptr} (h : (pool.slots p).isSome) :
    pool.release p = some (pool.push p) := by
  rw [release]
  obtain ⟨s, hs⟩ := Option.isSome_iff_exists.mp h
  rw [hs]
  rfl

theorem acquire_none {pool : ObjectPool T} (h : pool.freeHead = none) :
    pool.acquire = some (none, pool) := by
  rw [acquire, h]

theorem acquire_some {pool : ObjectPool T} {p : Ptr} {n : Option Ptr}
    (h : pool.freeHead = some p) (hn : pool.nextFree p = some n) :
    pool.acquire = some (some p, { pool with freeHead := n, inUse := pool.inUse + 1 }) := by
  rw [acquire, h]
  dsimp only
  rw [nextFree_eq_some_iff.mp hn]

theorem deref_put (pool : ObjectPool T) (p : Ptr) (v : T) :
    (pool.put p v).deref = Function.update pool.deref p (some v) := by
  funext q
  by_cases h : q = p
  · subst h; simp [deref, put]
  · simp [deref, put, h]

theorem nextFree_put (pool : ObjectPool T) (p : Ptr) (v : T) :
    (pool.put p v).nextFree = Function.update pool.nextFree p none := by
  funext q
  by_cases h : q = p
  · subst h; simp [nextFree, put]
  · simp [nextFree, put, h]

theorem deref_push (pool : ObjectPool T) (p : Ptr) :
    (pool.push p).deref = Function.update pool.deref p none := by
  funext q
  by_cases h : q = p
  · subst h; simp [deref, push]
  · simp [deref, push, h]

theorem nextFree_push (pool : ObjectPool T) (p : Ptr) :
    (pool.push p).nextFree = Function.update pool.nextFree p (some pool.freeHead) := by
  funext q
  by_cases h : q = p
  · subst h; simp [nextFree, push]
  · simp [nextFree, push, h]

/-! ## The initial free-list -/

theorem thread_chain (pool : ObjectPool T) {i : Nat} {l : List Ptr}
    (hl : LinkedList.Chain pool.nextFree pool.freeHead l) (hi : ∀ p ∈ l, i ≤ p) :
    LinkedList.Chain (thread i pool).nextFree (thread i pool).freeHead (List.range i ++ l) := by
  induction i generalizing pool l with
  | zero => simpa [thread] using hl
  | succ i ih =>
    rw [List.range_succ, List.append_assoc, List.singleton_append]
    refine ih _ ⟨rfl, pool.freeHead, ?_, ?_⟩ fun p hp ↦ ?_
    · simp [nextFree]
    · refine hl.congr fun p hp ↦ ?_
      have hne : p ≠ i := Nat.ne_of_gt (hi p hp)
      simp [nextFree, hne]
    · rcases List.mem_cons.mp hp with rfl | hp
      · exact Nat.le_refl _
      · have := hi p hp; omega

theorem thread_fields (i : Nat) (pool : ObjectPool T) :
    (thread i pool).capacity = pool.capacity ∧ (thread i pool).inUse = pool.inUse ∧
      ∀ p, ((thread i pool).slots p).isSome = (decide (p < i) || (pool.slots p).isSome) := by
  induction i generalizing pool with
  | zero => exact ⟨rfl, rfl, fun p ↦ by simp [thread]⟩
  | succ i ih =>
    obtain ⟨hc, hu, hs⟩ := ih { pool with
      slots := Function.update pool.slots i (some (.next pool.freeHead))
      freeHead := some i }
    refine ⟨hc, hu, fun p ↦ ?_⟩
    rw [thread, hs]
    by_cases h : p = i
    · subst h
      simp
    · have hlt : p < i + 1 ↔ p < i := ⟨fun hp ↦ Nat.lt_of_le_of_ne (Nat.le_of_lt_succ hp) h,
        fun hp ↦ Nat.lt_succ_of_lt hp⟩
      simp [h, hlt]

/-- **A new pool offers every slot**, slot `0` first. -/
theorem new_chain (capacity : Nat) :
    LinkedList.Chain (new (T := T) capacity).nextFree (new (T := T) capacity).freeHead
      (List.range capacity) := by
  have h := thread_chain (T := T)
    { capacity, slots := fun p ↦ if p < capacity then some .raw else none, freeHead := none,
      inUse := 0 } (i := capacity) (l := []) rfl (by simp)
  rwa [List.append_nil] at h

end ObjectPool

/-! ## Changing the objects -/

/-- Apply `f` to the object a slot holds. -/
def Slot.map {T : Type} (f : T → T) : Slot T → Slot T
  | .raw => .raw
  | .next p => .next p
  | .storage v => .storage (f v)

namespace ObjectPool

variable {T : Type} (f : T → T)

/-- Apply `f` to every object in the pool. -/
def map (pool : ObjectPool T) : ObjectPool T :=
  { pool with slots := fun p ↦ (pool.slots p).map (Slot.map f) }

variable (pool : ObjectPool T) (p : Ptr)

theorem slots_map : (pool.map f).slots p = (pool.slots p).map (Slot.map f) := rfl

theorem deref_map : (pool.map f).deref p = (pool.deref p).map f := by
  rw [deref, deref, slots_map]
  cases pool.slots p with
  | none => rfl
  | some s => cases s <;> rfl

theorem update_map (s : Slot T) :
    Function.update (pool.map f).slots p (some (s.map f))
      = fun q ↦ (Function.update pool.slots p (some s) q).map (Slot.map f) := by
  funext q
  by_cases h : q = p
  · subst h
    simp
  · simp [h, map]

theorem construct_map (v : T) :
    (pool.map f).construct p (f v) = (pool.construct p v).map (map f) := by
  have hput := update_map f pool p (.storage v)
  rw [construct, construct, slots_map]
  cases pool.slots p with
  | none => rfl
  | some s =>
    simp only [Slot.map] at hput
    simp only [Option.map_some, hput]
    rfl

theorem modify_map {g : T → T} (hg : ∀ v, g (f v) = f (g v)) :
    (pool.map f).modify p g = (pool.modify p g).map (map f) := by
  rw [modify, modify, deref_map]
  cases pool.deref p with
  | none => rfl
  | some v =>
    simp only [Option.map_some, Option.bind_eq_bind, Option.bind_some, hg]
    exact construct_map f pool p (g v)

theorem release_map : (pool.map f).release p = (pool.release p).map (map f) := by
  have hput := update_map f pool p (.next pool.freeHead)
  rw [release, release, slots_map]
  cases pool.slots p with
  | none => rfl
  | some s =>
    simp only [Slot.map] at hput
    simp only [Option.map_some, show (pool.map f).freeHead = pool.freeHead from rfl, hput]
    rfl

theorem acquire_map :
    (pool.map f).acquire = pool.acquire.map fun x ↦ (x.1, x.2.map f) := by
  rw [acquire, acquire, show (pool.map f).freeHead = pool.freeHead from rfl]
  cases pool.freeHead with
  | none => rfl
  | some s =>
    dsimp only
    rw [slots_map]
    cases pool.slots s with
    | none => rfl
    | some s => cases s <;> rfl

/-- A new pool holds no objects. -/
theorem new_map (capacity : Nat) : (new capacity).map f = new capacity := by
  have hthread : ∀ (i : Nat) (pool : ObjectPool T), pool.map f = pool →
      (thread i pool).map f = thread i pool := by
    intro i
    induction i with
    | zero => exact fun _ h ↦ h
    | succ i ih =>
      intro pool h
      refine ih _ ?_
      have hput := update_map f pool i (.next pool.freeHead)
      rw [h, Slot.map] at hput
      rw [map, ← hput]
  refine hthread capacity _ ?_
  simp only [map, mk.injEq, true_and, and_true]
  funext p
  split <;> rfl

end ObjectPool

end MatchingEngine
