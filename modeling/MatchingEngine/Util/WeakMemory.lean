import Mathlib.Data.List.Basic
import Mathlib.Logic.Function.Basic
import Mathlib.Order.Nat

/-!
# Memory with release and acquire

Threads share *registers*, which are atomic and have one writer each, and *cells*, which are not
atomic.  There is no single picture of the memory that all threads agree on.

* A register is the list of all that was stored in it.  A load may return any of it that is not
  older than what the loading thread has seen; a choice `k` says which.
* A thread has a *view*: for every register the store it has seen last, and for every thread how
  many of that one's accesses to cells are known to have happened before.
* A store publishes the view of its thread along with the value (release).  A load with `acquire`
  takes that view over, a `relaxed` one only remembers which store it was.
* Two accesses to a cell, one of them a write, must be ordered.  An access that is not known to come
  after all the earlier ones it conflicts with is a data race, and what follows is undefined:
  `none`.

Since a register has one writer, its stores are in the order in which that thread makes them.

An invariant of views that survives joining two of them is an invariant of the whole memory
(`Everywhere`), because views only ever spread by being joined.
-/

set_option autoImplicit false

namespace WeakMemory

/-- What a thread knows of the past. -/
structure View (τ ρ : Type) where
  /-- The store of each register that was seen last. -/
  seen : ρ → Nat
  /-- How many accesses of each thread to cells came before. -/
  known : τ → Nat

/-- A value in a register, with the view it was published with. -/
structure Stored (τ ρ V : Type) where
  value : V
  view : View τ ρ

/-- A cell, and the accesses made to it: who, and which of their accesses it was. -/
structure Cell (τ W : Type) where
  value : W
  writes : List (τ × Nat)
  reads : List (τ × Nat)

structure Memory (τ ρ κ V W : Type) where
  stores : ρ → List (Stored τ ρ V)
  cells : κ → Cell τ W
  views : τ → View τ ρ

inductive LoadOrder where
  | relaxed
  | acquire

variable {τ ρ κ V W : Type}

section Operations

variable [DecidableEq τ] [DecidableEq ρ] [DecidableEq κ]

namespace View

def start : View τ ρ := ⟨fun _ ↦ 0, fun _ ↦ 0⟩

def join (v w : View τ ρ) : View τ ρ :=
  ⟨fun r ↦ max (v.seen r) (w.seen r), fun i ↦ max (v.known i) (w.known i)⟩

def see (v : View τ ρ) (r : ρ) (n : Nat) : View τ ρ := { v with seen := Function.update v.seen r n }

/-- One more access of the thread. -/
def count (v : View τ ρ) (i : τ) : View τ ρ :=
  { v with known := Function.update v.known i (v.known i + 1) }

end View

namespace Memory

/-- A memory whose threads start with what is there. -/
def init (registers : ρ → V) (cells : κ → W) : Memory τ ρ κ V W where
  stores r := [⟨registers r, .start⟩]
  cells a := ⟨cells a, [], []⟩
  views _ := .start

/-- The store a load returns: what was chosen, but nothing older than what was seen. -/
def pick (m : Memory τ ρ κ V W) (i : τ) (r : ρ) (k : Nat) : Nat :=
  max ((m.views i).seen r) (min k ((m.stores r).length - 1))

/-- The thread takes over what was published with a value. -/
def learn (m : Memory τ ρ κ V W) (i : τ) (s : Stored τ ρ V) : Memory τ ρ κ V W :=
  { m with views := Function.update m.views i ((m.views i).join s.view) }

/-- The thread remembers which store it has seen. -/
def remember (m : Memory τ ρ κ V W) (i : τ) (r : ρ) (n : Nat) : Memory τ ρ κ V W :=
  { m with views := Function.update m.views i ((m.views i).see r n) }

def load (m : Memory τ ρ κ V W) (i : τ) (r : ρ) (o : LoadOrder) (k : Nat) :
    Option (Memory τ ρ κ V W × V) :=
  (m.stores r)[m.pick i r k]?.map fun s ↦
    match o with
    | .relaxed => (m.remember i r (m.pick i r k), s.value)
    | .acquire => (m.learn i s, s.value)

/-- A store with release order. -/
def store (m : Memory τ ρ κ V W) (i : τ) (r : ρ) (v : V) : Memory τ ρ κ V W :=
  let view := (m.views i).see r (m.stores r).length
  { m with
    stores := Function.update m.stores r (m.stores r ++ [⟨v, view⟩])
    views := Function.update m.views i view }

/-- Is a thread known to come after all these accesses? -/
def after (m : Memory τ ρ κ V W) (i : τ) (accesses : List (τ × Nat)) : Bool :=
  accesses.all fun a ↦ a.2 ≤ (m.views i).known a.1

def read (m : Memory τ ρ κ V W) (i : τ) (a : κ) : Option (Memory τ ρ κ V W × W) :=
  if m.after i (m.cells a).writes then
    let view := (m.views i).count i
    let cell := { m.cells a with reads := (i, view.known i) :: (m.cells a).reads }
    some ({ m with
      cells := Function.update m.cells a cell
      views := Function.update m.views i view }, (m.cells a).value)
  else none

def write (m : Memory τ ρ κ V W) (i : τ) (a : κ) (w : W) : Option (Memory τ ρ κ V W) :=
  if m.after i (m.cells a).writes && m.after i (m.cells a).reads then
    let view := (m.views i).count i
    let cell := { m.cells a with value := w, writes := (i, view.known i) :: (m.cells a).writes }
    some { m with
      cells := Function.update m.cells a cell
      views := Function.update m.views i view }
  else none

end Memory

end Operations

namespace Memory

/-- What every view has that is around. -/
structure Everywhere (p : View τ ρ → Prop) (m : Memory τ ρ κ V W) : Prop where
  views : ∀ i, p (m.views i)
  stored : ∀ r, ∀ s ∈ m.stores r, p s.view

/-- A view points at stores that are there, and knows no more of a thread than the thread itself. -/
structure Sane (m : Memory τ ρ κ V W) (v : View τ ρ) : Prop where
  seen : ∀ r, v.seen r < (m.stores r).length
  known : ∀ i, v.known i ≤ (m.views i).known i

/-- All views are sane, and every store knows its place. -/
structure Sound (m : Memory τ ρ κ V W) : Prop where
  everywhere : Everywhere (Sane m) m
  place : ∀ r n (s : Stored τ ρ V), (m.stores r)[n]? = some s → s.view.seen r = n

variable {m : Memory τ ρ κ V W} {p : View τ ρ → Prop} {i : τ} {r : ρ} {s : Stored τ ρ V}

/-! ## Views -/

theorem Everywhere.mono {q : View τ ρ → Prop} (h : Everywhere p m) (hpq : ∀ v, p v → q v) :
    Everywhere q m :=
  ⟨fun i ↦ hpq _ (h.views i), fun r s hs ↦ hpq _ (h.stored r s hs)⟩

theorem everywhere_init {registers : ρ → V} {cells : κ → W} (hp : p .start) :
    Everywhere p (init registers cells : Memory τ ρ κ V W) where
  views _ := hp
  stored r s hs := by
    rw [init, List.mem_singleton] at hs
    rw [hs]
    exact hp

theorem Sane.mono {v : View τ ρ} (h : Sane m v) (m' : Memory τ ρ κ V W)
    (hlen : ∀ r, (m.stores r).length ≤ (m'.stores r).length)
    (hknown : ∀ i, (m.views i).known i ≤ (m'.views i).known i) : Sane m' v :=
  ⟨fun r ↦ Nat.lt_of_lt_of_le (h.seen r) (hlen r), fun i ↦ Nat.le_trans (h.known i) (hknown i)⟩

theorem sound_init (registers : ρ → V) (cells : κ → W) :
    Sound (init registers cells : Memory τ ρ κ V W) where
  everywhere := everywhere_init ⟨fun r ↦ by simp [init, View.start], fun _ ↦ Nat.le_refl _⟩
  place r n s hs := by
    obtain ⟨hn, rfl⟩ := List.getElem?_eq_some_iff.mp hs
    have hn : n < 1 := hn
    obtain rfl : n = 0 := by omega
    rfl

theorem Sound.pick_lt (h : Sound m) (i : τ) (r : ρ) (k : Nat) :
    (m.views i).seen r ≤ m.pick i r k ∧ m.pick i r k < (m.stores r).length := by
  have := (h.everywhere.views i).seen r
  rw [pick]
  omega

theorem after_iff {accesses : List (τ × Nat)} :
    m.after i accesses = true ↔ ∀ x ∈ accesses, x.2 ≤ (m.views i).known x.1 := by
  simp [after]

/-! ## What spreads -/

variable [DecidableEq τ]

/-- A thread whose view changes. -/
theorem Everywhere.update (h : Everywhere p m) (cells : κ → Cell τ W) {view : View τ ρ}
    (hp : p view) :
    Everywhere p ⟨m.stores, cells, Function.update m.views i view⟩ where
  views j := by
    by_cases hj : j = i
    · subst hj
      simpa using hp
    · simpa [Function.update_of_ne hj] using h.views j
  stored := h.stored

theorem Everywhere.learn (h : Everywhere p m) (hjoin : ∀ v w, p v → p w → p (v.join w))
    (hs : s ∈ m.stores r) (i : τ) : Everywhere p (m.learn i s) :=
  h.update m.cells (hjoin _ _ (h.views i) (h.stored r s hs))

/-- Who learns something has seen no less, and counts its own accesses as before. -/
theorem Sound.learn_views (h : Sound m) (hs : s ∈ m.stores r) (i j : τ) :
    (∀ r', (m.views j).seen r' ≤ ((m.learn i s).views j).seen r') ∧
      ((m.learn i s).views j).known j = (m.views j).known j := by
  by_cases hj : j = i
  · subst hj
    simp only [learn, Function.update_self]
    exact ⟨fun _ ↦ Nat.le_max_left _ _, Nat.max_eq_left ((h.everywhere.stored r s hs).known j)⟩
  · simp [learn, Function.update_of_ne hj]

theorem Sound.learn (h : Sound m) (hs : s ∈ m.stores r) (i : τ) : Sound (m.learn i s) := by
  have hall := h.everywhere.mono fun v hv ↦ hv.mono (m.learn i s) (fun _ ↦ Nat.le_refl _)
    fun j ↦ (h.learn_views hs i j).2.ge
  refine ⟨hall.update _ ⟨fun r' ↦ ?_, fun j ↦ ?_⟩, h.place⟩
  · exact Nat.max_lt.mpr ⟨(hall.views i).seen r', (hall.stored r s hs).seen r'⟩
  · exact Nat.max_le.mpr ⟨(hall.views i).known j, (hall.stored r s hs).known j⟩

/-- A thread accesses a cell. -/
theorem Sound.count (h : Sound m) (i : τ) (cells : κ → Cell τ W) :
    Sound ⟨m.stores, cells, Function.update m.views i ((m.views i).count i)⟩ := by
  have hknown : ∀ j, (m.views j).known j
      ≤ (Function.update m.views i ((m.views i).count i) j).known j := by
    intro j
    by_cases hj : j = i
    · subst hj
      simp [View.count]
    · rw [Function.update_of_ne hj]
  have hall := h.everywhere.mono fun v hv ↦ hv.mono
    ⟨m.stores, cells, Function.update m.views i ((m.views i).count i)⟩
    (fun _ ↦ Nat.le_refl _) hknown
  refine ⟨hall.update _ ⟨(hall.views i).seen, fun j ↦ ?_⟩, h.place⟩
  by_cases hj : j = i
  · subst hj
    simp [View.count]
  · simpa [View.count, Function.update_of_ne hj] using (h.everywhere.views i).known j

/-! ## Loads and stores -/

variable [DecidableEq ρ]

theorem Everywhere.store (h : Everywhere p m) {v : V}
    (hp : p ((m.views i).see r (m.stores r).length)) : Everywhere p (m.store i r v) where
  views := (h.update m.cells hp).views
  stored r' s hs := by
    simp only [Memory.store] at hs
    by_cases hr : r' = r
    · subst hr
      rw [Function.update_self, List.mem_append, List.mem_singleton] at hs
      rcases hs with hs | rfl
      · exact h.stored r' s hs
      · exact hp
    · rw [Function.update_of_ne hr] at hs
      exact h.stored r' s hs

theorem Sound.store (h : Sound m) (i : τ) (r : ρ) (v : V) : Sound (m.store i r v) := by
  have hlen : ∀ r', (m.stores r').length ≤ ((m.store i r v).stores r').length := by
    intro r'
    simp only [Memory.store]
    by_cases hr : r' = r
    · subst hr
      simp
    · simp [Function.update_of_ne hr]
  have hknown : ∀ j, ((m.store i r v).views j).known j = (m.views j).known j := by
    intro j
    simp only [Memory.store]
    by_cases hj : j = i
    · subst hj
      rw [Function.update_self]
      rfl
    · rw [Function.update_of_ne hj]
  refine ⟨(h.everywhere.mono fun w hw ↦ hw.mono _ hlen fun j ↦ (hknown j).ge).store
    ⟨fun r' ↦ ?_, fun j ↦ ?_⟩, ?_⟩
  · simp only [View.see, Memory.store]
    by_cases hr : r' = r
    · subst hr
      simp
    · rw [Function.update_of_ne hr, Function.update_of_ne hr]
      exact (h.everywhere.views i).seen r'
  · rw [hknown]
    exact (h.everywhere.views i).known j
  · intro r' n s hs
    simp only [Memory.store] at hs
    by_cases hr : r' = r
    · subst hr
      rw [Function.update_self, List.getElem?_append] at hs
      split at hs
      · exact h.place r' n s hs
      · rename_i hn
        obtain ⟨hlt, rfl⟩ := List.getElem?_eq_some_iff.mp hs
        rw [List.length_singleton] at hlt
        have hlast : n = (m.stores r').length := by omega
        simp [View.see, hlast]
    · rw [Function.update_of_ne hr] at hs
      exact h.place r' n s hs

/-- **A load with acquire** returns something that was stored, and from then on the thread knows
what was known there. -/
theorem Sound.load_acquire (h : Sound m) (i : τ) (r : ρ) (k : Nat) :
    ∃ s, (m.stores r)[m.pick i r k]? = some s ∧ s.view.seen r = m.pick i r k ∧
      m.load i r .acquire k = some (m.learn i s, s.value) := by
  have hlt := (h.pick_lt i r k).2
  have hs := List.getElem?_eq_getElem hlt
  exact ⟨_, hs, h.place r _ _ hs, by rw [load, hs]; rfl⟩

/-- A thread that has seen the last store of a register loads that one. -/
theorem Sound.load_relaxed (h : Sound m) (hlast : (m.views i).seen r + 1 = (m.stores r).length)
    (k : Nat) :
    ∃ s, (m.stores r)[(m.views i).seen r]? = some s ∧
      m.load i r .relaxed k = some (m, s.value) := by
  have hpick : m.pick i r k = (m.views i).seen r := by
    rw [pick]
    omega
  have hs := List.getElem?_eq_getElem ((h.everywhere.views i).seen r)
  refine ⟨_, hs, ?_⟩
  have hsame : (m.views i).see r ((m.views i).seen r) = m.views i := by
    rw [View.see, Function.update_eq_self]
  rw [load, hpick, hs]
  simp only [Option.map_some, remember, hsame, Function.update_eq_self]

end Memory

end WeakMemory
