import Mathlib.Data.List.Induction
import Mathlib.Data.List.Nodup
import Mathlib.Logic.Function.Basic

/-!
# Lists threaded through a heap

Two shapes of pointer structure, each described by the list it spells out:

* `Seg heap addr node before l after` — a *doubly* linked segment.  Element `a` of `l` lives at
  `addr a`, and what the heap holds there is `node a p n`, where `p` and `n` are the addresses of
  its neighbours; `before` and `after` are what the two ends point at.
* `Chain next h l` — a *singly* linked list that starts at `h` and ends in a null pointer.

A segment is cut in two by `seg_append`, and is insensitive to writes elsewhere (`Seg.congr`).
Every list surgery is then two writes at the edges of a cut, and `Seg.update_head` and
`Seg.update_last` say what one such write does.  `walk` is the loop that follows links and collects
addresses; `Seg.walk_next` and `Seg.walk_prev` say that the two directions agree.

An absent value of the heap stands for an address that must not be read.
-/

set_option autoImplicit false

namespace LinkedList

universe u v w

variable {ι : Type u} {ν : Type v} {α : Type w}

/-! ## Following links -/

/-- Follow `next` from a possibly null pointer and collect the addresses met.  `none` means that
an address could not be read, or that the list did not end within `fuel` steps. -/
def walk (next : ι → Option (Option ι)) : Nat → Option ι → Option (List ι)
  | _, none => some []
  | 0, some _ => none
  | fuel + 1, some p => do
    let q ← next p
    let l ← walk next fuel q
    return p :: l

/-! ## Singly linked lists -/

/-- Following `next` from `h` spells out `l` and then stops. -/
def Chain (next : ι → Option (Option ι)) : Option ι → List ι → Prop
  | h, [] => h = none
  | h, p :: l => h = some p ∧ ∃ q, next p = some q ∧ Chain next q l

theorem Chain.congr {next next' : ι → Option (Option ι)} {h : Option ι} {l : List ι}
    (hc : Chain next h l) (heq : ∀ p ∈ l, next' p = next p) : Chain next' h l := by
  induction l generalizing h with
  | nil => exact hc
  | cons p l ih =>
    obtain ⟨hh, q, hq, hl⟩ := hc
    exact ⟨hh, q, (heq p List.mem_cons_self).trans hq,
      ih hl fun x hx ↦ heq x (List.mem_cons_of_mem _ hx)⟩

/-- What is on a list has a successor field. -/
theorem Chain.exists_next {next : ι → Option (Option ι)} {h : Option ι} {l : List ι}
    (hl : Chain next h l) {a : ι} (ha : a ∈ l) : ∃ n, next a = some n := by
  induction l generalizing h with
  | nil => simp at ha
  | cons b l ih =>
    obtain ⟨-, n, hn, hl⟩ := hl
    rcases List.mem_cons.mp ha with rfl | ha
    · exact ⟨n, hn⟩
    · exact ih hl ha

theorem Chain.head_eq {next : ι → Option (Option ι)} {h : Option ι} {l : List ι}
    (hc : Chain next h l) : h = l.head? := by
  cases l with
  | nil => exact hc
  | cons p l => exact hc.1

theorem Chain.walk_eq {next : ι → Option (Option ι)} {h : Option ι} {l : List ι}
    (hc : Chain next h l) {fuel : Nat} (hf : l.length ≤ fuel) : walk next fuel h = some l := by
  induction l generalizing h fuel with
  | nil => cases hc; cases fuel <;> rfl
  | cons p l ih =>
    obtain ⟨rfl, q, hq, hl⟩ := hc
    cases fuel with
    | zero => simp at hf
    | succ fuel => simp [walk, hq, ih hl (Nat.le_of_succ_le_succ hf)]

/-- The links of a list are determined by it. -/
theorem Chain.next_eq {next next' : ι → Option (Option ι)} {h h' : Option ι} {l : List ι}
    (hc : Chain next h l) (hc' : Chain next' h' l) :
    ∀ p ∈ l, ∃ q, next p = some q ∧ next' p = some q := by
  induction l generalizing h h' with
  | nil => simp
  | cons p l ih =>
    obtain ⟨-, q, hq, hl⟩ := hc
    obtain ⟨-, q', hq', hl'⟩ := hc'
    refine List.forall_mem_cons.mpr ⟨⟨q, hq, ?_⟩, ih hl hl'⟩
    rw [hq', hl.head_eq, hl'.head_eq]

/-! ## Doubly linked segments -/

/-- The heap holds the elements of `l` as a doubly linked segment whose first element points back
at `before` and whose last points on at `after`. -/
def Seg (heap : ι → Option ν) (addr : α → ι) (node : α → Option ι → Option ι → ν) :
    Option ι → List α → Option ι → Prop
  | _, [], _ => True
  | before, a :: l, after =>
    heap (addr a) = some (node a before ((l.head?.map addr).or after)) ∧
      Seg heap addr node (some (addr a)) l after

variable {heap heap' : ι → Option ν} {addr : α → ι} {node : α → Option ι → Option ι → ν}
  {before after : Option ι} {l r : List α}

/-- A segment only depends on what the heap holds at its own addresses. -/
theorem Seg.congr (h : Seg heap addr node before l after)
    (heq : ∀ a ∈ l, heap' (addr a) = heap (addr a)) : Seg heap' addr node before l after := by
  induction l generalizing before with
  | nil => trivial
  | cons a l ih =>
    exact ⟨(heq a List.mem_cons_self).trans h.1,
      ih h.2 fun x hx ↦ heq x (List.mem_cons_of_mem _ hx)⟩

/-- **Cutting a segment.**  Each half points at the edge of the other. -/
theorem seg_append : Seg heap addr node before (l ++ r) after ↔
    Seg heap addr node before l ((r.head?.map addr).or after) ∧
      Seg heap addr node ((l.getLast?.map addr).or before) r after := by
  induction l generalizing before with
  | nil => simp [Seg]
  | cons a l ih =>
    have hlast : ((a :: l).getLast?.map addr).or before
        = (l.getLast?.map addr).or (some (addr a)) := by
      rw [List.getLast?_cons]
      cases l.getLast? <;> rfl
    have hhead : (((l ++ r).head?.map addr).or after)
        = (l.head?.map addr).or ((r.head?.map addr).or after) := by
      rw [List.head?_append]
      cases l.head? <;> rfl
    rw [List.cons_append, Seg, Seg, ih, hhead, hlast, and_assoc]

/-- What the heap holds at an element in the middle of a segment. -/
theorem Seg.heap_eq {a : α} (h : Seg heap addr node before (l ++ a :: r) after) :
    heap (addr a) = some (node a ((l.getLast?.map addr).or before)
      ((r.head?.map addr).or after)) :=
  (seg_append.mp h).2.1

section Update

variable [DecidableEq ι]

/-- Rewriting the first element: new contents `b`, and a new back pointer. -/
theorem Seg.update_head {a b : α} {before' : Option ι}
    (h : Seg heap addr node before (a :: l) after) (hb : addr b = addr a)
    (ha : addr a ∉ l.map addr) :
    Seg (Function.update heap (addr a) (some (node b before' ((l.head?.map addr).or after))))
      addr node before' (b :: l) after := by
  refine ⟨by rw [hb, Function.update_self], ?_⟩
  rw [hb]
  refine h.2.congr fun x hx ↦ Function.update_of_ne ?_ _ _
  rintro hxa
  exact ha (hxa ▸ List.mem_map_of_mem hx)

/-- Rewriting the last element: a new forward pointer. -/
theorem Seg.update_last {a : α} {after' : Option ι}
    (h : Seg heap addr node before (l ++ [a]) after) (ha : addr a ∉ l.map addr) :
    Seg (Function.update heap (addr a) (some (node a ((l.getLast?.map addr).or before) after')))
      addr node before (l ++ [a]) after' := by
  obtain ⟨hl, -⟩ := seg_append.mp h
  refine seg_append.mpr ⟨hl.congr fun x hx ↦ Function.update_of_ne ?_ _ _, ?_, trivial⟩
  · rintro hxa
    exact ha (hxa ▸ List.mem_map_of_mem hx)
  · rw [Function.update_self]
    rfl

/-- A write to an address outside the segment is not seen. -/
theorem Seg.update_of_notMem {p : ι} {v : Option ν} (h : Seg heap addr node before l after)
    (hp : p ∉ l.map addr) : Seg (Function.update heap p v) addr node before l after := by
  refine h.congr fun x hx ↦ Function.update_of_ne ?_ _ _
  rintro rfl
  exact hp (List.mem_map_of_mem hx)

end Update

/-! ## Walking a segment -/

/-- Following forward pointers from the first element lists the segment in order. -/
theorem Seg.walk_next {nextOf : ν → Option ι} (hn : ∀ a p n, nextOf (node a p n) = n)
    (h : Seg heap addr node before l none) {fuel : Nat} (hf : l.length ≤ fuel) :
    walk (fun p ↦ (heap p).map nextOf) fuel (l.head?.map addr) = some (l.map addr) := by
  induction l generalizing before fuel with
  | nil => cases fuel <;> rfl
  | cons a l ih =>
    obtain ⟨ha, hl⟩ := h
    cases fuel with
    | zero => simp at hf
    | succ fuel =>
      simp [walk, ha, hn, ih hl (Nat.le_of_succ_le_succ hf)]

/-- Following back pointers from the last element lists the segment in reverse. -/
theorem Seg.walk_prev {prevOf : ν → Option ι} (hp : ∀ a p n, prevOf (node a p n) = p)
    (h : Seg heap addr node none l after) {fuel : Nat} (hf : l.length ≤ fuel) :
    walk (fun p ↦ (heap p).map prevOf) fuel (l.getLast?.map addr) = some (l.map addr).reverse := by
  induction l using List.reverseRecOn generalizing after fuel with
  | nil => cases fuel <;> rfl
  | append_singleton l a ih =>
    obtain ⟨hl, ha, -⟩ := seg_append.mp h
    cases fuel with
    | zero => simp at hf
    | succ fuel =>
      have hlen : l.length ≤ fuel := by
        rw [List.length_append, List.length_singleton] at hf
        omega
      have ih' := ih hl hlen
      simp [walk, ha, hp, ih']

end LinkedList
