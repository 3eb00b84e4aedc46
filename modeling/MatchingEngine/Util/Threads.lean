import Mathlib.Logic.Hydra
import MatchingEngine.Util.Program

/-!
# Systems of threads

A system takes one step after the other.  Some steps it takes by itself, `own`; others need
something from outside, and may never happen.  `Inevitable` says that a property comes about
whatever is done: as long as it does not hold the system can take a step of its own, and every step
leads to a state in which the property is inevitable.  There is nothing in it about fairness.

The rule `inevitable_of_threads` is for systems in which each thread goes down some well-founded
order.  A thread that makes a step is replaced by one or more threads that are below it, those that
it starts among them; this is the game of the hydra, which always comes to an end.
-/

set_option autoImplicit false

namespace Threads

open Relation

variable {S A T : Type}

/-- Run a system. -/
def run (step : A → S → Option S) : List A → S → Option S
  | [], s => some s
  | a :: as, s => (step a s).bind (run step as)

/-- **What every step preserves, a run preserves.** -/
theorem run_keeps {step : A → S → Option S} {I : S → Prop}
    (hstep : ∀ a s s', I s → step a s = some s' → I s') {as : List A} {s s' : S} (hs : I s)
    (h : run step as s = some s') : I s' := by
  induction as generalizing s with
  | nil =>
    obtain rfl := Option.some.inj h
    exact hs
  | cons a as ih =>
    obtain ⟨s₁, h₁, h⟩ := Option.bind_eq_some_iff.mp h
    exact ih (hstep a s s₁ hs h₁) h

/-- Whatever is done, `P` comes about. -/
inductive Inevitable (step : A → S → Option S) (own : A → Bool) (P : S → Prop) : S → Prop
  | now {s : S} (h : P s) : Inevitable step own P s
  | later {s : S} (hown : ∃ a, own a = true ∧ (step a s).isSome)
      (h : ∀ a s', step a s = some s' → Inevitable step own P s') : Inevitable step own P s

/-- **Threads that go down** bring about what they cannot be stuck without. -/
theorem inevitable_of_threads {step : A → S → Option S} {own : A → Bool} {P I : S → Prop}
    {r : T → T → Prop} (hwf : WellFounded r) (threads : S → Multiset T)
    (hstep : ∀ a s s', I s → ¬P s → step a s = some s' →
      I s' ∧ CutExpand r (threads s') (threads s))
    (hprogress : ∀ s, I s → ¬P s → ∃ a, own a = true ∧ (step a s).isSome) {s : S} (hs : I s) :
    Inevitable step own P s := by
  induction hd : threads s using hwf.cutExpand.induction generalizing s with
  | _ d ih =>
    by_cases hp : P s
    · exact .now hp
    · refine .later (hprogress s hs hp) fun a s' h ↦ ?_
      obtain ⟨hs', hcut⟩ := hstep a s s' hs hp h
      exact ih _ (hd ▸ hcut) hs' rfl

/-! ## Replacing threads -/

section CutExpand

variable {r : T → T → Prop} {a : T} {s t : Multiset T}

/-- A thread is replaced by others. -/
theorem cutExpand_cons (h : ∀ a' ∈ t, r a' a) : CutExpand r (t + s) (a ::ₘ s) := by
  refine ⟨t, a, h, ?_⟩
  rw [← Multiset.singleton_add, add_comm, add_comm t s, add_assoc]

/-- The others do not matter. -/
theorem CutExpand.cons (b : T) (h : CutExpand r s t) : CutExpand r (b ::ₘ s) (b ::ₘ t) := by
  obtain ⟨u, a, hu, he⟩ := h
  refine ⟨u, a, hu, ?_⟩
  rw [Multiset.cons_add, he, Multiset.cons_add]

theorem coe_set_add {l : List T} {i : Nat} (h : l[i]? = some a) (a' : T) :
    (↑(l.set i a') : Multiset T) + {a} = ↑l + {a'} := by
  obtain ⟨hi, rfl⟩ := List.getElem?_eq_some_iff.mp h
  have hset : (↑(l.set i a') : Multiset T) = a' ::ₘ ↑(l.eraseIdx i) :=
    Multiset.coe_eq_coe.mpr (List.set_perm_cons_eraseIdx hi a')
  have hget : (↑l : Multiset T) = l[i] ::ₘ ↑(l.eraseIdx i) :=
    (Multiset.coe_eq_coe.mpr (List.getElem_cons_eraseIdx_perm hi)).symm
  rw [hset, hget, Multiset.cons_add, Multiset.cons_add, Multiset.add_comm, Multiset.singleton_add,
    Multiset.add_comm, Multiset.singleton_add, Multiset.cons_swap]

theorem cutExpand_set {l : List T} {i : Nat} {a' : T} (h : l[i]? = some a) (hr : r a' a) :
    CutExpand r ↑(l.set i a') ↑l :=
  ⟨{a'}, a, by simpa using hr, coe_set_add h a'⟩

end CutExpand

end Threads

namespace Program

variable {E : Type} {R : E → Type} {α : Type}

/-- What is left of a program when its first request has been answered. -/
inductive Rest : Program E R α → Program E R α → Prop
  | answered (e : E) (k : R e → Program E R α) (r : R e) : Rest (k r) (call e k)

theorem rest_wellFounded : WellFounded (Rest : Program E R α → Program E R α → Prop) := by
  refine ⟨fun p ↦ ?_⟩
  induction p with
  | ret a => exact ⟨_, nofun⟩
  | call e k ih =>
    refine ⟨_, fun q h ↦ ?_⟩
    cases h with
    | answered _ _ r => exact ih r

end Program
