import Mathlib.Logic.Function.Basic
import MatchingEngine.Util.Program

/-!
# Programs that run side by side

Several programs share a world.  A *schedule* says which of them makes its next request, and what is
left to chance about the answer; between two requests of one program the others may make any
number of theirs.

The rule for such runs has two halves.  Each program keeps to a protocol (`Conforms`): there is a
local state, which says what the program may ask for and which changes with the answers, and
nothing is assumed about the answers.  And there is an invariant of the world together with all
local states, which every request that the protocol allows preserves.  Then the invariant holds
after every schedule (`interleave_keeps`).
-/

set_option autoImplicit false

namespace Program

variable {E : Type} {R : E → Type} {α β S O : Type}

def finished : Program E R α → Bool
  | ret _ => true
  | call .. => false

/-! ## Schedules -/

/-- The `i`th program makes its next request.  One that has ended, or is not there, does nothing. -/
def advance (serve : Nat → O → (e : E) → S → Option (S × R e)) (i : Nat) (o : O)
    (c : List (Program E R α) × S) : Option (List (Program E R α) × S) :=
  match c.1[i]? with
  | some (call e k) => (serve i o e c.2).map fun x ↦ (c.1.set i (k x.2), x.1)
  | _ => some c

/-- Run the programs as the schedule says. -/
def interleave (serve : Nat → O → (e : E) → S → Option (S × R e)) :
    List (Nat × O) → List (Program E R α) × S → Option (List (Program E R α) × S)
  | [], c => some c
  | (i, o) :: schedule, c => (advance serve i o c).bind (interleave serve schedule)

/-- A test that every request passes in the state in which it is made. -/
def allAlong (serve : Nat → O → (e : E) → S → Option (S × R e)) (test : Nat → E → S → Bool) :
    List (Nat × O) → List (Program E R α) × S → Bool
  | [], _ => true
  | (i, o) :: schedule, c =>
    (match c.1[i]? with
      | some (call e _) => test i e c.2
      | _ => true) &&
    match advance serve i o c with
    | none => true
    | some c => allAlong serve test schedule c

section Schedules

variable {serve : Nat → O → (e : E) → S → Option (S × R e)} {i : Nat} {o : O}
  {ps : List (Program E R α)} {s : S}

theorem advance_call {e : E} {k : R e → Program E R α} (h : ps[i]? = some (call e k)) :
    advance serve i o (ps, s) = (serve i o e s).map fun x ↦ (ps.set i (k x.2), x.1) := by
  simp only [advance, h]

theorem advance_of_not_call (h : ∀ e k, ps[i]? ≠ some (call e k)) :
    advance serve i o (ps, s) = some (ps, s) := by
  rw [advance]
  split
  · next e k he => exact absurd he (h e k)
  · rfl

end Schedules

/-! ## Protocols -/

/-- The program asks only for what its local state allows, whatever the answers, and ends in a local
state and with a result that go together. -/
def Conforms {L : Type} (allowed : L → E → Prop) (next : L → (e : E) → R e → L)
    (final : L → α → Prop) : L → Program E R α → Prop
  | l, ret a => final l a
  | l, call e k => allowed l e ∧ ∀ r, Conforms allowed next final (next l e r) (k r)

section Conforms

variable {L : Type} {allowed : L → E → Prop} {next : L → (e : E) → R e → L} {final : L → α → Prop}
  {final' : L → β → Prop} {l : L}

theorem Conforms.bind {p : Program E R α} {f : α → Program E R β}
    (hp : Conforms allowed next final l p)
    (hf : ∀ l a, final l a → Conforms allowed next final' l (f a)) :
    Conforms allowed next final' l (p >>= f) := by
  induction p generalizing l with
  | ret a => exact hf l a hp
  | call e k ih => exact ⟨hp.1, fun r ↦ ih r (hp.2 r)⟩

theorem Conforms.mono {p : Program E R α} {final₁ : L → α → Prop}
    (hp : Conforms allowed next final l p) (h : ∀ l a, final l a → final₁ l a) :
    Conforms allowed next final₁ l p := by
  induction p generalizing l with
  | ret a => exact h l a hp
  | call e k ih => exact ⟨hp.1, fun r ↦ ih r (hp.2 r)⟩

/-- What every step of a loop comes back to, the loop comes back to. -/
theorem conforms_foldlM {γ : Type} {f : β → γ → Program E R β} (cs : List γ) {b : β}
    (hf : ∀ c l b, final' l b → Conforms allowed next final' l (f b c)) (hb : final' l b) :
    Conforms allowed next final' l (cs.foldlM f b) := by
  induction cs generalizing l b with
  | nil => exact hb
  | cons c cs ih =>
    rw [List.foldlM_cons]
    exact (hf c l b hb).bind fun _ _ h ↦ ih h

end Conforms

/-! ## The rule for interleavings -/

section Rule

variable {L : Type} {allowed : L → E → Prop} {next : L → (e : E) → R e → L} {final : L → α → Prop}
  {serve : Nat → O → (e : E) → S → Option (S × R e)} {test : Nat → E → S → Bool}
  {I : (Nat → L) → S → Prop}

/-- All programs keep to the protocol, each from its local state on. -/
def AllConform (allowed : L → E → Prop) (next : L → (e : E) → R e → L) (final : L → α → Prop)
    (locals : Nat → L) (ps : List (Program E R α)) : Prop :=
  ∀ i p, ps[i]? = some p → Conforms allowed next final (locals i) p

theorem AllConform.set {locals : Nat → L} {ps : List (Program E R α)} {i : Nat} {l : L}
    {p : Program E R α} (h : AllConform allowed next final locals ps)
    (hp : Conforms allowed next final l p) :
    AllConform allowed next final (Function.update locals i l) (ps.set i p) := by
  intro j p' hj
  by_cases hij : j = i
  · subst hij
    rw [Function.update_self]
    rw [List.getElem?_set_self'] at hj
    obtain ⟨_, -, rfl⟩ := Option.map_eq_some_iff.mp hj
    exact hp
  · rw [Function.update_of_ne hij]
    rw [List.getElem?_set_ne (Ne.symm hij)] at hj
    exact h j p' hj

/-- **What every allowed request preserves, every schedule preserves.** -/
theorem interleave_keeps {n : Nat}
    (hserve : ∀ i < n, ∀ o e locals s, I locals s → allowed (locals i) e → test i e s = true →
      ∃ s' r, serve i o e s = some (s', r) ∧ I (Function.update locals i (next (locals i) e r)) s')
    {schedule : List (Nat × O)} {ps : List (Program E R α)} {s : S} {locals : Nat → L}
    (hn : ps.length = n) (hI : I locals s) (hps : AllConform allowed next final locals ps)
    (htest : allAlong serve test schedule (ps, s) = true) :
    ∃ ps' s' locals', interleave serve schedule (ps, s) = some (ps', s') ∧ ps'.length = n ∧
      I locals' s' ∧ AllConform allowed next final locals' ps' := by
  induction schedule generalizing ps s locals with
  | nil => exact ⟨ps, s, locals, rfl, hn, hI, hps⟩
  | cons step schedule ih =>
    obtain ⟨i, o⟩ := step
    rw [allAlong, Bool.and_eq_true] at htest
    rw [interleave]
    by_cases hcall : ∃ e k, ps[i]? = some (call e k)
    · obtain ⟨e, k, hcall⟩ := hcall
      have hi : i < n := hn ▸ (List.getElem?_eq_some_iff.mp hcall).1
      obtain ⟨hallowed, hk⟩ := hps i _ hcall
      obtain ⟨s', r, he, hI'⟩ :=
        hserve i hi o e locals s hI hallowed (by simpa [hcall] using htest.1)
      have hadvance : advance serve i o (ps, s) = some (ps.set i (k r), s') := by
        rw [advance_call hcall, he]
        rfl
      rw [hadvance] at htest ⊢
      exact ih (by rw [List.length_set, hn]) hI' (hps.set (hk r)) htest.2
    · have hadvance : advance serve i o (ps, s) = some (ps, s) :=
        advance_of_not_call fun e k he ↦ hcall ⟨e, k, he⟩
      rw [hadvance] at htest ⊢
      exact ih hn hI hps htest.2

end Rule

/-- **A world that answers like another**, for as many requests as are made, leads all programs to
the same places. -/
theorem interleave_simulates (serve : Nat → O → (e : E) → S → Option (S × R e))
    {Q : Nat → S → S → Prop}
    (hserve : ∀ {n i o e s t s' r}, Q (n + 1) s t → serve i o e s = some (s', r) →
      ∃ t', serve i o e t = some (t', r) ∧ Q n s' t')
    (hQ : ∀ {n s t}, Q (n + 1) s t → Q n s t) {schedule : List (Nat × O)}
    {ps ps' : List (Program E R α)} {s t s' : S} (h : Q schedule.length s t)
    (hrun : interleave serve schedule (ps, s) = some (ps', s')) :
    ∃ t', interleave serve schedule (ps, t) = some (ps', t') ∧ Q 0 s' t' := by
  induction schedule generalizing ps s t with
  | nil =>
    obtain ⟨rfl, rfl⟩ := Prod.mk.inj (Option.some.inj hrun)
    exact ⟨t, rfl, h⟩
  | cons step schedule ih =>
    obtain ⟨i, o⟩ := step
    rw [interleave, Option.bind_eq_some_iff] at hrun
    obtain ⟨⟨ps₁, s₁⟩, hs, hrun⟩ := hrun
    rw [interleave]
    by_cases hcall : ∃ e k, ps[i]? = some (call e k)
    · obtain ⟨e, k, hcall⟩ := hcall
      rw [advance_call hcall] at hs ⊢
      obtain ⟨⟨s₂, r⟩, he, heq⟩ := Option.map_eq_some_iff.mp hs
      obtain ⟨rfl, rfl⟩ := Prod.mk.inj heq
      obtain ⟨t₁, ht, h₁⟩ := hserve h he
      rw [ht]
      exact ih h₁ hrun
    · rw [advance_of_not_call fun e k he ↦ hcall ⟨e, k, he⟩] at hs ⊢
      obtain ⟨rfl, rfl⟩ := Prod.mk.inj (Option.some.inj hs)
      exact ih (hQ h) hrun

end Program
