import Mathlib.Order.Basic
import Mathlib.Tactic.Common

/-!
# Programs that ask for things

A `Program` computes by making requests to the world around it and going on with the answers.
`R e` is the type of the answers to the request `e`.

What a program does is told in two ways.  `Runs p t a` says that `p` may return `a` after the
requests and answers in `t`; here the answers are arbitrary, so that what holds of every run holds
whatever the world is like, and in particular whatever others do to it in the meantime.  `exec`
runs a program against a world that answers in a definite way.
-/

set_option autoImplicit false

/-- A computation that makes requests of type `E`. -/
inductive Program (E : Type) (R : E → Type) (α : Type) where
  | ret (a : α)
  | call (e : E) (k : R e → Program E R α)

namespace Program

variable {E : Type} {R : E → Type} {α β : Type}

def bind : Program E R α → (α → Program E R β) → Program E R β
  | ret a, f => f a
  | call e k, f => call e fun r ↦ (k r).bind f

instance : Monad (Program E R) where
  pure := ret
  bind := bind

/-- Make one request and return the answer. -/
def perform (e : E) : Program E R (R e) := call e ret

@[simp] theorem call_bind (e : E) (k : R e → Program E R α) (f : α → Program E R β) :
    (call e k >>= f : Program E R β) = call e fun r ↦ k r >>= f := rfl

/-! ## Runs -/

/-- Requests, each with the answer it got. -/
abbrev Trace (E : Type) (R : E → Type) := List ((e : E) × R e)

/-- The program may return `a` after the requests and answers in `t`. -/
def Runs : Program E R α → Trace E R → α → Prop
  | ret a, t, b => t = [] ∧ b = a
  | call e k, t, b => ∃ r t', t = ⟨e, r⟩ :: t' ∧ Runs (k r) t' b

@[simp] theorem runs_call {e : E} {k : R e → Program E R α} {t : Trace E R} {b : α} :
    Runs (call e k) t b ↔ ∃ r t', t = ⟨e, r⟩ :: t' ∧ Runs (k r) t' b := Iff.rfl

@[simp] theorem runs_perform {e : E} {t : Trace E R} {r : R e} :
    Runs (perform e) t r ↔ t = [⟨e, r⟩] := by
  constructor
  · rintro ⟨r', t', rfl, rfl, rfl⟩
    rfl
  · rintro rfl
    exact ⟨r, [], rfl, rfl, rfl⟩

/-- **A run of two programs one after the other** is a run of each. -/
theorem runs_bind {p : Program E R α} {f : α → Program E R β} {t : Trace E R} {b : β} :
    Runs (p >>= f) t b ↔ ∃ t₁ a t₂, t = t₁ ++ t₂ ∧ Runs p t₁ a ∧ Runs (f a) t₂ b := by
  induction p generalizing t with
  | ret a =>
    constructor
    · intro h
      exact ⟨[], a, t, rfl, ⟨rfl, rfl⟩, h⟩
    · rintro ⟨_, _, t₂, rfl, ⟨rfl, rfl⟩, h⟩
      exact h
  | call e k ih =>
    rw [call_bind, runs_call]
    constructor
    · rintro ⟨r, t', rfl, h⟩
      obtain ⟨t₁, a, t₂, rfl, hp, hf⟩ := (ih r).mp h
      exact ⟨⟨e, r⟩ :: t₁, a, t₂, rfl, ⟨r, t₁, rfl, hp⟩, hf⟩
    · rintro ⟨_, a, t₂, rfl, ⟨r, t₁, rfl, hp⟩, hf⟩
      exact ⟨r, t₁ ++ t₂, rfl, (ih r).mpr ⟨t₁, a, t₂, rfl, hp, hf⟩⟩

/-- What every step of a loop does, and what composes, the loop does. -/
theorem runs_foldlM {γ : Type} {f : β → γ → Program E R β} {P : β → Trace E R → β → Prop}
    (hrefl : ∀ b, P b [] b)
    (htrans : ∀ {b₁ t₁ b₂ t₂ b₃}, P b₁ t₁ b₂ → P b₂ t₂ b₃ → P b₁ (t₁ ++ t₂) b₃)
    {l : List γ} (hstep : ∀ c ∈ l, ∀ {b t b'}, Runs (f b c) t b' → P b t b') {b b' : β}
    {t : Trace E R} (h : Runs (l.foldlM f b) t b') : P b t b' := by
  induction l generalizing b t with
  | nil =>
    obtain ⟨rfl, rfl⟩ := h
    exact hrefl _
  | cons c l ih =>
    rw [List.foldlM_cons, runs_bind] at h
    obtain ⟨t₁, b₁, t₂, rfl, h₁, h₂⟩ := h
    obtain ⟨hc, hl⟩ := List.forall_mem_cons.mp hstep
    exact htrans (hc h₁) (ih hl h₂)

/-- The run in which each request gets a fixed answer. -/
def answered (answer : (e : E) → R e) : Program E R α → Trace E R × α
  | ret a => ([], a)
  | call e k =>
    let x := (k (answer e)).answered answer
    (⟨e, answer e⟩ :: x.1, x.2)

theorem runs_answered (answer : (e : E) → R e) (p : Program E R α) :
    Runs p (p.answered answer).1 (p.answered answer).2 := by
  induction p with
  | ret a => exact ⟨rfl, rfl⟩
  | call e k ih => exact ⟨answer e, _, rfl, ih (answer e)⟩

theorem snd_of_mem_answered (answer : (e : E) → R e) {p : Program E R α} {x : (e : E) × R e}
    (h : x ∈ (p.answered answer).1) : x.2 = answer x.1 := by
  induction p with
  | ret a => simp [answered] at h
  | call e k ih =>
    rcases List.mem_cons.mp h with rfl | h
    · rfl
    · exact ih _ h

/-! ## Running against a world -/

variable {S : Type}

/-- Run a program against a world that answers as `serve` says, or does not answer at all. -/
def exec (serve : (e : E) → S → Option (S × R e)) : Program E R α → S → Option (S × α)
  | ret a, s => some (s, a)
  | call e k, s => (serve e s).bind fun x ↦ exec serve (k x.2) x.1

@[simp] theorem exec_call (serve : (e : E) → S → Option (S × R e)) (e : E)
    (k : R e → Program E R α) (s : S) :
    exec serve (call e k) s = (serve e s).bind fun x ↦ exec serve (k x.2) x.1 := rfl

theorem exec_perform (serve : (e : E) → S → Option (S × R e)) (e : E) (s : S) :
    exec serve (perform e) s = serve e s := by
  rw [perform, exec]
  cases serve e s <;> rfl

theorem exec_bind (serve : (e : E) → S → Option (S × R e)) (p : Program E R α)
    (f : α → Program E R β) (s : S) :
    exec serve (p >>= f) s = (exec serve p s).bind fun x ↦ exec serve (f x.2) x.1 := by
  induction p generalizing s with
  | ret a => rfl
  | call e k ih =>
    rw [call_bind, exec_call, exec_call, Option.bind_assoc]
    exact congrArg _ (funext fun x ↦ ih x.2 x.1)

/-- **A world that always answers** and keeps an invariant brings every program to its end. -/
theorem exec_keeps {serve : (e : E) → S → Option (S × R e)} {I : S → Prop}
    (hserve : ∀ e s, I s → ∃ s' r, serve e s = some (s', r) ∧ I s') (p : Program E R α) {s : S}
    (hs : I s) : ∃ s' a, exec serve p s = some (s', a) ∧ I s' := by
  induction p generalizing s with
  | ret a => exact ⟨s, a, rfl, hs⟩
  | call e k ih =>
    obtain ⟨s₁, r, he, h₁⟩ := hserve e s hs
    obtain ⟨s₂, a, hk, h₂⟩ := ih r h₁
    refine ⟨s₂, a, ?_, h₂⟩
    rw [exec_call, he]
    exact hk

/-- **A world that answers like another** brings a program to the same end. -/
theorem exec_simulates {T : Type} (serve : (e : E) → S → Option (S × R e))
    (serve' : (e : E) → T → Option (T × R e)) {Q : S → T → Prop}
    (hserve : ∀ {e s t s' r}, Q s t → serve e s = some (s', r) →
      ∃ t', serve' e t = some (t', r) ∧ Q s' t') {p : Program E R α} {s s' : S} {t : T} {a : α}
    (h : Q s t) (he : exec serve p s = some (s', a)) :
    ∃ t', exec serve' p t = some (t', a) ∧ Q s' t' := by
  induction p generalizing s t with
  | ret b =>
    obtain ⟨rfl, rfl⟩ := Prod.mk.inj (Option.some.inj he)
    exact ⟨t, rfl, h⟩
  | call e k ih =>
    rw [exec_call, Option.bind_eq_some_iff] at he
    obtain ⟨⟨s₁, r⟩, h₁, he⟩ := he
    obtain ⟨t₁, ht₁, hQ⟩ := hserve h h₁
    obtain ⟨t', ht', hQ'⟩ := ih r hQ he
    exact ⟨t', by rw [exec_call, ht₁]; exact ht', hQ'⟩

/-- A program that makes no other requests than these, whatever the answers. -/
def Only (ok : E → Prop) : Program E R α → Prop
  | ret _ => True
  | call e k => ok e ∧ ∀ r, Only ok (k r)

theorem Only.bind {ok : E → Prop} {p : Program E R α} {f : α → Program E R β} (hp : p.Only ok)
    (hf : ∀ a, (f a).Only ok) : (p >>= f).Only ok := by
  induction p with
  | ret a => exact hf a
  | call e k ih => exact ⟨hp.1, fun r ↦ ih r (hp.2 r)⟩

theorem only_foldlM {γ : Type} {ok : E → Prop} {f : β → γ → Program E R β}
    (hf : ∀ b c, (f b c).Only ok) (l : List γ) (b : β) : (l.foldlM f b).Only ok := by
  induction l generalizing b with
  | nil => exact trivial
  | cons c l ih =>
    rw [List.foldlM_cons]
    exact (hf b c).bind ih

/-- Requests that leave the world as it is leave it so together. -/
theorem exec_of_only {serve : (e : E) → S → Option (S × R e)} {ok : E → Prop} {s : S}
    (hserve : ∀ e, ok e → ∃ r, serve e s = some (s, r)) {p : Program E R α} (hp : p.Only ok) :
    ∃ a, exec serve p s = some (s, a) := by
  induction p with
  | ret a => exact ⟨a, rfl⟩
  | call e k ih =>
    obtain ⟨r, hr⟩ := hserve e hp.1
    obtain ⟨a, ha⟩ := ih r (hp.2 r)
    exact ⟨a, by rw [exec_call, hr]; exact ha⟩

/-! ## Contracts -/

section Meets

variable {H : Type} {permits : H → E → Prop} {after : H → (e : E) → R e → Option H}
  {post : α → H → Prop} {h : H}

/-- The program asks only for what the contract permits, as long as the answers are such as the
contract provides for, and ends as it should.  `after` keeps the books, and has no result for an
answer that the contract rules out. -/
def Meets (permits : H → E → Prop) (after : H → (e : E) → R e → Option H) (post : α → H → Prop) :
    Program E R α → H → Prop
  | ret a, h => post a h
  | call e k, h => permits h e ∧ ∀ r h', after h e r = some h' → Meets permits after post (k r) h'

theorem Meets.bind {p : Program E R α} {f : α → Program E R β} {post' : β → H → Prop}
    (hp : Meets permits after post p h)
    (hf : ∀ a h, post a h → Meets permits after post' (f a) h) :
    Meets permits after post' (p >>= f) h := by
  induction p generalizing h with
  | ret a => exact hf a h hp
  | call e k ih => exact ⟨hp.1, fun r h' hr ↦ ih r (hp.2 r h' hr)⟩

theorem Meets.mono {p : Program E R α} {post' : α → H → Prop} (hp : Meets permits after post p h)
    (h' : ∀ a h, post a h → post' a h) : Meets permits after post' p h := by
  induction p generalizing h with
  | ret a => exact h' a h hp
  | call e k ih => exact ⟨hp.1, fun r h₁ hr ↦ ih r (hp.2 r h₁ hr)⟩

/-- What every step of a loop comes back to, the loop comes back to. -/
theorem meets_foldlM {γ : Type} {f : β → γ → Program E R β} {I : β → H → Prop} (cs : List γ) {b : β}
    (hf : ∀ c b h, I b h → Meets permits after I (f b c) h) (hb : I b h) :
    Meets permits after I (cs.foldlM f b) h := by
  induction cs generalizing h b with
  | nil => exact hb
  | cons c cs ih =>
    rw [List.foldlM_cons]
    exact (hf c b h hb).bind fun b h hb ↦ ih hb

end Meets

/-! ## Rules of pre- and postconditions -/

/-- The states a program passes through, the first and the last among them. -/
def visits (serve : (e : E) → S → Option (S × R e)) : Program E R α → S → List S
  | ret _, s => [s]
  | call e k, s => s :: match serve e s with
    | none => []
    | some x => visits serve (k x.2) x.1

theorem mem_visits_bind {serve : (e : E) → S → Option (S × R e)} {p : Program E R α}
    {f : α → Program E R β} {s s' : S} (h : s' ∈ visits serve (p >>= f) s) :
    s' ∈ visits serve p s ∨ ∃ s₁ a, exec serve p s = some (s₁, a) ∧ s' ∈ visits serve (f a) s₁ := by
  induction p generalizing s with
  | ret a => exact .inr ⟨s, a, rfl, h⟩
  | call e k ih =>
    rw [call_bind, visits, List.mem_cons] at h
    rw [visits, List.mem_cons, exec_call]
    rcases h with h | h
    · exact .inl (.inl h)
    cases he : serve e s with
    | none => simp [he] at h
    | some x =>
      rw [he] at h
      rcases ih x.2 h with h | h
      · exact .inl (.inr h)
      · exact .inr h

/-- Whatever state satisfying `P` the program is started in, `I` holds all the way, and if the
program ends then with `Q`. -/
def Ensures (serve : (e : E) → S → Option (S × R e)) (I P : S → Prop) (p : Program E R α)
    (Q : α → S → Prop) : Prop :=
  ∀ s, P s → (∀ s' ∈ visits serve p s, I s') ∧ ∀ s' a, exec serve p s = some (s', a) → Q a s'

section Rules

variable {serve : (e : E) → S → Option (S × R e)} {I P P' : S → Prop} {Q Q' : α → S → Prop}
  {Q₁ : β → S → Prop}

theorem Ensures.ret {a : α} (h : ∀ s, P s → I s ∧ Q a s) : Ensures serve I P (ret a) Q := by
  refine fun s hs ↦ ⟨fun s' hv ↦ ?_, fun s' b he ↦ ?_⟩
  · rw [List.mem_singleton.mp hv]
    exact (h s hs).1
  · obtain ⟨rfl, rfl⟩ := Prod.mk.inj (Option.some.inj he)
    exact (h s hs).2

theorem Ensures.perform {e : E} {Q : R e → S → Prop} (hI : ∀ s, P s → I s)
    (h : ∀ s, P s → ∀ s' r, serve e s = some (s', r) → I s' ∧ Q r s') :
    Ensures serve I P (Program.perform e) Q := by
  refine fun s hs ↦ ⟨fun s' hv ↦ ?_, fun s' r he ↦ ?_⟩
  · rw [Program.perform, visits, List.mem_cons] at hv
    rcases hv with rfl | hv
    · exact hI s' hs
    cases he : serve e s with
    | none => simp [he] at hv
    | some x =>
      rw [he] at hv
      rw [List.mem_singleton.mp hv]
      exact (h s hs _ _ he).1
  · rw [exec_perform] at he
    exact (h s hs s' r he).2

theorem Ensures.bind {p : Program E R α} {f : α → Program E R β} (hp : Ensures serve I P p Q)
    (hf : ∀ a, Ensures serve I (Q a) (f a) Q₁) : Ensures serve I P (p >>= f) Q₁ := by
  refine fun s hs ↦ ⟨fun s' hv ↦ ?_, fun s' b he ↦ ?_⟩
  · rcases mem_visits_bind hv with hv | ⟨s₁, a, h₁, hv⟩
    · exact (hp s hs).1 s' hv
    · exact (hf a s₁ ((hp s hs).2 s₁ a h₁)).1 s' hv
  · rw [exec_bind, Option.bind_eq_some_iff] at he
    obtain ⟨⟨s₁, a⟩, h₁, h₂⟩ := he
    exact (hf a s₁ ((hp s hs).2 s₁ a h₁)).2 s' b h₂

theorem Ensures.weaken {p : Program E R α} (h : Ensures serve I P p Q) (hP : ∀ s, P' s → P s)
    (hQ : ∀ a s, Q a s → Q' a s) : Ensures serve I P' p Q' :=
  fun s hs ↦ ⟨(h s (hP s hs)).1, fun s' a he ↦ hQ a s' ((h s (hP s hs)).2 s' a he)⟩

/-- What does not depend on the state is known from the start. -/
theorem Ensures.of_and {φ : Prop} {p : Program E R α} (h : φ → Ensures serve I P p Q) :
    Ensures serve I (fun s ↦ φ ∧ P s) p Q :=
  fun s hs ↦ h hs.1 s hs.2

end Rules

/-- What holds when the program is started holds all the way. -/
def Keeps (serve : (e : E) → S → Option (S × R e)) (I : S → Prop) (p : Program E R α) : Prop :=
  Ensures serve I I p fun _ ↦ I

section Keeps

variable {serve : (e : E) → S → Option (S × R e)} {I : S → Prop}

theorem Keeps.pure (a : α) : Keeps serve I (pure a : Program E R α) := .ret fun _ hs ↦ ⟨hs, hs⟩

theorem Keeps.perform {e : E} (h : ∀ s, I s → ∀ s' r, serve e s = some (s', r) → I s') :
    Keeps serve I (Program.perform e) :=
  Ensures.perform (fun _ hs ↦ hs) fun s hs s' r he ↦ ⟨h s hs s' r he, h s hs s' r he⟩

theorem Keeps.bind {p : Program E R α} {f : α → Program E R β} (hp : Keeps serve I p)
    (hf : ∀ a, Keeps serve I (f a)) : Keeps serve I (p >>= f) := Ensures.bind hp hf

theorem Keeps.ite {c : Prop} [Decidable c] {p q : Program E R α} (hp : Keeps serve I p)
    (hq : Keeps serve I q) : Keeps serve I (if c then p else q) := by
  split
  · exact hp
  · exact hq

/-- **What every request keeps, a program keeps.** -/
theorem Keeps.of_requests (h : ∀ e s, I s → ∀ s' r, serve e s = some (s', r) → I s')
    (p : Program E R α) : Keeps serve I p := by
  induction p with
  | ret a => exact .pure a
  | call e k ih => exact .bind (.perform (h e)) ih

end Keeps

/-- A test that every request passes in the state in which it is made. -/
def along (serve : (e : E) → S → Option (S × R e)) (test : E → S → Bool) :
    Program E R α → S → Bool
  | ret _, _ => true
  | call e k, s => test e s && match serve e s with
    | none => true
    | some x => along serve test (k x.2) x.1

section Along

variable {serve : (e : E) → S → Option (S × R e)} {test : E → S → Bool} {p : Program E R α}
  {f : α → Program E R β}

theorem along_of_bind {s : S} (h : along serve test (p >>= f) s = true) :
    along serve test p s = true := by
  induction p generalizing s with
  | ret b => rfl
  | call e k ih =>
    rw [call_bind, along, Bool.and_eq_true] at h
    rw [along, Bool.and_eq_true]
    refine ⟨h.1, ?_⟩
    cases he : serve e s with
    | none => rfl
    | some x => exact ih x.2 (by simpa [he] using h.2)

theorem along_bind {s s' : S} {a : α} (h : along serve test (p >>= f) s = true)
    (he : exec serve p s = some (s', a)) : along serve test (f a) s' = true := by
  induction p generalizing s with
  | ret b =>
    obtain ⟨rfl, rfl⟩ := Prod.mk.inj (Option.some.inj he)
    exact h
  | call e k ih =>
    rw [exec_call, Option.bind_eq_some_iff] at he
    obtain ⟨⟨s₁, r⟩, h₁, h₂⟩ := he
    rw [call_bind, along, h₁, Bool.and_eq_true] at h
    exact ih r h.2 h₂

theorem test_of_along {e : E} {k : R e → Program E R α} {s : S}
    (h : along serve test (perform e >>= k) s = true) : test e s = true := by
  rw [perform, call_bind, along, Bool.and_eq_true] at h
  exact h.1

/-- The rule for two programs of which all requests pass the test. -/
theorem Ensures.bind_along {I P : S → Prop} {Q : α → S → Prop} {Q₁ : β → S → Prop}
    (hp : Ensures serve I P p Q)
    (hf : ∀ a, Ensures serve I (fun s ↦ Q a s ∧ along serve test (f a) s = true) (f a) Q₁) :
    Ensures serve I (fun s ↦ P s ∧ along serve test (p >>= f) s = true) (p >>= f) Q₁ := by
  refine fun s ⟨hs, ha⟩ ↦ ⟨fun s' hv ↦ ?_, fun s' b he ↦ ?_⟩
  · rcases mem_visits_bind hv with hv | ⟨s₁, a, h₁, hv⟩
    · exact (hp s hs).1 s' hv
    · exact (hf a s₁ ⟨(hp s hs).2 s₁ a h₁, along_bind ha h₁⟩).1 s' hv
  · rw [exec_bind, Option.bind_eq_some_iff] at he
    obtain ⟨⟨s₁, a⟩, h₁, h₂⟩ := he
    exact (hf a s₁ ⟨(hp s hs).2 s₁ a h₁, along_bind ha h₁⟩).2 s' b h₂

theorem eq_iff_of_le_of_le {γ : Type} [PartialOrder γ] {x y z : γ} (h : x ≤ y) (h' : y ≤ z) :
    z = x ↔ y = x ∧ z = y := by
  constructor
  · rintro rfl
    have hback := le_antisymm h' h
    exact ⟨hback, hback.symm⟩
  · rintro ⟨rfl, rfl⟩
    rfl

/-- **A quantity that only some requests change.**  If a request leaves it as it is when it passes
the test and makes it larger otherwise, then it is in the end what it was if and only if all
requests pass. -/
theorem exec_eq_iff_along {γ : Type} [PartialOrder γ] {I : S → Prop} {μ : S → γ}
    (hserve : ∀ e s s' r, I s → serve e s = some (s', r) →
      I s' ∧ μ s ≤ μ s' ∧ (μ s' = μ s ↔ test e s = true))
    {s s' : S} {a : α} (hs : I s) (he : exec serve p s = some (s', a)) :
    I s' ∧ μ s ≤ μ s' ∧ (μ s' = μ s ↔ along serve test p s = true) := by
  induction p generalizing s with
  | ret b =>
    obtain ⟨rfl, rfl⟩ := Prod.mk.inj (Option.some.inj he)
    exact ⟨hs, le_rfl, iff_of_true rfl rfl⟩
  | call e k ih =>
    rw [exec_call, Option.bind_eq_some_iff] at he
    obtain ⟨⟨s₁, r⟩, h₁, h₂⟩ := he
    obtain ⟨hs₁, hle₁, hiff₁⟩ := hserve e s s₁ r hs h₁
    obtain ⟨hs', hle₂, hiff₂⟩ := ih r hs₁ h₂
    refine ⟨hs', hle₁.trans hle₂, ?_⟩
    rw [along, h₁, Bool.and_eq_true, ← hiff₁, ← hiff₂]
    exact eq_iff_of_le_of_le hle₁ hle₂

end Along

end Program
