import MatchingEngine.Backtest.Replay

/-!
# A replay, move by move

`Replay::run` is a loop in a loop: the strategies are called in turn, before the first tick, after
every tick and after the last one.  Here the same run is a list of *moves*, each of them a tick that
is applied to the book or one callback of one strategy (`run_eq_after`), and a state between two
callbacks is what a prefix of that list leads to.

An invariant of a replay is then proved move by move (`after_invariant`).
-/

set_option autoImplicit false

namespace MatchingEngine

namespace Backtest

/-! ## Strategies side by side -/

section Side

variable {α β : Type}

/-- A callback of a strategy beside others that remember other things. -/
def Callback.inl (f : α → Callback α) : α ⊕ β → Callback (α ⊕ β)
  | .inl x => do
    let x ← f x
    return .inl x
  | .inr y => pure (.inr y)

/-- A strategy beside others. -/
def Strategy.inl (s : Strategy α) : Strategy (α ⊕ β) where
  onStart := Callback.inl s.onStart
  onTick x t := Callback.inl (s.onTick · t) x
  onEnd := Callback.inl s.onEnd

end Side

/-! ## Moves -/

/-- A step of a replay: a tick, or a callback of the strategy with this number. -/
inductive Move (σ : Type) where
  | tick (t : Tick)
  | callback (i : Nat) (f : σ → Callback σ)

/-- Let every strategy act, from number `i` on. -/
def callbackMoves {σ : Type} (callback : Strategy σ → σ → Callback σ) :
    List (Strategy σ) → Nat → List (Move σ)
  | [], _ => []
  | s :: strategies, i => .callback i (callback s) :: callbackMoves callback strategies (i + 1)

/-- The moves of a tick. -/
def tickMoves {σ : Type} (strategies : List (Strategy σ)) (t : Tick) : List (Move σ) :=
  .tick t :: callbackMoves (fun s x ↦ s.onTick x t) strategies 0

/-- The moves of a run. -/
def moves {σ : Type} (strategies : List (Strategy σ)) (ts : List Tick) : List (Move σ) :=
  callbackMoves (fun s x ↦ s.onStart x) strategies 0
    ++ (ts.flatMap (tickMoves strategies)
    ++ callbackMoves (fun s x ↦ s.onEnd x) strategies 0)

namespace Replay

variable {σ : Type} {r : Replay σ}

def move (r : Replay σ) : Move σ → Option (Replay σ)
  | .tick t => do
    let r ← apply { r with stats.ticksConsumed := r.stats.ticksConsumed + 1 } t
    let top ← snapshotTop r.arena.engine.book r.lastTradePx
    return { r with arena.top := top }
  | .callback i f => do
    let (arena, x) ← Program.exec (Arena.act i) (f (r.memory i)) r.arena
    return { r with arena, memory := Function.update r.memory i x }

/-- The state after a list of moves. -/
def after (r : Replay σ) (ms : List (Move σ)) : Option (Replay σ) := ms.foldlM move r

/-- What is seen of the arena during a move, between any two calls. -/
def passing (r : Replay σ) : Move σ → List Arena
  | .tick _ => [r.arena]
  | .callback i f => Program.visits (Arena.act i) (f (r.memory i)) r.arena

/-- What is seen of the arena during a list of moves. -/
def arenas : List (Move σ) → Replay σ → List Arena
  | [], r => [r.arena]
  | m :: ms, r => r.passing m ++ match r.move m with
    | none => []
    | some r => arenas ms r

/-- A test that every move passes in the state in which it is made. -/
def checks (test : Move σ → Replay σ → Bool) : List (Move σ) → Replay σ → Bool
  | [], _ => true
  | m :: ms, r => test m r && match r.move m with
    | none => true
    | some r => checks test ms r

theorem after_cons (m : Move σ) (ms : List (Move σ)) :
    r.after (m :: ms) = (r.move m).bind (·.after ms) := List.foldlM_cons

theorem after_append (ms ms' : List (Move σ)) :
    r.after (ms ++ ms') = (r.after ms).bind (·.after ms') := List.foldlM_append

theorem callbacks_eq_after (callback : Strategy σ → σ → Callback σ)
    (strategies : List (Strategy σ)) (i : Nat) (r : Replay σ) :
    callbacks callback strategies i r = r.after (callbackMoves callback strategies i) := by
  induction strategies generalizing i r with
  | nil => rfl
  | cons s strategies ih =>
    rw [callbacks, callbackMoves, after_cons, move]
    cases Program.exec (Arena.act i) (callback s (r.memory i)) r.arena with
    | none => rfl
    | some x => exact ih (i + 1) _

theorem tick_eq_after (strategies : List (Strategy σ)) (r : Replay σ) (t : Tick) :
    tick strategies r t = r.after (tickMoves strategies t) := by
  rw [tick, tickMoves, after_cons, move]
  cases apply { r with stats.ticksConsumed := r.stats.ticksConsumed + 1 } t with
  | none => rfl
  | some r₁ =>
    simp only [Option.bind_eq_bind, Option.bind_some]
    cases snapshotTop r₁.arena.engine.book r₁.lastTradePx with
    | none => rfl
    | some top => exact callbacks_eq_after _ strategies 0 _

theorem ticks_eq_after (strategies : List (Strategy σ)) (ts : List Tick) (r : Replay σ) :
    ticks strategies ts r = r.after (ts.flatMap (tickMoves strategies)) := by
  induction ts generalizing r with
  | nil => rfl
  | cons t ts ih =>
    rw [ticks, tick_eq_after, List.flatMap_cons, after_append]
    cases r.after (tickMoves strategies t) with
    | none => rfl
    | some r₁ => exact ih r₁

/-- **A run is its moves.** -/
theorem run_eq_after (strategies : List (Strategy σ)) (ts : List Tick) (r : Replay σ) :
    r.run strategies ts = r.after (moves strategies ts) := by
  rw [run, callbacks_eq_after, moves, after_append]
  cases r.after (callbackMoves (fun s x ↦ s.onStart x) strategies 0) with
  | none => rfl
  | some r₁ =>
    simp only [Option.bind_eq_bind, Option.bind_some]
    rw [ticks_eq_after, after_append]
    cases r₁.after (ts.flatMap (tickMoves strategies)) with
    | none => rfl
    | some r₂ => exact callbacks_eq_after _ strategies 0 r₂

/-- **An invariant is proved move by move.** -/
theorem after_invariant {r₀ : Replay σ} {all : List (Move σ)} {I : List (Move σ) → Replay σ → Prop}
    (hstart : I [] r₀)
    (hmove : ∀ done m r r', done ++ [m] <+: all → r₀.after done = some r → I done r →
      r.move m = some r' → I (done ++ [m]) r') {done : List (Move σ)} (hdone : done <+: all)
    (hr : r₀.after done = some r) : I done r := by
  induction done using List.reverseRecOn generalizing r with
  | nil =>
    obtain rfl : r₀ = r := Option.some_inj.mp hr
    exact hstart
  | append_singleton done m ih =>
    rw [after_append, Option.bind_eq_some_iff] at hr
    obtain ⟨r₁, h₁, h₂⟩ := hr
    rw [after_cons, Option.bind_eq_some_iff] at h₂
    obtain ⟨r₂, h₂, h₃⟩ := h₂
    obtain rfl : r₂ = r := Option.some_inj.mp h₃
    exact hmove done m r₁ r₂ hdone h₁ (ih ((List.prefix_append done [m]).trans hdone) h₁) h₂

/-- Whatever is seen is seen during some move, or at the end. -/
theorem mem_arenas {ms : List (Move σ)} {a : Arena} (h : a ∈ r.arenas ms) :
    ∃ done r', done <+: ms ∧ r.after done = some r' ∧
      (a = r'.arena ∨ ∃ m, done ++ [m] <+: ms ∧ a ∈ r'.passing m) := by
  induction ms generalizing r with
  | nil => exact ⟨[], r, List.nil_prefix, rfl, .inl (List.mem_singleton.mp h)⟩
  | cons m ms ih =>
    rcases List.mem_append.mp h with h | h
    · exact ⟨[], r, List.nil_prefix, rfl, .inr ⟨m, by simp, h⟩⟩
    cases hm : r.move m with
    | none => simp [hm] at h
    | some r₁ =>
      rw [hm] at h
      obtain ⟨done, r', hdone, hr', hseen⟩ := ih h
      refine ⟨m :: done, r', (List.prefix_cons_inj m).mpr hdone, ?_, hseen.imp_right ?_⟩
      · rw [after_cons, hm]
        exact hr'
      · rintro ⟨m', hm', ha⟩
        exact ⟨m', (List.prefix_cons_inj m).mpr hm', ha⟩

theorem arena_mem_arenas {ms : List (Move σ)} {r' : Replay σ} (h : r.after ms = some r') :
    r'.arena ∈ r.arenas ms := by
  induction ms generalizing r with
  | nil =>
    obtain rfl : r = r' := Option.some_inj.mp h
    exact List.mem_singleton_self _
  | cons m ms ih =>
    rw [after_cons, Option.bind_eq_some_iff] at h
    obtain ⟨r₁, hm, h⟩ := h
    rw [arenas, hm]
    exact List.mem_append_right _ (ih h)

/-- What every move of a run has passed, its last one has. -/
theorem test_of_checks {test : Move σ → Replay σ → Bool} {done : List (Move σ)} {m : Move σ}
    {r₀ : Replay σ} (h : r₀.checks test (done ++ [m]) = true) (hr : r₀.after done = some r) :
    test m r = true := by
  induction done generalizing r₀ with
  | nil =>
    obtain rfl : r₀ = r := Option.some_inj.mp hr
    exact (Bool.and_eq_true _ _).mp h |>.1
  | cons m' done ih =>
    rw [after_cons, Option.bind_eq_some_iff] at hr
    obtain ⟨r₁, h₁, h₂⟩ := hr
    rw [List.cons_append, checks, h₁, Bool.and_eq_true] at h
    exact ih h.2 h₂

theorem checks_of_isPrefix {test : Move σ → Replay σ → Bool} {done all : List (Move σ)}
    {r₀ : Replay σ} (h : r₀.checks test all = true) (hp : done <+: all) :
    r₀.checks test done = true := by
  obtain ⟨rest, rfl⟩ := hp
  induction done generalizing r₀ with
  | nil => rfl
  | cons m done ih =>
    rw [List.cons_append, checks, Bool.and_eq_true] at h
    rw [checks, Bool.and_eq_true]
    refine ⟨h.1, ?_⟩
    cases hm : r₀.move m with
    | none => rfl
    | some r => exact ih (by simpa [hm] using h.2)

/-- A quantity that only some moves change is in the end what it was if and only if no such move has
been made. -/
theorem after_eq_iff_checks {γ : Type} [PartialOrder γ] {I : Replay σ → Prop} {μ : Replay σ → γ}
    {test : Move σ → Replay σ → Bool}
    (hmove : ∀ m r r', I r → r.move m = some r' →
      I r' ∧ μ r ≤ μ r' ∧ (μ r' = μ r ↔ test m r = true))
    {ms : List (Move σ)} {r' : Replay σ} (hr : I r) (h : r.after ms = some r') :
    I r' ∧ μ r ≤ μ r' ∧ (μ r' = μ r ↔ r.checks test ms = true) := by
  induction ms generalizing r with
  | nil =>
    obtain rfl : r = r' := Option.some_inj.mp h
    exact ⟨hr, le_rfl, iff_of_true rfl rfl⟩
  | cons m ms ih =>
    rw [after_cons, Option.bind_eq_some_iff] at h
    obtain ⟨r₁, h₁, h₂⟩ := h
    obtain ⟨hr₁, hle₁, hiff₁⟩ := hmove m r r₁ hr h₁
    obtain ⟨hr', hle₂, hiff₂⟩ := ih hr₁ h₂
    refine ⟨hr', hle₁.trans hle₂, ?_⟩
    rw [checks, h₁, Bool.and_eq_true, ← hiff₁, ← hiff₂]
    exact Program.eq_iff_of_le_of_le hle₁ hle₂

end Replay

/-- A callback in a run is a callback of the strategy with that number. -/
theorem mem_callbackMoves {σ : Type} {callback : Strategy σ → σ → Callback σ}
    {strategies : List (Strategy σ)} {i j : Nat} {f : σ → Callback σ}
    (h : Move.callback j f ∈ callbackMoves callback strategies i) :
    ∃ s, strategies[j - i]? = some s ∧ i ≤ j ∧ f = callback s := by
  induction strategies generalizing i with
  | nil => simp [callbackMoves] at h
  | cons s strategies ih =>
    rcases List.mem_cons.mp h with h | h
    · obtain ⟨rfl, rfl⟩ := Move.callback.inj h
      exact ⟨s, by simp, le_rfl, rfl⟩
    · obtain ⟨s', hs, hle, hf⟩ := ih h
      refine ⟨s', ?_, by omega, hf⟩
      rw [show j - i = j - (i + 1) + 1 by omega, List.getElem?_cons_succ]
      exact hs

theorem mem_moves {σ : Type} {strategies : List (Strategy σ)} {ts : List Tick} {i : Nat}
    {f : σ → Callback σ} (h : Move.callback i f ∈ moves strategies ts) :
    ∃ s, strategies[i]? = some s ∧
      (f = s.onStart ∨ (∃ t, f = fun x ↦ s.onTick x t) ∨ f = s.onEnd) := by
  have hzero : ∀ {callback : Strategy σ → σ → Callback σ},
      Move.callback i f ∈ callbackMoves callback strategies 0 →
      ∃ s, strategies[i]? = some s ∧ f = callback s := by
    intro callback h
    obtain ⟨s, hs, -, hf⟩ := mem_callbackMoves h
    exact ⟨s, hs, hf⟩
  rw [moves, List.mem_append, List.mem_append, List.mem_flatMap] at h
  rcases h with h | ⟨t, -, h⟩ | h
  · obtain ⟨s, hs, hf⟩ := hzero h
    exact ⟨s, hs, .inl hf⟩
  · rcases List.mem_cons.mp h with h | h
    · cases h
    · obtain ⟨s, hs, hf⟩ := hzero h
      exact ⟨s, hs, .inr (.inl ⟨t, hf⟩)⟩
  · obtain ⟨s, hs, hf⟩ := hzero h
    exact ⟨s, hs, .inr (.inr hf)⟩

end Backtest

end MatchingEngine
