import MatchingEngine.Backtest.Lifting
import MatchingEngine.Book.Executions

/-!
# What the statistics count

`ReplayStats` counts the ticks, by their kind, and the trades of the engine, which are to be `our +
external` ones.  But the counter of trades is only advanced where the replay places an order of the
tick file.  The orders of the strategies are placed by `StrategyContext::place_limit`, which does
not know it, so that a trade is missed whenever such an order crosses (`counts_iff`).
-/

set_option autoImplicit false

namespace MatchingEngine

namespace Backtest

/-- The ticks of all kinds. -/
def ReplayStats.events (s : ReplayStats) : Nat :=
  s.exogenousAdds + s.exogenousCancels + s.tradePrints

/-- The statistics are those of a replay of these ticks with these trades. -/
structure ReplayStats.Counts (s : ReplayStats) (ts : List Tick) (tape : List (Side × Trade)) :
    Prop where
  consumed : s.ticksConsumed = ts.length
  events : s.events = ts.length
  trades : s.engineTrades = tape.length

/-- An event the replay knows. -/
def Tick.Known (t : Tick) : Prop := t.event = 0 ∨ t.event = 1 ∨ t.event = 2

/-- A request that trades nothing: no order, or one that wants nothing or does not cross. -/
def Action.passive (a : Arena) : Action → Bool
  | .placeLimit side price qty => qty ≤ 0 || !a.engine.book.crosses side price
  | _ => true

/-- A move in which no order of a strategy trades on arrival. -/
def Move.passive {σ : Type} (m : Move σ) (r : Replay σ) : Bool :=
  match m with
  | .tick _ => true
  | .callback i f => Program.along (Arena.act i) (fun e a ↦ e.passive a) (f (r.memory i)) r.arena

/-- The tick of a move. -/
def Move.ticks {σ : Type} : Move σ → List Tick
  | .tick t => [t]
  | .callback .. => []

/-! ## Trades -/

theorem length_tape_act {N k₀ : Nat} (i : Nat) (e : Action) (a a' : Arena) (x : e.Answer)
    (hk : a.Kept N k₀) (he : Arena.act i e a = some (a', x)) :
    a'.Kept N k₀ ∧ a.record.tape.length ≤ a'.record.tape.length ∧
      (a'.record.tape.length = a.record.tape.length ↔ e.passive a = true) := by
  obtain ⟨a₁, x₁, he₁, hk₁⟩ := hk.act i e
  obtain ⟨rfl, -⟩ := Prod.mk.inj (Option.some.inj (he.symm.trans he₁))
  refine ⟨hk₁, ?_⟩
  cases e with
  | placeLimit side price qty =>
    obtain ⟨m, hr, hv, -⟩ := hk
    have hu : a.engine.Usable N m := ⟨hr, hv⟩
    obtain ⟨engine, hplace, -, hrecord⟩ := Arena.of_placeLimit he
    have hnil := hu.lastTrades_eq_nil_iff hplace
    rw [hrecord, Arena.note, List.length_append, List.length_map, Action.passive, Bool.or_eq_true,
      decide_eq_true_eq, Bool.not_eq_true', ← hnil, ← List.length_eq_zero_iff]
    omega
  | cancel id =>
    obtain ⟨-, -, -, hrecord⟩ := Arena.of_cancel he
    rw [hrecord]
    exact ⟨le_rfl, iff_of_true rfl rfl⟩
  | top | account =>
    obtain ⟨rfl, -⟩ := Prod.mk.inj (Option.some.inj he)
    exact ⟨le_rfl, iff_of_true rfl rfl⟩

section Moves

variable {σ : Type} {N k₀ : Nat} {r r' : Replay σ}

/-- The trades that are not counted. -/
def Replay.uncounted (r : Replay σ) : Int := r.arena.record.tape.length - r.stats.engineTrades

/-- **What a tick counts.** -/
theorem Replay.stats_apply {t : Tick} (h : r.apply t = some r') :
    r'.uncounted = r.uncounted ∧ r'.stats.ticksConsumed = r.stats.ticksConsumed ∧
      (t.Known → r'.stats.events = r.stats.events + 1) := by
  rw [Replay.apply] at h
  split at h
  · rw [Replay.add, Option.bind_eq_bind, Option.bind_eq_some_iff] at h
    obtain ⟨⟨e, id⟩, -, h⟩ := h
    obtain rfl : r.added t e id = r' := Option.some.inj h
    refine ⟨?_, rfl, fun _ ↦ ?_⟩
    · rw [Replay.uncounted, Replay.record_added, Arena.note, List.length_append, List.length_map,
        Replay.uncounted, Replay.added]
      push_cast
      omega
    · simp only [ReplayStats.events, Replay.added]
      omega
  rename_i hadd
  split at h
  · simp only [Replay.cancel] at h
    cases hid : r.extToEng.find? t.extId with
    | none =>
      rw [hid] at h
      obtain rfl := Option.some.inj h
      exact ⟨rfl, rfl, fun _ ↦ by simp only [ReplayStats.events]; omega⟩
    | some id =>
      rw [hid] at h
      simp only [Option.bind_eq_bind, Option.bind_eq_some_iff] at h
      obtain ⟨⟨e, ok⟩, -, h⟩ := h
      obtain rfl := Option.some.inj h
      exact ⟨rfl, rfl, fun _ ↦ by simp only [ReplayStats.events]; omega⟩
  rename_i hcancel
  split at h
  · obtain rfl := Option.some.inj h
    exact ⟨rfl, rfl, fun _ ↦ by simp only [Replay.print, ReplayStats.events]; omega⟩
  · rename_i hprint
    obtain rfl := Option.some.inj h
    exact ⟨rfl, rfl, fun hk ↦ absurd hk (by simp [Tick.Known, hadd, hcancel, hprint])⟩

/-- **A move leaves a trade uncounted unless it is passive.** -/
theorem Replay.uncounted_move (m : Move σ) (r r' : Replay σ) (hk : r.arena.Kept N k₀)
    (h : r.move m = some r') :
    r'.arena.Kept N k₀ ∧ r.uncounted ≤ r'.uncounted ∧
      (r'.uncounted = r.uncounted ↔ m.passive r = true) := by
  obtain ⟨r₁, h₁, hk₁⟩ := hk.move m
  obtain rfl := Option.some.inj (h.symm.trans h₁)
  refine ⟨hk₁, ?_⟩
  cases m with
  | tick t =>
    simp only [Replay.move, Option.bind_eq_bind, Option.bind_eq_some_iff] at h
    obtain ⟨r₂, h₂, top, -, h⟩ := h
    obtain rfl := Option.some.inj h
    have heq : Replay.uncounted { r₂ with arena.top := top } = r.uncounted :=
      (Replay.stats_apply h₂).1
    exact ⟨heq.ge, iff_of_true heq rfl⟩
  | callback i f =>
    simp only [Replay.move, Option.bind_eq_bind, Option.bind_eq_some_iff] at h
    obtain ⟨⟨a, x⟩, hexec, h⟩ := h
    obtain rfl := Option.some.inj h
    obtain ⟨-, hle, hiff⟩ := Program.exec_eq_iff_along (length_tape_act i) hk hexec
    rw [Move.passive, ← hiff]
    simp only [Replay.uncounted]
    omega

/-! ## Ticks -/

theorem ticks_callbackMoves (callback : Strategy σ → σ → Callback σ)
    (strategies : List (Strategy σ)) (i : Nat) :
    (callbackMoves callback strategies i).flatMap Move.ticks = [] := by
  induction strategies generalizing i with
  | nil => rfl
  | cons s strategies ih => exact ih (i + 1)

/-- The ticks of the moves are those of the run. -/
theorem ticks_moves (strategies : List (Strategy σ)) (ts : List Tick) :
    (moves strategies ts).flatMap Move.ticks = ts := by
  have htick : ∀ t, (tickMoves strategies t).flatMap Move.ticks = [t] := fun t ↦
    congrArg (t :: ·) (ticks_callbackMoves _ strategies 0)
  rw [moves, List.flatMap_append, List.flatMap_append, ticks_callbackMoves, ticks_callbackMoves,
    List.nil_append, List.append_nil, List.flatMap_assoc]
  simp only [htick, List.flatMap_singleton']

theorem Replay.stats_move {m : Move σ} (h : r.move m = some r') :
    r'.stats.ticksConsumed = r.stats.ticksConsumed + m.ticks.length ∧
      ((∀ t ∈ m.ticks, t.Known) → r'.stats.events = r.stats.events + m.ticks.length) := by
  cases m with
  | tick t =>
    simp only [Replay.move, Option.bind_eq_bind, Option.bind_eq_some_iff] at h
    obtain ⟨r₁, h₁, top, -, h⟩ := h
    obtain rfl := Option.some.inj h
    obtain ⟨-, hconsumed, hevents⟩ := Replay.stats_apply h₁
    exact ⟨hconsumed, fun hknown ↦ hevents (hknown t List.mem_cons_self)⟩
  | callback i f =>
    simp only [Replay.move, Option.bind_eq_bind, Option.bind_eq_some_iff] at h
    obtain ⟨⟨a, x⟩, -, h⟩ := h
    obtain rfl := Option.some.inj h
    exact ⟨rfl, fun _ ↦ rfl⟩

theorem Replay.stats_after {ms : List (Move σ)} (h : r.after ms = some r') :
    r'.stats.ticksConsumed = r.stats.ticksConsumed + (ms.flatMap Move.ticks).length ∧
      ((∀ t ∈ ms.flatMap Move.ticks, t.Known) →
        r'.stats.events = r.stats.events + (ms.flatMap Move.ticks).length) := by
  induction ms generalizing r with
  | nil =>
    obtain rfl : r = r' := Option.some_inj.mp h
    exact ⟨rfl, fun _ ↦ rfl⟩
  | cons m ms ih =>
    rw [after_cons, Option.bind_eq_some_iff] at h
    obtain ⟨r₁, h₁, h₂⟩ := h
    obtain ⟨hconsumed, hevents⟩ := Replay.stats_move h₁
    obtain ⟨hconsumed', hevents'⟩ := ih h₂
    rw [List.flatMap_cons, List.length_append]
    refine ⟨by omega, fun hknown ↦ ?_⟩
    rw [List.forall_mem_append] at hknown
    rw [hevents' hknown.2, hevents hknown.1, Nat.add_assoc]

end Moves

/-- **Ticks are always counted right; trades if and only if no order of a strategy trades when it is
placed.** -/
theorem counts_iff {σ : Type} {N : Nat} {calls : List Call} {engine : Engine}
    (h : engine.Reached N calls) (strategies : List (Strategy σ)) (memory : Nat → σ)
    (ts : List Tick) (hknown : ∀ t ∈ ts, t.Known) :
    ∃ r, (Replay.start engine memory).run strategies ts = some r ∧
      r.stats.ticksConsumed = ts.length ∧ r.stats.events = ts.length ∧
      (r.stats.Counts ts r.arena.record.tape ↔
        (Replay.start engine memory).checks Move.passive (moves strategies ts) = true) := by
  obtain ⟨r, hr, -⟩ := (kept_start h memory).run strategies ts
  have hafter := hr
  rw [Replay.run_eq_after] at hafter
  obtain ⟨hconsumed, hevents⟩ := Replay.stats_after hafter
  rw [ticks_moves] at hconsumed hevents
  have hconsumed : r.stats.ticksConsumed = ts.length := hconsumed.trans (Nat.zero_add _)
  have hevents : r.stats.events = ts.length := (hevents hknown).trans (Nat.zero_add _)
  obtain ⟨-, -, hiff⟩ :=
    Replay.after_eq_iff_checks Replay.uncounted_move (kept_start h memory) hafter
  have htrades : r.uncounted = (Replay.start engine memory).uncounted ↔
      r.stats.engineTrades = r.arena.record.tape.length := by
    rw [show (Replay.start engine memory).uncounted = 0 from rfl, Replay.uncounted]
    omega
  refine ⟨r, hr, hconsumed, hevents, ?_⟩
  rw [← hiff, htrades]
  exact ⟨fun hc ↦ hc.trades, fun hc ↦ ⟨hconsumed, hevents, hc⟩⟩

/-- Somebody buys five of the ten a strategy offers. -/
theorem counts_offerTen :
    ∃ r, (Replay.start (Engine.new 4) fun _ ↦ ()).run [offerTen] [buyTick 5] = some r ∧
      (Replay.start (Engine.new 4) fun _ ↦ ()).checks Move.passive (moves [offerTen] [buyTick 5])
        = true ∧
      r.stats.Counts [buyTick 5] r.arena.record.tape := by
  have hpassive : (Replay.start (Engine.new 4) fun _ ↦ ()).checks Move.passive
      (moves [offerTen] [buyTick 5]) = true := by decide +kernel
  obtain ⟨r, hr, -, -, hiff⟩ := counts_iff (reached_new 4) [offerTen] (fun _ ↦ ()) [buyTick 5]
    (fun t ht ↦ by rw [List.mem_singleton.mp ht]; exact .inl rfl)
  exact ⟨r, hr, hpassive, hiff.mpr hpassive⟩

/-- A strategy that buys five after every tick. -/
def takeFive : Strategy Unit where
  onStart _ := pure ()
  onTick _ _ := do
    let _ ← Program.perform (.placeLimit .Buy 100 5)
    return ()
  onEnd _ := pure ()

/-- **A trade that is not counted**: ten are offered in the tick file, and a strategy takes five. -/
theorem exists_trade_uncounted :
    ∃ r, (Replay.start (Engine.new Engine.defaultPoolCapacity) fun _ ↦ ()).run [takeFive]
        [.add .Sell 100 10 0] = some r ∧
      r.arena.record.tape = [(.Buy, ⟨2, 1, 100, 5⟩)] ∧ r.stats.engineTrades = 0 := by
  have hrun : ((Replay.start (Engine.new 4) fun _ ↦ ()).after
      (moves [takeFive] [.add .Sell 100 10 0])).map
      (fun r ↦ (r.arena.record.placed, r.arena.record.tape, r.stats.engineTrades))
        = some (2, [(.Buy, ⟨2, 1, 100, 5⟩)], 0) := by decide +kernel
  obtain ⟨r, hr, hread⟩ := Option.map_eq_some_iff.mp hrun
  simp only [Prod.mk.injEq] at hread
  obtain ⟨hplaced, htape, htrades⟩ := hread
  obtain ⟨e, clean, hr', -⟩ := Replay.after_start
    (Engine.fits_new (show 4 ≤ Engine.defaultPoolCapacity by decide)) _ hr (by omega)
  exact ⟨r.swap e clean, by rw [Replay.run_eq_after]; exact hr', htape, htrades⟩

end Backtest

end MatchingEngine
