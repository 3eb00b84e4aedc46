import MatchingEngine.Backtest.Lifting

/-!
# Strategies that only watch

Several strategies run on one engine, and each of them meets the orders of the others.  A strategy
that places and cancels nothing should leave no trace: with it in the list, at any place, the replay
must do what it does without it (`observer_unseen`).  That is not plain from the code, since the
strategies that come after it are called later and go by other numbers in the routing table and
among the portfolios.

The two replays are compared move by move.  Those behind the observer have their numbers raised by
one (`skip`), and a callback of the observer itself is a move that only one of the two makes
(`Woven`).
-/

set_option autoImplicit false

namespace MatchingEngine

namespace Backtest

/-- The number a strategy has when another one is put in front of number `j`. -/
def skip (j i : Nat) : Nat := if i < j then i else i + 1

theorem skip_ne (j i : Nat) : skip j i ≠ j := by
  unfold skip
  split <;> omega

theorem skip_injective (j : Nat) : Function.Injective (skip j) := by
  intro i i' h
  unfold skip at h
  split at h <;> split at h <;> omega

theorem update_skip {α : Type} {j : Nat} {g g' : Nat → α} (h : ∀ i, g (skip j i) = g' i) (i : Nat)
    (x : α) (k : Nat) : Function.update g (skip j i) x (skip j k) = Function.update g' i x k := by
  rw [Function.update_apply_of_injective g (skip_injective j), funext h]

/-- The requests that change nothing. -/
def Action.Looks : Action → Prop
  | .top | .account => True
  | .placeLimit .. | .cancel _ => False

/-- A strategy that only watches. -/
structure Strategy.Watches {σ : Type} (s : Strategy σ) : Prop where
  onStart : ∀ x, (s.onStart x).Only Action.Looks
  onTick : ∀ x t, (s.onTick x t).Only Action.Looks
  onEnd : ∀ x, (s.onEnd x).Only Action.Looks

namespace Arena

/-- The arena `a` is the arena `a'` with an observer that has the number `j`. -/
structure Beside (j : Nat) (a' a : Arena) : Prop where
  engine : a.engine = a'.engine
  routing : ∀ id, a.routing.find? id = (a'.routing.find? id).map (skip j)
  accounts : ∀ i, a.accounts (skip j i) = a'.accounts i
  idle : a.accounts j = .new
  top : a.top = a'.top

section Beside

variable {j : Nat} {a a' a₁' : Arena}

theorem Beside.update (h : a'.Beside j a) (i : Nat) (f : Account → Account) :
    (a'.update i f).Beside j (a.update (skip j i) f) := by
  refine { h with accounts := fun k ↦ ?_, idle := ?_ }
  · show Function.update a.accounts (skip j i) (f (a.accounts (skip j i))) (skip j k)
      = Function.update a'.accounts i (f (a'.accounts i)) k
    rw [h.accounts, update_skip h.accounts]
  · exact (Function.update_of_ne (skip_ne j i).symm _ _).trans h.idle

theorem Beside.insert (h : a'.Beside j a) (id i : Nat) :
    ({ a' with routing := a'.routing.insert id i } : Arena).Beside j
      { a with routing := a.routing.insert id (skip j i) } := by
  refine { h with routing := fun x ↦ ?_ }
  rw [SortedMap.find?_insert, SortedMap.find?_insert]
  split
  · rfl
  · exact h.routing x

theorem Beside.erase (h : a'.Beside j a) (id : Nat) :
    ({ a' with routing := a'.routing.erase id } : Arena).Beside j
      { a with routing := a.routing.erase id } := by
  refine { h with routing := fun x ↦ ?_ }
  rw [SortedMap.find?_erase, SortedMap.find?_erase]
  split
  · rfl
  · exact h.routing x

theorem Beside.deliver (h : a'.Beside j a) (i : Nat) (side : Side) (t : Trade) :
    (Arena.deliver i side a' t).Beside j (Arena.deliver (skip j i) side a t) := by
  have hfill := h.update i (·.fill side t)
  have hroute := hfill.routing t.makerId
  dsimp only [Arena.deliver]
  cases hm : (a'.update i (·.fill side t)).routing.find? t.makerId with
  | none =>
    rw [hm] at hroute
    rw [hroute]
    exact hfill
  | some k =>
    rw [hm] at hroute
    rw [hroute]
    exact hfill.update k _

theorem Beside.routeMaker (h : a'.Beside j a) (side : Side) (t : Trade) :
    (Arena.routeMaker side a' t).Beside j (Arena.routeMaker side a t) := by
  have hroute := h.routing t.makerId
  dsimp only [Arena.routeMaker]
  cases hm : a'.routing.find? t.makerId with
  | none =>
    rw [hm] at hroute
    rw [hroute]
    exact h
  | some k =>
    rw [hm] at hroute
    rw [hroute]
    exact (h.update k _).erase t.makerId

theorem Beside.foldl {f g : Arena → Trade → Arena}
    (hfg : ∀ {a a' : Arena} (t : Trade), a'.Beside j a → (f a' t).Beside j (g a t))
    (ts : List Trade) (h : a'.Beside j a) : (ts.foldl f a').Beside j (ts.foldl g a) := by
  induction ts generalizing a a' with
  | nil => exact h
  | cons t ts ih => exact ih (hfg t h)

theorem Beside.placeLimit (h : a'.Beside j a) {i : Nat} {side : Side} {price qty : Int} {id : Nat}
    (he : a'.placeLimit i side price qty = some (a₁', id)) :
    ∃ a₁, a.placeLimit (skip j i) side price qty = some (a₁, id) ∧ a₁'.Beside j a₁ := by
  rw [Arena.placeLimit, Option.bind_eq_bind, Option.bind_eq_some_iff] at he
  obtain ⟨⟨e, id₁⟩, hengine, he⟩ := he
  obtain ⟨rfl, rfl⟩ := Prod.mk.inj (Option.some.inj he)
  refine ⟨_, placeLimit_eq (by rw [h.engine, hengine]), ?_⟩
  refine Beside.foldl (fun t hb ↦ hb.deliver i side t) _ (Beside.update ?_ i _)
  exact { h.insert id₁ i with engine := rfl }

theorem Beside.cancel (h : a'.Beside j a) {i id : Nat} {ok : Bool}
    (he : a'.cancel i id = some (a₁', ok)) :
    ∃ a₁, a.cancel (skip j i) id = some (a₁, ok) ∧ a₁'.Beside j a₁ := by
  rw [Arena.cancel, Option.bind_eq_bind, Option.bind_eq_some_iff] at he
  obtain ⟨⟨e, ok₁⟩, hengine, he⟩ := he
  have hb : ({ a' with engine := e } : Arena).Beside j { a with engine := e } :=
    { h with engine := rfl }
  rw [Arena.cancel, h.engine, hengine]
  cases ok₁ with
  | false =>
    obtain ⟨rfl, rfl⟩ := Prod.mk.inj (Option.some.inj he)
    exact ⟨_, rfl, hb⟩
  | true =>
    obtain ⟨rfl, rfl⟩ := Prod.mk.inj (Option.some.inj he)
    exact ⟨_, rfl, (hb.update i _).erase id⟩

/-- **The others get the same answers.** -/
theorem Beside.act (h : a'.Beside j a) {i : Nat} {e : Action} {x : e.Answer}
    (he : Arena.act i e a' = some (a₁', x)) :
    ∃ a₁, Arena.act (skip j i) e a = some (a₁, x) ∧ a₁'.Beside j a₁ := by
  cases e with
  | placeLimit side price qty => exact h.placeLimit he
  | cancel id => exact h.cancel he
  | top =>
    obtain ⟨rfl, rfl⟩ := Prod.mk.inj (Option.some.inj he)
    exact ⟨a, congrArg (fun x ↦ some (a, x)) h.top, h⟩
  | account =>
    obtain ⟨rfl, rfl⟩ := Prod.mk.inj (Option.some.inj he)
    exact ⟨a, congrArg (fun x ↦ some (a, x)) (h.accounts i), h⟩

end Beside

/-- A request that changes nothing is answered in any case. -/
theorem act_of_looks (a : Arena) (j : Nat) (e : Action) (he : e.Looks) :
    ∃ x, act j e a = some (a, x) := by
  cases e with
  | placeLimit side price qty => exact he.elim
  | cancel id => exact he.elim
  | top => exact ⟨a.top, rfl⟩
  | account => exact ⟨a.accounts j, rfl⟩

end Arena

namespace Replay

variable {σ : Type}

/-- The replay `r` is the replay `r'` with an observer that has the number `j`. -/
structure Beside (j : Nat) (r' r : Replay σ) : Prop where
  arena : r'.arena.Beside j r.arena
  memory : ∀ i, r.memory (skip j i) = r'.memory i
  stats : r.stats = r'.stats
  extToEng : r.extToEng = r'.extToEng
  lastTradePx : r.lastTradePx = r'.lastTradePx

section Beside

variable {j : Nat} {r r' r₁' : Replay σ}

theorem Beside.add (h : r'.Beside j r) {t : Tick} (he : r'.add t = some r₁') :
    ∃ r₁, r.add t = some r₁ ∧ r₁'.Beside j r₁ := by
  have hadd := he
  rw [Replay.add, Option.bind_eq_bind, Option.bind_eq_some_iff] at he
  obtain ⟨⟨e, id⟩, hengine, -⟩ := he
  obtain rfl : r'.added t e id = r₁' := by simpa [add_eq hengine] using hadd
  refine ⟨_, add_eq (by rw [h.arena.engine, hengine]), ?_, h.memory, ?_, ?_, ?_⟩
  · exact Arena.Beside.foldl (fun t' hb ↦ hb.routeMaker t.toSide t') _
      { h.arena with engine := rfl }
  · simp only [added, h.stats]
  · simp only [added, h.extToEng]
  · simp only [added, h.lastTradePx]

theorem Beside.cancel (h : r'.Beside j r) {t : Tick} (he : r'.cancel t = some r₁') :
    ∃ r₁, r.cancel t = some r₁ ∧ r₁'.Beside j r₁ := by
  have hstats := congrArg (fun s : ReplayStats ↦
    { s with exogenousCancels := s.exogenousCancels + 1 }) h.stats
  simp only [Replay.cancel] at he ⊢
  rw [h.extToEng]
  cases hid : r'.extToEng.find? t.extId with
  | none =>
    rw [hid] at he
    obtain rfl := Option.some.inj he
    exact ⟨_, rfl, h.arena, h.memory, hstats, rfl, h.lastTradePx⟩
  | some id =>
    rw [hid] at he
    simp only [Option.bind_eq_bind, Option.bind_eq_some_iff] at he
    obtain ⟨⟨e, ok⟩, hengine, he⟩ := he
    obtain rfl := Option.some.inj he
    simp only [h.arena.engine, hengine]
    exact ⟨_, rfl, { h.arena with engine := rfl }, h.memory, hstats, rfl, h.lastTradePx⟩

theorem Beside.apply (h : r'.Beside j r) {t : Tick} (he : r'.apply t = some r₁') :
    ∃ r₁, r.apply t = some r₁ ∧ r₁'.Beside j r₁ := by
  have hstats :=
    congrArg (fun s : ReplayStats ↦ { s with tradePrints := s.tradePrints + 1 }) h.stats
  simp only [Replay.apply] at he ⊢
  split
  · rename_i hevent
    rw [if_pos hevent] at he
    exact h.add he
  rename_i hadd
  rw [if_neg hadd] at he
  split
  · rename_i hevent
    rw [if_pos hevent] at he
    exact h.cancel he
  rename_i hcancel
  rw [if_neg hcancel] at he
  split
  · rename_i hevent
    rw [if_pos hevent] at he
    obtain rfl := Option.some.inj he
    exact ⟨_, rfl, { h with stats := hstats, lastTradePx := rfl }⟩
  · rename_i hevent
    rw [if_neg hevent] at he
    obtain rfl := Option.some.inj he
    exact ⟨r, rfl, h⟩

theorem Beside.tick (h : r'.Beside j r) {t : Tick} (he : r'.move (.tick t) = some r₁') :
    ∃ r₁, r.move (.tick t) = some r₁ ∧ r₁'.Beside j r₁ := by
  have hstats :=
    congrArg (fun s : ReplayStats ↦ { s with ticksConsumed := s.ticksConsumed + 1 }) h.stats
  simp only [Replay.move, Option.bind_eq_bind, Option.bind_eq_some_iff] at he ⊢
  obtain ⟨r₂', happly, top, htop, he⟩ := he
  obtain rfl := Option.some.inj he
  have hcounted : Beside j { r' with stats.ticksConsumed := r'.stats.ticksConsumed + 1 }
      { r with stats.ticksConsumed := r.stats.ticksConsumed + 1 } :=
    ⟨h.arena, h.memory, hstats, h.extToEng, h.lastTradePx⟩
  obtain ⟨r₂, happly', hb⟩ := hcounted.apply happly
  refine ⟨_, ⟨r₂, happly', top, ?_, rfl⟩, { hb with arena := { hb.arena with top := rfl } }⟩
  rw [hb.arena.engine, hb.lastTradePx, htop]

/-- A callback of another strategy. -/
theorem Beside.callback (h : r'.Beside j r) {i : Nat} {f : σ → Callback σ}
    (he : r'.move (.callback i f) = some r₁') :
    ∃ r₁, r.move (.callback (skip j i) f) = some r₁ ∧ r₁'.Beside j r₁ := by
  simp only [Replay.move, Option.bind_eq_bind, Option.bind_eq_some_iff] at he ⊢
  obtain ⟨⟨a₁', x⟩, hexec, he⟩ := he
  obtain rfl := Option.some.inj he
  obtain ⟨a₁, hexec', hb⟩ := Program.exec_simulates (Arena.act i) (Arena.act (skip j i))
    (Q := Arena.Beside j) (fun hq hact ↦ hq.act hact) h.arena hexec
  refine ⟨_, ⟨(a₁, x), by rw [h.memory, hexec'], rfl⟩, { h with arena := hb, memory := fun k ↦ ?_ }⟩
  show Function.update r.memory (skip j i) x (skip j k) = Function.update r'.memory i x k
  exact update_skip h.memory i x k

/-- A callback of the observer. -/
theorem Beside.watch (h : r'.Beside j r) {f : σ → Callback σ}
    (hf : ∀ x, (f x).Only Action.Looks) :
    ∃ r₁, r.move (.callback j f) = some r₁ ∧ r'.Beside j r₁ := by
  obtain ⟨x, hexec⟩ : ∃ x, Program.exec (Arena.act j) (f (r.memory j)) r.arena
      = some (r.arena, x) :=
    Program.exec_of_only (r.arena.act_of_looks j) (hf (r.memory j))
  refine ⟨{ r with memory := Function.update r.memory j x }, by rw [Replay.move, hexec]; rfl,
    { h with memory := fun i ↦ ?_ }⟩
  exact (Function.update_of_ne (skip_ne j i) _ _).trans (h.memory i)

end Beside

/-- The second list of moves is the first with those of an observer in between. -/
inductive Woven (j : Nat) : List (Move σ) → List (Move σ) → Prop where
  | nil : Woven j [] []
  | tick (t : Tick) {ms' ms : List (Move σ)} (h : Woven j ms' ms) :
    Woven j (.tick t :: ms') (.tick t :: ms)
  | callback (i : Nat) (f : σ → Callback σ) {ms' ms : List (Move σ)} (h : Woven j ms' ms) :
    Woven j (.callback i f :: ms') (.callback (skip j i) f :: ms)
  | watch {f : σ → Callback σ} (hf : ∀ x, (f x).Only Action.Looks) {ms' ms : List (Move σ)}
    (h : Woven j ms' ms) : Woven j ms' (.callback j f :: ms)

section Woven

variable {j : Nat} {ms ms' ns ns' : List (Move σ)}

theorem Woven.append (h : Woven j ms' ms) (hn : Woven j ns' ns) :
    Woven j (ms' ++ ns') (ms ++ ns) := by
  induction h with
  | nil => exact hn
  | tick t _ ih => exact ih.tick t
  | callback i f _ ih => exact ih.callback i f
  | watch hf _ ih => exact ih.watch hf

/-- **Move by move**, the replay with the observer does what the other does. -/
theorem Beside.after {r r' r₁' : Replay σ} (h : r'.Beside j r) (hw : Woven j ms' ms)
    (he : r'.after ms' = some r₁') : ∃ r₁, r.after ms = some r₁ ∧ r₁'.Beside j r₁ := by
  induction hw generalizing r r' with
  | nil =>
    obtain rfl := Option.some.inj he
    exact ⟨r, rfl, h⟩
  | tick t _ ih =>
    rw [after_cons, Option.bind_eq_some_iff] at he
    obtain ⟨r₂', hmove, he⟩ := he
    obtain ⟨r₂, hmove', h₂⟩ := h.tick hmove
    rw [after_cons, hmove']
    exact ih h₂ he
  | callback i f _ ih =>
    rw [after_cons, Option.bind_eq_some_iff] at he
    obtain ⟨r₂', hmove, he⟩ := he
    obtain ⟨r₂, hmove', h₂⟩ := h.callback hmove
    rw [after_cons, hmove']
    exact ih h₂ he
  | watch hf _ ih =>
    obtain ⟨r₂, hmove', h₂⟩ := h.watch hf
    rw [after_cons, hmove']
    exact ih h₂ he

theorem callbackMoves_append (callback : Strategy σ → σ → Callback σ) (l l' : List (Strategy σ))
    (i : Nat) : callbackMoves callback (l ++ l') i
      = callbackMoves callback l i ++ callbackMoves callback l' (i + l.length) := by
  induction l generalizing i with
  | nil => rfl
  | cons s l ih =>
    rw [List.cons_append, callbackMoves, ih, callbackMoves, List.length_cons,
      show i + 1 + l.length = i + (l.length + 1) by omega, List.cons_append]

theorem woven_of_skip (callback : Strategy σ → σ → Callback σ) {l : List (Strategy σ)} {i i' : Nat}
    (hi : ∀ k < l.length, skip j (i + k) = i' + k) :
    Woven j (callbackMoves callback l i) (callbackMoves callback l i') := by
  induction l generalizing i i' with
  | nil => exact .nil
  | cons s l ih =>
    have hs : skip j i = i' := hi 0 (Nat.succ_pos _)
    rw [callbackMoves, callbackMoves, ← hs]
    refine .callback i _ (ih fun k hk ↦ ?_)
    have hk' := hi (k + 1) (Nat.succ_lt_succ hk)
    rw [hs, Nat.add_assoc, Nat.add_comm 1 k, hk']
    omega

variable {front back : List (Strategy σ)} {s : Strategy σ}

theorem woven_callbackMoves {callback : Strategy σ → σ → Callback σ}
    (hs : ∀ x, (callback s x).Only Action.Looks) :
    Woven front.length (callbackMoves callback (front ++ back) 0)
      (callbackMoves callback (front ++ s :: back) 0) := by
  rw [callbackMoves_append, callbackMoves_append, Nat.zero_add, callbackMoves]
  refine (woven_of_skip callback fun k hk ↦ ?_).append
    ((woven_of_skip callback fun k _ ↦ ?_).watch hs)
  · rw [skip, Nat.zero_add, if_pos hk]
  · rw [skip, if_neg (by omega)]
    omega

theorem woven_moves (hs : s.Watches) (ts : List Tick) :
    Woven front.length (moves (front ++ back) ts) (moves (front ++ s :: back) ts) := by
  refine (woven_callbackMoves hs.onStart).append (.append ?_ (woven_callbackMoves hs.onEnd))
  induction ts with
  | nil => exact .nil
  | cons t ts ih =>
    rw [List.flatMap_cons, List.flatMap_cons]
    exact ((woven_callbackMoves fun x ↦ hs.onTick x t).tick t).append ih

end Woven

end Replay

open Replay in
/-- **An observer leaves no trace.**  Put a strategy that only watches into the list of strategies,
at any place.  On every engine and for every list of ticks both replays come to their end, with the
same book, the same statistics, and the same account and memory of every other strategy; the
observer's own account stays as it was. -/
theorem observer_unseen {σ : Type} {N : Nat} {calls : List Call} {engine : Engine}
    (h : engine.Reached N calls) (front back : List (Strategy σ)) (s : Strategy σ) (hs : s.Watches)
    (memory : Nat → σ) (ts : List Tick) :
    ∃ r r', (start engine memory).run (front ++ s :: back) ts = some r ∧
      (start engine fun i ↦ memory (skip front.length i)).run (front ++ back) ts = some r' ∧
      r.arena.engine = r'.arena.engine ∧ r.stats = r'.stats ∧
      (∀ i, r.arena.accounts (skip front.length i) = r'.arena.accounts i ∧
        r.memory (skip front.length i) = r'.memory i) ∧
      r.arena.accounts front.length = .new := by
  obtain ⟨r', hr', -⟩ := (kept_start h fun i ↦ memory (skip front.length i)).after
    (moves (front ++ back) ts)
  have hstart : (start engine fun i ↦ memory (skip front.length i)).Beside front.length
      (start engine memory) :=
    ⟨⟨rfl, fun _ ↦ rfl, fun _ ↦ rfl, rfl, rfl⟩, fun _ ↦ rfl, rfl, rfl, rfl⟩
  obtain ⟨r, hr, hb⟩ := hstart.after (woven_moves hs ts) hr'
  exact ⟨r, r', by rw [run_eq_after, hr], by rw [run_eq_after, hr'], hb.arena.engine, hb.stats,
    fun i ↦ ⟨hb.arena.accounts i, hb.memory i⟩, hb.arena.idle⟩

/-- A strategy that places one order before the first tick, and remembers its id. -/
def opener (side : Side) (price qty : Int) : Strategy Int where
  onStart _ := do
    let id : Nat ← Program.perform (Action.placeLimit side price qty)
    return id
  onTick x _ := pure x
  onEnd x := pure x

/-- A strategy that remembers the last mid price. -/
def midWatcher : Strategy Int where
  onStart x := pure x
  onTick _ _ := do
    let top : BookTop ← Program.perform Action.top
    return top.mid
  onEnd x := pure x

/-- Between two strategies that trade with each other, one that looks at the price. -/
theorem observer_unseen_between :
    ∃ r r', (Replay.start (Engine.new 4) fun _ ↦ 0).run
        ([opener .Sell 100 1] ++ midWatcher :: [opener .Buy 100 1]) [.trade 7] = some r ∧
      (Replay.start (Engine.new 4) fun _ ↦ 0).run
        ([opener .Sell 100 1] ++ [opener .Buy 100 1]) [.trade 7] = some r' ∧
      r.memory 1 = 7 ∧ (r.arena.accounts 2).portfolio.position = 1 ∧
      r.arena.engine = r'.arena.engine ∧ r.arena.accounts 2 = r'.arena.accounts 1 ∧
      r.arena.accounts 1 = .new := by
  have hwatches : midWatcher.Watches :=
    ⟨fun _ ↦ trivial, fun _ _ ↦ ⟨trivial, fun _ ↦ trivial⟩, fun _ ↦ trivial⟩
  obtain ⟨r, r', hr, hr', hengine, -, hothers, hidle⟩ := observer_unseen (reached_new 4)
    [opener .Sell 100 1] [opener .Buy 100 1] midWatcher hwatches (fun _ ↦ 0) [.trade 7]
  have hrun : ((Replay.start (Engine.new 4) fun _ ↦ 0).run
      ([opener .Sell 100 1] ++ midWatcher :: [opener .Buy 100 1]) [.trade 7]).map
      (fun r ↦ (r.memory 1, (r.arena.accounts 2).portfolio.position)) = some (7, 1) := by
    decide +kernel
  rw [hr, Option.map_some, Option.some_inj, Prod.mk.injEq] at hrun
  exact ⟨r, r', hr, hr', hrun.1, hrun.2, hengine, (hothers 1).1, hidle⟩

end Backtest

end MatchingEngine
