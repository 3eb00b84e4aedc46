import MatchingEngine.Backtest.Lifting

/-!
# The moving-average crossover

`strategies/ma_cross.cpp`.  When the fast average of the prices crosses the slow one, the strategy
sends one order that would take its position to the target on that side.  It forgets the order at
once, although what is not filled stays in the book.

That is why the position is not bounded by the target, as the header has it: two remainders on one
side can both be filled later (`exists_position_past_target`).  It is bounded as long as the
strategy never sends an order while an earlier one of its own rests on the same side
(`maCross_bounded`).
-/

set_option autoImplicit false

namespace MatchingEngine

namespace Backtest

structure MACrossConfig where
  fastWindow : Nat := 20
  slowWindow : Nat := 100
  targetPosition : Int := 50
  slippageTicks : Int := 1

/-- A window of prices with its sum, which is kept in 64 bits. -/
structure Window where
  prices : List Int
  sum : Int

namespace Window

def empty : Window := { prices := [], sum := 0 }

/-- Push a price at the back, and drop the oldest one if there are more than `size`. -/
def push (w : Window) (size : Nat) (p : Int) : Window :=
  let w := { prices := w.prices ++ [p], sum := (w.sum + p).bmod (2 ^ 64) }
  if size < w.prices.length then
    match w.prices with
    | [] => w
    | front :: prices => { prices, sum := (w.sum - front).bmod (2 ^ 64) }
  else w

def avg (w : Window) : Int :=
  if w.prices.isEmpty then 0 else w.sum.tdiv w.prices.length

end Window

structure MACross where
  fast : Window
  slow : Window
  lastSign : Int

namespace MACross

def new : MACross := { fast := .empty, slow := .empty, lastSign := 0 }

def pushPrice (cfg : MACrossConfig) (m : MACross) (p : Int) : MACross :=
  { m with fast := m.fast.push cfg.fastWindow p, slow := m.slow.push cfg.slowWindow p }

/-- The side on which the fast average is. -/
def sign (m : MACross) : Int :=
  if m.slow.avg < m.fast.avg then 1 else if m.fast.avg < m.slow.avg then -1 else 0

/-- The order that takes the position to the target. -/
def flip (cfg : MACrossConfig) (m : MACross) (top : BookTop) : Callback MACross := do
  let account : Account ← Program.perform Action.account
  let pos := account.portfolio.position
  if 0 < m.lastSign then
    let need := cfg.targetPosition - pos
    if 0 < need then
      let _ ← Program.perform (.placeLimit .Buy (top.askPx + cfg.slippageTicks) need)
      return m
    else return m
  else
    let need := pos - -cfg.targetPosition
    if 0 < need then
      let _ ← Program.perform (.placeLimit .Sell (top.bidPx - cfg.slippageTicks) need)
      return m
    else return m

/-- The rest of `on_tick`, once the price is in the windows. -/
def react (cfg : MACrossConfig) (m : MACross) (top : BookTop) : Callback MACross :=
  -- warming up
  if m.slow.prices.length < cfg.slowWindow then pure m
  else if m.sign = 0 ∨ m.sign = m.lastSign then pure m
  else
    let m := { m with lastSign := m.sign }
    if top.bidPx = 0 ∨ top.askPx = 0 then pure m
    else m.flip cfg top

def onTick (cfg : MACrossConfig) (m : MACross) (t : Tick) : Callback MACross := do
  let top : BookTop ← Program.perform Action.top
  if t.event = 2 then (m.pushPrice cfg t.price).react cfg top
  else if top.mid ≠ 0 then (m.pushPrice cfg top.mid).react cfg top
  else return m

def strategy (cfg : MACrossConfig) : Strategy MACross where
  onStart m := pure m
  onTick m t := m.onTick cfg t
  onEnd m := pure m

/-! ## When the target is a bound -/

/-- No order of the strategy `i` rests on the side on which one is placed. -/
def alone (i : Nat) (req : Action) (a : Arena) : Bool :=
  match req with
  | .placeLimit side _ _ =>
    a.record.issued.entries.all fun e ↦ e.2 != i || a.engine.book.openQty side e.1 == 0
  | _ => true

/-- The same for all orders the strategy places in a move. -/
def unstacked {σ : Type} (i : Nat) : Move σ → Replay σ → Bool
  | .tick _, _ => true
  | .callback j f, r => j != i || Program.along (Arena.act i) (alone i) (f (r.memory i)) r.arena

/-- The strategy can never be filled past its target. -/
abbrev Bounded (cfg : MACrossConfig) (i : Nat) : Arena → Prop := Arena.Within i cfg.targetPosition

section Step

variable {cfg : MACrossConfig} {N k₀ i : Nat} {a a' : Arena}

theorem openOf_eq_zero {side : Side} {price qty : Int}
    (h : alone i (.placeLimit side price qty) a = true) : a.openOf i side = 0 := by
  refine sumOf_eq_zero fun id hid ↦ ?_
  have hid := List.all_eq_true.mp h _ ((SortedMap.find?_eq_some_iff _).mp hid)
  simpa using hid

/-- An order up to the target on one side, when nothing rests there. -/
theorem Bounded.flip (h : Bounded cfg i a) {side : Side} {qty : Int} {id : Nat}
    (hopen : a.openOf i side = 0) (hpos : 0 < qty)
    (hqty : signed side (a.position i) + qty = cfg.targetPosition)
    (he : a.Effect a' (some i) side qty id) : Bounded cfg i a' := by
  have hmost := he.most i
  have hleast := he.least i
  obtain ⟨hm, hl⟩ := h
  have hamost : a.most i = a.position i + a.openOf i .Buy := rfl
  have haleast : a.least i = a.position i - a.openOf i .Sell := rfl
  cases side with
  | Buy =>
    rw [if_pos ⟨rfl, rfl⟩] at hmost
    rw [if_neg (by simp)] at hleast
    rw [signed] at hqty
    exact ⟨by omega, by omega⟩
  | Sell =>
    rw [if_neg (by simp)] at hmost
    rw [if_pos ⟨rfl, rfl⟩] at hleast
    rw [signed] at hqty
    exact ⟨by omega, by omega⟩

theorem ensures_place {m : MACross} {side : Side} {price qty pos : Int} (hpos : 0 < qty)
    (hqty : signed side pos + qty = cfg.targetPosition) :
    Program.Ensures (Arena.act i) (Arena.Holds N k₀ (Bounded cfg i))
      (fun a ↦ a.Holds N k₀ (fun a ↦ Bounded cfg i a ∧ pos = a.position i) ∧
        Program.along (Arena.act i) (alone i) (do
          let _ ← Program.perform (.placeLimit side price qty)
          return m) a = true)
      (do
        let _ ← Program.perform (.placeLimit side price qty)
        return m : Callback MACross)
      fun _ ↦ Arena.Holds N k₀ (Bounded cfg i) := by
  refine .weaken (.bind (Arena.ensures_placeLimit (Q := fun a ↦ (Bounded cfg i a ∧
    pos = a.position i) ∧ a.openOf i side = 0) (P := fun _ ↦ Bounded cfg i) (fun a h ↦ h.1.1)
    (fun _ a h ↦ h) fun a a' id h he ↦ ?_) fun _ ↦ .ret fun a h ↦ ⟨h, h⟩) (fun a h ↦ ?_)
    fun _ _ h ↦ h
  · exact h.1.1.flip h.2 hpos (h.1.2 ▸ hqty) he
  · exact ⟨h.1.1, fun hlt ↦ ⟨h.1.2 hlt, openOf_eq_zero (Program.test_of_along h.2)⟩⟩

theorem ensures_flip (m : MACross) (top : BookTop) :
    Program.Ensures (Arena.act i) (Arena.Holds N k₀ (Bounded cfg i))
      (fun a ↦ a.Holds N k₀ (Bounded cfg i) ∧
        Program.along (Arena.act i) (alone i) (m.flip cfg top) a = true) (m.flip cfg top)
      fun _ ↦ Arena.Holds N k₀ (Bounded cfg i) := by
  refine .bind_along (Arena.ensures_account fun _ h ↦ h) fun account ↦ ?_
  dsimp only
  split
  · split
    · rename_i hneed
      exact ensures_place hneed (by rw [signed]; omega)
    · exact .ret fun a h ↦ ⟨h.1.imp fun _ h ↦ h.1, h.1.imp fun _ h ↦ h.1⟩
  · split
    · rename_i hneed
      exact ensures_place hneed (by rw [signed]; omega)
    · exact .ret fun a h ↦ ⟨h.1.imp fun _ h ↦ h.1, h.1.imp fun _ h ↦ h.1⟩

theorem ensures_react (m : MACross) (top : BookTop) :
    Program.Ensures (Arena.act i) (Arena.Holds N k₀ (Bounded cfg i))
      (fun a ↦ a.Holds N k₀ (Bounded cfg i) ∧
        Program.along (Arena.act i) (alone i) (m.react cfg top) a = true) (m.react cfg top)
      fun _ ↦ Arena.Holds N k₀ (Bounded cfg i) := by
  rw [react]
  split
  · exact .ret fun a h ↦ ⟨h.1, h.1⟩
  split
  · exact .ret fun a h ↦ ⟨h.1, h.1⟩
  dsimp only
  split
  · exact .ret fun a h ↦ ⟨h.1, h.1⟩
  · exact ensures_flip _ top

theorem ensures_onTick (m : MACross) (t : Tick) :
    Program.Ensures (Arena.act i) (Arena.Holds N k₀ (Bounded cfg i))
      (fun a ↦ a.Holds N k₀ (Bounded cfg i) ∧
        Program.along (Arena.act i) (alone i) (m.onTick cfg t) a = true) (m.onTick cfg t)
      fun _ ↦ Arena.Holds N k₀ (Bounded cfg i) := by
  refine .bind_along (Arena.ensures_top fun _ h ↦ h) fun top ↦ ?_
  split
  · exact ensures_react _ top
  split
  · exact ensures_react _ top
  · exact .ret fun a h ↦ ⟨h.1, h.1⟩

end Step

/-! ## Whole runs -/

section Run

variable {τ : Type} {cfg : MACrossConfig} {N i : Nat} {calls : List Call} {engine : Engine}
  {strategies : List (Strategy (MACross ⊕ τ))} {memory : Nat → MACross ⊕ τ}

/-- Any callback of the strategy. -/
theorem ensures_callback {ts : List Tick} {k₀ : Nat}
    (hi : strategies[i]? = some (strategy cfg).inl) {f : MACross ⊕ τ → Callback (MACross ⊕ τ)}
    (hf : .callback i f ∈ moves strategies ts) (m : MACross) :
    Program.Ensures (Arena.act i) (Arena.Holds N k₀ (Bounded cfg i))
      (fun a ↦ a.Holds N k₀ (Bounded cfg i) ∧
        Program.along (Arena.act i) (alone i) (f (.inl m)) a = true) (f (.inl m))
      fun y a ↦ ∃ m, y = .inl m ∧ a.Holds N k₀ (Bounded cfg i) := by
  have hidle : Program.Ensures (Arena.act i) (Arena.Holds N k₀ (Bounded cfg i))
      (Arena.Holds N k₀ (Bounded cfg i)) (pure m : Callback MACross)
      fun _ ↦ Arena.Holds N k₀ (Bounded cfg i) := .ret fun a h ↦ ⟨h, h⟩
  obtain ⟨s, hs, hf⟩ := mem_moves hf
  obtain rfl : (strategy cfg).inl = s := Option.some.inj (hi.symm.trans hs)
  rcases hf with rfl | ⟨t, rfl⟩ | rfl
  · exact (Arena.ensures_inl (J := fun _ ↦ Bounded cfg i) (f := (strategy cfg).onStart)
      (fun _ _ h ↦ h) hidle).weaken (fun a h ↦ h.1) fun _ _ h ↦ h
  · exact (Arena.ensures_inl (J := fun _ ↦ Bounded cfg i) (f := ((strategy cfg).onTick · t))
      (fun _ _ h ↦ h) (ensures_onTick m t)).weaken (fun a h ↦ ⟨h.1, Program.along_of_bind h.2⟩)
      fun _ _ h ↦ h
  · exact (Arena.ensures_inl (J := fun _ ↦ Bounded cfg i) (f := (strategy cfg).onEnd)
      (fun _ _ h ↦ h) hidle).weaken (fun a h ↦ h.1) fun _ _ h ↦ h

/-- **The strategy keeps to its target** in a run without stacked orders. -/
theorem disciplined (h : engine.Reached N calls) (hT : 0 ≤ cfg.targetPosition)
    (hi : strategies[i]? = some (strategy cfg).inl) (hmemory : memory i = .inl new) {ts : List Tick}
    {done : List (Move (MACross ⊕ τ))} (hdone : done <+: moves strategies ts)
    (hchecks : (Replay.start engine memory).checks (unstacked i) done = true) :
    Arena.Disciplined N (placements calls) i (Bounded cfg i) (fun _ : MACross ↦ Bounded cfg i)
      (Replay.start engine memory) done where
  stable _ := Arena.Within.stable
  imp _ _ hb := hb
  start := ⟨new, hmemory, kept_start h memory, fun _ ↦ Arena.within_start hT engine memory⟩
  own done' f r m hm hr hx hb := by
    have hmem : .callback i f ∈ moves strategies ts := (hm.trans hdone).subset (by simp)
    have htest := Replay.test_of_checks (Replay.checks_of_isPrefix hchecks hm) hr
    rw [unstacked, bne_self_eq_false, Bool.false_or, hx] at htest
    exact ensures_callback hi hmem m r.arena ⟨hb, htest⟩

end Run

end MACross

/-- **When the position keeps to the target.**  In a replay with a crossover strategy, on every
engine, for every list of ticks and beside all other strategies, every state is reached; and as long
as there are fewer than `2 ^ 64` placements, and the strategy has placed no order while an earlier
one of its own was resting on the same side, its position is within the target. -/
theorem maCross_bounded {τ : Type} {N i : Nat} {calls : List Call} {engine : Engine}
    (h : engine.Reached N calls) (cfg : MACrossConfig) (hT : 0 ≤ cfg.targetPosition)
    (strategies : List (Strategy (MACross ⊕ τ)))
    (hi : strategies[i]? = some (MACross.strategy cfg).inl) (memory : Nat → MACross ⊕ τ)
    (hmemory : memory i = .inl .new) (ts : List Tick) {done : List (Move (MACross ⊕ τ))}
    (hdone : done <+: moves strategies ts) :
    ∃ r, (Replay.start engine memory).after done = some r ∧
      (placements calls + r.arena.record.placed < 2 ^ 64 →
        (Replay.start engine memory).checks (MACross.unstacked i) done = true →
        -cfg.targetPosition ≤ (r.arena.accounts i).portfolio.position ∧
          (r.arena.accounts i).portfolio.position ≤ cfg.targetPosition) := by
  obtain ⟨r, hr, -⟩ := (kept_start h memory).after done
  refine ⟨r, hr, fun hlt hchecks ↦ ?_⟩
  obtain ⟨-, -, hb⟩ := (MACross.disciplined h hT hi hmemory hdone hchecks).after
    (List.prefix_refl _) hr
  exact hb.position_within hlt

/-- Averages over one price and over two, and a target of ten. -/
def shortAverages : MACrossConfig := { fastWindow := 1, slowWindow := 2, targetPosition := 10 }

/-- Short by one, with the rest of the order still to come. -/
theorem maCross_bounded_one_order :
    ∃ r, (Replay.start (Engine.new 8) fun _ ↦ (.inl .new : MACross ⊕ Unit)).after
        (moves [(MACross.strategy shortAverages).inl] [.add .Sell 100 1 0, .add .Buy 50 1 0])
        = some r ∧
      placements [] + r.arena.record.placed < 2 ^ 64 ∧
      (Replay.start (Engine.new 8) fun _ ↦ (.inl .new : MACross ⊕ Unit)).checks
        (MACross.unstacked 0)
          (moves [(MACross.strategy shortAverages).inl] [.add .Sell 100 1 0, .add .Buy 50 1 0])
        = true ∧
      (r.arena.accounts 0).portfolio.position = -1 ∧
      -shortAverages.targetPosition ≤ (r.arena.accounts 0).portfolio.position ∧
      (r.arena.accounts 0).portfolio.position ≤ shortAverages.targetPosition := by
  obtain ⟨r, hr, hbound⟩ := maCross_bounded (τ := Unit) (i := 0) (reached_new 8) shortAverages
    (by decide) [(MACross.strategy shortAverages).inl] rfl (fun _ ↦ .inl .new) rfl
    [.add .Sell 100 1 0, .add .Buy 50 1 0] (List.prefix_refl _)
  have hrun : ((Replay.start (Engine.new 8) fun _ ↦ (.inl .new : MACross ⊕ Unit)).after
      (moves [(MACross.strategy shortAverages).inl] [.add .Sell 100 1 0, .add .Buy 50 1 0])).map
      (fun r ↦ (r.arena.record.placed, (r.arena.accounts 0).portfolio.position))
        = some (3, -1) := by decide +kernel
  have hchecks : (Replay.start (Engine.new 8) fun _ ↦ (.inl .new : MACross ⊕ Unit)).checks
      (MACross.unstacked 0) (moves [(MACross.strategy shortAverages).inl]
        [.add .Sell 100 1 0, .add .Buy 50 1 0]) = true := by decide +kernel
  rw [hr, Option.map_some, Option.some_inj, Prod.mk.injEq] at hrun
  have hlt : placements [] + r.arena.record.placed < 2 ^ 64 := by
    rw [hrun.1]
    decide
  exact ⟨r, hr, hlt, hchecks, hrun.2, hbound hlt hchecks⟩

/-- **The position can go far past the target.**  Ten are sold at 49 and nine of them stay in the
book; a print turns the signal while there are no bids, and the next tick turns it back, so that
nine more are offered at 39.  Then somebody buys all that is left of both. -/
theorem exists_position_past_target :
    ∃ r, (Replay.start (Engine.new Engine.defaultPoolCapacity) fun _ ↦
        (.inl .new : MACross ⊕ Unit)).after
        (moves [(MACross.strategy shortAverages).inl] [.add .Sell 100 1 0, .add .Buy 50 1 0,
          .trade 1000, .add .Buy 40 1 0, .add .Buy 49 100 0]) = some r ∧
      r.arena.record.placed = 7 ∧ (r.arena.accounts 0).portfolio.position = -18 := by
  have hrun : ((Replay.start (Engine.new 8) fun _ ↦ (.inl .new : MACross ⊕ Unit)).after
      (moves [(MACross.strategy shortAverages).inl] [.add .Sell 100 1 0, .add .Buy 50 1 0,
        .trade 1000, .add .Buy 40 1 0, .add .Buy 49 100 0])).map
      (fun r ↦ (r.arena.record.placed, (r.arena.accounts 0).portfolio.position))
        = some (7, -18) := by decide +kernel
  obtain ⟨r, hr, hread⟩ := Option.map_eq_some_iff.mp hrun
  obtain ⟨hplaced, hpos⟩ := Prod.mk.inj hread
  obtain ⟨e, clean, hr', -⟩ := Replay.after_start
    (Engine.fits_new (show 8 ≤ Engine.defaultPoolCapacity by decide)) _ hr (by omega)
  exact ⟨r.swap e clean, hr', hplaced, hpos⟩

end Backtest

end MatchingEngine
