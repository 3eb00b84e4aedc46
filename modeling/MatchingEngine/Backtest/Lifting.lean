import MatchingEngine.Backtest.Stability
import MatchingEngine.Book.Capacity

/-!
# A replay on a larger pool

A replay goes the same way on an engine with a larger pool, as long as it makes no more placements
than the smaller one has room for (`Replay.after_swap`).  Everything in the state is the same then
but the book's pool, and what the record says of disturbed placements, which is not looked at here.
-/

set_option autoImplicit false

namespace MatchingEngine

namespace Backtest

namespace Arena

/-- The same arena with another engine. -/
def swap (a : Arena) (e : Engine) (clean : Bool) : Arena :=
  { a with engine := e, record.clean := clean }

/-- The engine `e` could be used instead, for at most `K` placements in all. -/
def Fits (K : Nat) (a : Arena) (e : Engine) : Prop :=
  a.record.placed ≤ K ∧ a.engine.Fits (K - a.record.placed) e

variable {K i : Nat} {a a₁ : Arena} {e : Engine}

theorem deliver_swap (i : Nat) (side : Side) (a : Arena) (e : Engine) (clean : Bool) (t : Trade) :
    deliver i side (a.swap e clean) t = (deliver i side a t).swap e clean := by
  simp only [deliver]
  rw [show ((a.swap e clean).update i (·.fill side t)).routing
    = (a.update i (·.fill side t)).routing from rfl]
  split <;> rfl

theorem routeMaker_swap (side : Side) (a : Arena) (e : Engine) (clean : Bool) (t : Trade) :
    routeMaker side (a.swap e clean) t = (routeMaker side a t).swap e clean := by
  simp only [routeMaker]
  rw [show (a.swap e clean).routing = a.routing from rfl]
  split <;> rfl

/-- What the trades of a placement do does not depend on the engine they came from. -/
theorem foldl_swap {f : Arena → Trade → Arena} (hf : ∀ a e clean t, f (a.swap e clean) t
    = (f a t).swap e clean) (ts : List Trade) (a : Arena) (e : Engine) (clean : Bool) :
    ts.foldl f (a.swap e clean) = (ts.foldl f a).swap e clean := by
  induction ts generalizing a with
  | nil => rfl
  | cons t ts ih => rw [List.foldl_cons, hf, ih, List.foldl_cons]

theorem Fits.engine_placeLimit (h : a.Fits K e) (hK : a.record.placed + 1 ≤ K) {side : Side}
    {price qty : Int} {e₁ : Engine} {id : Nat}
    (he : a.engine.placeLimit side price qty = some (e₁, id)) :
    ∃ e', e.placeLimit side price qty = some (e', id) ∧
      e₁.Fits (K - (a.record.placed + 1)) e' := by
  have hfits := h.2
  rw [show K - a.record.placed = K - (a.record.placed + 1) + 1 by omega] at hfits
  exact hfits.placeLimit he

theorem Fits.placeLimit (h : a.Fits K e) (hK : a₁.record.placed ≤ K) {side : Side}
    {price qty : Int} {id : Nat} (he : a.placeLimit i side price qty = some (a₁, id))
    (clean : Bool) :
    ∃ e' clean', (a.swap e clean).placeLimit i side price qty = some (a₁.swap e' clean', id) ∧
      a₁.Fits K e' := by
  have hplaced := placed_placeLimit he
  rw [Arena.placeLimit, Option.bind_eq_bind, Option.bind_eq_some_iff] at he
  obtain ⟨⟨e₁, id₁⟩, hengine, he⟩ := he
  obtain ⟨e', he', hfits⟩ := h.engine_placeLimit (hplaced ▸ hK) hengine
  obtain ⟨rfl, rfl⟩ := Prod.mk.inj (Option.some.inj he)
  refine ⟨e', clean && (a.swap e clean).undisturbed side price, ?_, hK, ?_⟩
  · have hentered : (a.swap e clean).entered i side price e' id₁
        = (a.entered i side price e₁ id₁).swap e'
          (clean && (a.swap e clean).undisturbed side price) := by
      rw [Arena.entered, Arena.note, hfits.lastTrades]
      rfl
    rw [placeLimit_eq (a := a.swap e clean) he', hentered, hfits.lastTrades,
      foldl_swap (deliver_swap i side)]
    rfl
  · rw [hplaced, (foldl_deliver_frame i side e₁.lastTrades _).1]
    exact hfits

theorem Fits.cancel (h : a.Fits K e) {id : Nat} {ok : Bool} (he : a.cancel i id = some (a₁, ok))
    (clean : Bool) :
    ∃ e', (a.swap e clean).cancel i id = some (a₁.swap e' clean, ok) ∧ a₁.Fits K e' := by
  rw [Arena.cancel, Option.bind_eq_bind, Option.bind_eq_some_iff] at he
  obtain ⟨⟨e₁, ok₁⟩, hengine, he⟩ := he
  obtain ⟨e', he', hfits⟩ := h.2.cancel hengine
  have hswap : (a.swap e clean).engine = e := rfl
  refine ⟨e', ?_, ?_⟩
  · rw [Arena.cancel, hswap, he']
    cases ok₁ <;> obtain ⟨rfl, rfl⟩ := Prod.mk.inj (Option.some.inj he) <;> rfl
  · cases ok₁ <;> obtain ⟨rfl, rfl⟩ := Prod.mk.inj (Option.some.inj he) <;> exact ⟨h.1, hfits⟩

theorem placed_act {req : Action} {r : req.Answer} (he : act i req a = some (a₁, r)) :
    a.record.placed ≤ a₁.record.placed := by
  cases req with
  | placeLimit side price qty =>
    rw [placed_placeLimit he]
    exact Nat.le_succ _
  | cancel id =>
    obtain ⟨-, -, -, hrecord⟩ := of_cancel he
    rw [hrecord]
  | top =>
    obtain ⟨rfl, -⟩ := Prod.mk.inj (Option.some.inj he)
    exact le_rfl
  | account =>
    obtain ⟨rfl, -⟩ := Prod.mk.inj (Option.some.inj he)
    exact le_rfl

theorem Fits.act (h : a.Fits K e) {req : Action} {r : req.Answer} (hK : a₁.record.placed ≤ K)
    (he : act i req a = some (a₁, r)) (clean : Bool) :
    ∃ e' clean', Arena.act i req (a.swap e clean) = some (a₁.swap e' clean', r) ∧
      a₁.Fits K e' := by
  cases req with
  | placeLimit side price qty => exact h.placeLimit hK he clean
  | cancel id =>
    obtain ⟨e', he', hfits⟩ := h.cancel he clean
    exact ⟨e', clean, he', hfits⟩
  | top =>
    obtain ⟨rfl, rfl⟩ := Prod.mk.inj (Option.some.inj he)
    exact ⟨e, clean, rfl, h⟩
  | account =>
    obtain ⟨rfl, rfl⟩ := Prod.mk.inj (Option.some.inj he)
    exact ⟨e, clean, rfl, h⟩

section Exec

variable {α : Type} {p : Callback α} {x : α}

theorem placed_exec (he : Program.exec (Arena.act i) p a = some (a₁, x)) :
    a.record.placed ≤ a₁.record.placed := by
  induction p generalizing a with
  | ret y =>
    obtain ⟨rfl, -⟩ := Prod.mk.inj (Option.some.inj he)
    exact le_rfl
  | call req k ih =>
    rw [Program.exec_call, Option.bind_eq_some_iff] at he
    obtain ⟨⟨a₂, r⟩, h₂, he⟩ := he
    exact (placed_act h₂).trans (ih r he)

theorem Fits.exec (h : a.Fits K e) (hK : a₁.record.placed ≤ K)
    (he : Program.exec (Arena.act i) p a = some (a₁, x)) (clean : Bool) :
    ∃ e' clean', Program.exec (Arena.act i) p (a.swap e clean) = some (a₁.swap e' clean', x) ∧
      a₁.Fits K e' := by
  induction p generalizing a e clean with
  | ret y =>
    obtain ⟨rfl, rfl⟩ := Prod.mk.inj (Option.some.inj he)
    exact ⟨e, clean, rfl, h⟩
  | call req k ih =>
    rw [Program.exec_call, Option.bind_eq_some_iff] at he
    obtain ⟨⟨a₂, r⟩, h₂, he⟩ := he
    obtain ⟨e₂, clean₂, hact, hfits⟩ := h.act ((placed_exec he).trans hK) h₂ clean
    obtain ⟨e', clean', hexec, hfits'⟩ := ih r hfits he clean₂
    exact ⟨e', clean', by rw [Program.exec_call, hact]; exact hexec, hfits'⟩

end Exec

end Arena

namespace Replay

variable {σ : Type} {K : Nat} {r r₁ : Replay σ} {e : Engine}

/-- The same replay with another engine. -/
def swap (r : Replay σ) (e : Engine) (clean : Bool) : Replay σ :=
  { r with arena := r.arena.swap e clean }

theorem added_swap (r : Replay σ) (t : Tick) (e : Engine) (clean : Bool) {e₁ e' : Engine}
    (h : e'.lastTrades = e₁.lastTrades) (id : Nat) :
    (r.swap e clean).added t e' id = (r.added t e₁ id).swap e'
      (clean && (r.arena.swap e clean).undisturbed t.toSide t.price) := by
  have hmet : (r.swap e clean).arena.met t.toSide t.price e'
      = (r.arena.met t.toSide t.price e₁).swap e'
        (clean && (r.arena.swap e clean).undisturbed t.toSide t.price) := by
    rw [Arena.met, Arena.note, h]
    rfl
  have harena := Arena.foldl_swap (Arena.routeMaker_swap t.toSide) e₁.lastTrades
    (r.arena.met t.toSide t.price e₁) e'
    (clean && (r.arena.swap e clean).undisturbed t.toSide t.price)
  simp only [Replay.added, hmet, h, harena]
  rfl

theorem add_swap (h : r.arena.Fits K e) (hK : r₁.arena.record.placed ≤ K) {t : Tick}
    (he : r.add t = some r₁) (clean : Bool) :
    ∃ e' clean', (r.swap e clean).add t = some (r₁.swap e' clean') ∧ r₁.arena.Fits K e' := by
  have hadd := he
  rw [Replay.add, Option.bind_eq_bind, Option.bind_eq_some_iff] at he
  obtain ⟨⟨e₁, id⟩, hengine, -⟩ := he
  obtain rfl : r.added t e₁ id = r₁ := by simpa [add_eq hengine] using hadd
  obtain ⟨e', he', hfits⟩ := h.engine_placeLimit (placed_added t e₁ id ▸ hK) hengine
  refine ⟨e', clean && (r.arena.swap e clean).undisturbed t.toSide t.price, ?_, hK, ?_⟩
  · rw [add_eq (r := r.swap e clean) he', added_swap r t e clean hfits.lastTrades]
  · rw [placed_added, engine_added]
    exact hfits

theorem cancel_swap (h : r.arena.Fits K e) {t : Tick} (he : r.cancel t = some r₁) (clean : Bool) :
    ∃ e', (r.swap e clean).cancel t = some (r₁.swap e' clean) ∧ r₁.arena.Fits K e' := by
  simp only [Replay.cancel] at he ⊢
  rw [show (r.swap e clean).extToEng = r.extToEng from rfl]
  cases hid : r.extToEng.find? t.extId with
  | none =>
    rw [hid] at he
    obtain rfl := Option.some.inj he
    exact ⟨e, rfl, h⟩
  | some id =>
    rw [hid] at he
    simp only [Option.bind_eq_bind, Option.bind_eq_some_iff] at he
    obtain ⟨⟨e₁, ok⟩, hengine, he⟩ := he
    obtain rfl := Option.some.inj he
    obtain ⟨e', he', hfits⟩ := h.2.cancel hengine
    refine ⟨e', ?_, h.1, hfits⟩
    simp only [show (r.swap e clean).arena.engine = e from rfl, he']
    rfl

theorem apply_swap (h : r.arena.Fits K e) (hK : r₁.arena.record.placed ≤ K) {t : Tick}
    (he : r.apply t = some r₁) (clean : Bool) :
    ∃ e' clean', (r.swap e clean).apply t = some (r₁.swap e' clean') ∧ r₁.arena.Fits K e' := by
  rw [Replay.apply] at he ⊢
  split
  · rename_i hevent
    rw [if_pos hevent] at he
    exact add_swap h hK he clean
  rename_i hadd
  rw [if_neg hadd] at he
  split
  · rename_i hevent
    rw [if_pos hevent] at he
    obtain ⟨e', he', hfits⟩ := cancel_swap h he clean
    exact ⟨e', clean, he', hfits⟩
  rename_i hcancel
  rw [if_neg hcancel] at he
  split at he
  · rename_i hevent
    obtain rfl := Option.some.inj he
    rw [if_pos hevent]
    exact ⟨e, clean, rfl, h⟩
  · rename_i hevent
    obtain rfl := Option.some.inj he
    rw [if_neg hevent]
    exact ⟨e, clean, rfl, h⟩

theorem snapshotTop_eq {n : Nat} {e e' : Engine} (h : e.Fits n e') (px : Int) :
    snapshotTop e'.book px = snapshotTop e.book px := by
  simp only [snapshotTop, qtyIf, h.bestBid, h.bestAsk, h.qtyAt]

theorem move_swap (h : r.arena.Fits K e) (hK : r₁.arena.record.placed ≤ K) {m : Move σ}
    (he : r.move m = some r₁) (clean : Bool) :
    ∃ e' clean', (r.swap e clean).move m = some (r₁.swap e' clean') ∧ r₁.arena.Fits K e' := by
  cases m with
  | tick t =>
    simp only [Replay.move, Option.bind_eq_bind, Option.bind_eq_some_iff] at he
    obtain ⟨r₂, h₂, top, htop, he⟩ := he
    obtain rfl := Option.some.inj he
    obtain ⟨e', clean', h₂', hfits⟩ := apply_swap
      (r := { r with stats.ticksConsumed := r.stats.ticksConsumed + 1 }) h
      (show r₂.arena.record.placed ≤ K from hK) h₂ clean
    refine ⟨e', clean', ?_, hfits⟩
    have htop' : snapshotTop (r₂.swap e' clean').arena.engine.book (r₂.swap e' clean').lastTradePx
        = some top := (snapshotTop_eq hfits.2 _).trans htop
    exact Option.bind_eq_some_iff.mpr ⟨_, h₂', Option.bind_eq_some_iff.mpr ⟨top, htop', rfl⟩⟩
  | callback i f =>
    simp only [Replay.move, Option.bind_eq_bind, Option.bind_eq_some_iff] at he
    obtain ⟨⟨a, x⟩, hexec, he⟩ := he
    obtain rfl := Option.some.inj he
    obtain ⟨e', clean', hexec', hfits⟩ := h.exec hK hexec clean
    exact ⟨e', clean', by
      rw [Replay.move, show (r.swap e clean).arena = r.arena.swap e clean from rfl,
        show (r.swap e clean).memory = r.memory from rfl, hexec']; rfl, hfits⟩

theorem placed_move {m : Move σ} (he : r.move m = some r₁) :
    r.arena.record.placed ≤ r₁.arena.record.placed := by
  cases m with
  | tick t =>
    simp only [Replay.move, Option.bind_eq_bind, Option.bind_eq_some_iff] at he
    obtain ⟨r₂, h₂, top, -, he⟩ := he
    obtain rfl := Option.some.inj he
    rcases apply_cases h₂ with ⟨e, id, -, -, rfl⟩ | ⟨id, e, ok, -, -, -, harena, -⟩ |
      ⟨-, -, harena, -⟩
    · exact (Nat.le_succ _).trans_eq (placed_added t e id).symm
    · exact (congrArg (fun a : Arena ↦ a.record.placed) harena).ge
    · exact (congrArg (fun a : Arena ↦ a.record.placed) harena).ge
  | callback i f =>
    simp only [Replay.move, Option.bind_eq_bind, Option.bind_eq_some_iff] at he
    obtain ⟨⟨a, x⟩, hexec, he⟩ := he
    obtain rfl := Option.some.inj he
    exact Arena.placed_exec hexec

theorem placed_after {ms : List (Move σ)} (he : r.after ms = some r₁) :
    r.arena.record.placed ≤ r₁.arena.record.placed := by
  induction ms generalizing r with
  | nil =>
    obtain rfl := Option.some.inj he
    exact le_rfl
  | cons m ms ih =>
    rw [after_cons, Option.bind_eq_some_iff] at he
    obtain ⟨r₂, h₂, he⟩ := he
    exact (placed_move h₂).trans (ih he)

/-- **The same moves on a larger pool.** -/
theorem after_swap (h : r.arena.Fits K e) (hK : r₁.arena.record.placed ≤ K) {ms : List (Move σ)}
    (he : r.after ms = some r₁) (clean : Bool) :
    ∃ e' clean', (r.swap e clean).after ms = some (r₁.swap e' clean') ∧ r₁.arena.Fits K e' := by
  induction ms generalizing r e clean with
  | nil =>
    obtain rfl := Option.some.inj he
    exact ⟨e, clean, rfl, h⟩
  | cons m ms ih =>
    rw [after_cons, Option.bind_eq_some_iff] at he
    obtain ⟨r₂, h₂, he⟩ := he
    obtain ⟨e₂, clean₂, hmove, hfits⟩ := move_swap h ((placed_after he).trans hK) h₂ clean
    obtain ⟨e', clean', hafter, hfits'⟩ := ih hfits he clean₂
    exact ⟨e', clean', by rw [after_cons, hmove]; exact hafter, hfits'⟩

theorem after_start {e e' : Engine} (h : e.Fits K e') (memory : Nat → σ) {ms : List (Move σ)}
    (he : (Replay.start e memory).after ms = some r₁) (hK : r₁.arena.record.placed ≤ K) :
    ∃ e₁ clean, (Replay.start e' memory).after ms = some (r₁.swap e₁ clean) ∧ r₁.arena.Fits K e₁ :=
  after_swap (r := Replay.start e memory) ⟨Nat.zero_le K, h⟩ hK he true

end Replay

/-! ## Ticks -/

/-- An order of the tick file. -/
def Tick.add (side : Side) (price qty : Int) (extId : Nat) : Tick :=
  { tsNs := 0, symbol := 0, event := 0, side := match side with | .Buy => 0 | .Sell => 1
    price, qty, extId }

def Tick.cancel (extId : Nat) : Tick :=
  { tsNs := 0, symbol := 0, event := 1, side := 0, price := 0, qty := 0, extId }

/-- A trade print. -/
def Tick.trade (price : Int) : Tick :=
  { tsNs := 0, symbol := 0, event := 2, side := 0, price, qty := 1, extId := 0 }

end Backtest

end MatchingEngine
