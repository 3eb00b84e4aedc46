import MatchingEngine.Backtest.Snapshot
import MatchingEngine.Book.Executions
import MatchingEngine.Strategies.MarketMaker

/-!
# The market maker does not take

A market maker that is called first sees the book as it is.  The middle is not below the best bid
and not above the best ask, so a bid below it is below every ask and an ask above it is above every
bid.  Taking out the old quotes does not change that, and neither does the new bid, which is below
the new ask.  So none of the orders it places trades when it is placed (`marketMaker_passive`).

The results are for a spread that is at least one.
-/

set_option autoImplicit false

namespace MatchingEngine

namespace Backtest

/-- Nothing is offered at `lo` or below, nobody bids `hi` or more, and these are the trades so
far. -/
structure Arena.Clear (N : Nat) (lo hi : Int) (tape : List (Side × Trade)) (a : Arena) : Prop where
  usable : ∃ m, a.engine.Usable N m
  asks : ∀ p ∈ a.engine.book.prices .Sell, lo < p
  bids : ∀ p ∈ a.engine.book.prices .Buy, p < hi
  tape : a.record.tape = tape

/-- The price of a quote. -/
def quotePrice (lo hi : Int) : Side → Int
  | .Buy => lo
  | .Sell => hi

section Step

variable {N i : Nat} {lo hi : Int} {tape : List (Side × Trade)} {a a' : Arena}

theorem Arena.Clear.of_subset (h : a.Clear N lo hi tape) (hlt : lo < hi)
    (husable : ∃ m, a'.engine.Usable N m)
    (hsub : ∀ side, ∀ p ∈ a'.engine.book.prices side,
      p ∈ a.engine.book.prices side ∨ p = quotePrice lo hi side)
    (htape : a'.record.tape = a.record.tape) : a'.Clear N lo hi tape := by
  refine ⟨husable, fun p hp ↦ ?_, fun p hp ↦ ?_, htape.trans h.tape⟩
  · rcases hsub .Sell p hp with hp | rfl
    · exact h.asks p hp
    · exact hlt
  · rcases hsub .Buy p hp with hp | rfl
    · exact h.bids p hp
    · exact hlt

theorem Arena.Clear.cancel (h : a.Clear N lo hi tape) (hlt : lo < hi) {id : Nat} {ok : Bool}
    (he : a.cancel i id = some (a', ok)) : a'.Clear N lo hi tape := by
  obtain ⟨m, hu⟩ := h.usable
  obtain ⟨e, hcancel, rfl, hrecord⟩ := Arena.of_cancel he
  have hu' := hu.cancel hcancel
  refine h.of_subset hlt ⟨_, hu'⟩ (fun side p hp ↦ .inl ?_) (by rw [hrecord])
  rw [hu'.represents.prices_eq] at hp
  rw [hu.represents.prices_eq]
  exact QueueBook.mem_pricesOn_cancel hp

/-- **A quote does not trade.** -/
theorem Arena.Clear.quote (h : a.Clear N lo hi tape) (hlt : lo < hi) (side : Side) {qty : Int}
    {id : Nat} (he : a.placeLimit i side (quotePrice lo hi side) qty = some (a', id)) :
    a'.Clear N lo hi tape := by
  obtain ⟨m, hu⟩ := h.usable
  obtain ⟨e, hplace, rfl, hrecord⟩ := Arena.of_placeLimit he
  have hcross : a.engine.book.crosses side (quotePrice lo hi side) = false := by
    rw [← Bool.not_eq_true, OrderBook.crosses_iff]
    rintro ⟨p, hp, hc⟩
    cases side with
    | Buy => exact absurd (of_decide_eq_true hc) (not_le.mpr (h.asks p hp))
    | Sell => exact absurd (of_decide_eq_true hc) (not_le.mpr (h.bids p hp))
  have hnone := (hu.lastTrades_eq_nil_iff hplace).mpr (.inr hcross)
  obtain ⟨e', hplace', hu', -⟩ := hu.placeLimit_eq side (quotePrice lo hi side) qty
  obtain ⟨rfl, -⟩ := Prod.mk.inj (Option.some.inj (hplace.symm.trans hplace'))
  refine h.of_subset hlt ⟨_, hu'⟩ (fun side' p hp ↦ ?_) ?_
  · rw [hu'.represents.prices_eq] at hp
    rw [hu.represents.prices_eq]
    rcases QueueBook.mem_pricesOn_placeLimit hp with hp | ⟨rfl, rfl⟩
    · exact .inl hp
    · exact .inr rfl
  · rw [hrecord, Arena.note, hnone, List.map_nil, List.append_nil]

end Step

namespace MarketMaker

variable {N i : Nat} {cfg : MarketMakerConfig} {lo hi : Int} {tape : List (Side × Trade)}

theorem keeps_cancelQuotes (hlt : lo < hi) (m : MarketMaker) :
    Program.Keeps (Arena.act i) (Arena.Clear N lo hi tape) m.cancelQuotes := by
  have hcancel : ∀ id, Program.Keeps (Arena.act i) (Arena.Clear N lo hi tape)
      (Program.perform (.cancel id)) := fun id ↦ .perform fun _ h _ _ he ↦ h.cancel hlt he
  refine .bind (.ite ?_ (.pure m)) fun m' ↦ .ite ?_ (.pure m')
  · exact .bind (hcancel m.bidId) fun _ ↦ .pure _
  · exact .bind (hcancel m'.askId) fun _ ↦ .pure _

theorem keeps_placeQuotes (hspread : 1 ≤ cfg.spread) (m : MarketMaker) (mid : Int) :
    Program.Keeps (Arena.act i) (Arena.Clear N (mid - cfg.spread) (mid + cfg.spread) tape)
      (m.placeQuotes cfg mid) := by
  have hquote : ∀ side, Program.Keeps (Arena.act i)
      (Arena.Clear N (mid - cfg.spread) (mid + cfg.spread) tape)
      (Program.perform (.placeLimit side (quotePrice (mid - cfg.spread) (mid + cfg.spread) side)
        cfg.quoteQty)) := fun side ↦ .perform fun _ h _ _ he ↦ h.quote (by omega) side he
  refine .bind (.perform fun a h a' x he ↦ ?_) fun account ↦
    .bind (.ite ?_ (.pure m)) fun m' ↦ .bind (.ite ?_ (.pure m')) fun m'' ↦ .pure _
  · obtain ⟨rfl, -⟩ := Prod.mk.inj (Option.some.inj he)
    exact h
  · exact .bind (hquote .Buy) fun id ↦ .pure _
  · exact .bind (hquote .Sell) fun id ↦ .pure _

theorem keeps_requote (hspread : 1 ≤ cfg.spread) (m : MarketMaker) (mid : Int) :
    Program.Keeps (Arena.act i) (Arena.Clear N (mid - cfg.spread) (mid + cfg.spread) tape)
      (m.cancelQuotes >>= fun m ↦ m.placeQuotes cfg mid) :=
  .bind (keeps_cancelQuotes (by omega) m) fun m ↦ keeps_placeQuotes hspread m mid

/-- **The orders of `on_tick` do not trade**, if the snapshot is right about where they can go. -/
theorem tape_onTick (hspread : 1 ≤ cfg.spread) {m m' : MarketMaker} {a a' : Arena}
    (hclear : a.top.bidPx ≠ 0 → a.top.askPx ≠ 0 →
      a.Clear N (a.top.mid - cfg.spread) (a.top.mid + cfg.spread) a.record.tape)
    (he : Program.exec (Arena.act i) (m.onTick cfg) a = some (a', m')) :
    a'.record.tape = a.record.tape := by
  rw [onTick, Program.exec_bind, Program.exec_perform, Arena.act, Option.bind_some] at he
  dsimp only at he
  split at he
  · obtain ⟨rfl, -⟩ := Prod.mk.inj (Option.some.inj he)
    rfl
  rename_i htwo
  split at he
  · have hstart := hclear (fun h ↦ htwo (.inl h)) fun h ↦ htwo (.inr h)
    exact ((keeps_requote hspread _ _ a hstart).2 a' m' he).tape
  · obtain ⟨rfl, -⟩ := Prod.mk.inj (Option.some.inj he)
    rfl

/-- A fresh snapshot is right about where quotes can go. -/
theorem clear_of_snapshotTop (hspread : 1 ≤ cfg.spread) {a : Arena} {px : Int}
    (hu : ∃ m, a.engine.Usable N m) (h : snapshotTop a.engine.book px = some a.top)
    (hlo : -2 ^ 63 ≤ a.top.bidPx + a.top.askPx) (hhi : a.top.bidPx + a.top.askPx < 2 ^ 63)
    (hbid : a.top.bidPx ≠ 0) (hask : a.top.askPx ≠ 0) :
    a.Clear N (a.top.mid - cfg.spread) (a.top.mid + cfg.spread) a.record.tape := by
  obtain ⟨hb, ha, hmid⟩ := of_snapshotTop h hbid hask
  obtain ⟨m, hm⟩ := hu
  have hlt := hm.represents.lt_of_mem_keys hm.valid (List.mem_of_head? hb) (List.mem_of_head? ha)
  have hbetween := mid_between hlt.le hlo hhi
  rw [← hmid] at hbetween
  refine ⟨⟨m, hm⟩, fun p hp ↦ ?_, fun p hp ↦ ?_, rfl⟩
  · have hle : a.top.askPx ≤ p := (OrderBook.isLeast_best ha).2 hp
    omega
  · have hle : p ≤ a.top.bidPx := (OrderBook.isGreatest_best hb).2 hp
    omega

/-- No callback of a market maker trades. -/
theorem tape_callback {τ : Type} (hspread : 1 ≤ cfg.spread)
    {strategies : List (Strategy (MarketMaker ⊕ τ))} {ts : List Tick}
    (hs : strategies[i]? = some (strategy cfg).inl)
    {f : MarketMaker ⊕ τ → Callback (MarketMaker ⊕ τ)}
    (hf : .callback i f ∈ moves strategies ts) {a a' : Arena} {x x' : MarketMaker ⊕ τ}
    (hclear : a.top.bidPx ≠ 0 → a.top.askPx ≠ 0 →
      a.Clear N (a.top.mid - cfg.spread) (a.top.mid + cfg.spread) a.record.tape)
    (he : Program.exec (Arena.act i) (f x) a = some (a', x')) : a'.record.tape = a.record.tape := by
  have hidle : ∀ y, Program.exec (Arena.act i) (pure y : Callback (MarketMaker ⊕ τ)) a
      = some (a', x') → a'.record.tape = a.record.tape := by
    intro y he
    obtain ⟨rfl, -⟩ := Prod.mk.inj (Option.some.inj he)
    rfl
  obtain ⟨s, hs', hf⟩ := mem_moves hf
  obtain rfl : (strategy cfg).inl = s := Option.some.inj (hs.symm.trans hs')
  cases x with
  | inr y => rcases hf with rfl | ⟨t, rfl⟩ | rfl <;> exact hidle _ he
  | inl m =>
    rcases hf with rfl | ⟨t, rfl⟩ | rfl
    · exact hidle _ he
    · obtain ⟨⟨a₁, m₁⟩, h₁, h₂⟩ := Option.bind_eq_some_iff.mp ((Program.exec_bind ..).symm.trans he)
      obtain ⟨rfl, -⟩ := Prod.mk.inj (Option.some.inj h₂)
      exact tape_onTick hspread hclear h₁
    · exact hidle _ he

end MarketMaker

/-- **The market maker is passive.**  In a replay in which it is called first, on every engine, for
every list of ticks and before all other strategies, its orders do not trade when it places them, as
long as the sum of the two best prices fits into 64 bits. -/
theorem marketMaker_passive {τ : Type} {N : Nat} {calls : List Call} {engine : Engine}
    (h : engine.Reached N calls) (cfg : MarketMakerConfig) (hspread : 1 ≤ cfg.spread)
    (others : List (Strategy (MarketMaker ⊕ τ))) (memory : Nat → MarketMaker ⊕ τ) (ts : List Tick)
    (done : List (Move (MarketMaker ⊕ τ))) (t : Tick)
    (f : MarketMaker ⊕ τ → Callback (MarketMaker ⊕ τ))
    (hdone : done ++ [.tick t, .callback 0 f]
      <+: moves ((MarketMaker.strategy cfg).inl :: others) ts) :
    ∃ r r', (Replay.start engine memory).after (done ++ [.tick t]) = some r ∧
      r.move (.callback 0 f) = some r' ∧
      (-2 ^ 63 ≤ r.arena.top.bidPx + r.arena.top.askPx →
        r.arena.top.bidPx + r.arena.top.askPx < 2 ^ 63 →
        r'.arena.record.tape = r.arena.record.tape) := by
  obtain ⟨r, hr, hk⟩ := (kept_start h memory).after (done ++ [.tick t])
  obtain ⟨r', hr', -⟩ := hk.move (.callback 0 f)
  refine ⟨r, r', hr, hr', fun hlo hhi ↦ ?_⟩
  -- the snapshot is of the book the market maker finds
  obtain ⟨px, htop⟩ : ∃ px, snapshotTop r.arena.engine.book px = some r.arena.top := by
    rw [Replay.after_append, Option.bind_eq_some_iff] at hr
    obtain ⟨r₁, -, hr⟩ := hr
    rw [Replay.after_cons, Option.bind_eq_some_iff] at hr
    obtain ⟨r₂, hm, hr⟩ := hr
    obtain rfl : r₂ = r := Option.some_inj.mp hr
    simp only [Replay.move, Option.bind_eq_bind, Option.bind_eq_some_iff] at hm
    obtain ⟨r₃, -, top, htop, hm⟩ := hm
    obtain rfl := Option.some.inj hm
    exact ⟨_, htop⟩
  obtain ⟨m, hr₁, hv₁, -⟩ := hk
  simp only [Replay.move, Option.bind_eq_bind, Option.bind_eq_some_iff] at hr'
  obtain ⟨⟨a, x⟩, hexec, hr'⟩ := hr'
  obtain rfl := Option.some.inj hr'
  exact MarketMaker.tape_callback hspread rfl (hdone.subset (by simp))
    (MarketMaker.clear_of_snapshotTop hspread ⟨m, hr₁, hv₁⟩ htop hlo hhi) hexec

/-- The moves of a replay in which there are only bids so far. -/
def oneSided : List (Move (MarketMaker ⊕ Unit)) :=
  [.callback 0 (MarketMaker.strategy {}).inl.onStart, .tick (.add .Buy 90 1 0),
    .callback 0 ((MarketMaker.strategy {}).inl.onTick · (.add .Buy 90 1 0))]

/-- The first two quotes. -/
theorem marketMaker_passive_two_quotes :
    ∃ r r', (Replay.start (Engine.new 8) fun _ ↦ (.inl .new : MarketMaker ⊕ Unit)).after
        (oneSided ++ [.tick (.add .Sell 110 1 0)]) = some r ∧
      r.move (.callback 0 ((MarketMaker.strategy {}).inl.onTick · (.add .Sell 110 1 0))) = some r' ∧
      r.arena.top.bidPx + r.arena.top.askPx = 200 ∧
      r'.arena.record.placed = r.arena.record.placed + 2 ∧
      r'.arena.record.tape = r.arena.record.tape := by
  obtain ⟨r, r', hr, hr', hpassive⟩ := marketMaker_passive (reached_new 8) {} (by decide)
    [] (fun _ ↦ .inl .new) [.add .Buy 90 1 0, .add .Sell 110 1 0] oneSided (.add .Sell 110 1 0)
    ((MarketMaker.strategy {}).inl.onTick · (.add .Sell 110 1 0))
    ⟨[.callback 0 (MarketMaker.strategy {}).inl.onEnd], rfl⟩
  have hread : (((Replay.start (Engine.new 8) fun _ ↦ (.inl .new : MarketMaker ⊕ Unit)).after
      (oneSided ++ [.tick (.add .Sell 110 1 0)])).bind fun r ↦
      (r.move (.callback 0 ((MarketMaker.strategy {}).inl.onTick · (.add .Sell 110 1 0)))).map
        fun r' ↦ (r.arena.top.bidPx + r.arena.top.askPx, r.arena.record.placed,
          r'.arena.record.placed)) = some (200, 2, 4) := by decide +kernel
  rw [hr, Option.bind_some, hr', Option.map_some, Option.some_inj] at hread
  simp only [Prod.mk.injEq] at hread
  obtain ⟨hsum, hplaced, hplaced'⟩ := hread
  exact ⟨r, r', hr, hr', hsum, by omega, hpassive (by omega) (by omega)⟩

end Backtest

end MatchingEngine
