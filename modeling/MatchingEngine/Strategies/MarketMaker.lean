import MatchingEngine.Backtest.Lifting

/-!
# The market maker

`strategies/mm.cpp`.  The strategy keeps one bid and one ask around the middle of the book.  It
remembers their ids, and takes both out of the book before it quotes again.

It loses none of its quotes, and its position stays within the inventory limit and one quote
(`marketMaker_bounded`), whatever is in the tick file and whatever other strategies run beside it.
The position is only looked at after the old quotes are gone.  At that moment it is all the strategy
can be filled for, and a quote is added on a side only if the position is not past the limit there.
-/

set_option autoImplicit false

namespace MatchingEngine

namespace Backtest

structure MarketMakerConfig where
  quoteQty : Int := 10
  /-- From the middle to each quote. -/
  spread : Int := 2
  requoteThreshold : Int := 1
  requoteInterval : Nat := 50
  inventoryLimit : Int := 100

structure MarketMaker where
  lastQuoteMid : Int
  tickCounter : Nat
  /-- The id of the bid, or zero. -/
  bidId : Nat
  askId : Nat

namespace MarketMaker

def new : MarketMaker := { lastQuoteMid := 0, tickCounter := 0, bidId := 0, askId := 0 }

def cancelQuotes (m : MarketMaker) : Callback MarketMaker := do
  let m ← (if m.bidId ≠ 0 then do
      let _ ← Program.perform (.cancel m.bidId)
      return { m with bidId := 0 }
    else return m)
  if m.askId ≠ 0 then
    let _ ← Program.perform (.cancel m.askId)
    return { m with askId := 0 }
  else return m

def placeQuotes (cfg : MarketMakerConfig) (m : MarketMaker) (mid : Int) : Callback MarketMaker := do
  let account : Account ← Program.perform Action.account
  let pos := account.portfolio.position
  let m ← (if pos ≤ cfg.inventoryLimit then do
      let id ← Program.perform (.placeLimit .Buy (mid - cfg.spread) cfg.quoteQty)
      return { m with bidId := id }
    else return m)
  let m ← (if -cfg.inventoryLimit ≤ pos then do
      let id ← Program.perform (.placeLimit .Sell (mid + cfg.spread) cfg.quoteQty)
      return { m with askId := id }
    else return m)
  return { m with lastQuoteMid := mid }

/-- `on_tick`.  The interval is positive: the code divides by it. -/
def onTick (cfg : MarketMakerConfig) (m : MarketMaker) : Callback MarketMaker := do
  let top : BookTop ← Program.perform Action.top
  -- wait for two sides
  if top.bidPx = 0 ∨ top.askPx = 0 then return m
  else
    let m := { m with tickCounter := (m.tickCounter + 1) % 2 ^ 64 }
    if (m.lastQuoteMid = 0 ∨ cfg.requoteThreshold ≤ (top.mid - m.lastQuoteMid).natAbs) ∨
        m.tickCounter % cfg.requoteInterval = 0 then do
      let m ← m.cancelQuotes
      m.placeQuotes cfg top.mid
    else return m

def strategy (cfg : MarketMakerConfig) : Strategy MarketMaker where
  onStart m := pure m
  onTick m _ := m.onTick cfg
  onEnd m := pure m

/-- The quote on a side. -/
def quoteId (m : MarketMaker) : Side → Nat
  | .Buy => m.bidId
  | .Sell => m.askId

def setQuote (m : MarketMaker) : Side → Nat → MarketMaker
  | .Buy, id => { m with bidId := id }
  | .Sell, id => { m with askId := id }

/-! ## One call after the other -/

/-- The strategy can never be filled past its limit and one quote. -/
abbrev Bounded (cfg : MarketMakerConfig) (i : Nat) : Arena → Prop :=
  Arena.Within i (cfg.inventoryLimit + cfg.quoteQty)

/-- What holds between two calls of the market maker.  An order is its own if it was placed in its
name; of these, only the two it remembers are open. -/
structure Quoting (cfg : MarketMakerConfig) (i : Nat) (m : MarketMaker) (a : Arena) : Prop
    extends Arena.Within i (cfg.inventoryLimit + cfg.quoteQty) a where
  closed : ∀ s id, a.record.issued.find? id = some i → id ≠ m.quoteId s →
    a.engine.book.openQty s id = 0
  ne_zero : ∀ id, a.record.issued.find? id = some i → id ≠ 0

section Step

variable {cfg : MarketMakerConfig} {N k₀ i : Nat} {m : MarketMaker} {a a' : Arena}

theorem Quoting.stable : Arena.Stable i (Quoting cfg i m) := by
  intro a a' hy hq
  refine ⟨Arena.Within.stable a a' hy hq.toWithin, fun s id hid hne ↦ ?_, fun id hid ↦ ?_⟩
  · exact hy.closed s id hid (hq.closed s id (hy.issued id hid) hne)
  · exact hq.ne_zero id (hy.issued id hid)

/-- A quote is withdrawn. -/
theorem Quoting.cancel (h : Quoting cfg i m a) (side : Side) (hc : a.Cancels a' (m.quoteId side)) :
    Quoting cfg i (m.setQuote side 0) a' := by
  refine ⟨Arena.Within.stable a a' hc.yields h.toWithin, fun s id hid hne ↦ ?_, fun id hid ↦ ?_⟩
  · rw [hc.record] at hid
    rw [hc.openQty]
    split
    · rfl
    · rename_i hold
      refine h.closed s id hid ?_
      cases s <;> cases side <;> assumption
  · rw [hc.record] at hid
    exact h.ne_zero id hid

/-- A side that has no quote. -/
theorem Quoting.openOf_eq_zero (h : Quoting cfg i m a) (side : Side) (hq : m.quoteId side = 0) :
    a.openOf i side = 0 :=
  sumOf_eq_zero fun id hid ↦ h.closed side id hid (hq ▸ h.ne_zero id hid)

/-- A quote is placed. -/
theorem Quoting.place (h : Quoting cfg i m a) (side : Side) {qty : Int} {id : Nat}
    (hq : m.quoteId side = 0) (he : a.Effect a' (some i) side qty id) (hb : Bounded cfg i a') :
    Quoting cfg i (m.setQuote side id) a' := by
  refine ⟨hb, fun s id' hid hne ↦ ?_, fun id' hid ↦ ?_⟩
  · refine he.closed s id' (fun hne' ↦ ?_) fun hnew ↦ ?_
    · have hid := (he.issued id' i hid).resolve_right fun hnew ↦ hne' hnew.1
      refine h.closed s id' hid ?_
      by_cases hs : s = side
      · rw [hs, hq]
        exact h.ne_zero id' hid
      · cases s <;> cases side <;> first | exact hne | exact absurd rfl hs
    · rw [hnew.1, hnew.2] at hne
      cases side <;> exact hne rfl
  · rcases he.issued id' i hid with hid | hnew
    · exact h.ne_zero id' hid
    · rw [hnew.1]
      exact he.ne_zero

theorem ensures_cancelQuotes (m : MarketMaker) :
    Program.Ensures (Arena.act i) (Arena.Holds N k₀ (Bounded cfg i))
      (Arena.Holds N k₀ (Quoting cfg i m)) m.cancelQuotes
      fun (m' : MarketMaker) (a : Arena) ↦
        (m'.bidId = 0 ∧ m'.askId = 0) ∧ a.Holds N k₀ (Quoting cfg i m') := by
  have hB : ∀ m a, Quoting cfg i m a → Bounded cfg i a := fun _ _ h ↦ h.toWithin
  refine .bind (Q := fun (m' : MarketMaker) (a : Arena) ↦
    m'.bidId = 0 ∧ a.Holds N k₀ (Quoting cfg i m')) ?_ fun m' ↦ .of_and fun hbid ↦ ?_
  · by_cases hbid : m.bidId ≠ 0
    · rw [if_pos hbid]
      refine .bind (Arena.ensures_cancel (hB m) (hB { m with bidId := 0 }) fun a a' h hc ↦ ?_)
        fun _ ↦ .ret fun a h ↦ ⟨h.imp (hB _), rfl, h⟩
      exact h.cancel .Buy hc
    · rw [if_neg hbid]
      exact .ret fun a h ↦ ⟨h.imp (hB m), not_not.mp hbid, h⟩
  · by_cases hask : m'.askId ≠ 0
    · rw [if_pos hask]
      refine .bind (Arena.ensures_cancel (hB m') (hB { m' with askId := 0 }) fun a a' h hc ↦ ?_)
        fun _ ↦ .ret fun a h ↦ ⟨h.imp (hB _), ⟨hbid, rfl⟩, h⟩
      exact h.cancel .Sell hc
    · rw [if_neg hask]
      exact .ret fun a h ↦ ⟨h.imp (hB m'), ⟨hbid, not_not.mp hask⟩, h⟩

/-- A bid, placed at a position within the limit. -/
theorem Quoting.bid (h : Quoting cfg i m a) (hQ : 1 ≤ cfg.quoteQty) (hbid : m.bidId = 0)
    (hask : m.askId = 0) (hpos : a.position i ≤ cfg.inventoryLimit) {id : Nat}
    (he : a.Effect a' (some i) .Buy cfg.quoteQty id) :
    Quoting cfg i { m with bidId := id } a' ∧ a.position i ≤ a'.least i := by
  have hmost := he.most i
  have hleast := he.least i
  have hbuy := h.openOf_eq_zero .Buy hbid
  have hsell := h.openOf_eq_zero .Sell hask
  have hbound := h.least
  rw [if_pos ⟨rfl, rfl⟩, show a.most i = a.position i + a.openOf i .Buy from rfl, hbuy] at hmost
  rw [if_neg (by simp)] at hleast
  rw [show a.least i = a.position i - a.openOf i .Sell from rfl, hsell] at hleast hbound
  exact ⟨h.place .Buy hbid he ⟨by omega, by omega⟩, by omega⟩

/-- An ask, placed when the strategy is not short past the limit. -/
theorem Quoting.ask (h : Quoting cfg i m a) (hQ : 1 ≤ cfg.quoteQty) (hask : m.askId = 0)
    (hleast : -cfg.inventoryLimit ≤ a.least i) {id : Nat}
    (he : a.Effect a' (some i) .Sell cfg.quoteQty id) :
    Quoting cfg i { m with askId := id } a' := by
  have hmost := he.most i
  have hleast' := he.least i
  have hbound := h.most
  rw [if_neg (by simp)] at hmost
  rw [if_pos ⟨rfl, rfl⟩] at hleast'
  exact h.place .Sell hask he ⟨by omega, by omega⟩

/-- **Quoting.**  The position was read when it was all the strategy could be filled for. -/
theorem ensures_placeQuotes (hQ : 1 ≤ cfg.quoteQty) (m : MarketMaker) (mid : Int)
    (hbid : m.bidId = 0) (hask : m.askId = 0) :
    Program.Ensures (Arena.act i) (Arena.Holds N k₀ (Bounded cfg i))
      (Arena.Holds N k₀ (Quoting cfg i m)) (m.placeQuotes cfg mid)
      fun (m' : MarketMaker) (a : Arena) ↦ a.Holds N k₀ (Quoting cfg i m') := by
  have hB : ∀ m a, Quoting cfg i m a → Bounded cfg i a := fun _ _ h ↦ h.toWithin
  refine .bind (Arena.ensures_account (hB m)) fun account ↦ ?_
  -- whether there is a bid or not, the position that was read still bounds the sells from below
  refine .bind (Q := fun (m' : MarketMaker) (a : Arena) ↦ m'.askId = 0 ∧ a.Holds N k₀ fun a ↦
    Quoting cfg i m' a ∧ account.portfolio.position ≤ a.least i) ?_
    fun m' ↦ .of_and fun hask' ↦ ?_
  · by_cases hpos : account.portfolio.position ≤ cfg.inventoryLimit
    · rw [if_pos hpos]
      refine .bind (Arena.ensures_placeLimit (P := fun id a ↦
        Quoting cfg i { m with bidId := id } a ∧ account.portfolio.position ≤ a.least i)
        (fun a h ↦ hB _ a h.1) (fun id a h ↦ hB _ a h.1) fun a a' id h he ↦ ?_)
        fun id ↦ .ret fun a h ↦ ⟨h.imp fun a h ↦ hB _ a h.1, hask, h⟩
      rw [h.2] at hpos ⊢
      exact h.1.bid hQ hbid hask hpos he
    · rw [if_neg hpos]
      refine .ret fun a h ↦ ⟨h.imp fun a h ↦ hB _ a h.1, hask, h.imp fun a h ↦ ⟨h.1, ?_⟩⟩
      rw [h.2, Arena.least, h.1.openOf_eq_zero .Sell hask]
      omega
  · refine .bind (Q := fun (m' : MarketMaker) (a : Arena) ↦ a.Holds N k₀ (Quoting cfg i m')) ?_
      fun m'' ↦ .ret fun a h ↦ ⟨h.imp (hB m''), h.imp fun a h ↦ ⟨h.toWithin, h.closed, h.ne_zero⟩⟩
    by_cases hpos : -cfg.inventoryLimit ≤ account.portfolio.position
    · rw [if_pos hpos]
      refine .bind (Arena.ensures_placeLimit (P := fun id ↦ Quoting cfg i { m' with askId := id })
        (fun a h ↦ hB _ a h.1) (fun id ↦ hB _) fun a a' id h he ↦ ?_)
        fun id ↦ .ret fun a h ↦ ⟨h.imp (hB _), h⟩
      exact h.1.ask hQ hask' (hpos.trans h.2) he
    · rw [if_neg hpos]
      exact .ret fun a h ↦ ⟨h.imp fun a h ↦ hB _ a h.1, h.imp fun a h ↦ h.1⟩

theorem ensures_onTick (hQ : 1 ≤ cfg.quoteQty) (m : MarketMaker) :
    Program.Ensures (Arena.act i) (Arena.Holds N k₀ (Bounded cfg i))
      (Arena.Holds N k₀ (Quoting cfg i m)) (m.onTick cfg)
      fun (m' : MarketMaker) (a : Arena) ↦ a.Holds N k₀ (Quoting cfg i m') := by
  have hB : ∀ m a, Quoting cfg i m a → Bounded cfg i a := fun _ _ h ↦ h.toWithin
  refine .bind (Arena.ensures_top (hB m)) fun top ↦ ?_
  dsimp only
  split
  · exact .ret fun a h ↦ ⟨h.imp (hB m), h⟩
  -- the counter is not about quotes
  have hcount : ∀ (a : Arena) n, a.Holds N k₀ (Quoting cfg i m) →
      a.Holds N k₀ (Quoting cfg i { m with tickCounter := n }) :=
    fun a n h ↦ h.imp fun a h ↦ ⟨h.toWithin, h.closed, h.ne_zero⟩
  split
  · refine .weaken (.bind (ensures_cancelQuotes _) fun m' ↦ .of_and fun hm ↦ ?_)
      (fun a ↦ hcount a _) fun _ _ h ↦ h
    exact ensures_placeQuotes hQ m' top.mid hm.1 hm.2
  · exact .ret fun a h ↦ ⟨h.imp (hB m), hcount a _ h⟩

end Step

/-! ## Whole runs -/

section Run

variable {τ : Type} {cfg : MarketMakerConfig} {N i : Nat} {calls : List Call} {engine : Engine}
  {strategies : List (Strategy (MarketMaker ⊕ τ))} {memory : Nat → MarketMaker ⊕ τ}

/-- A replay starts without any orders of its own. -/
theorem quoting_start (h : engine.Reached N calls) (hQ : 1 ≤ cfg.quoteQty)
    (hL : 0 ≤ cfg.inventoryLimit) (hmemory : memory i = .inl new) :
    ∃ m, (Replay.start engine memory).memory i = .inl m ∧
      (Replay.start engine memory).arena.Holds N (placements calls) (Quoting cfg i m) := by
  have hnone : ∀ id, (Replay.start engine memory).arena.record.issued.find? id = none := fun _ ↦ rfl
  refine ⟨new, hmemory, kept_start h memory, fun _ ↦ ⟨Arena.within_start (by omega) engine memory,
    fun s id hid ↦ ?_, fun id hid ↦ ?_⟩⟩
  · simp [hnone] at hid
  · simp [hnone] at hid

/-- Any callback of the market maker. -/
theorem ensures_callback {ts : List Tick} {k₀ : Nat} (hQ : 1 ≤ cfg.quoteQty)
    (hi : strategies[i]? = some (strategy cfg).inl)
    {f : MarketMaker ⊕ τ → Callback (MarketMaker ⊕ τ)}
    (hf : .callback i f ∈ moves strategies ts) (m : MarketMaker) :
    Program.Ensures (Arena.act i) (Arena.Holds N k₀ (Bounded cfg i))
      (Arena.Holds N k₀ (Quoting cfg i m)) (f (.inl m))
      fun y a ↦ ∃ m, y = .inl m ∧ a.Holds N k₀ (Quoting cfg i m) := by
  have hB : ∀ m a, Quoting cfg i m a → Bounded cfg i a := fun _ _ h ↦ h.toWithin
  have hidle : Program.Ensures (Arena.act i) (Arena.Holds N k₀ (Bounded cfg i))
      (Arena.Holds N k₀ (Quoting cfg i m)) (pure m : Callback MarketMaker)
      fun m ↦ Arena.Holds N k₀ (Quoting cfg i m) := .ret fun a h ↦ ⟨h.imp (hB m), h⟩
  obtain ⟨s, hs, hf⟩ := mem_moves hf
  obtain rfl : (strategy cfg).inl = s := Option.some.inj (hi.symm.trans hs)
  rcases hf with rfl | ⟨t, rfl⟩ | rfl
  · exact Arena.ensures_inl (f := (strategy cfg).onStart) hB hidle
  · exact Arena.ensures_inl (f := ((strategy cfg).onTick · t)) hB (ensures_onTick hQ m)
  · exact Arena.ensures_inl (f := (strategy cfg).onEnd) hB hidle

/-- **The market maker keeps to its quotes.** -/
theorem disciplined (h : engine.Reached N calls) (hQ : 1 ≤ cfg.quoteQty)
    (hL : 0 ≤ cfg.inventoryLimit) (hi : strategies[i]? = some (strategy cfg).inl)
    (hmemory : memory i = .inl new) (ts : List Tick) :
    Arena.Disciplined N (placements calls) i (Bounded cfg i) (Quoting cfg i)
      (Replay.start engine memory) (moves strategies ts) where
  stable _ := Quoting.stable
  imp _ _ hq := hq.toWithin
  start := quoting_start h hQ hL hmemory
  own done f r m hm _ _ hq := by
    have hmem : .callback i f ∈ moves strategies ts := hm.subset (by simp)
    exact ensures_callback hQ hi hmem m r.arena hq

/-- What rests on a side of the market maker's orders. -/
theorem Quoting.quotes {a : Arena} {k₀ : Nat} {m : MarketMaker}
    (h : a.Holds N k₀ (Quoting cfg i m)) (hlt : k₀ + a.record.placed < 2 ^ 64) (side : Side) :
    ∃ qs, a.engine.book.quotes side = some qs ∧
      (∀ q ∈ qs, a.record.issued.find? q.id = some i → q.id = m.quoteId side) ∧
      (qs.filter fun q ↦ a.record.issued.find? q.id = some i).length ≤ 1 := by
  obtain ⟨mq, hs, -⟩ := h.1.standing hlt
  obtain ⟨qs, hqs, hnd, hopen⟩ := hs.quotes side
  have hid : ∀ q ∈ qs, a.record.issued.find? q.id = some i → q.id = m.quoteId side := by
    intro q hq hmine
    by_contra hne
    exact hopen q hq ((h.2 hlt).closed side q.id hmine hne)
  refine ⟨qs, hqs, hid, ?_⟩
  -- the ids are distinct, and these are all the same
  have hsame : (qs.filter fun q ↦ a.record.issued.find? q.id = some i).map Quote.id
      = List.replicate (qs.filter fun q ↦ a.record.issued.find? q.id = some i).length
        (m.quoteId side) := by
    rw [List.eq_replicate_iff, List.length_map]
    refine ⟨rfl, fun id hmem ↦ ?_⟩
    obtain ⟨q, hq, rfl⟩ := List.mem_map.mp hmem
    obtain ⟨hq, hmine⟩ := List.mem_filter.mp hq
    exact hid q hq (by simpa using hmine)
  have hsub : ((qs.filter fun q ↦ a.record.issued.find? q.id = some i).map Quote.id).Nodup :=
    (List.filter_sublist.map Quote.id).nodup hnd
  rw [hsame] at hsub
  exact List.nodup_replicate.mp hsub

end Run

end MarketMaker

/-- **The market maker is bounded.**  In a replay with a market maker, on every engine, for every
list of ticks and beside all other strategies, as long as there are fewer than `2 ^ 64` placements:
between any two callbacks its resting orders are the two it remembers, at most one on each side; and
between any two calls its position is within the limit and one quote. -/
theorem marketMaker_bounded {τ : Type} {N i : Nat} {calls : List Call} {engine : Engine}
    (h : engine.Reached N calls) (cfg : MarketMakerConfig) (hQ : 1 ≤ cfg.quoteQty)
    (hL : 0 ≤ cfg.inventoryLimit) (strategies : List (Strategy (MarketMaker ⊕ τ)))
    (hi : strategies[i]? = some (MarketMaker.strategy cfg).inl) (memory : Nat → MarketMaker ⊕ τ)
    (hmemory : memory i = .inl .new) (ts : List Tick) :
    (∀ done, done <+: moves strategies ts →
      ∃ r m, (Replay.start engine memory).after done = some r ∧ r.memory i = .inl m ∧
        (placements calls + r.arena.record.placed < 2 ^ 64 → ∀ side,
          ∃ qs, r.arena.engine.book.quotes side = some qs ∧
            (∀ q ∈ qs, r.arena.record.issued.find? q.id = some i → q.id = m.quoteId side) ∧
            (qs.filter fun q ↦ r.arena.record.issued.find? q.id = some i).length ≤ 1)) ∧
    ∀ a ∈ (Replay.start engine memory).arenas (moves strategies ts),
      placements calls + a.record.placed < 2 ^ 64 →
        -(cfg.inventoryLimit + cfg.quoteQty) ≤ (a.accounts i).portfolio.position ∧
          (a.accounts i).portfolio.position ≤ cfg.inventoryLimit + cfg.quoteQty := by
  have hd := MarketMaker.disciplined h hQ hL hi hmemory ts
  refine ⟨fun done hdone ↦ ?_, fun a ha hlt ↦ ?_⟩
  · obtain ⟨r, hr, -⟩ := (kept_start h memory).after done
    obtain ⟨m, hm, hq⟩ := hd.after hdone hr
    exact ⟨r, m, hr, hm, MarketMaker.Quoting.quotes hq⟩
  · exact (hd.arenas a ha).position_within hlt

/-- Somebody sells four to the bid. -/
theorem marketMaker_bounded_one_fill :
    ∃ r m, (Replay.start (Engine.new 8) fun _ ↦ (.inl .new : MarketMaker ⊕ Unit)).after
        (moves [(MarketMaker.strategy {}).inl]
          [.add .Buy 90 1 0, .add .Sell 110 1 0, .add .Sell 98 4 0]) = some r ∧
      r.memory 0 = .inl m ∧ placements [] + r.arena.record.placed < 2 ^ 64 ∧
      (r.arena.accounts 0).portfolio.position = 4 ∧
      ∀ side, ∃ qs, r.arena.engine.book.quotes side = some qs ∧
        (∀ q ∈ qs, r.arena.record.issued.find? q.id = some 0 → q.id = m.quoteId side) ∧
        (qs.filter fun q ↦ r.arena.record.issued.find? q.id = some 0).length ≤ 1 := by
  obtain ⟨hquotes, -⟩ := marketMaker_bounded (τ := Unit) (i := 0) (reached_new 8) {} (by decide)
    (by decide) [(MarketMaker.strategy {}).inl] rfl (fun _ ↦ .inl .new) rfl
    [.add .Buy 90 1 0, .add .Sell 110 1 0, .add .Sell 98 4 0]
  obtain ⟨r, m, hr, hm, hq⟩ := hquotes _ (List.prefix_refl _)
  have hrun : ((Replay.start (Engine.new 8) fun _ ↦ (.inl .new : MarketMaker ⊕ Unit)).after
      (moves [(MarketMaker.strategy {}).inl]
        [.add .Buy 90 1 0, .add .Sell 110 1 0, .add .Sell 98 4 0])).map
      (fun r ↦ (r.arena.record.placed, (r.arena.accounts 0).portfolio.position))
        = some (5, 4) := by decide +kernel
  rw [hr, Option.map_some, Option.some_inj, Prod.mk.injEq] at hrun
  have hlt : placements [] + r.arena.record.placed < 2 ^ 64 := by
    rw [hrun.1]
    decide
  exact ⟨r, m, hr, hm, hlt, hrun.2, hq hlt⟩

/-- **When ids wrap, a quote is lost.**  On an engine that has handed out all but two ids, the
market maker's first bid gets the id zero, which to it means that there is no bid.  When it quotes
again, it leaves that bid in the book. -/
theorem exists_orphaned_quote : ∃ calls engine r m,
    engine.Reached Engine.defaultPoolCapacity calls ∧
    (Replay.start engine fun _ ↦ (.inl .new : MarketMaker ⊕ Unit)).after
      (moves [(MarketMaker.strategy { requoteInterval := 1 }).inl]
        [.add .Buy 90 1 0, .add .Sell 110 1 0, .trade 100]) = some r ∧
    r.memory 0 = .inl m ∧
    ∃ qs, r.arena.engine.book.quotes .Buy = some qs ∧
      ∃ q ∈ qs, r.arena.record.issued.find? q.id = some 0 ∧ q.id ≠ m.bidId ∧ q.id ≠ m.askId := by
  have hrun : ((Replay.start ((Engine.new 8).withNextId (2 ^ 64 - 2)) fun _ ↦
      (.inl .new : MarketMaker ⊕ Unit)).after
      (moves [(MarketMaker.strategy { requoteInterval := 1 }).inl]
        [.add .Buy 90 1 0, .add .Sell 110 1 0, .trade 100])).map
      (fun r ↦ (r.arena.record.placed, r.arena.engine.book.quotes .Buy,
        r.arena.record.issued.find? 0, (r.memory 0).getLeft?.map fun m ↦ (m.bidId, m.askId)))
        = some (6, some [⟨98, 0, 10⟩, ⟨98, 2, 10⟩, ⟨90, 2 ^ 64 - 2, 1⟩], some 0, some (2, 3)) := by
    decide +kernel
  obtain ⟨r, hr, hread⟩ := Option.map_eq_some_iff.mp hrun
  simp only [Prod.mk.injEq, Option.map_eq_some_iff, Sum.getLeft?_eq_some_iff] at hread
  obtain ⟨hplaced, hquotes, hissued, m, hm, hbid, hask⟩ := hread
  obtain ⟨e, clean, hr', hfits⟩ := Replay.after_start
    ((Engine.fits_new (show 8 ≤ Engine.defaultPoolCapacity by decide)).withNextId _) _ hr (by omega)
  refine ⟨_, _, r.swap e clean, m, Engine.reached_withNextId _ (by decide) (by decide), hr', hm, _,
    (hfits.2.quotes .Buy).trans hquotes, ⟨98, 0, 10⟩, by simp, hissued, ?_, ?_⟩
  · rw [hbid]
    decide
  · rw [hask]
    decide

end Backtest

end MatchingEngine
