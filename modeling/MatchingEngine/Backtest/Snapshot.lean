import MatchingEngine.Backtest.Lifting
import MatchingEngine.Util.Truncation

/-!
# What the strategies are told about the book

`snapshot_top` reads the best prices and the quantities there.  It has no other way than a price to
say that a side is empty, and takes `0` for that; from `best_ask` it learns the same by the largest
price.  So a bid or an ask that really is at such a price is not seen.  And two 64-bit sums are made
on the way, of the orders at the best price and of the two best prices.

Where none of this gets in the way (`Legible`) the snapshot describes the book
(`snapshotTop_describes`).
-/

set_option autoImplicit false

namespace MatchingEngine

namespace Backtest

open Truncation

/-- **A snapshot that describes a book.** -/
structure BookTop.Describes (top : BookTop) (b : OrderBook) (lastTradePx : Int) : Prop where
  bid : 0 < top.bidQty ↔ b.prices .Buy ≠ []
  bidPx : b.prices .Buy ≠ [] → IsGreatest {p | p ∈ b.prices .Buy} top.bidPx
  ask : 0 < top.askQty ↔ b.prices .Sell ≠ []
  askPx : b.prices .Sell ≠ [] → IsLeast {p | p ∈ b.prices .Sell} top.askPx
  mid : match b.best .Buy, b.best .Sell with
    | some bid, some ask => bid ≤ top.mid ∧ top.mid ≤ ask
    | some bid, .none => top.mid = bid
    | .none, some ask => top.mid = ask
    | .none, .none => top.mid = lastTradePx

/-- No best price stands for an empty side, and the sums fit into 64 bits. -/
structure Legible (b : OrderBook) : Prop where
  bid : b.best .Buy ≠ some 0
  ask : b.best .Sell ≠ some 0 ∧ b.best .Sell ≠ some OrderBook.priceMax
  total : ∀ side p q, b.best side = some p → b.totalAt side p = some q → q < 2 ^ 63
  sum : ∀ bid ask, b.best .Buy = some bid → b.best .Sell = some ask →
    -2 ^ 63 ≤ bid + ask ∧ bid + ask < 2 ^ 63

/-- The middle, computed in 64 bits and rounded towards zero, is in between. -/
theorem mid_between {bid ask : Int} (h : bid ≤ ask) (hlo : -2 ^ 63 ≤ bid + ask)
    (hhi : bid + ask < 2 ^ 63) :
    bid ≤ ((bid + ask).bmod (2 ^ 64)).tdiv 2 ∧ ((bid + ask).bmod (2 ^ 64)).tdiv 2 ≤ ask := by
  rw [bmod_eq_self_iff.mpr ⟨hlo, hhi⟩]
  exact ⟨le_tdiv (by decide) (by omega), tdiv_le (by decide) (by omega)⟩

/-- A snapshot with two prices is of the best ones. -/
theorem of_snapshotTop {b : OrderBook} {top : BookTop} {px : Int} (h : snapshotTop b px = some top)
    (hbid : top.bidPx ≠ 0) (hask : top.askPx ≠ 0) :
    b.best .Buy = some top.bidPx ∧ b.best .Sell = some top.askPx ∧
      top.mid = ((top.bidPx + top.askPx).bmod (2 ^ 64)).tdiv 2 := by
  simp only [snapshotTop, Option.bind_eq_bind, Option.bind_eq_some_iff, OrderBook.bestBid_eq,
    OrderBook.bestAsk_eq] at h
  obtain ⟨bidQty, -, askQty, -, h⟩ := h
  obtain rfl := Option.some.inj h
  refine ⟨?_, ?_, if_pos ⟨hbid, hask⟩⟩
  · cases hb : b.best .Buy with
    | none => simp [hb] at hbid
    | some bid => rfl
  · cases ha : b.best .Sell with
    | none => simp [ha] at hask
    | some ask =>
      rw [ha] at hask
      exact congrArg some (if_neg fun h ↦ hask (if_pos h)).symm

section Read

variable {N : Nat} {b : OrderBook} {m : QueueBook} {top : BookTop} {px : Int}

/-- A quantity that fits is positive where there is a level. -/
theorem qtyAt_pos (hr : Represents N b m) (hv : m.Valid N) (hl : Legible b) {side : Side} {p : Int}
    (hp : b.best side = some p) : 0 < m.qtyAt side p := by
  have hmem : p ∈ m.pricesOn side := hr.prices_eq side ▸ List.mem_of_head? hp
  have hpos := (hv.totalAt_pos_iff side p).mpr (hv.queueAt_ne_nil hmem)
  have hlt := hl.total side p _ hp (hr.totalAt_eq hv side p)
  rw [QueueBook.qtyAt_eq_bmod, bmod_eq_self_iff.mpr ⟨by omega, hlt⟩]
  exact hpos

/-- What a snapshot is made of where the prices are what they seem. -/
theorem snapshotTop_of_legible (hr : Represents N b m) (hv : m.Valid N)
    (hl : Legible b) (px : Int) :
    snapshotTop b px = some
      { bidPx := (b.best .Buy).getD 0
        bidQty := ((b.best .Buy).map (m.qtyAt .Buy)).getD 0
        askPx := (b.best .Sell).getD 0
        askQty := ((b.best .Sell).map (m.qtyAt .Sell)).getD 0
        mid := match b.best .Buy, b.best .Sell with
          | some bid, some ask => ((bid + ask).bmod (2 ^ 64)).tdiv 2
          | some bid, none => bid
          | none, some ask => ask
          | none, none => px } := by
  have hask : (if (b.best .Sell).getD OrderBook.priceMax = OrderBook.priceMax then 0
      else (b.best .Sell).getD OrderBook.priceMax) = (b.best .Sell).getD 0 := by
    cases ha : b.best .Sell with
    | none => rfl
    | some ask => exact if_neg fun h ↦ hl.ask.2 (ha.trans (congrArg some h))
  have hne : ∀ {side p}, b.best side ≠ some 0 → b.best side = some p → p ≠ 0 :=
    fun hzero hp h ↦ hzero (hp.trans (congrArg some h))
  simp only [snapshotTop, qtyIf_eq hr hv, OrderBook.bestBid_eq, OrderBook.bestAsk_eq, hask]
  cases hb : b.best .Buy with
  | none =>
    cases ha : b.best .Sell with
    | none => rfl
    | some ask => simp [hne hl.ask.1 ha]
  | some bid =>
    cases ha : b.best .Sell with
    | none => simp [hne hl.bid hb]
    | some ask => simp [hne hl.bid hb, hne hl.ask.1 ha]

theorem describes_of_legible (hr : Represents N b m) (hv : m.Valid N) (hl : Legible b) (px : Int) :
    ∃ top, snapshotTop b px = some top ∧ top.Describes b px := by
  have hprices : ∀ side, b.prices side ≠ [] ↔ b.best side ≠ none := by
    intro side
    rw [OrderBook.best, ne_eq, ne_eq, List.head?_eq_none_iff]
  refine ⟨_, snapshotTop_of_legible hr hv hl px, ?_⟩
  constructor
  case bid =>
    rw [hprices]
    cases hb : b.best .Buy with
    | none => simp
    | some bid => simpa using qtyAt_pos hr hv hl hb
  case bidPx =>
    rw [hprices]
    intro hne
    obtain ⟨bid, hb⟩ := Option.ne_none_iff_exists'.mp hne
    simp only [hb]
    exact OrderBook.isGreatest_best hb
  case ask =>
    rw [hprices]
    cases ha : b.best .Sell with
    | none => simp
    | some ask => simpa using qtyAt_pos hr hv hl ha
  case askPx =>
    rw [hprices]
    intro hne
    obtain ⟨ask, ha⟩ := Option.ne_none_iff_exists'.mp hne
    simp only [ha]
    exact OrderBook.isLeast_best ha
  case mid =>
    cases hb : b.best .Buy with
    | none => cases b.best .Sell <;> rfl
    | some bid =>
      cases ha : b.best .Sell with
      | none => rfl
      | some ask =>
        obtain ⟨hlo, hhi⟩ := hl.sum bid ask hb ha
        have hlt := hr.lt_of_mem_keys hv (List.mem_of_head? hb) (List.mem_of_head? ha)
        exact mid_between hlt.le hlo hhi

end Read

/-- **The snapshot describes the book**, in a replay on every engine, with all strategies and for
every list of ticks, between any two calls. -/
theorem snapshotTop_describes {σ : Type} {N : Nat} {calls : List Call} {engine : Engine}
    (h : engine.Reached N calls) (strategies : List (Strategy σ)) (memory : Nat → σ)
    (ts : List Tick) (a : Arena)
    (ha : a ∈ (Replay.start engine memory).arenas (moves strategies ts))
    (hl : Legible a.engine.book) (lastTradePx : Int) :
    ∃ top, snapshotTop a.engine.book lastTradePx = some top ∧
      top.Describes a.engine.book lastTradePx := by
  obtain ⟨m, hr, hv, -⟩ := (kept_start h memory).arenas ha
  exact describes_of_legible hr hv hl lastTradePx

/-- A bid of three and an ask of four. -/
theorem snapshotTop_describes_two_sides :
    ∃ r top, (Replay.start (Engine.new 2) fun _ ↦ ()).after
        (moves [] [.add .Buy 99 3 0, .add .Sell 102 4 0]) = some r ∧
      Legible r.arena.engine.book ∧ snapshotTop r.arena.engine.book r.lastTradePx = some top ∧
      top.Describes r.arena.engine.book r.lastTradePx := by
  have hrun : ((Replay.start (Engine.new 2) fun _ ↦ ()).after
      (moves [] [.add .Buy 99 3 0, .add .Sell 102 4 0])).map (fun r ↦
        (r.arena.engine.book.best .Buy, r.arena.engine.book.best .Sell,
          r.arena.engine.book.totalAt .Buy 99, r.arena.engine.book.totalAt .Sell 102))
      = some (some 99, some 102, some 3, some 4) := by decide +kernel
  obtain ⟨r, hr, hread⟩ := Option.map_eq_some_iff.mp hrun
  simp only [Prod.mk.injEq] at hread
  obtain ⟨hbid, hask, htotal, htotal'⟩ := hread
  have hl : Legible r.arena.engine.book := by
    refine ⟨by simp [hbid], by simp [hask, OrderBook.priceMax], fun side p q hp hq ↦ ?_,
      fun bid ask hb ha ↦ ?_⟩
    · cases side with
      | Buy =>
        obtain rfl := Option.some.inj (hbid.symm.trans hp)
        obtain rfl := Option.some.inj (htotal.symm.trans hq)
        decide
      | Sell =>
        obtain rfl := Option.some.inj (hask.symm.trans hp)
        obtain rfl := Option.some.inj (htotal'.symm.trans hq)
        decide
    · obtain rfl := Option.some.inj (hbid.symm.trans hb)
      obtain rfl := Option.some.inj (hask.symm.trans ha)
      decide
  obtain ⟨top, htop, hdescribes⟩ := snapshotTop_describes (reached_new 2) [] (fun _ ↦ ()) _ r.arena
    (Replay.arena_mem_arenas hr) hl r.lastTradePx
  exact ⟨r, top, hr, hl, htop, hdescribes⟩

/-- **What a snapshot does not tell.**  A bid at 0 is taken for no bid; and of two high prices the
sum does not fit, so that the middle is negative. -/
theorem exists_snapshot_wrong :
    (∃ r, (Replay.start (Engine.new Engine.defaultPoolCapacity) fun _ ↦ ()).after
        (moves [] [.add .Buy 0 5 0]) = some r ∧
      r.arena.engine.book.quotes .Buy = some [⟨0, 1, 5⟩] ∧
      snapshotTop r.arena.engine.book r.lastTradePx = some ⟨0, 0, 0, 0, 0⟩ ∧
      ∀ px, ¬(⟨0, 0, 0, 0, 0⟩ : BookTop).Describes r.arena.engine.book px) ∧
    ∃ r, (Replay.start (Engine.new Engine.defaultPoolCapacity) fun _ ↦ ()).after
        (moves [] [.add .Buy (2 ^ 63 - 3) 1 0, .add .Sell (2 ^ 63 - 2) 1 0]) = some r ∧
      snapshotTop r.arena.engine.book r.lastTradePx
        = some ⟨2 ^ 63 - 3, 1, 2 ^ 63 - 2, 1, -2⟩ ∧
      ∀ px, ¬(⟨2 ^ 63 - 3, 1, 2 ^ 63 - 2, 1, -2⟩ : BookTop).Describes r.arena.engine.book px := by
  have hfits := Engine.fits_new (show 2 ≤ Engine.defaultPoolCapacity by decide)
  constructor
  · have hrun : ((Replay.start (Engine.new 2) fun _ ↦ ()).after (moves [] [.add .Buy 0 5 0])).map
        (fun r ↦ (r.arena.record.placed, r.arena.engine.book.quotes .Buy,
          r.arena.engine.book.prices .Buy, snapshotTop r.arena.engine.book r.lastTradePx))
        = some (1, some [⟨0, 1, 5⟩], [0], some ⟨0, 0, 0, 0, 0⟩) := by decide +kernel
    obtain ⟨r, hr, hread⟩ := Option.map_eq_some_iff.mp hrun
    simp only [Prod.mk.injEq] at hread
    obtain ⟨hplaced, hquotes, hprices, hsnap⟩ := hread
    obtain ⟨e, clean, hr', -, hfits'⟩ := Replay.after_start hfits _ hr (by omega)
    refine ⟨r.swap e clean, hr', (hfits'.quotes .Buy).trans hquotes,
      (Replay.snapshotTop_eq hfits' _).trans hsnap, fun px h ↦ ?_⟩
    have hbids : (r.swap e clean).arena.engine.book.prices .Buy = [0] :=
      (hfits'.prices .Buy).trans hprices
    exact absurd (h.bid.mpr (by simp [hbids])) (by decide)
  · have hrun : ((Replay.start (Engine.new 2) fun _ ↦ ()).after
        (moves [] [.add .Buy (2 ^ 63 - 3) 1 0, .add .Sell (2 ^ 63 - 2) 1 0])).map
        (fun r ↦ (r.arena.record.placed, r.arena.engine.book.best .Buy,
          r.arena.engine.book.best .Sell, snapshotTop r.arena.engine.book r.lastTradePx))
        = some (2, some (2 ^ 63 - 3), some (2 ^ 63 - 2),
          some ⟨2 ^ 63 - 3, 1, 2 ^ 63 - 2, 1, -2⟩) := by decide +kernel
    obtain ⟨r, hr, hread⟩ := Option.map_eq_some_iff.mp hrun
    simp only [Prod.mk.injEq] at hread
    obtain ⟨hplaced, hbid, hask, hsnap⟩ := hread
    obtain ⟨e, clean, hr', -, hfits'⟩ := Replay.after_start hfits _ hr (by omega)
    refine ⟨r.swap e clean, hr', (Replay.snapshotTop_eq hfits' _).trans hsnap, fun px h ↦ ?_⟩
    have hmid := h.mid
    rw [show (r.swap e clean).arena.engine.book.best .Buy = some (2 ^ 63 - 3) from
        (congrArg List.head? (hfits'.prices .Buy)).trans hbid,
      show (r.swap e clean).arena.engine.book.best .Sell = some (2 ^ 63 - 2) from
        (congrArg List.head? (hfits'.prices .Sell)).trans hask] at hmid
    exact absurd hmid.1 (by decide)

end Backtest

end MatchingEngine
