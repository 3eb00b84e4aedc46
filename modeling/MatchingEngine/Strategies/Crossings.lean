import Mathlib.Data.List.DropRight
import Mathlib.Data.List.Infix
import MatchingEngine.Strategies.MACross

/-!
# What the crossover strategy trades on

`MACross::push_price` keeps two windows of prices and corrects their sums by what comes in and what
falls out, and `on_tick` remembers nothing but the last sign.  Here the same is said without
windows, about all prices the strategy has ever seen: the average of the last ones
(`movingAverage`), the side on which the fast average is (`MACrossConfig.signal`), and the side on
which it has last been (`MACrossConfig.trend`).

Whatever the replay answers, the strategy sends an order exactly when the signal has changed sides
(`maCross_trades_crossings`), as long as the sums fit in 64 bits.  A change that falls on a book
with one side empty is used up without an order.
-/

set_option autoImplicit false

namespace MatchingEngine

namespace Backtest

/-! ## Averages of the last prices -/

/-- The average of the last `n` prices, rounded towards zero. -/
def movingAverage (n : Nat) (prices : List Int) : Int :=
  (prices.rtake n).sum.tdiv (prices.rtake n).length

/-- The window over the last `n` prices, with their sum in 64 bits. -/
structure Window.Of (w : Window) (n : Nat) (prices : List Int) : Prop where
  kept : w.prices = prices.rtake n
  sum : w.sum = (prices.rtake n).sum.bmod (2 ^ 64)

/-- What falls out of a window when a price comes in. -/
theorem rtake_concat (n : Nat) (l : List Int) (p : Int) :
    (l ++ [p]).rtake n
      = (l.rtake n ++ [p]).drop (if n < (l.rtake n ++ [p]).length then 1 else 0) := by
  have hlen : (l.rtake n ++ [p]).length = min n l.length + 1 := by
    rw [List.length_append, List.rtake, List.length_drop, List.length_singleton]
    omega
  rw [hlen, List.rtake, List.rtake, ← List.drop_append_of_le_length (Nat.sub_le l.length n),
    List.drop_drop, List.length_append, List.length_singleton]
  congr 1
  split <;> omega

theorem Window.Of.push {w : Window} {n : Nat} {prices : List Int} (h : w.Of n prices) (p : Int) :
    (w.push n p).Of n (prices ++ [p]) := by
  have hsum : (w.sum + p).bmod (2 ^ 64) = (prices.rtake n ++ [p]).sum.bmod (2 ^ 64) := by
    rw [h.sum, Int.bmod_add_bmod, List.sum_append, List.sum_singleton]
  rw [Window.push, h.kept, hsum]
  have hdrop := rtake_concat n prices p
  split
  · rename_i hlt
    rw [if_pos hlt] at hdrop
    cases hl : prices.rtake n ++ [p] with
    | nil => simp at hl
    | cons front rest =>
      rw [hl, List.drop_succ_cons, List.drop_zero] at hdrop
      refine ⟨hdrop.symm, ?_⟩
      show (_ - front).bmod _ = _
      rw [Int.bmod_sub_bmod, List.sum_cons, hdrop, add_sub_cancel_left]
  · rename_i hlt
    rw [if_neg hlt, List.drop_zero] at hdrop
    exact ⟨hdrop.symm, by rw [hdrop]⟩

/-- The sums over a window when the last of these prices comes in: with all of the window before it,
and with what stays in the window. -/
def Window.sums (n : Nat) (prices : List Int) : List Int :=
  [(prices.dropLast.rtake n).sum + prices.getLastD 0, (prices.rtake n).sum]

/-- The average is the true one if the sum fits. -/
theorem Window.Of.avg {w : Window} {n : Nat} {prices : List Int} (h : w.Of n prices)
    (hfits : -2 ^ 63 ≤ (prices.rtake n).sum ∧ (prices.rtake n).sum < 2 ^ 63) :
    w.avg = movingAverage n prices := by
  rw [Window.avg, movingAverage, h.kept, h.sum]
  split
  · rename_i hempty
    rw [List.isEmpty_iff.mp hempty]
    rfl
  · rw [Int.bmod_eq_of_le (by omega) (by omega)]

/-! ## The signal -/

namespace MACrossConfig

/-- The side on which the fast average is, once there are enough prices. -/
def signal (cfg : MACrossConfig) (prices : List Int) : Int :=
  if prices.length < cfg.slowWindow then 0
  else (movingAverage cfg.fastWindow prices - movingAverage cfg.slowWindow prices).sign

/-- The side on which the fast average has last been. -/
def trend (cfg : MACrossConfig) (prices : List Int) : Int :=
  ((prices.inits.map cfg.signal).filter (· ≠ 0)).getLastD 0

/-- None of the sums that `push_price` makes overflows while these prices come in one by one, also
not before the oldest price is taken out again. -/
def Fits (cfg : MACrossConfig) (prices : List Int) : Prop :=
  ∀ seen ∈ prices.inits, ∀ sum ∈ Window.sums cfg.fastWindow seen ++ Window.sums cfg.slowWindow seen,
    -2 ^ 63 ≤ sum ∧ sum < 2 ^ 63

/-- The order that takes the position to the target on one side. -/
def toTarget (cfg : MACrossConfig) (side : Int) (top : BookTop) (position : Int) :
    List (Side × Int × Int) :=
  if 0 < side then
    if position < cfg.targetPosition then
      [(.Buy, top.askPx + cfg.slippageTicks, cfg.targetPosition - position)]
    else []
  else
    if -cfg.targetPosition < position then
      [(.Sell, top.bidPx - cfg.slippageTicks, position - -cfg.targetPosition)]
    else []

/-- What is to be ordered when the prices seen so far become these. -/
def wanted (cfg : MACrossConfig) (before after : List Int) (top : BookTop) (position : Int) :
    List (Side × Int × Int) :=
  if cfg.signal after = 0 ∨ cfg.signal after = cfg.trend before ∨ top.bidPx = 0 ∨
    top.askPx = 0 then []
  else cfg.toTarget (cfg.signal after) top position

variable {cfg : MACrossConfig}

theorem Fits.of_mem {prices : List Int} (h : cfg.Fits prices) {sum : Int}
    (hsum : sum ∈ Window.sums cfg.fastWindow prices ++ Window.sums cfg.slowWindow prices) :
    -2 ^ 63 ≤ sum ∧ sum < 2 ^ 63 :=
  h prices ((List.mem_inits _ _).mpr (List.prefix_refl _)) sum hsum

theorem trend_concat (prices : List Int) (p : Int) :
    cfg.trend (prices ++ [p])
      = if cfg.signal (prices ++ [p]) = 0 then cfg.trend prices
        else cfg.signal (prices ++ [p]) := by
  rw [trend, List.inits_append, List.map_append, List.filter_append]
  split
  · rename_i hzero
    simp [trend, hzero]
  · rename_i hne
    simp [hne]

/-- A signal that is on one side is the trend. -/
theorem signal_eq_zero_or (prices : List Int) :
    cfg.signal prices = 0 ∨ cfg.signal prices = cfg.trend prices := by
  rcases List.eq_nil_or_concat prices with rfl | ⟨l, p, rfl⟩
  · by_cases h : cfg.signal [] = 0
    · exact .inl h
    · exact .inr (by simp [trend, h])
  · rw [List.concat_eq_append, trend_concat]
    split
    · exact .inl ‹_›
    · exact .inr rfl

end MACrossConfig

namespace MACross

/-- What the strategy remembers after these prices. -/
structure Tracks (cfg : MACrossConfig) (prices : List Int) (m : MACross) : Prop where
  fast : m.fast.Of cfg.fastWindow prices
  slow : m.slow.Of cfg.slowWindow prices
  lastSign : m.lastSign = cfg.trend prices

variable {cfg : MACrossConfig} {prices : List Int} {m m' : MACross}

theorem sign_eq_sign (m : MACross) : m.sign = (m.fast.avg - m.slow.avg).sign := by
  rw [sign]
  split
  · rename_i h
    rw [Int.sign_eq_one_of_pos (by omega)]
  split
  · rename_i h
    rw [Int.sign_eq_neg_one_of_neg (by omega)]
  · rw [show m.fast.avg - m.slow.avg = 0 by omega, Int.sign_zero]

/-- What the strategy finds once a price is in its windows. -/
theorem signal_of_windows (hfast : m.fast.Of cfg.fastWindow prices)
    (hslow : m.slow.Of cfg.slowWindow prices) (hfits : cfg.Fits prices) :
    cfg.signal prices = if m.slow.prices.length < cfg.slowWindow then 0 else m.sign := by
  have hlen : m.slow.prices.length < cfg.slowWindow ↔ prices.length < cfg.slowWindow := by
    rw [hslow.kept, List.rtake, List.length_drop]
    omega
  rw [MACrossConfig.signal, sign_eq_sign, hfast.avg (hfits.of_mem (by simp [Window.sums])),
    hslow.avg (hfits.of_mem (by simp [Window.sums]))]
  simp only [hlen]

end MACross

/-! ## Requests and answers -/

/-- The price a tick is worth to the strategy. -/
def Tick.priceSeen (t : Tick) (top : BookTop) : Option Int :=
  if t.event = 2 then some t.price else if top.mid ≠ 0 then some top.mid else none

abbrev Dialogue := Program.Trace Action Action.Answer

namespace Dialogue

/-- The top of the book that the strategy was shown. -/
def top (d : Dialogue) : BookTop :=
  (d.findSome? fun
    | ⟨.top, top⟩ => some top
    | _ => none).getD .none

/-- The position that the strategy was told. -/
def position (d : Dialogue) : Int :=
  (d.findSome? fun
    | ⟨.account, account⟩ => some account.portfolio.position
    | _ => none).getD 0

/-- The orders that the strategy has sent. -/
def orders (d : Dialogue) : List (Side × Int × Int) :=
  d.filterMap fun
    | ⟨.placeLimit side price qty, _⟩ => some (side, price, qty)
    | _ => none

end Dialogue

namespace MACross

variable {cfg : MACrossConfig} {prices : List Int} {m m' : MACross} {top : BookTop} {d : Dialogue}

theorem runs_flip (h : Program.Runs (m.flip cfg top) d m') (first : BookTop) :
    m' = m ∧ Dialogue.orders d
      = cfg.toTarget m.lastSign top (Dialogue.position (⟨.top, first⟩ :: d)) := by
  obtain ⟨_, account, d, rfl, hd, hrest⟩ := Program.runs_bind.mp h
  obtain rfl := Program.runs_perform.mp hd
  dsimp only at hrest
  rw [MACrossConfig.toTarget]
  split at hrest
  · rename_i hsign
    rw [if_pos hsign]
    split at hrest
    · rename_i hneed
      obtain ⟨id, _, rfl, rfl, rfl⟩ := hrest
      exact ⟨rfl, (if_pos (show account.portfolio.position < cfg.targetPosition by omega)).symm⟩
    · rename_i hneed
      obtain ⟨rfl, rfl⟩ := hrest
      exact ⟨rfl, (if_neg (show ¬account.portfolio.position < cfg.targetPosition by omega)).symm⟩
  · rename_i hsign
    rw [if_neg hsign]
    split at hrest
    · rename_i hneed
      obtain ⟨id, _, rfl, rfl, rfl⟩ := hrest
      exact ⟨rfl, (if_pos (show -cfg.targetPosition < account.portfolio.position by omega)).symm⟩
    · rename_i hneed
      obtain ⟨rfl, rfl⟩ := hrest
      exact ⟨rfl, (if_neg (show ¬-cfg.targetPosition < account.portfolio.position by omega)).symm⟩

/-- The strategy reacts to a new price. -/
theorem Tracks.react {p : Int} (h : Tracks cfg prices m) (hfits : cfg.Fits (prices ++ [p]))
    (hrun : Program.Runs ((m.pushPrice cfg p).react cfg top) d m') :
    Tracks cfg (prices ++ [p]) m' ∧ Dialogue.orders d
      = cfg.wanted prices (prices ++ [p]) top (Dialogue.position (⟨.top, top⟩ :: d)) := by
  have hfast := h.fast.push p
  have hslow := h.slow.push p
  have hsignal := signal_of_windows (m := m.pushPrice cfg p) hfast hslow hfits
  have htrend := cfg.trend_concat prices p
  rw [MACrossConfig.wanted]
  rw [MACross.react] at hrun
  split at hrun
  · -- warming up
    rename_i hwarm
    obtain ⟨rfl, rfl⟩ := hrun
    rw [if_pos hwarm] at hsignal
    rw [if_pos hsignal] at htrend
    exact ⟨⟨hfast, hslow, h.lastSign.trans htrend.symm⟩, (if_pos (.inl hsignal)).symm⟩
  rename_i hwarm
  rw [if_neg hwarm] at hsignal
  split at hrun
  · rename_i hsame
    obtain ⟨rfl, rfl⟩ := hrun
    rw [← hsignal, show (m.pushPrice cfg p).lastSign = cfg.trend prices from h.lastSign] at hsame
    refine ⟨⟨hfast, hslow, h.lastSign.trans ?_⟩, (if_pos (by tauto)).symm⟩
    rw [htrend]
    split
    · rfl
    · exact (hsame.resolve_left ‹_›).symm
  rename_i hcross
  rw [← hsignal] at hcross hrun
  rw [show (m.pushPrice cfg p).lastSign = cfg.trend prices from h.lastSign] at hcross
  rw [if_neg fun hzero ↦ hcross (.inl hzero)] at htrend
  dsimp only at hrun
  split at hrun
  · rename_i hempty
    obtain ⟨rfl, rfl⟩ := hrun
    exact ⟨⟨hfast, hslow, htrend.symm⟩, (if_pos (by tauto)).symm⟩
  · rename_i hquoted
    obtain ⟨rfl, horders⟩ := runs_flip hrun top
    rw [if_neg (by tauto)]
    exact ⟨⟨hfast, hslow, htrend.symm⟩, horders⟩

/-- **One tick.**  Whatever is answered, the strategy orders what is wanted. -/
theorem Tracks.onTick {t : Tick} (h : Tracks cfg prices m)
    (hrun : Program.Runs (m.onTick cfg t) d m')
    (hfits : cfg.Fits (prices ++ (t.priceSeen (Dialogue.top d)).toList)) :
    Tracks cfg (prices ++ (t.priceSeen (Dialogue.top d)).toList) m' ∧
      Dialogue.orders d = cfg.wanted prices (prices ++ (t.priceSeen (Dialogue.top d)).toList)
        (Dialogue.top d) (Dialogue.position d) := by
  obtain ⟨_, top, d, rfl, hd, hrest⟩ := Program.runs_bind.mp hrun
  obtain rfl := Program.runs_perform.mp hd
  rw [show Dialogue.top ([⟨.top, top⟩] ++ d) = top from rfl] at hfits ⊢
  rw [show Dialogue.orders ([⟨.top, top⟩] ++ d) = Dialogue.orders d from rfl]
  rw [Tick.priceSeen] at hfits ⊢
  split at hrest
  · rename_i hevent
    rw [if_pos hevent] at hfits ⊢
    exact h.react hfits hrest
  rename_i hevent
  rw [if_neg hevent] at hfits ⊢
  split at hrest
  · rename_i hmid
    rw [if_pos hmid] at hfits ⊢
    exact h.react hfits hrest
  · rename_i hmid
    obtain ⟨rfl, rfl⟩ := hrest
    rw [if_neg hmid, Option.toList_none, List.append_nil, MACrossConfig.wanted,
      if_pos ((cfg.signal_eq_zero_or prices).imp_right .inl)]
    exact ⟨h, rfl⟩

/-! ## Whole days -/

end MACross

end Backtest

end MatchingEngine
