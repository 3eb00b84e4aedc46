import Mathlib.Algebra.Order.Field.Basic
import Mathlib.Algebra.Order.Ring.Rat
import Mathlib.Tactic.FieldSimp
import Mathlib.Tactic.Linarith
import Mathlib.Tactic.LinearCombination
import Mathlib.Tactic.Ring
import MatchingEngine.Backtest.Portfolio

/-!
# What a portfolio adds up to

A fill changes what a portfolio is worth at a mark by what it gained against that mark, except when
it adds to a position: the new average cost is rounded towards zero, and what the division leaves
over goes to the profit (`Filling.totalPnl_eq`).  Over any fills, the profit is the worth of the
position less what was paid for it, up to the sum of those remainders (`totalPnl_fills`).

The average cost itself is rounded again with every fill that adds, from a cost that was rounded
before.  Beside it runs `ExactCost`, the same rules with exact division.  Each addition puts less
than a tick between the two (`Tracks.onFill`), and two of them can put more than one there
(`twiceAveraged_off`).
-/

set_option autoImplicit false

namespace MatchingEngine

namespace Backtest

/-- The arguments of one call of `on_fill`. -/
structure Filled where
  side : Side
  price : Int
  qty : Int

/-- Buys count positive, sells negative. -/
def Filled.signed (f : Filled) : Int := Backtest.signed f.side f.qty

theorem Filled.signed_ne_zero {f : Filled} (h : 1 ≤ f.qty) : f.signed ≠ 0 := by
  obtain ⟨side, price, qty⟩ := f
  dsimp only at h
  cases side <;> simp only [Filled.signed, Backtest.signed] <;> omega

namespace Portfolio

/-- A portfolio after some fills. -/
def fills (p : Portfolio) (fs : List Filled) : Portfolio :=
  fs.foldl (fun p f ↦ p.onFill f.side f.price f.qty) p

theorem fills_cons (p : Portfolio) (f : Filled) (fs : List Filled) :
    p.fills (f :: fs) = (p.onFill f.side f.price f.qty).fills fs := rfl

/-- The fill adds to a position: it goes the same way. -/
def Adds (p : Portfolio) (s : Int) : Prop := (0 < p.position ∧ 0 < s) ∨ (p.position < 0 ∧ s < 0)

instance (p : Portfolio) (s : Int) : Decidable (p.Adds s) := inferInstanceAs (Decidable (_ ∨ _))

/-- What the division of the average cost leaves over, where there is one. -/
def remainder (p : Portfolio) (f : Filled) : Int :=
  (p.avgCost * p.position.natAbs + f.price * f.signed.natAbs).tmod
    (p.position.natAbs + f.signed.natAbs)

/-- A division that has rounded: which way the position goes, what was left over, and the position
after it. -/
structure Rounding where
  sign : Int
  remainder : Int
  position : Int

/-- The divisions that `on_fill` makes along some fills. -/
def roundings (p : Portfolio) : List Filled → List Rounding
  | [] => []
  | f :: fs =>
    (if p.Adds f.signed then [⟨p.position.sign, p.remainder f, p.position + f.signed⟩] else [])
      ++ (p.onFill f.side f.price f.qty).roundings fs

/-- What the rounding of the average cost has put into the profit. -/
def error (p : Portfolio) (fs : List Filled) : Int :=
  ((p.roundings fs).map fun r ↦ r.sign * r.remainder).sum

/-! ## One fill -/

/-- The five things a fill can do to a portfolio. -/
inductive Filling (p : Portfolio) (f : Filled) : Portfolio → Prop
  | opens (h : p.position = 0) :
      Filling p f ⟨f.signed, f.price, p.realizedPnl, p.grossVolume + f.qty⟩
  | adds (h : p.Adds f.signed) :
      Filling p f ⟨p.position + f.signed,
        (p.avgCost * p.position.natAbs + f.price * f.signed.natAbs).tdiv
          (p.position.natAbs + f.signed.natAbs),
        p.realizedPnl, p.grossVolume + f.qty⟩
  | reduces (h : (0 < p.position ∧ f.signed ≤ 0 ∧ 0 < p.position + f.signed) ∨
        (p.position < 0 ∧ 0 ≤ f.signed ∧ p.position + f.signed < 0)) :
      Filling p f ⟨p.position + f.signed, p.avgCost,
        p.realizedPnl - (f.price - p.avgCost) * f.signed, p.grossVolume + f.qty⟩
  | closes (h : p.position ≠ 0) (hs : f.signed = -p.position) :
      Filling p f ⟨0, 0, p.realizedPnl + (f.price - p.avgCost) * p.position, p.grossVolume + f.qty⟩
  | flips (h : (0 < p.position ∧ p.position + f.signed < 0) ∨
        (p.position < 0 ∧ 0 < p.position + f.signed)) :
      Filling p f ⟨p.position + f.signed, f.price,
        p.realizedPnl + (f.price - p.avgCost) * p.position, p.grossVolume + f.qty⟩

/-- What a fill the other way closes is worth, without a distinction of the sides. -/
theorem pnl_eq {p : Portfolio} {price n closed : Int}
    (h : (0 < p.position ∧ closed = n) ∨ (p.position < 0 ∧ closed = -n)) :
    (if 0 < p.position then price - p.avgCost else p.avgCost - price) * closed
      = (price - p.avgCost) * n := by
  rcases h with ⟨hp, rfl⟩ | ⟨hp, rfl⟩
  · rw [if_pos hp]
  · rw [if_neg (by omega)]
    ring

theorem filling_onFill (p : Portfolio) (f : Filled) :
    p.Filling f (p.onFill f.side f.price f.qty) := by
  have hsigned : Backtest.signed f.side f.qty = f.signed := rfl
  simp only [onFill, hsigned]
  by_cases hflat : p.position = 0
  · rw [if_pos hflat]
    exact .opens hflat
  rw [if_neg hflat]
  by_cases hsame : (0 < p.position ∧ 0 < f.signed) ∨ (p.position < 0 ∧ f.signed < 0)
  · rw [if_pos hsame]
    exact .adds hsame
  rw [if_neg hsame]
  by_cases hless : (f.signed.natAbs : Int) < p.position.natAbs
  · rw [if_pos hless, pnl_eq (n := -f.signed) (by omega), Int.mul_neg]
    exact .reduces (by omega)
  rw [if_neg hless]
  by_cases heq : (f.signed.natAbs : Int) = p.position.natAbs
  · rw [if_pos heq, pnl_eq (n := p.position) (by omega)]
    exact .closes hflat (by omega)
  · rw [if_neg heq, pnl_eq (n := p.position) (by omega), Int.add_comm f.signed]
    exact .flips (by omega)

theorem unrealizedPnl_eq (p : Portfolio) (mark : Int) :
    p.unrealizedPnl mark = (mark - p.avgCost) * p.position := by
  rw [unrealizedPnl]
  split
  · rename_i h
    rw [h, Int.mul_zero]
  · split <;> ring

section Step

variable {p p' : Portfolio} {f : Filled}

theorem Filling.grossVolume_eq (h : p.Filling f p') : p'.grossVolume = p.grossVolume + f.qty := by
  cases h <;> rfl

/-- There is no cost without a position. -/
theorem Filling.avgCost_eq (h : p.Filling f p') (hqty : 1 ≤ f.qty) (hflat : p'.position = 0) :
    p'.avgCost = 0 := by
  have hs := f.signed_ne_zero hqty
  cases h with
  | opens => exact absurd hflat hs
  | adds h => rcases h with h | h <;> exact absurd hflat (by dsimp only; omega)
  | reduces h => exact absurd hflat (by dsimp only; omega)
  | closes => rfl
  | flips h => exact absurd hflat (by dsimp only; omega)

theorem Adds.natAbs_eq (h : p.Adds f.signed) :
    (p.position.natAbs : Int) = p.position.sign * p.position ∧
      (f.signed.natAbs : Int) = p.position.sign * f.signed := by
  rcases h with ⟨hp, hs⟩ | ⟨hp, hs⟩
  · rw [Int.sign_eq_one_of_pos hp]
    omega
  · rw [Int.sign_eq_neg_one_of_neg hp]
    omega

/-- What is left over is less than what it was divided by. -/
theorem Adds.natAbs_remainder_lt (h : p.Adds f.signed) :
    (p.remainder f).natAbs < (p.position + f.signed).natAbs := by
  have hpos : 0 < ((p.position.natAbs : Int) + f.signed.natAbs).natAbs := by
    rcases h with h | h <;> omega
  have hlt := Nat.mod_lt (p.avgCost * p.position.natAbs + f.price * f.signed.natAbs).natAbs hpos
  rw [← Int.natAbs_tmod] at hlt
  rw [remainder]
  rcases h with h | h <;> omega

/-- The division of the average cost, multiplied out. -/
theorem Adds.tdiv_mul (h : p.Adds f.signed) :
    (p.avgCost * p.position.natAbs + f.price * f.signed.natAbs).tdiv
        (p.position.natAbs + f.signed.natAbs) * (p.position + f.signed)
      + p.position.sign * p.remainder f = p.avgCost * p.position + f.price * f.signed := by
  have hdiv := Int.mul_tdiv_add_tmod (p.avgCost * p.position.natAbs + f.price * f.signed.natAbs)
    (p.position.natAbs + f.signed.natAbs)
  rw [← remainder] at hdiv
  generalize (p.avgCost * p.position.natAbs + f.price * f.signed.natAbs).tdiv
    (p.position.natAbs + f.signed.natAbs) = avg at hdiv ⊢
  obtain ⟨hp, hs⟩ := h.natAbs_eq
  rw [hp, hs] at hdiv
  have hsq : p.position.sign * p.position.sign = 1 := by
    rcases h with h | h
    · rw [Int.sign_eq_one_of_pos h.1, Int.one_mul]
    · rw [Int.sign_eq_neg_one_of_neg h.1]
      rfl
  linear_combination p.position.sign * hdiv
    - (avg * (p.position + f.signed) - p.avgCost * p.position - f.price * f.signed) * hsq

/-- **What a fill does to the profit at a mark.** -/
theorem Filling.totalPnl_eq (h : p.Filling f p') (mark : Int) :
    p'.totalPnl mark = p.totalPnl mark + (mark - f.price) * f.signed
      + if p.Adds f.signed then p.position.sign * p.remainder f else 0 := by
  simp only [totalPnl, unrealizedPnl_eq]
  cases h with
  | opens h =>
    rw [if_neg (by rw [Adds]; omega), h]
    ring
  | adds h =>
    rw [if_pos h]
    linear_combination -h.tdiv_mul
  | reduces h =>
    rw [if_neg (by rw [Adds]; omega)]
    ring
  | closes h hs =>
    rw [if_neg (by rw [Adds]; omega), hs]
    ring
  | flips h =>
    rw [if_neg (by rw [Adds]; omega)]
    ring

end Step

/-! ## All fills -/

theorem position_fills (p : Portfolio) (fs : List Filled) :
    (p.fills fs).position = p.position + (fs.map Filled.signed).sum := by
  induction fs generalizing p with
  | nil => simp [fills]
  | cons f fs ih =>
    rw [fills_cons, ih, position_onFill, List.map_cons, List.sum_cons, Int.add_assoc]
    rfl

theorem grossVolume_fills (p : Portfolio) (fs : List Filled) :
    (p.fills fs).grossVolume = p.grossVolume + (fs.map Filled.qty).sum := by
  induction fs generalizing p with
  | nil => simp [fills]
  | cons f fs ih =>
    rw [fills_cons, ih, (p.filling_onFill f).grossVolume_eq, List.map_cons, List.sum_cons,
      Int.add_assoc]

theorem avgCost_fills {p : Portfolio} (hp : p.position = 0 → p.avgCost = 0) {fs : List Filled}
    (hqty : ∀ f ∈ fs, 1 ≤ f.qty) : (p.fills fs).position = 0 → (p.fills fs).avgCost = 0 := by
  induction fs generalizing p with
  | nil => exact hp
  | cons f fs ih =>
    obtain ⟨hf, hfs⟩ := List.forall_mem_cons.mp hqty
    rw [fills_cons]
    exact ih ((p.filling_onFill f).avgCost_eq hf) hfs

theorem totalPnl_fills (p : Portfolio) (fs : List Filled) (mark : Int) :
    (p.fills fs).totalPnl mark = p.totalPnl mark
      + (fs.map fun f ↦ (mark - f.price) * f.signed).sum + p.error fs := by
  induction fs generalizing p with
  | nil => simp [fills, error, roundings]
  | cons f fs ih =>
    have herror : p.error (f :: fs)
        = (if p.Adds f.signed then p.position.sign * p.remainder f else 0)
          + (p.onFill f.side f.price f.qty).error fs := by
      rw [error, roundings, List.map_append, List.sum_append, ← error]
      congr 1
      split <;> simp
    rw [fills_cons, ih, (p.filling_onFill f).totalPnl_eq, List.map_cons, List.sum_cons, herror]
    ring

theorem natAbs_remainder_lt_of_mem {p : Portfolio} {fs : List Filled} :
    ∀ r ∈ p.roundings fs, r.remainder.natAbs < r.position.natAbs := by
  induction fs generalizing p with
  | nil => simp [roundings]
  | cons f fs ih =>
    intro r hr
    rcases List.mem_append.mp hr with hr | hr
    · split at hr
      · rename_i h
        obtain rfl := List.mem_singleton.mp hr
        exact h.natAbs_remainder_lt
      · simp at hr
    · exact ih r hr

/-- What the fills of a run have gained against a mark, as the worth of the position less the
cash. -/
theorem sum_gains (fs : List Filled) (mark : Int) :
    (fs.map fun f ↦ (mark - f.price) * f.signed).sum
      = mark * (fs.map Filled.signed).sum - (fs.map fun f ↦ f.signed * f.price).sum := by
  induction fs with
  | nil => simp
  | cons f fs ih =>
    simp only [List.map_cons, List.sum_cons, ih]
    ring

/-- **The account of a portfolio**: its position and volume are those of the fills, and its profit
at any mark is the worth of the position less what was paid, up to the remainders of the divisions
that the average cost has been through. -/
theorem account_fills (fs : List Filled) (hqty : ∀ f ∈ fs, 1 ≤ f.qty) :
    (empty.fills fs).position = (fs.map Filled.signed).sum ∧
      (empty.fills fs).grossVolume = (fs.map Filled.qty).sum ∧
      ((empty.fills fs).position = 0 → (empty.fills fs).avgCost = 0) ∧
      (∀ mark, (empty.fills fs).totalPnl mark = mark * (empty.fills fs).position
        - (fs.map fun f ↦ f.signed * f.price).sum + empty.error fs) ∧
      (∀ r ∈ empty.roundings fs, r.remainder.natAbs < r.position.natAbs) ∧
      ((∀ r ∈ empty.roundings fs, r.remainder = 0) → empty.error fs = 0) := by
  have hposition : (empty.fills fs).position = (fs.map Filled.signed).sum := by
    rw [position_fills, empty, Int.zero_add]
  refine ⟨hposition, ?_, avgCost_fills (fun _ ↦ rfl) hqty, fun mark ↦ ?_,
    natAbs_remainder_lt_of_mem, fun hexact ↦ ?_⟩
  · rw [grossVolume_fills, empty, Int.zero_add]
  · have hempty : empty.totalPnl mark = 0 := rfl
    rw [totalPnl_fills, hempty, Int.zero_add, sum_gains, hposition]
  · rw [error]
    refine List.sum_eq_zero fun x hx ↦ ?_
    obtain ⟨r, hr, rfl⟩ := List.mem_map.mp hx
    rw [hexact r hr, Int.mul_zero]

/-- Long, longer, through zero and flat: one division, and it leaves 99. -/
def roundTrip : List Filled := [⟨.Buy, 1, 100⟩, ⟨.Buy, 100, 1⟩, ⟨.Sell, 5, 150⟩, ⟨.Buy, 7, 49⟩]

theorem account_roundTrip :
    empty.error roundTrip = 99 ∧ (empty.fills roundTrip).position = 0 ∧
      ∀ mark, (empty.fills roundTrip).totalPnl mark = mark * (empty.fills roundTrip).position
        - (roundTrip.map fun f ↦ f.signed * f.price).sum + empty.error roundTrip :=
  ⟨by decide, by decide, (account_fills roundTrip (by simp [roundTrip])).2.2.2.1⟩

end Portfolio

/-! ## The average cost -/

/-- The cost of an open position, with exact division: the same rules as `on_fill`. -/
structure ExactCost where
  position : Int
  avgCost : ℚ
  /-- How often the cost has been averaged since the position was opened. -/
  averaged : Nat

namespace ExactCost

def empty : ExactCost := ⟨0, 0, 0⟩

def onFill (x : ExactCost) (f : Filled) : ExactCost :=
  if x.position = 0 then ⟨f.signed, f.price, 0⟩
  else if (0 < x.position ∧ 0 < f.signed) ∨ (x.position < 0 ∧ f.signed < 0) then
    ⟨x.position + f.signed,
      (x.avgCost * x.position.natAbs + f.price * f.signed.natAbs)
        / (x.position.natAbs + f.signed.natAbs),
      x.averaged + 1⟩
  else if f.signed.natAbs < x.position.natAbs then { x with position := x.position + f.signed }
  else if f.signed.natAbs = x.position.natAbs then ⟨0, 0, 0⟩
  else ⟨x.position + f.signed, f.price, 0⟩

def fills (x : ExactCost) (fs : List Filled) : ExactCost := fs.foldl onFill x

end ExactCost

/-- How far a portfolio's average cost may be from the exact one: it is the same until it has been
averaged, and less than a tick below it for each time it has. -/
structure Tracks (p : Portfolio) (x : ExactCost) : Prop where
  position_eq : x.position = p.position
  nonneg : 0 ≤ p.avgCost
  le : (p.avgCost : ℚ) ≤ x.avgCost
  close : x.avgCost - p.avgCost < x.averaged ∨ (x.averaged = 0 ∧ x.avgCost = p.avgCost)

theorem tracks_of_eq {p : Portfolio} {x : ExactCost} (hposition : x.position = p.position)
    (hnonneg : 0 ≤ p.avgCost) (havg : x.avgCost = p.avgCost) (haveraged : x.averaged = 0) :
    Tracks p x :=
  ⟨hposition, hnonneg, havg.ge, .inr ⟨haveraged, havg⟩⟩

/-- An average of costs that were apart is no further apart, but for what the division drops. -/
theorem average_close {avg price n a : Int} {exact : ℚ} (havg : 0 ≤ avg) (hprice : 0 ≤ price)
    (hn : 0 < n) (ha : 0 < a) (hle : (avg : ℚ) ≤ exact) :
    0 ≤ (avg * n + price * a).tdiv (n + a) ∧
      (((avg * n + price * a).tdiv (n + a) : Int) : ℚ) ≤ (exact * n + price * a) / (n + a) ∧
      (exact * n + price * a) / (n + a) - ((avg * n + price * a).tdiv (n + a) : Int)
        < exact - avg + 1 := by
  have hnum : 0 ≤ avg * n + price * a :=
    Int.add_nonneg (Int.mul_nonneg havg hn.le) (Int.mul_nonneg hprice ha.le)
  have hden : 0 < n + a := by omega
  rw [Int.tdiv_eq_ediv_of_nonneg hnum]
  have hlow := Int.ediv_mul_le (avg * n + price * a) hden.ne'
  have hhigh := Int.lt_ediv_add_one_mul_self (avg * n + price * a) hden
  refine ⟨Int.ediv_nonneg hnum hden.le, ?_, ?_⟩
  all_goals generalize (avg * n + price * a) / (n + a) = q at hlow hhigh ⊢
  all_goals
    have hn' : (0 : ℚ) < n := by exact_mod_cast hn
    have ha' : (0 : ℚ) < a := by exact_mod_cast ha
    have hlow' : (q : ℚ) * (n + a) ≤ avg * n + price * a := by exact_mod_cast hlow
    have hhigh' : (avg : ℚ) * n + price * a < (q + 1) * (n + a) := by exact_mod_cast hhigh
    have hgap : 0 ≤ exact - avg := sub_nonneg.mpr hle
  · rw [le_div_iff₀ (by linarith)]
    linarith [mul_le_mul_of_nonneg_right hle hn'.le]
  · rw [sub_lt_iff_lt_add, div_lt_iff₀ (by linarith)]
    linarith [mul_nonneg hgap ha'.le]

/-- **What one fill does to the distance.** -/
theorem Tracks.onFill {p : Portfolio} {x : ExactCost} (h : Tracks p x) {f : Filled}
    (hprice : 1 ≤ f.price) : Tracks (p.onFill f.side f.price f.qty) (x.onFill f) := by
  have hpos := h.position_eq
  have hfill := p.filling_onFill f
  generalize p.onFill f.side f.price f.qty = p' at hfill ⊢
  rw [ExactCost.onFill]
  cases hfill with
  | opens hflat =>
    rw [if_pos (hpos.trans hflat)]
    exact tracks_of_eq rfl (by dsimp only; omega) rfl rfl
  | adds hsame =>
    have hboth : (0 < p.position ∧ 0 < f.signed) ∨ (p.position < 0 ∧ f.signed < 0) := hsame
    rw [hpos, if_neg (by omega), if_pos hboth]
    have hn : 0 < (p.position.natAbs : Int) := by omega
    have ha : 0 < (f.signed.natAbs : Int) := by omega
    obtain ⟨hnonneg, hle, hclose⟩ := average_close h.nonneg (by omega : 0 ≤ f.price) hn ha h.le
    simp only [Int.cast_natCast] at hle hclose
    refine ⟨rfl, hnonneg, hle, .inl ?_⟩
    have hgap : x.avgCost - p.avgCost ≤ x.averaged := by
      rcases h.close with hlt | ⟨hzero, heq⟩
      · exact hlt.le
      · rw [heq, hzero, sub_self, Nat.cast_zero]
    rw [Nat.cast_add, Nat.cast_one]
    exact hclose.trans_le (by linarith)
  | reduces hless =>
    rw [hpos, if_neg (by omega), if_neg (by omega), if_pos (by omega)]
    exact ⟨rfl, h.nonneg, h.le, h.close⟩
  | closes hne hs =>
    rw [hpos, if_neg hne, if_neg (by omega), if_neg (by omega), if_pos (by omega)]
    exact tracks_of_eq rfl (Int.le_refl 0) (by norm_num) rfl
  | flips hpast =>
    rw [hpos, if_neg (by omega), if_neg (by omega), if_neg (by omega), if_neg (by omega)]
    exact tracks_of_eq rfl (by dsimp only; omega) rfl rfl

theorem Tracks.fills {p : Portfolio} {x : ExactCost} (h : Tracks p x) {fs : List Filled}
    (hprice : ∀ f ∈ fs, 1 ≤ f.price) : Tracks (p.fills fs) (x.fills fs) := by
  induction fs generalizing p x with
  | nil => exact h
  | cons f fs ih =>
    obtain ⟨hf, hfs⟩ := List.forall_mem_cons.mp hprice
    exact ih (h.onFill hf) hfs

theorem tracks_empty : Tracks .empty .empty := tracks_of_eq rfl (Int.le_refl 0) (by rfl) rfl

/-- **How far the average cost is off**: never above the exact one, and below it by less than a tick
for each fill that has been averaged in since the position was opened. -/
theorem avgCost_close (fs : List Filled) (hprice : ∀ f ∈ fs, 1 ≤ f.price) :
    (ExactCost.empty.fills fs).position = (Portfolio.empty.fills fs).position ∧
      ((Portfolio.empty.fills fs).avgCost : ℚ) ≤ (ExactCost.empty.fills fs).avgCost ∧
      ((ExactCost.empty.fills fs).averaged = 0 →
        (ExactCost.empty.fills fs).avgCost = (Portfolio.empty.fills fs).avgCost) ∧
      (0 < (ExactCost.empty.fills fs).averaged →
        (ExactCost.empty.fills fs).avgCost - (Portfolio.empty.fills fs).avgCost
          < (ExactCost.empty.fills fs).averaged) := by
  have h := tracks_empty.fills hprice
  refine ⟨h.position_eq, h.le, fun hzero ↦ ?_, fun hpos ↦ ?_⟩
  · rcases h.close with hlt | ⟨-, heq⟩
    · have hle := h.le
      rw [hzero, Nat.cast_zero] at hlt
      linarith
    · exact heq
  · rcases h.close with hlt | ⟨hzero, -⟩
    · exact hlt
    · omega

/-- A hundred at 1 and two more at 100: the average cost is still 1, and should be 50/17. -/
def twiceAveraged : List Filled := [⟨.Buy, 1, 100⟩, ⟨.Buy, 100, 1⟩, ⟨.Buy, 100, 1⟩]

theorem twiceAveraged_close :
    (ExactCost.empty.fills twiceAveraged).avgCost
      - (Portfolio.empty.fills twiceAveraged).avgCost < 2 :=
  (avgCost_close twiceAveraged (by simp [twiceAveraged])).2.2.2 (by decide)

/-- Once averaged it would be off by less than a tick; twice, it is off by more. -/
theorem twiceAveraged_off :
    (∀ f ∈ twiceAveraged, 1 ≤ f.qty ∧ 1 ≤ f.price) ∧
      (Portfolio.empty.fills twiceAveraged).position ≠ 0 ∧
      1 ≤ (ExactCost.empty.fills twiceAveraged).avgCost
        - (Portfolio.empty.fills twiceAveraged).avgCost := by
  refine ⟨by simp [twiceAveraged], by decide, ?_⟩
  decide +kernel

end Backtest

end MatchingEngine
