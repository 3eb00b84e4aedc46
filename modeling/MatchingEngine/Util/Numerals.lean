import Mathlib.Algebra.Order.Floor.Ring
import Mathlib.Algebra.Order.Field.Basic
import Mathlib.Algebra.Order.Ring.Rat
import Mathlib.Data.Rat.Floor
import Mathlib.Tactic.Linarith
import Mathlib.Tactic.NormNum
import Mathlib.Tactic.Ring
import MatchingEngine.Util.Decimal

/-!
# Rational numbers as decimal text

How C reads and writes numbers with a fraction, for numbers that are exact.

`printFixed` is `%.*f`: a sign, and the magnitude rounded to the given number of decimals, halves to
the even neighbour.  What is proved about it is how long the text gets (`length_printFixed_le`,
and exactly, without decimals, `length_printFixed_zero_le_iff`).

`readNumber` is `strtod`: the number at the front of a text, with an optional fraction and an
optional exponent.  Hexadecimal numbers, infinities and NaN are left out.
-/

set_option autoImplicit false

namespace Decimal

/-! ## Writing -/

/-- The nearest integer, and of two the even one. -/
def nearest (x : ℚ) : Int :=
  if x - x.floor < 1 / 2 then x.floor
  else if 1 / 2 < x - x.floor then x.floor + 1
  else if x.floor % 2 = 0 then x.floor else x.floor + 1

/-- `%.*f`. -/
def printFixed (decimals : Nat) (v : ℚ) : List UInt8 :=
  (if v < 0 then [45] else []) ++ fixed decimals (nearest (|v| * 10 ^ decimals)).toNat

theorem floor_le_nearest (x : ℚ) : x.floor ≤ nearest x := by
  rw [nearest]
  split_ifs <;> omega

theorem nearest_le_floor_add_one (x : ℚ) : nearest x ≤ x.floor + 1 := by
  rw [nearest]
  split_ifs <;> omega

theorem nearest_nonneg {x : ℚ} (h : 0 ≤ x) : 0 ≤ nearest x :=
  (Rat.le_floor_iff.mpr (by simpa using h)).trans (floor_le_nearest x)

/-- A number that is closer to an integer than a half is rounded to it. -/
theorem nearest_eq {x : ℚ} {n : Int} (hlow : n - 1 / 2 < x) (hhigh : x < n + 1 / 2) :
    nearest x = n := by
  rcases le_or_gt (n : ℚ) x with hn | hn
  · have hfloor : x.floor = n := by
      refine le_antisymm ?_ (Rat.le_floor_iff.mpr hn)
      refine Int.lt_add_one_iff.mp (Rat.floor_lt_iff.mpr ?_)
      push_cast
      linarith
    rw [nearest, hfloor, if_pos (by linarith)]
  · have hfloor : x.floor = n - 1 := by
      refine le_antisymm (Int.le_sub_one_iff.mpr (Rat.floor_lt_iff.mpr hn)) ?_
      refine Rat.le_floor_iff.mpr ?_
      push_cast
      linarith
    have hhalf : 1 / 2 < x - (n - 1 : Int) := by
      push_cast
      linarith
    rw [nearest, hfloor, if_neg (by linarith), if_pos hhalf]
    omega

/-- Where rounding reaches an even number. -/
theorem nearest_lt_iff {x : ℚ} {n : Int} (hn : n % 2 = 0) : nearest x < n ↔ x < n - 1 / 2 := by
  have hlow : (x.floor : ℚ) ≤ x := Rat.floor_le x
  have hhigh : x < x.floor + 1 := by exact_mod_cast Rat.lt_floor_add_one x
  constructor
  · intro h
    by_contra hge
    have hle := (floor_le_nearest x).trans_lt h
    -- the floor can only be the number before
    have hfloor : x.floor = n - 1 := by
      have : n - 1 ≤ x.floor := by
        rw [Rat.le_floor_iff]
        push_cast
        linarith
      omega
    have hhalf : ¬x - x.floor < 1 / 2 := by
      rw [hfloor]
      push_cast
      linarith
    rw [nearest, if_neg hhalf, if_neg (show ¬x.floor % 2 = 0 by omega), ite_self] at h
    omega
  · intro h
    rcases Int.lt_or_le (x.floor + 1) n with hlt | hge
    · exact (nearest_le_floor_add_one x).trans_lt hlt
    · have hfloor : x.floor = n - 1 := by
        have : x.floor < n := by
          rw [Rat.floor_lt_iff]
          linarith
        omega
      have hhalf : x - x.floor < 1 / 2 := by
        rw [hfloor]
        push_cast
        linarith
      rw [nearest, if_pos hhalf]
      omega

/-! ## How long a text gets -/

theorem length_fixed_zero (n : Nat) : (fixed 0 n).length = (render n).length := by
  simp [fixed]

/-- The whole part, and the decimals with their point. -/
theorem length_fixed_le {decimals n k : Nat} (hk : 0 < k) (h : n < 10 ^ (k + decimals)) :
    (fixed decimals n).length ≤ k + 1 + decimals := by
  have hwhole : (render (n / 10 ^ decimals)).length ≤ k := by
    refine (length_render_le_iff hk).mpr ?_
    rw [Nat.div_lt_iff_lt_mul (Nat.pow_pos (by decide)), ← Nat.pow_add]
    exact h
  rw [fixed, List.length_append]
  split
  · rw [List.length_nil]
    omega
  · rename_i hd
    have hpad : (pad decimals (n % 10 ^ decimals)).length = decimals :=
      length_pad (by omega) (Nat.mod_lt _ (Nat.pow_pos (by decide)))
    rw [List.length_cons, hpad]
    omega

/-- A number below a power of ten has as many digits before the point, and one more where rounding
reaches the power. -/
theorem length_printFixed_le {decimals k : Nat} {v : ℚ} (h : |v| ≤ 10 ^ k) :
    (printFixed decimals v).length ≤ k + 3 + decimals := by
  have hnearest : (nearest (|v| * 10 ^ decimals)).toNat < 10 ^ (k + 1 + decimals) := by
    have hfloor := nearest_le_floor_add_one (|v| * 10 ^ decimals)
    have hle : (|v| * 10 ^ decimals).floor ≤ 10 ^ (k + decimals) := by
      have hmul : |v| * 10 ^ decimals ≤ 10 ^ (k + decimals) := by
        rw [pow_add]
        exact mul_le_mul_of_nonneg_right h (by positivity)
      exact_mod_cast (Rat.floor_le _).trans hmul
    have hpow : (1 : Int) ≤ 10 ^ (k + decimals) := one_le_pow₀ (by norm_num)
    have hten : (10 : Int) ^ (k + 1 + decimals) = 10 * 10 ^ (k + decimals) := by ring
    have : (nearest (|v| * 10 ^ decimals)) < ((10 ^ (k + 1 + decimals) : Nat) : Int) := by
      push_cast
      omega
    have hpos : 0 < 10 ^ (k + 1 + decimals) := Nat.pow_pos (by decide)
    omega
  have hlen := length_fixed_le (Nat.succ_pos k) hnearest
  rw [printFixed, List.length_append]
  split
  · rw [List.length_singleton]
    omega
  · rw [List.length_nil]
    omega

/-- Rounding reaches one digit more at a half below the power of ten, which is even. -/
theorem length_fixed_nearest_le_iff {x : ℚ} (hx : 0 ≤ x) {k : Nat} (hk : 0 < k) :
    (fixed 0 (nearest x).toNat).length ≤ k ↔ x < 10 ^ k - 1 / 2 := by
  have heven : (10 ^ k : Int) % 2 = 0 := by
    obtain ⟨i, rfl⟩ : ∃ i, k = i + 1 := ⟨k - 1, by omega⟩
    rw [pow_succ]
    omega
  have hcast : (nearest x).toNat < 10 ^ k ↔ nearest x < 10 ^ k := by
    rw [← Int.ofNat_lt, Int.toNat_of_nonneg (nearest_nonneg hx)]
    push_cast
    rfl
  rw [length_fixed_zero, length_render_le_iff hk, hcast, nearest_lt_iff heven]
  push_cast
  rfl

/-- **How long a number without decimals gets**: a sign takes the place of a digit. -/
theorem length_printFixed_zero_le_iff {k : Nat} (hk : 0 < k) (v : ℚ) :
    (printFixed 0 v).length ≤ k + 1 ↔ -(10 ^ k - 1 / 2) < v ∧ v < 10 ^ (k + 1) - 1 / 2 := by
  have hpow : (10 : ℚ) ^ k ≤ 10 ^ (k + 1) := pow_le_pow_right₀ (by norm_num) (Nat.le_succ k)
  have hone : (1 : ℚ) ≤ 10 ^ k := one_le_pow₀ (by norm_num)
  rw [printFixed, pow_zero, mul_one, List.length_append]
  rcases lt_or_ge v 0 with hv | hv
  · rw [if_pos hv, List.length_singleton, Nat.add_comm, Nat.add_le_add_iff_right,
      length_fixed_nearest_le_iff (abs_nonneg v) hk, abs_of_neg hv]
    constructor
    · intro h
      constructor <;> linarith
    · intro h
      linarith [h.1]
  · rw [if_neg (not_lt.mpr hv), List.length_nil, Nat.zero_add,
      length_fixed_nearest_le_iff (abs_nonneg v) (show 0 < k + 1 by omega), abs_of_nonneg hv]
    constructor
    · intro h
      constructor <;> linarith
    · exact fun h ↦ h.2

/-! ## Reading -/

/-- The characters `isspace` accepts. -/
def isSpace (c : UInt8) : Bool := c = 32 || (9 ≤ c && c ≤ 13)

/-- An optional sign, and what follows: is it a minus? -/
def readSign : List UInt8 → Bool × List UInt8
  | [] => (false, [])
  | c :: cs => if c = 45 then (true, cs) else if c = 43 then (false, cs) else (false, c :: cs)

/-- The exponent at the front of a text, `0` if there is none. -/
def readExponent : List UInt8 → Int
  | [] => 0
  | c :: cs =>
    if c = 101 || c = 69 then
      let (minus, digits) := readSign cs
      if minus then -value (digits.takeWhile isDigit) else value (digits.takeWhile isDigit)
    else 0

/-- `n` times a power of ten. -/
def scale (n : Nat) (exponent : Int) : ℚ :=
  if 0 ≤ exponent then n * 10 ^ exponent.toNat else n / 10 ^ (-exponent).toNat

/-- `strtod`: the number a text starts with. -/
def readNumber (text : List UInt8) : Option ℚ :=
  let (minus, text) := readSign (text.dropWhile isSpace)
  let whole := text.takeWhile isDigit
  let text := text.dropWhile isDigit
  let decimals := if text.head? = some 46 then text.tail.takeWhile isDigit else []
  let text := if text.head? = some 46 then text.tail.dropWhile isDigit else text
  if whole ++ decimals = [] then none
  else
    let magnitude := scale (value (whole ++ decimals)) (readExponent text - decimals.length)
    some (if minus then -magnitude else magnitude)

end Decimal
