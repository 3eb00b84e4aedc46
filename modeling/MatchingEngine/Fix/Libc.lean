import MatchingEngine.Fix.Parser
import MatchingEngine.Util.Numerals

/-!
# libc and the machine

What the code takes from outside the repository: the conversions between text, doubles and integers.
A double is a rational number, and an operation on doubles is the exact one followed by
`Libc.round`; infinities and NaN are left out.

Nothing is assumed of a `Libc` by itself.  What a result needs of it is one of the predicates below:

* `Truncates` and `Typed` are about the conversion to an integer;
* `Exact`, `Doubles` and `ReadsDoubles` are about rounding;
* `SohFree` is about printing.

`textLibc` satisfies all of them.
-/

set_option autoImplicit false

namespace MatchingEngine

namespace Fix

open Decimal

/-- What the code takes from libc and the machine. -/
structure Libc where
  /-- The number a text starts with, if it starts with one. -/
  strtod : Bytes → Option ℚ
  /-- What `add_double` appends for a number of decimals and a value. -/
  snprintf : Int → ℚ → Bytes
  /-- `static_cast<int64_t>`. -/
  toInt64 : ℚ → Int
  /-- The double that stands for a number. -/
  round : ℚ → ℚ

/-- The values of `int64_t`. -/
def IsInt64 (n : Int) : Prop := -2 ^ 63 ≤ n ∧ n < 2 ^ 63

namespace Libc

variable (libc : Libc)

/-! ## Assumptions -/

/-- The conversion to an integer drops the fraction.  Outside the range of the type it may return
anything. -/
def Truncates : Prop :=
  ∀ x : ℚ, -2 ^ 63 ≤ x → x < 2 ^ 63 → libc.toInt64 x = x.num.tdiv x.den

/-- A conversion to `int64_t` gives one. -/
def Typed : Prop := ∀ x, IsInt64 (libc.toInt64 x)

/-- Small integers are doubles. -/
def Exact : Prop := ∀ n : Int, n.natAbs ≤ 2 ^ 53 → libc.round n = n

/-- Rounding to a double keeps the order, and keeps what is one. -/
structure Doubles : Prop where
  mono : ∀ x y, x ≤ y → libc.round x ≤ libc.round y
  exact : ∀ (n : Int) (k : Nat), n.natAbs ≤ 2 ^ 53 → k ≤ 900 →
    libc.round (n * 2 ^ k) = n * 2 ^ k

/-- What is read is a double already. -/
def ReadsDoubles : Prop := ∀ text x, libc.strtod text = some x → libc.round x = x

/-- No number is printed with the byte that ends a field. -/
def SohFree : Prop := ∀ decimals v, SOH ∉ libc.snprintf decimals v

/-- `static_cast<double>` of an integer. -/
def toDouble (n : Int) : ℚ := libc.round n

end Libc

/-! ## An instance -/

/-- A libc that reads and writes any numbers, and does not round. -/
def textLibc : Libc where
  strtod := readNumber
  snprintf decimals v := printFixed decimals.toNat v
  toInt64 x :=
    if -2 ^ 63 ≤ x.num.tdiv x.den ∧ x.num.tdiv x.den < 2 ^ 63 then x.num.tdiv x.den else -2 ^ 63
  round x := x

theorem textLibc_typed : textLibc.Typed := by
  intro x
  simp only [textLibc]
  split
  · assumption
  · exact ⟨le_refl _, by decide⟩

theorem textLibc_exact : textLibc.Exact := fun _ _ ↦ rfl

theorem textLibc_doubles : textLibc.Doubles := ⟨fun _ _ h ↦ h, fun _ _ _ _ ↦ rfl⟩

theorem textLibc_readsDoubles : textLibc.ReadsDoubles := fun _ _ _ ↦ rfl

theorem textLibc_sohFree : textLibc.SohFree := by
  intro decimals v
  refine List.not_mem_append ?_ (not_mem_fixed (by decide) (by decide) _ _)
  split <;> decide

theorem tdiv_eq_floor {x : ℚ} (h : 0 ≤ x) : x.num.tdiv x.den = x.floor := by
  rw [Int.tdiv_eq_ediv_of_nonneg (Rat.num_nonneg.mpr h), Rat.floor_def]

theorem textLibc_truncates : textLibc.Truncates := by
  intro x hlow hhigh
  refine if_pos ?_
  rcases le_or_gt 0 x with hx | hx
  · have hnonneg : 0 ≤ x.floor := Rat.le_floor_iff.mpr (by simpa using hx)
    have hlt : x.floor < 2 ^ 63 := Rat.floor_lt_iff.mpr (by exact_mod_cast hhigh)
    rw [tdiv_eq_floor hx]
    omega
  · -- towards zero from below is down for the opposite
    have hneg : x.num.tdiv x.den = -(-x).floor := by
      rw [← tdiv_eq_floor (by linarith), Rat.neg_num, Rat.neg_den, Int.neg_tdiv, Int.neg_neg]
    have hle : (-x).floor ≤ 2 ^ 63 := by
      have h := Rat.floor_le (-x)
      have : ((-x).floor : ℚ) ≤ ((2 ^ 63 : Int) : ℚ) := by
        push_cast
        linarith
      exact_mod_cast this
    have hnonneg : 0 ≤ (-x).floor := Rat.le_floor_iff.mpr (by simp; linarith)
    rw [hneg]
    omega

end Fix

end MatchingEngine
