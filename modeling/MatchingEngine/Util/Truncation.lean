import Mathlib.Algebra.Order.Field.Rat
import Mathlib.Data.Rat.Cast.Order
import Mathlib.Tactic.Linarith

/-!
# Rounding towards zero

C rounds towards zero when it divides integers, and when it casts a double to one.  Both keep the
order and leave integers as they are.  So what is between two integers is rounded to something
between the same two, whichever sign it has (`le_tdiv`, `tdiv_le`; `le_truncate`, `truncate_le`).
In particular an average that is rounded stays between what it is an average of (`smooth_between`).
-/

set_option autoImplicit false

namespace Truncation

theorem le_tdiv {n a d : Int} (hd : 0 < d) (h : n * d ≤ a) : n ≤ a.tdiv d := by
  have hle := Int.tdiv_le_tdiv hd h
  rwa [Int.mul_tdiv_cancel n hd.ne'] at hle

theorem tdiv_le {n a d : Int} (hd : 0 < d) (h : a ≤ n * d) : a.tdiv d ≤ n := by
  have hle := Int.tdiv_le_tdiv hd h
  rwa [Int.mul_tdiv_cancel n hd.ne'] at hle

/-- A cast to an integer. -/
def truncate (x : ℚ) : Int := x.num.tdiv x.den

theorem le_truncate {n : Int} {x : ℚ} (h : n ≤ x) : n ≤ truncate x := by
  refine le_tdiv (by exact_mod_cast x.den_pos) ?_
  rw [← Rat.num_div_den x, le_div_iff₀ (by exact_mod_cast x.den_pos)] at h
  exact_mod_cast h

theorem truncate_le {n : Int} {x : ℚ} (h : x ≤ n) : truncate x ≤ n := by
  refine tdiv_le (by exact_mod_cast x.den_pos) ?_
  rw [← Rat.num_div_den x, div_le_iff₀ (by exact_mod_cast x.den_pos)] at h
  exact_mod_cast h

/-- A step from one integer towards another, rounded. -/
def smooth (a : ℚ) (x y : Int) : Int := truncate (x + a * ((y - x : Int) : ℚ))

/-- **Smoothing does not leave an interval.** -/
theorem smooth_between {a : ℚ} (ha : 0 ≤ a) (ha' : a ≤ 1) {lo hi x y : Int} (hx : lo ≤ x ∧ x ≤ hi)
    (hy : lo ≤ y ∧ y ≤ hi) : lo ≤ smooth a x y ∧ smooth a x y ≤ hi := by
  have hmono : ∀ {u v : Int}, u ≤ v → (0 : ℚ) ≤ (v : ℚ) - u := fun h ↦
    sub_nonneg.mpr (by exact_mod_cast h)
  have hlx := mul_nonneg (sub_nonneg.mpr ha') (hmono hx.1)
  have hly := mul_nonneg ha (hmono hy.1)
  have hxh := mul_nonneg (sub_nonneg.mpr ha') (hmono hx.2)
  have hyh := mul_nonneg ha (hmono hy.2)
  refine ⟨le_truncate ?_, truncate_le ?_⟩
  · push_cast
    linarith
  · push_cast
    linarith

end Truncation
