/-
# Clamping a vector of the plane to a disk

A vector that is longer than a given length is scaled down to that length, and its
components are rounded to integers.

* `roundHalfUp_ne_zero`: the components of a long vector are not both rounded to zero;
* `norm_shorten_le`, `lt_norm_shorten`: the length of the clamped vector;
* `shorten_re_of_lt`, `shorten_im_of_lt`: its polar form.

Nothing here refers to a particular program.
-/
import Mathlib.Analysis.SpecialFunctions.Complex.Arg

namespace PlaneClamp

/-- Rounding to the nearest integer, halves upwards. -/
noncomputable def roundHalfUp (x : ℝ) : ℤ := ⌊x + 1 / 2⌋

/-- Rounding stays between two whole numbers. -/
theorem roundHalfUp_mem {n : ℤ} {x : ℝ} (hlow : -n ≤ x) (hhigh : x ≤ n) :
    -n ≤ roundHalfUp x ∧ roundHalfUp x ≤ n := by
  constructor
  · refine Int.le_floor.mpr ?_
    push_cast
    linarith
  · refine Int.lt_add_one_iff.mp (Int.floor_lt.mpr ?_)
    push_cast
    linarith

/-- What is rounded to zero is small. -/
theorem abs_le_of_roundHalfUp_eq_zero {x : ℝ} (h : roundHalfUp x = 0) : |x| ≤ 1 / 2 := by
  obtain ⟨hlow, hhigh⟩ := Int.floor_eq_zero_iff.mp h
  rw [abs_le]
  constructor <;> linarith

/-- The components of a vector of length at least one are not both rounded to zero. -/
theorem roundHalfUp_ne_zero {v : ℂ} (hv : 1 ≤ ‖v‖) :
    roundHalfUp v.re ≠ 0 ∨ roundHalfUp v.im ≠ 0 := by
  by_contra hzero
  rw [not_or, not_not, not_not] at hzero
  have hre := abs_le_of_roundHalfUp_eq_zero hzero.1
  have him := abs_le_of_roundHalfUp_eq_zero hzero.2
  have hre2 : v.re * v.re ≤ 1 / 4 := by nlinarith [abs_le.mp hre]
  have him2 : v.im * v.im ≤ 1 / 4 := by nlinarith [abs_le.mp him]
  have hnorm : ‖v‖ * ‖v‖ = v.re * v.re + v.im * v.im := by
    rw [Complex.norm_mul_self_eq_normSq, Complex.normSq_apply]
  nlinarith

/-- The vector, scaled down to length `m` if it is longer. -/
noncomputable def shorten (m : ℝ) (v : ℂ) : ℂ := if m < ‖v‖ then (m / ‖v‖ : ℝ) * v else v

variable {m : ℝ} {v : ℂ}

theorem norm_shorten_of_lt (hm : 0 ≤ m) (h : m < ‖v‖) : ‖shorten m v‖ = m := by
  have hv : ‖v‖ ≠ 0 := (hm.trans_lt h).ne'
  rw [shorten, if_pos h, norm_mul, Complex.norm_real, Real.norm_of_nonneg (div_nonneg hm (norm_nonneg v)),
    div_mul_cancel₀ m hv]

/-- A shortened vector is not longer than that. -/
theorem norm_shorten_le (hm : 0 ≤ m) : ‖shorten m v‖ ≤ m := by
  by_cases h : m < ‖v‖
  · exact (norm_shorten_of_lt hm h).le
  · rw [shorten, if_neg h]
    exact not_lt.mp h

/-- Shortening keeps a vector above a length that is below `m`. -/
theorem lt_norm_shorten {t : ℝ} (hm : 0 ≤ m) (ht : t < m) (h : t < ‖v‖) : t < ‖shorten m v‖ := by
  by_cases hlong : m < ‖v‖
  · rwa [norm_shorten_of_lt hm hlong]
  · rwa [shorten, if_neg hlong]

/-- The shortened vector in polar form. -/
theorem shorten_re_of_lt (hm : 0 ≤ m) (h : m < ‖v‖) :
    (shorten m v).re = m * Real.cos v.arg := by
  have hv : v ≠ 0 := norm_pos_iff.mp (hm.trans_lt h)
  rw [shorten, if_pos h, Complex.re_ofReal_mul, Complex.cos_arg hv]
  ring

theorem shorten_im_of_lt (h : m < ‖v‖) : (shorten m v).im = m * Real.sin v.arg := by
  rw [shorten, if_pos h, Complex.im_ofReal_mul, Complex.sin_arg]
  ring

end PlaneClamp
