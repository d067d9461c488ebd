/-
# Approaching a target with a dead band

A value moves towards a target by a fixed part of the way in each turn, and stays where it
is once the target is within a band.

* `target_sub_approach`: the way that is left shrinks by the same factor in each turn;
* `approach_le_target`, `target_le_approach`: the value never crosses the target;
* `abs_target_sub_iterate_le`: after `n` turns the target is within the band or the way
  has shrunk `n` times;
* `approach_of_near`: within the band the value stays.

Nothing here refers to a particular program.
-/
import Mathlib.Algebra.Order.Field.Basic
import Mathlib.Algebra.Order.Group.Abs
import Mathlib.Logic.Function.Iterate
import Mathlib.Tactic.Linarith
import Mathlib.Tactic.Ring

namespace DeadBand

variable {K : Type*} [Field K] [LinearOrder K]

/-- One turn: the part `gain` of the way to the target, unless it is within `band`. -/
def approach (gain band target current : K) : K :=
  if band < |target - current| then current + (target - current) * gain else current

variable {gain band target current : K}

theorem approach_of_far (h : band < |target - current|) :
    approach gain band target current = current + (target - current) * gain :=
  if_pos h

theorem approach_of_near (h : |target - current| ≤ band) :
    approach gain band target current = current :=
  if_neg (not_lt.mpr h)

/-- The way that is left after a turn. -/
theorem target_sub_approach (h : band < |target - current|) :
    target - approach gain band target current = (1 - gain) * (target - current) := by
  rw [approach_of_far h]
  ring

/-- As long as the target is out of the band, the way shrinks in each turn. -/
theorem target_sub_iterate {n : ℕ}
    (h : ∀ k < n, band < |target - (approach gain band target)^[k] current|) :
    target - (approach gain band target)^[n] current = (1 - gain) ^ n * (target - current) := by
  induction n with
  | zero => simp
  | succ n ih =>
      rw [Function.iterate_succ_apply', target_sub_approach (h n (Nat.lt_succ_self n)),
        ih fun k hk => h k (Nat.lt_succ_of_lt hk), pow_succ]
      ring

variable [IsStrictOrderedRing K]

/-- **The way to the target never grows.** -/
theorem abs_target_sub_approach_le (hpos : 0 ≤ gain) (hle : gain ≤ 1) :
    |target - approach gain band target current| ≤ |target - current| := by
  rcases lt_or_ge band |target - current| with hfar | hnear
  · rw [target_sub_approach hfar, abs_mul, abs_of_nonneg (sub_nonneg.mpr hle)]
    exact mul_le_of_le_one_left (abs_nonneg _) (by linarith)
  · rw [approach_of_near hnear]

/-- **The value never crosses the target** from below. -/
theorem approach_le_target (hle : gain ≤ 1) (h : current ≤ target) :
    approach gain band target current ≤ target := by
  rcases lt_or_ge band |target - current| with hfar | hnear
  · have hleft : _ = (1 - gain) * (target - current) := target_sub_approach hfar
    have hpos : 0 ≤ (1 - gain) * (target - current) :=
      mul_nonneg (sub_nonneg.mpr hle) (sub_nonneg.mpr h)
    linarith
  · rwa [approach_of_near hnear]

/-- Nor from above. -/
theorem target_le_approach (hle : gain ≤ 1) (h : target ≤ current) :
    target ≤ approach gain band target current := by
  rcases lt_or_ge band |target - current| with hfar | hnear
  · have hleft : _ = (1 - gain) * (target - current) := target_sub_approach hfar
    have hneg : (1 - gain) * (target - current) ≤ 0 :=
      mul_nonpos_of_nonneg_of_nonpos (sub_nonneg.mpr hle) (sub_nonpos.mpr h)
    linarith
  · rwa [approach_of_near hnear]

/-! ## Many turns -/

/-- **Geometric decay**: after `n` turns the target is within the band, or the way has shrunk
`n` times. -/
theorem abs_target_sub_iterate_le (hle : gain ≤ 1) (n : ℕ) :
    |target - (approach gain band target)^[n] current| ≤
      max band ((1 - gain) ^ n * |target - current|) := by
  induction n with
  | zero => simp
  | succ n ih =>
      rw [Function.iterate_succ_apply']
      rcases lt_or_ge band |target - (approach gain band target)^[n] current| with hfar | hnear
      · have hshrunk := (le_max_iff.mp ih).resolve_left (not_le.mpr hfar)
        have hstep := mul_le_mul_of_nonneg_left hshrunk (sub_nonneg.mpr hle)
        apply le_max_of_le_right
        rw [target_sub_approach hfar, abs_mul, abs_of_nonneg (sub_nonneg.mpr hle), pow_succ']
        linarith [mul_assoc (1 - gain) ((1 - gain) ^ n) |target - current|]
      · rw [approach_of_near hnear]
        exact le_max_of_le_left hnear

/-- Once the way has shrunk to the band, the target is within the band. -/
theorem iterate_near (hle : gain ≤ 1) {n : ℕ} (h : (1 - gain) ^ n * |target - current| ≤ band) :
    |target - (approach gain band target)^[n] current| ≤ band :=
  (abs_target_sub_iterate_le hle n).trans (max_le le_rfl h)

end DeadBand
