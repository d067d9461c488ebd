/-
# `float` of an integer in double precision

`float(n)` rounds to the nearest double and raises `OverflowError` where that would be
`2 ** 1024` or more.

* `cast_floatOfInt`: the value is that of rounding to double precision;
* `floatOfInt_eq_none_iff`: the smallest magnitude that raises.
-/
import ProjectTank.BinaryRounding
import ProjectTank.PythonText

namespace Python

/-- Keeping 53 digits of a natural number is rounding to double precision. -/
theorem cast_nearestDouble (m : ℕ) : (nearestDouble m : ℚ) = binary64.nearest m := by
  rcases lt_or_ge m (2 ^ 53) with hlt | hge
  · have hrep : binary64.Representable ((m : ℤ) : ℚ) :=
      BinaryFormat.representable_intCast (by decide) (by
        rw [Nat.abs_cast]
        exact_mod_cast hlt)
    rw [nearestDouble_eq_self hlt]
    exact_mod_cast (BinaryFormat.nearest_eq_self hrep).symm
  · have hm : m ≠ 0 := by
      rintro rfl
      exact absurd hge (by decide)
    have hlog : 53 ≤ m.log2 := (Nat.le_log2 hm).mpr hge
    obtain ⟨k, hk⟩ : ∃ k, m.log2 = k + 52 := ⟨m.log2 - 52, by omega⟩
    have hplace : binary64.lastPlace m = k := by
      rw [BinaryFormat.lastPlace, Nat.abs_cast, Int.log_natCast, ← Nat.log2_eq_log_two, hk]
      simp only [binary64]
      omega
    have hunit : (2 : ℚ) ^ (k : ℤ) = ((2 ^ k : ℕ) : ℚ) := by
      rw [zpow_natCast]
      push_cast
      rfl
    rw [BinaryFormat.nearest, hplace, hunit, roundHalfEven_natCast_div m (by positivity), nearestDouble,
      hk, Nat.add_sub_cancel]
    push_cast
    rfl

/-- **`float(n)` is `n` rounded to double precision.** -/
theorem cast_floatOfInt {n r : ℤ} (h : floatOfInt n = some r) : (r : ℚ) = binary64.nearest n := by
  obtain ⟨-, hr⟩ := Option.ite_none_right_eq_some.mp h
  obtain rfl := Option.some.inj hr
  rw [Int.cast_mul, Int.cast_natCast, cast_nearestDouble]
  rcases Int.lt_trichotomy n 0 with hneg | rfl | hpos
  · have habs : ((n.natAbs : ℕ) : ℚ) = -(n : ℚ) := by
      rw [Nat.cast_natAbs, abs_of_neg hneg, Int.cast_neg]
    rw [Int.sign_eq_neg_one_of_neg hneg, habs, BinaryFormat.nearest_neg]
    simp
  · simp
  · have habs : ((n.natAbs : ℕ) : ℚ) = n := by rw [Nat.cast_natAbs, abs_of_pos hpos]
    rw [Int.sign_eq_one_of_pos hpos, habs]
    simp

/-- Half a unit beyond the largest double, where rounding reaches `2 ** 1024`. -/
def floatLimit : ℕ := 2 ^ 1024 - 2 ^ 970

/-- **What `float` cannot hold.** -/
theorem floatOfInt_eq_none_iff (n : ℤ) : floatOfInt n = none ↔ floatLimit ≤ n.natAbs := by
  have hmono : ∀ {a b : ℕ}, a ≤ b → nearestDouble a ≤ nearestDouble b := by
    intro a b hab
    have hcast : (nearestDouble a : ℚ) ≤ nearestDouble b := by
      rw [cast_nearestDouble, cast_nearestDouble]
      exact BinaryFormat.nearest_mono (Nat.cast_le.mpr hab)
    exact_mod_cast hcast
  have hlimit : nearestDouble floatLimit = 2 ^ 1024 := by decide +kernel
  have hbelow : nearestDouble (floatLimit - 1) < 2 ^ 1024 := by decide +kernel
  simp only [floatOfInt, ite_eq_right_iff, reduceCtorEq, imp_false, not_lt]
  constructor
  · intro h
    by_contra hlt
    exact absurd ((hmono (Nat.le_sub_one_of_lt (not_le.mp hlt))).trans_lt hbelow) (not_lt.mpr h)
  · intro h
    exact hlimit ▸ hmono h

end Python
