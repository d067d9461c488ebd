/-
# Rounding to a binary format

The numbers of a binary format are `m * 2 ^ e` with `|m| < 2 ^ precision` and an exponent
that is not too small; there is no largest exponent.  A rational is rounded to a multiple
of its last place, ties to even.

* `abs_nearest_sub_le`: no number of the format is closer than the rounded one;
* `nearest_mono`: rounding is monotone;
* `nearest_mem_uIcc`: the rounded number lies between zero and twice the exact one, also
  where the exact one is below every positive number of the format.

Nothing here refers to a particular program.
-/
import Mathlib.Data.Int.Log
import Mathlib.Data.Rat.Floor
import Mathlib.Algebra.Order.Interval.Set.Group
import Mathlib.Order.Interval.Set.UnorderedInterval
import Mathlib.Tactic.Linarith
import Mathlib.Tactic.Ring
import Mathlib.Tactic.NormNum

/-! ## The nearest integer -/

/-- The integer nearest to a rational, ties to even. -/
def roundHalfEven (q : ℚ) : ℤ :=
  if 2 * Int.fract q < 1 ∨ (2 * Int.fract q = 1 ∧ Even ⌊q⌋) then ⌊q⌋ else ⌊q⌋ + 1

theorem floor_le_roundHalfEven (q : ℚ) : ⌊q⌋ ≤ roundHalfEven q := by
  unfold roundHalfEven
  split_ifs <;> omega

theorem roundHalfEven_le_floor_add_one (q : ℚ) : roundHalfEven q ≤ ⌊q⌋ + 1 := by
  unfold roundHalfEven
  split_ifs <;> omega

/-- The distance is the fractional part or what it lacks, and never more than half. -/
theorem abs_roundHalfEven_sub (q : ℚ) :
    |(roundHalfEven q : ℚ) - q| ≤ Int.fract q ∧ |(roundHalfEven q : ℚ) - q| ≤ 1 - Int.fract q := by
  have hfloor : (⌊q⌋ : ℚ) - q = -Int.fract q := by
    rw [Int.fract]
    ring
  have hnonneg := Int.fract_nonneg q
  have hlt := Int.fract_lt_one q
  unfold roundHalfEven
  split_ifs with h
  · have hhalf : 2 * Int.fract q ≤ 1 := h.elim le_of_lt fun heq => heq.1.le
    rw [hfloor, abs_neg, abs_of_nonneg hnonneg]
    exact ⟨le_rfl, by linarith⟩
  · have hhalf : 1 ≤ 2 * Int.fract q := not_lt.mp fun hlow => h (Or.inl hlow)
    have hceil : ((⌊q⌋ + 1 : ℤ) : ℚ) - q = 1 - Int.fract q := by
      push_cast
      linarith
    rw [hceil, abs_of_nonneg (by linarith)]
    exact ⟨by linarith, le_rfl⟩

/-- **No integer is closer.** -/
theorem abs_roundHalfEven_sub_le (q : ℚ) (k : ℤ) : |(roundHalfEven q : ℚ) - q| ≤ |(k : ℚ) - q| := by
  obtain ⟨hbelow, habove⟩ := abs_roundHalfEven_sub q
  have hfract : Int.fract q = q - ⌊q⌋ := rfl
  rcases le_or_gt k ⌊q⌋ with hk | hk
  · have hcast : (k : ℚ) ≤ ⌊q⌋ := Int.cast_le.mpr hk
    have hdist := neg_le_abs ((k : ℚ) - q)
    linarith
  · have hcast : ((⌊q⌋ + 1 : ℤ) : ℚ) ≤ k := Int.cast_le.mpr hk
    have hdist := le_abs_self ((k : ℚ) - q)
    push_cast at hcast
    linarith

/-- Rounding does not depend on the sign. -/
theorem roundHalfEven_neg (q : ℚ) : roundHalfEven (-q) = -roundHalfEven q := by
  by_cases hzero : Int.fract q = 0
  · have hint : q = ⌊q⌋ := by linarith [Int.self_sub_floor q]
    have hneg : -q = (-⌊q⌋ : ℤ) := by
      push_cast
      linarith
    have hfloor : ⌊-q⌋ = -⌊q⌋ := by rw [hneg, Int.floor_intCast]
    unfold roundHalfEven
    rw [Int.fract_neg_eq_zero.mpr hzero, hzero, hfloor]
    norm_num
  · have hfract := Int.fract_neg hzero
    have hfloor : ⌊-q⌋ = -⌊q⌋ - 1 := by
      have hcast : (⌊-q⌋ : ℚ) = ((-⌊q⌋ - 1 : ℤ) : ℚ) := by
        push_cast
        linarith [Int.self_sub_floor q, Int.self_sub_floor (-q)]
      exact Int.cast_injective hcast
    have hparity : Even (-⌊q⌋ - 1) ↔ ¬ Even ⌊q⌋ := by
      rw [Int.even_sub_one, even_neg]
    simp only [roundHalfEven, hfract, hfloor, hparity]
    rcases lt_trichotomy (2 * Int.fract q) 1 with hlow | hmid | hhigh
    · rw [if_neg (by rintro (h | h) <;> linarith [h]), if_pos (Or.inl hlow)]
      ring
    · by_cases heven : Even ⌊q⌋
      · rw [if_neg (by rintro (h | h); linarith; exact h.2 heven), if_pos (Or.inr ⟨hmid, heven⟩)]
        ring
      · rw [if_pos (Or.inr ⟨by linarith, heven⟩), if_neg (by rintro (h | h); linarith; exact heven h.2)]
        ring
    · rw [if_pos (Or.inl (by linarith)), if_neg (by rintro (h | h) <;> linarith [h])]
      ring

/-- Rounding a fraction of natural numbers compares twice the remainder to the divisor. -/
theorem roundHalfEven_natCast_div (m : ℕ) {n : ℕ} (hn : 0 < n) :
    roundHalfEven ((m : ℚ) / n) =
      ((if n < 2 * (m % n) ∨ (2 * (m % n) = n ∧ m / n % 2 = 1) then m / n + 1 else m / n : ℕ) : ℤ) := by
  have hcast : (0 : ℚ) < n := Nat.cast_pos.mpr hn
  have hlow : 2 * Int.fract ((m : ℚ) / n) < 1 ↔ 2 * (m % n) < n := by
    rw [Int.fract_div_natCast_eq_div_natCast_mod, mul_div_assoc', div_lt_one hcast]
    exact_mod_cast Iff.rfl
  have hmid : 2 * Int.fract ((m : ℚ) / n) = 1 ↔ 2 * (m % n) = n := by
    rw [Int.fract_div_natCast_eq_div_natCast_mod, mul_div_assoc', div_eq_one_iff_eq hcast.ne']
    exact_mod_cast Iff.rfl
  have hfloor : ⌊(m : ℚ) / n⌋ = (m / n : ℕ) := by
    rw [Rat.floor_natCast_div_natCast, Int.natCast_ediv]
  simp only [roundHalfEven, hlow, hmid, hfloor, Int.even_coe_nat, Nat.even_iff]
  split_ifs <;> omega

/-! ## Formats -/

/-- A binary format: the number of binary digits, and the smallest exponent. -/
structure BinaryFormat where
  precision : ℕ
  minExponent : ℤ
  precision_pos : 0 < precision

namespace BinaryFormat

variable (f : BinaryFormat)

/-- The numbers of the format. -/
def Representable (r : ℚ) : Prop :=
  ∃ m e : ℤ, |m| < 2 ^ f.precision ∧ f.minExponent ≤ e ∧ r = m * 2 ^ e

/-- The exponent of the last place of a rational. -/
def lastPlace (q : ℚ) : ℤ := max (Int.log 2 |q| + 1 - f.precision) f.minExponent

/-- The number of the format that is nearest to a rational. -/
def nearest (q : ℚ) : ℚ := roundHalfEven (q / 2 ^ f.lastPlace q) * 2 ^ f.lastPlace q

variable {f}

theorem representable_zero : f.Representable 0 :=
  ⟨0, f.minExponent, by positivity, le_rfl, by simp⟩

theorem Representable.neg {r : ℚ} (h : f.Representable r) : f.Representable (-r) := by
  obtain ⟨m, e, hm, he, rfl⟩ := h
  exact ⟨-m, e, by rwa [abs_neg], he, by push_cast; ring⟩

/-- Small integers are numbers of every format with the exponent zero. -/
theorem representable_intCast (hmin : f.minExponent ≤ 0) {n : ℤ} (hn : |n| < 2 ^ f.precision) :
    f.Representable n :=
  ⟨n, 0, hn, hmin, by simp⟩

/-- The power of two after the largest mantissa is a mantissa with the next exponent. -/
theorem representable_of_abs_le {m e : ℤ} (hm : |m| ≤ 2 ^ f.precision) (he : f.minExponent ≤ e) :
    f.Representable (m * 2 ^ e) := by
  rcases hm.lt_or_eq with hlt | heq
  · exact ⟨m, e, hlt, he, rfl⟩
  · obtain ⟨p, hp⟩ : ∃ p, f.precision = p + 1 := ⟨f.precision - 1, by have := f.precision_pos; omega⟩
    rw [hp, pow_succ] at heq
    obtain ⟨k, rfl⟩ : (2 : ℤ) ∣ m := (dvd_abs 2 m).mp (heq ▸ dvd_mul_left 2 _)
    refine ⟨k, e + 1, ?_, by omega, ?_⟩
    · rw [abs_mul, abs_two, mul_comm] at heq
      have hk : |k| = 2 ^ p := mul_right_cancel₀ two_ne_zero heq
      rw [hk, hp]
      exact pow_lt_pow_right₀ one_lt_two (Nat.lt_succ_self p)
    · rw [zpow_add_one₀ two_ne_zero]
      push_cast
      ring

/-! ## The last place -/

theorem minExponent_le_lastPlace (q : ℚ) : f.minExponent ≤ f.lastPlace q := le_max_right _ _

theorem abs_lt_two_zpow (q : ℚ) : |q| < 2 ^ (f.lastPlace q + f.precision) := by
  have hlog := Int.lt_zpow_succ_log_self (b := 2) one_lt_two |q|
  have hexp : Int.log 2 |q| + 1 ≤ f.lastPlace q + f.precision := by
    have hle : Int.log 2 |q| + 1 - f.precision ≤ f.lastPlace q := le_max_left _ _
    omega
  exact hlog.trans_le (zpow_le_zpow_right₀ one_le_two hexp)

/-- A number of the format is a multiple of the last place of `q`, or else a power of two
with that property lies between the two. -/
theorem Representable.multiple_or_lt {r q : ℚ} (hr : f.Representable r) (hq : q ≠ 0) :
    (∃ k : ℤ, r = k * 2 ^ f.lastPlace q) ∨
      |r| < 2 ^ (f.lastPlace q + f.precision - 1) ∧
        (2 : ℚ) ^ (f.lastPlace q + f.precision - 1) ≤ |q| := by
  obtain ⟨m, e, hm, he, rfl⟩ := hr
  rcases le_or_gt (f.lastPlace q) e with hle | hlt
  · left
    obtain ⟨n, hn⟩ := Int.eq_ofNat_of_zero_le (sub_nonneg.mpr hle)
    refine ⟨m * 2 ^ n, ?_⟩
    have hsplit : e = n + f.lastPlace q := by omega
    rw [hsplit, zpow_add₀ two_ne_zero, zpow_natCast]
    push_cast
    ring
  · right
    -- the last place is above the smallest exponent, so it comes from the logarithm
    have hlog : f.lastPlace q = Int.log 2 |q| + 1 - f.precision := by
      rcases max_choice (Int.log 2 |q| + 1 - f.precision) f.minExponent with hmax | hmax
      · exact hmax
      · exact absurd hmax (he.trans_lt hlt).ne'
    have hexp : f.lastPlace q + f.precision - 1 = Int.log 2 |q| := by omega
    constructor
    · have hmq : (|m| : ℚ) < 2 ^ f.precision := by exact_mod_cast hm
      calc |(m : ℚ) * 2 ^ e| = |(m : ℚ)| * 2 ^ e := by
            rw [abs_mul, abs_of_pos (zpow_pos two_pos e : (0 : ℚ) < 2 ^ e)]
        _ < 2 ^ f.precision * 2 ^ e := mul_lt_mul_of_pos_right hmq (zpow_pos two_pos e)
        _ = 2 ^ ((f.precision : ℤ) + e) := by rw [zpow_add₀ two_ne_zero, zpow_natCast]
        _ ≤ 2 ^ (f.lastPlace q + f.precision - 1) := zpow_le_zpow_right₀ one_le_two (by omega)
    · rw [hexp]
      exact_mod_cast Int.zpow_log_le_self (b := 2) one_lt_two (abs_pos.mpr hq)

/-! ## The nearest number -/

@[simp] theorem nearest_zero : f.nearest 0 = 0 := by
  have hround : roundHalfEven 0 = 0 := by decide +kernel
  rw [nearest, zero_div, hround, Int.cast_zero, zero_mul]

/-- What rounds to an integer in units of the last place is as far away in these units. -/
theorem abs_mul_lastPlace_sub (q : ℚ) (k : ℤ) :
    |(k : ℚ) * 2 ^ f.lastPlace q - q| = |(k : ℚ) - q / 2 ^ f.lastPlace q| * 2 ^ f.lastPlace q := by
  have hpos : (0 : ℚ) < 2 ^ f.lastPlace q := zpow_pos two_pos _
  rw [← abs_of_pos hpos, ← abs_mul, abs_of_pos hpos, sub_mul, div_mul_cancel₀ q hpos.ne']

/-- No multiple of the last place is closer. -/
theorem abs_nearest_sub_le_multiple (q : ℚ) (k : ℤ) :
    |f.nearest q - q| ≤ |(k : ℚ) * 2 ^ f.lastPlace q - q| := by
  rw [nearest, abs_mul_lastPlace_sub, abs_mul_lastPlace_sub]
  exact mul_le_mul_of_nonneg_right (abs_roundHalfEven_sub_le _ k) (zpow_nonneg two_pos.le _)

/-- **No number of the format is closer.** -/
theorem abs_nearest_sub_le {r : ℚ} (hr : f.Representable r) (q : ℚ) :
    |f.nearest q - q| ≤ |r - q| := by
  by_cases hq : q = 0
  · rw [hq, nearest_zero, sub_zero, sub_zero, abs_zero]
    exact abs_nonneg r
  rcases hr.multiple_or_lt hq with ⟨k, rfl⟩ | ⟨hlt, hle⟩
  · exact abs_nearest_sub_le_multiple q k
  · -- the power of two between them, with the sign of `q`, is a multiple of the last place
    have hpower : (2 : ℚ) ^ (f.lastPlace q + f.precision - 1) =
        (2 ^ (f.precision - 1) : ℤ) * 2 ^ f.lastPlace q := by
      have hexp : f.lastPlace q + f.precision - 1 = (f.precision - 1 : ℕ) + f.lastPlace q := by
        have := f.precision_pos
        omega
      rw [hexp, zpow_add₀ two_ne_zero, zpow_natCast]
      push_cast
      rfl
    have hbelow := neg_abs_le r
    have habove := le_abs_self r
    rcases abs_choice q with hsign | hsign
    · refine (abs_nearest_sub_le_multiple q (2 ^ (f.precision - 1))).trans ?_
      rw [← hpower, abs_of_nonpos (by linarith), abs_of_nonpos (by linarith)]
      linarith
    · refine (abs_nearest_sub_le_multiple q (-2 ^ (f.precision - 1))).trans ?_
      rw [Int.cast_neg, neg_mul, ← hpower, abs_of_nonneg (by linarith), abs_of_nonneg (by linarith)]
      linarith

theorem representable_nearest (q : ℚ) : f.Representable (f.nearest q) := by
  refine representable_of_abs_le ?_ (minExponent_le_lastPlace q)
  have hscaled : |q / 2 ^ f.lastPlace q| < ((2 ^ f.precision : ℤ) : ℚ) := by
    have hpos : (0 : ℚ) < 2 ^ f.lastPlace q := zpow_pos two_pos _
    rw [abs_div, abs_of_pos hpos, div_lt_iff₀ hpos]
    push_cast
    rw [← zpow_natCast, ← zpow_add₀ two_ne_zero, add_comm]
    exact abs_lt_two_zpow q
  rw [abs_lt, ← Int.cast_neg] at hscaled
  have hlow := Int.le_floor.mpr hscaled.1.le
  have hhigh := Int.floor_lt.mpr hscaled.2
  have hfloor := floor_le_roundHalfEven (q / 2 ^ f.lastPlace q)
  have hceil := roundHalfEven_le_floor_add_one (q / 2 ^ f.lastPlace q)
  rw [abs_le]
  omega

/-- Rounding leaves the numbers of the format as they are. -/
theorem nearest_eq_self {r : ℚ} (hr : f.Representable r) : f.nearest r = r := by
  have hdist := abs_nearest_sub_le hr r
  rw [sub_self, abs_zero] at hdist
  exact sub_eq_zero.mp (abs_nonpos_iff.mp hdist)

/-- Rounding an integer gives an integer. -/
theorem exists_nearest_intCast (hmin : f.minExponent ≤ 0) (n : ℤ) : ∃ m : ℤ, f.nearest n = m := by
  rcases le_or_gt 0 (f.lastPlace n) with hplace | hplace
  · obtain ⟨e, he⟩ := Int.eq_ofNat_of_zero_le hplace
    refine ⟨roundHalfEven (n / 2 ^ f.lastPlace n) * 2 ^ e, ?_⟩
    rw [nearest, he]
    push_cast
    rw [zpow_natCast]
  · have hlt : |(n : ℚ)| < 2 ^ (f.precision : ℤ) :=
      (abs_lt_two_zpow (f := f) (n : ℚ)).trans_le (zpow_le_zpow_right₀ one_le_two (by omega))
    refine ⟨n, nearest_eq_self (representable_intCast hmin ?_)⟩
    rw [zpow_natCast] at hlt
    exact_mod_cast hlt

/-- **Rounding is monotone.**  If two results were in the other order, each number would be
at least as close to the other one's result. -/
theorem nearest_mono : Monotone f.nearest := by
  intro q q' hle
  by_contra hgt
  have hlt := not_le.mp hgt
  have h := abs_nearest_sub_le (representable_nearest (f := f) q') q
  have h' := abs_nearest_sub_le (representable_nearest (f := f) q) q'
  rw [← sq_le_sq] at h h'
  -- `q` is not before the middle of the two results, and `q'` is not after it
  have hmid : f.nearest q' + f.nearest q ≤ 2 * q := by
    have hprod : (f.nearest q - f.nearest q') * (f.nearest q' + f.nearest q - 2 * q) ≤ 0 := by
      linarith
    linarith [nonpos_of_mul_nonpos_right hprod (sub_pos.mpr hlt)]
  have hmid' : 2 * q' ≤ f.nearest q' + f.nearest q := by
    have hprod : 0 ≤ (f.nearest q - f.nearest q') * (f.nearest q' + f.nearest q - 2 * q') := by
      linarith
    linarith [nonneg_of_mul_nonneg_right hprod (sub_pos.mpr hlt)]
  have heq : q = q' := by linarith
  rw [heq] at hlt
  exact lt_irrefl _ hlt

/-- **Between zero and twice the number.**  Zero is a number of the format, so the result is
no further away than zero. -/
theorem nearest_mem_uIcc (q : ℚ) : f.nearest q ∈ Set.uIcc 0 (2 * q) := by
  have h := abs_nearest_sub_le (f := f) representable_zero q
  rw [zero_sub, abs_neg] at h
  rcases le_total 0 q with hq | hq
  · rw [abs_of_nonneg hq, abs_le] at h
    rw [Set.uIcc_of_le (by linarith)]
    exact ⟨by linarith [h.1], by linarith [h.2]⟩
  · rw [abs_of_nonpos hq, abs_le] at h
    rw [Set.uIcc_of_ge (by linarith)]
    exact ⟨by linarith [h.1], by linarith [h.2]⟩

/-- Rounding does not depend on the sign. -/
theorem nearest_neg (q : ℚ) : f.nearest (-q) = -f.nearest q := by
  have hplace : f.lastPlace (-q) = f.lastPlace q := by rw [lastPlace, lastPlace, abs_neg]
  rw [nearest, nearest, hplace, neg_div, roundHalfEven_neg, Int.cast_neg, neg_mul]

end BinaryFormat

/-- Double precision. -/
def binary64 : BinaryFormat where
  precision := 53
  minExponent := -1074
  precision_pos := by decide
