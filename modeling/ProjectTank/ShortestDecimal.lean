/-
# Shortest decimals

A language that prints floating-point numbers "as short as possible" looks for the fewest
digits with which some decimal rounds to the number, and among those decimals for the
closest one.  With `k` digits there are two candidates, the multiples of the decimal unit
around the number; if neither rounds to it, none with `k` digits does, because rounding is
monotone.

* `isSome_digitsAt`: the two candidates decide about all decimals with `k` digits;
* `shortest_spec`: the decimal that is found rounds to the number, and no decimal with fewer
  digits does;
* `shortest_eq_iff`: when the decimal found is the number itself.

Nothing here refers to a particular program.
-/
import Mathlib.Tactic.Linarith
import ProjectTank.BinaryRounding
import ProjectTank.DecimalText

open DecimalText

namespace ShortestDecimal

variable (f : BinaryFormat)

/-- The number of digits before the decimal point: `10 ^ (n - 1) ≤ x < 10 ^ n`. -/
def decimalExponent (x : ℚ) : ℤ := Int.log 10 x + 1

/-- The unit of the last of `k` digits of `x`. -/
def digitUnit (x : ℚ) (k : ℕ) : ℚ := 10 ^ (decimalExponent x - k)

/-- The closest decimal with `k` digits that rounds to `x`, in units of its last digit. -/
def digitsAt (x : ℚ) (k : ℕ) : Option ℤ :=
  let closest := roundHalfEven (x / digitUnit x k)
  let other := 2 * ⌊x / digitUnit x k⌋ + 1 - closest
  if f.nearest (closest * digitUnit x k) = x then some closest
  else if f.nearest (other * digitUnit x k) = x then some other
  else none

/-- The first decimal from `k` digits on, and its number of digits. -/
def search (x : ℚ) (k : ℕ) : ℕ → ℤ × ℕ
  | 0 => (roundHalfEven (x / digitUnit x k), k)
  | fuel + 1 =>
      match digitsAt f x k with
      | some s => (s, k)
      | none => search x (k + 1) fuel

/-- A binary fraction is a decimal with this many digits. -/
def exactDigits (x : ℚ) : ℕ := (decimalExponent x).toNat + f.minExponent.natAbs + 1

/-- The shortest decimal and its number of digits. -/
def shortest (x : ℚ) : ℤ × ℕ := search f x 1 (exactDigits f x)

variable {f} {x : ℚ}

/-! ## The unit -/

theorem digitUnit_pos (x : ℚ) (k : ℕ) : 0 < digitUnit x k := zpow_pos (by norm_num) _

theorem zpow_le_of_pos (hx : 0 < x) : (10 : ℚ) ^ (decimalExponent x - 1) ≤ x := by
  rw [decimalExponent, add_sub_cancel_right]
  exact_mod_cast Int.zpow_log_le_self (b := 10) (by norm_num) hx

theorem lt_zpow (x : ℚ) : x < (10 : ℚ) ^ decimalExponent x := by
  exact_mod_cast Int.lt_zpow_succ_log_self (b := 10) (by norm_num) x

theorem pow_mul_digitUnit (x : ℚ) (k j : ℕ) :
    ((10 ^ j : ℤ) : ℚ) * digitUnit x k = 10 ^ (decimalExponent x - k + j) := by
  rw [digitUnit, zpow_add₀ (by norm_num : (10 : ℚ) ≠ 0), mul_comm]
  push_cast
  rw [zpow_natCast]

theorem decimalExponent_eq {n : ℤ} (hlow : 10 ^ (n - 1) ≤ x) (hhigh : x < 10 ^ n) :
    decimalExponent x = n := by
  have hpos : 0 < x := lt_of_lt_of_le (zpow_pos (by norm_num) _) hlow
  have hone : (1 : ℚ) < 10 := by norm_num
  have hbelow := (zpow_lt_zpow_iff_right₀ hone).mp (hlow.trans_lt (lt_zpow x))
  have habove := (zpow_lt_zpow_iff_right₀ hone).mp ((zpow_le_of_pos hpos).trans_lt hhigh)
  omega

/-- A decimal lies between the powers of ten that its length says. -/
theorem decimal_bounds {z : ℕ} (hz : 0 < z) (j : ℤ) :
    (10 : ℚ) ^ ((natText z).length + j - 1) ≤ z * 10 ^ j ∧
      (z : ℚ) * 10 ^ j < 10 ^ ((natText z).length + j) := by
  have hten : (0 : ℚ) < 10 ^ j := zpow_pos (by norm_num) _
  have hlen := List.length_pos_iff.mpr (natText_ne_nil z)
  constructor
  · have hexp : ((natText z).length : ℤ) + j - 1 = ((natText z).length - 1 : ℕ) + j := by omega
    rw [hexp, zpow_add₀ (by norm_num), zpow_natCast]
    exact mul_le_mul_of_nonneg_right (by exact_mod_cast pow_length_natText_le hz) hten.le
  · rw [zpow_add₀ (by norm_num), zpow_natCast]
    exact mul_lt_mul_of_pos_right (by exact_mod_cast lt_pow_length_natText z) hten

/-- The unit of a decimal's own digits. -/
theorem digitUnit_of_eq {m : ℕ} {i : ℤ} (hm : 0 < m) (h : x = m * 10 ^ i) :
    digitUnit x (natText m).length = 10 ^ i := by
  obtain ⟨hlow, hhigh⟩ := decimal_bounds hm i
  rw [digitUnit, decimalExponent_eq (h ▸ hlow) (h ▸ hhigh), add_sub_cancel_left]

/-! ## The candidates -/

/-- The two candidates are the multiples around `x`, in some order. -/
theorem candidates (q : ℚ) :
    (roundHalfEven q = ⌊q⌋ ∧ 2 * ⌊q⌋ + 1 - roundHalfEven q = ⌊q⌋ + 1) ∨
      (roundHalfEven q = ⌊q⌋ + 1 ∧ 2 * ⌊q⌋ + 1 - roundHalfEven q = ⌊q⌋) := by
  have hlow := floor_le_roundHalfEven q
  have hhigh := roundHalfEven_le_floor_add_one q
  omega

theorem digitsAt_spec {k : ℕ} {s : ℤ} (h : digitsAt f x k = some s) :
    f.nearest (s * digitUnit x k) = x ∧
      (s = ⌊x / digitUnit x k⌋ ∨ s = ⌊x / digitUnit x k⌋ + 1) := by
  have hcand := candidates (x / digitUnit x k)
  rw [digitsAt] at h
  split_ifs at h with hclosest hother
  · obtain rfl := Option.some.inj h
    exact ⟨hclosest, by omega⟩
  · obtain rfl := Option.some.inj h
    exact ⟨hother, by omega⟩

/-- If a multiple of the unit rounds to `x`, so does the one next to `x` on the same side. -/
theorem nearest_floor_or_succ (hx : f.Representable x) {k : ℕ} {z : ℤ}
    (h : f.nearest (z * digitUnit x k) = x) :
    f.nearest ((⌊x / digitUnit x k⌋ : ℤ) * digitUnit x k) = x ∨
      f.nearest ((⌊x / digitUnit x k⌋ + 1 : ℤ) * digitUnit x k) = x := by
  have hpos := digitUnit_pos x k
  have hself := BinaryFormat.nearest_eq_self hx
  rcases le_or_gt z ⌊x / digitUnit x k⌋ with hle | hgt
  · refine Or.inl (le_antisymm ?_ ?_)
    · have hbelow : (⌊x / digitUnit x k⌋ : ℚ) * digitUnit x k ≤ x :=
        (le_div_iff₀ hpos).mp (Int.floor_le _)
      exact (BinaryFormat.nearest_mono hbelow).trans hself.le
    · have hbelow : (z : ℚ) * digitUnit x k ≤ (⌊x / digitUnit x k⌋ : ℤ) * digitUnit x k :=
        mul_le_mul_of_nonneg_right (Int.cast_le.mpr hle) hpos.le
      exact h.symm.le.trans (BinaryFormat.nearest_mono hbelow)
  · refine Or.inr (le_antisymm ?_ ?_)
    · have habove : ((⌊x / digitUnit x k⌋ + 1 : ℤ) : ℚ) * digitUnit x k ≤ z * digitUnit x k :=
        mul_le_mul_of_nonneg_right (Int.cast_le.mpr hgt) hpos.le
      exact (BinaryFormat.nearest_mono habove).trans h.le
    · have habove : x ≤ ((⌊x / digitUnit x k⌋ + 1 : ℤ) : ℚ) * digitUnit x k := by
        rw [← div_le_iff₀ hpos]
        push_cast
        exact (Int.lt_floor_add_one _).le
      exact hself.symm.le.trans (BinaryFormat.nearest_mono habove)

/-- **Two candidates decide.**  If any multiple of the unit rounds to `x`, one of them does. -/
theorem isSome_digitsAt (hx : f.Representable x) {k : ℕ} {z : ℤ}
    (h : f.nearest (z * digitUnit x k) = x) : (digitsAt f x k).isSome = true := by
  have hnext := nearest_floor_or_succ hx h
  -- otherwise neither candidate rounds to `x`
  by_contra hnone
  simp only [digitsAt] at hnone
  split_ifs at hnone with hclosest hother
  · exact hnone rfl
  · exact hnone rfl
  · rcases candidates (x / digitUnit x k) with ⟨hc, ho⟩ | ⟨hc, ho⟩
    · rw [hc] at hclosest
      rw [ho] at hother
      exact hnext.elim hclosest hother
    · rw [hc] at hclosest
      rw [ho] at hother
      exact hnext.elim hother hclosest

/-- A decimal that is the number itself is the closest. -/
theorem digitsAt_exact (hx : f.Representable x) {k : ℕ} {m : ℤ} (h : x = m * digitUnit x k) :
    digitsAt f x k = some m := by
  have hdiv : x / digitUnit x k = m := by
    rw [div_eq_iff (digitUnit_pos x k).ne', ← h]
  have hround : roundHalfEven (m : ℚ) = m := by
    rw [roundHalfEven, Int.fract_intCast, Int.floor_intCast, if_pos (Or.inl (by norm_num))]
  rw [digitsAt, hdiv, hround, if_pos]
  rw [← h, BinaryFormat.nearest_eq_self hx]

/-! ## The search -/

/-- With enough fuel, the search ends at the first number of digits that has a decimal. -/
theorem search_spec {K : ℕ} (hK : (digitsAt f x K).isSome = true) {k fuel : ℕ} (hk : k ≤ K)
    (hfuel : K < k + fuel) :
    ∃ s m, search f x k fuel = (s, m) ∧ digitsAt f x m = some s ∧ k ≤ m ∧
      ∀ j, k ≤ j → (digitsAt f x j).isSome = true → m ≤ j := by
  induction fuel generalizing k with
  | zero => omega
  | succ fuel ih =>
      cases hat : digitsAt f x k with
      | some s =>
          refine ⟨s, k, ?_, hat, le_rfl, fun j hj _ => hj⟩
          simp only [search, hat]
      | none =>
          have hne : k ≠ K := by
            rintro rfl
            rw [hat] at hK
            cases hK
          obtain ⟨s, m, hsearch, hm, hkm, hmin⟩ := ih (k := k + 1) (by omega) (by omega)
          refine ⟨s, m, ?_, hm, by omega, fun j hj hsome => ?_⟩
          · simp only [search, hat]
            exact hsearch
          · have hnej : k ≠ j := by
              rintro rfl
              rw [hat] at hsome
              cases hsome
            exact hmin j (by omega) hsome

/-! ## The decimal that is found -/

theorem pos_of_nearest_eq (hpos : 0 < x) {z : ℕ} {j : ℤ} (h : f.nearest (z * 10 ^ j) = x) :
    0 < z := by
  by_contra hzero
  obtain rfl : z = 0 := by omega
  rw [Nat.cast_zero, zero_mul, BinaryFormat.nearest_zero] at h
  exact hpos.ne h

/-- Every decimal that rounds to `x` bounds the number of digits: it, or a power of ten between
it and `x`, is a multiple of the unit for its own number of digits. -/
theorem isSome_of_decimal (hx : f.Representable x) (hpos : 0 < x) {z : ℕ} {j : ℤ}
    (h : f.nearest (z * 10 ^ j) = x) :
    (digitsAt f x (natText z).length).isSome = true := by
  have hself := BinaryFormat.nearest_eq_self hx
  have hlen := List.length_pos_iff.mpr (natText_ne_nil z)
  obtain ⟨habove, hbelow⟩ := decimal_bounds (pos_of_nearest_eq hpos h) j
  set L := (natText z).length with hL
  rcases lt_trichotomy (L + j) (decimalExponent x) with hlt | heq | hgt
  · -- the decimal is below the power of ten that starts the numbers as long as `x`
    refine isSome_digitsAt hx (z := 10 ^ (L - 1)) (le_antisymm ?_ ?_)
    · rw [pow_mul_digitUnit, show decimalExponent x - L + ((L - 1 : ℕ) : ℤ) =
        decimalExponent x - 1 by omega]
      exact (BinaryFormat.nearest_mono (zpow_le_of_pos hpos)).trans hself.le
    · rw [pow_mul_digitUnit]
      refine h.symm.le.trans (BinaryFormat.nearest_mono (hbelow.le.trans ?_))
      exact zpow_le_zpow_right₀ (by norm_num) (by omega)
  · refine isSome_digitsAt hx (z := z) ?_
    rw [digitUnit, show decimalExponent x - L = j by omega]
    exact_mod_cast h
  · -- the decimal is at or above the power of ten that ends the numbers as long as `x`
    refine isSome_digitsAt hx (z := 10 ^ L) (le_antisymm ?_ ?_)
    · rw [pow_mul_digitUnit]
      refine (BinaryFormat.nearest_mono (le_trans ?_ habove)).trans h.le
      exact zpow_le_zpow_right₀ (by norm_num) (by omega)
    · rw [pow_mul_digitUnit, sub_add_cancel]
      exact hself.symm.le.trans (BinaryFormat.nearest_mono (lt_zpow x).le)

/-- With the exact number of digits, the number itself is found. -/
theorem exists_exact (hx : f.Representable x) :
    ∃ m : ℤ, x = m * digitUnit x (exactDigits f x) := by
  obtain ⟨m, e, -, he, hval⟩ := hx
  -- the unit is `10 ^ -d`, and `2 ^ e` is a multiple of `2 ^ -d`
  obtain ⟨d, hd⟩ : ∃ d : ℕ, decimalExponent x - exactDigits f x = -(d : ℤ) :=
    ⟨(exactDigits f x - decimalExponent x).toNat, by unfold exactDigits; omega⟩
  obtain ⟨t, ht⟩ : ∃ t : ℕ, e + d = t := ⟨(e + d).toNat, by unfold exactDigits at hd; omega⟩
  refine ⟨m * 2 ^ t * 5 ^ d, ?_⟩
  have htwo : (2 : ℚ) ^ e * 2 ^ d = 2 ^ t := by
    rw [← zpow_natCast, ← zpow_add₀ (by norm_num), ht, zpow_natCast]
  have hten : (10 : ℚ) ^ d = 2 ^ d * 5 ^ d := by
    rw [← mul_pow]
    norm_num
  have hpow : (10 : ℚ) ^ d ≠ 0 := pow_ne_zero _ (by norm_num)
  rw [digitUnit, hd, zpow_neg, zpow_natCast, ← div_eq_mul_inv, eq_div_iff hpow, hten]
  push_cast
  rw [← htwo]
  nth_rewrite 1 [hval]
  ring

/-- **The shortest decimal.**  What is found rounds to `x`, and every decimal that rounds to `x`
has at least as many digits. -/
theorem shortest_spec (hx : f.Representable x) (hpos : 0 < x) {s : ℤ} {k : ℕ}
    (h : shortest f x = (s, k)) :
    digitsAt f x k = some s ∧ 1 ≤ k ∧
      ∀ (z : ℕ) (j : ℤ), f.nearest (z * 10 ^ j) = x → k ≤ (natText z).length := by
  obtain ⟨m, hm⟩ := exists_exact hx
  have hexact : (digitsAt f x (exactDigits f x)).isSome = true := by
    rw [digitsAt_exact hx hm]
    rfl
  obtain ⟨s', k', hsearch, hat, hk, hmin⟩ := @search_spec f x _ hexact 1 (exactDigits f x)
    (by unfold exactDigits; omega) (by omega)
  rw [shortest, hsearch, Prod.mk.injEq] at h
  obtain ⟨rfl, rfl⟩ := h
  exact ⟨hat, hk, fun z j hz => hmin _ (List.length_pos_iff.mpr (natText_ne_nil z))
    (isSome_of_decimal hx hpos hz)⟩

/-- The digits that are found make a number of their length, or the power of ten after it. -/
theorem shortest_bounds (hx : f.Representable x) (hpos : 0 < x) {s : ℤ} {k : ℕ}
    (h : shortest f x = (s, k)) : 10 ^ (k - 1) ≤ s ∧ s ≤ 10 ^ k := by
  obtain ⟨hat, hk, -⟩ := shortest_spec hx hpos h
  have hunit := digitUnit_pos x k
  have hlow : (10 ^ (k - 1) : ℤ) ≤ ⌊x / digitUnit x k⌋ := by
    rw [Int.le_floor, le_div_iff₀ hunit, pow_mul_digitUnit,
      show decimalExponent x - k + ((k - 1 : ℕ) : ℤ) = decimalExponent x - 1 by omega]
    exact zpow_le_of_pos hpos
  have hhigh : ⌊x / digitUnit x k⌋ < 10 ^ k := by
    rw [Int.floor_lt, div_lt_iff₀ hunit, pow_mul_digitUnit, sub_add_cancel]
    exact lt_zpow x
  rcases (digitsAt_spec hat).2 with rfl | rfl <;> omega

/-- What is found rounds to `x`. -/
theorem nearest_shortest (hx : f.Representable x) (hpos : 0 < x) {s : ℤ} {k : ℕ}
    (h : shortest f x = (s, k)) : f.nearest (s * digitUnit x k) = x :=
  (digitsAt_spec (shortest_spec hx hpos h).1).1

/-! ## Numbers that are printed exactly -/

variable (f) in
/-- The number is a decimal, and no decimal with fewer digits rounds to it. -/
def SpelledShort (x : ℚ) : Prop :=
  ∃ (m : ℕ) (i : ℤ), x = m * 10 ^ i ∧
    ∀ (z : ℕ) (j : ℤ), f.nearest (z * 10 ^ j) = x → (natText m).length ≤ (natText z).length

/-- **When the shortest decimal is the number itself.** -/
theorem shortest_eq_iff (hx : f.Representable x) (hpos : 0 < x) {s : ℤ} {k : ℕ}
    (h : shortest f x = (s, k)) : s * digitUnit x k = x ↔ SpelledShort f x := by
  obtain ⟨hat, hk, hmin⟩ := shortest_spec hx hpos h
  obtain ⟨hlow, hhigh⟩ := shortest_bounds hx hpos h
  have hround := nearest_shortest hx hpos h
  have hnonneg : 0 ≤ s := le_trans (by positivity) hlow
  obtain ⟨z, rfl⟩ : ∃ z : ℕ, s = z := Int.eq_ofNat_of_zero_le hnonneg
  constructor
  · intro heq
    refine ⟨z, decimalExponent x - k, by exact_mod_cast heq.symm, fun z' j hz' => ?_⟩
    refine le_trans (length_natText_le hk ?_) (hmin z' j hz')
    -- the power of ten itself is above `x`
    have hlt : (z : ℚ) * digitUnit x k < (10 ^ k : ℤ) * digitUnit x k := by
      rw [pow_mul_digitUnit, sub_add_cancel]
      exact lt_of_eq_of_lt (by exact_mod_cast heq) (lt_zpow x)
    exact_mod_cast lt_of_mul_lt_mul_right hlt (digitUnit_pos x k).le
  · rintro ⟨m, i, hval, hshort⟩
    have hm : 0 < m := by
      by_contra hzero
      obtain rfl : m = 0 := by omega
      rw [Nat.cast_zero, zero_mul] at hval
      exact hpos.ne' hval
    have hlen : k = (natText m).length := by
      refine le_antisymm (hmin m i (hval ▸ BinaryFormat.nearest_eq_self hx)) ?_
      rcases hhigh.lt_or_eq with hlt | hten
      · exact (hshort z _ (by exact_mod_cast hround)).trans (length_natText_le hk (by exact_mod_cast hlt))
      · -- then the power of ten is a decimal with one digit
        rw [hten, pow_mul_digitUnit, sub_add_cancel] at hround
        exact (hshort 1 (decimalExponent x) (by rwa [Nat.cast_one, one_mul])).trans hk
    have hexact : digitsAt f x k = some (m : ℤ) := by
      refine digitsAt_exact hx ?_
      rw [hlen, digitUnit_of_eq hm hval]
      exact_mod_cast hval
    have hz : (z : ℤ) = m := Option.some.inj (hat.symm.trans hexact)
    rw [hz, hlen, digitUnit_of_eq hm hval]
    exact_mod_cast hval.symm

theorem nearest_natCast (hmin : f.minExponent ≤ 0) {n : ℕ} (hn : n < 2 ^ f.precision) :
    f.nearest n = n := by
  have hrep : f.Representable (n : ℤ) :=
    BinaryFormat.representable_intCast hmin (by rw [Nat.abs_cast]; exact_mod_cast hn)
  rw [Int.cast_natCast] at hrep
  exact BinaryFormat.nearest_eq_self hrep

/-- A natural number that rounds to a small one is the small one. -/
theorem eq_of_nearest_eq (hmin : f.minExponent ≤ 0) {w n : ℕ} (hn : n < 2 ^ f.precision)
    (h : f.nearest w = n) : w = n := by
  rcases lt_or_ge w (2 ^ f.precision) with hlt | hge
  · rw [nearest_natCast hmin hlt] at h
    exact_mod_cast h
  · have hpower : f.nearest (2 ^ f.precision) = 2 ^ f.precision := by
      have hrep := BinaryFormat.representable_of_abs_le (f := f) (m := 2 ^ f.precision) (e := 0)
        (by rw [abs_of_nonneg (by positivity)]) hmin
      rw [zpow_zero, mul_one] at hrep
      exact_mod_cast BinaryFormat.nearest_eq_self hrep
    have hmono : f.nearest (2 ^ f.precision) ≤ f.nearest w :=
      BinaryFormat.nearest_mono (by exact_mod_cast hge)
    rw [hpower, h] at hmono
    have hback : 2 ^ f.precision ≤ n := by exact_mod_cast hmono
    omega

/-- Among the decimals that round to a number there is one with the fewest digits. -/
theorem exists_fewest {z₀ : ℕ} {j₀ : ℤ} (h : f.nearest (z₀ * 10 ^ j₀) = x) :
    ∃ (z : ℕ) (j : ℤ), f.nearest (z * 10 ^ j) = x ∧ ∀ (z' : ℕ) (j' : ℤ),
      f.nearest (z' * 10 ^ j') = x → (natText z).length ≤ (natText z').length := by
  classical
  have hex : ∃ L z, ∃ j : ℤ, f.nearest ((z : ℕ) * 10 ^ j) = x ∧ (natText z).length = L :=
    ⟨_, z₀, j₀, h, rfl⟩
  obtain ⟨z, j, hz, hL⟩ := Nat.find_spec hex
  refine ⟨z, j, hz, fun z' j' hz' => ?_⟩
  rw [hL]
  exact Nat.find_min' hex ⟨z', j', hz', rfl⟩

/-- A decimal with digits after the point, no more of them than an integer has, only rounds to the
integer if its first power of ten does. -/
theorem nearest_pow_of_point {n z : ℕ} {j : ℤ} (hpos : 0 < n) (hself : f.nearest n = n)
    (hz : f.nearest (z * 10 ^ j) = n) (hj : j < 0)
    (hlen : (natText z).length ≤ (natText n).length) :
    f.nearest ((10 ^ ((natText n).length - 1) : ℕ) : ℚ) = n := by
  have hzpos : 0 < z := pos_of_nearest_eq (by exact_mod_cast hpos) hz
  refine le_antisymm ?_ ?_
  · exact (BinaryFormat.nearest_mono
      (by exact_mod_cast pow_length_natText_le hpos)).trans hself.le
  · refine hz.symm.le.trans (BinaryFormat.nearest_mono ((decimal_bounds hzpos j).2.le.trans ?_))
    rw [Nat.cast_pow, ← zpow_natCast]
    exact zpow_le_zpow_right₀ (by norm_num) (by omega)

/-- **Small integers are printed exactly**: a decimal with fewer digits than the integer ends
before the decimal point, so it is an integer itself. -/
theorem spelledShort_of_lt (hmin : f.minExponent ≤ 0) {n : ℕ} (hpos : 0 < n)
    (hn : n < 2 ^ f.precision) : SpelledShort f n := by
  have hself := nearest_natCast hmin hn
  have hown : f.nearest ((n : ℚ) * 10 ^ (0 : ℤ)) = n := by rwa [zpow_zero, mul_one]
  obtain ⟨z, j, hz, hfewest⟩ := exists_fewest hown
  rcases le_or_gt 0 j with hj | hj
  · obtain ⟨i, rfl⟩ := Int.eq_ofNat_of_zero_le hj
    refine ⟨z, i, ?_, hfewest⟩
    have heq : z * 10 ^ i = n := eq_of_nearest_eq hmin hn (by exact_mod_cast hz)
    exact_mod_cast heq.symm
  · -- then the integer is a power of ten
    have heq := eq_of_nearest_eq hmin hn
      (nearest_pow_of_point hpos hself hz hj (hfewest n 0 hown))
    refine ⟨1, ((natText n).length - 1 : ℕ), ?_, fun z' j' _ => ?_⟩
    · rw [Nat.cast_one, one_mul, zpow_natCast]
      exact_mod_cast heq.symm
    · exact List.length_pos_iff.mpr (natText_ne_nil z')

end ShortestDecimal
