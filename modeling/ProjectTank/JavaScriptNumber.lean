/-
# Numbers of a page, and how they are printed

A number of JavaScript is a double, an infinity or not a number.  `String(v)` prints the
shortest decimal that rounds to the number: as an integer up to twenty-one digits, with a
decimal point, or with an exponent.  The sign of zero is not modelled: no text shows it.

* `toText_intCast`: an integer below `10 ^ 21` is printed as an integer, and as itself exactly
  when no decimal with fewer digits rounds to it;
* `mark_mem_toText`: every other number has a letter or a point in its text.
-/
import ProjectTank.ProgramText
import ProjectTank.ShortestDecimal

open DecimalText ShortestDecimal

namespace JavaScript

/-! ## Numbers -/

/-- A number; the infinities have a sign. -/
inductive Number
  | finite (value : ℚ) (double : binary64.Representable value)
  | infinity (negative : Bool)
  | nan

namespace Number

/-- The number has this value. -/
def Is : Number → ℚ → Prop
  | .finite x _, q => x = q
  | _, _ => False

instance : ∀ (v : Number) (q : ℚ), Decidable (v.Is q)
  | .finite x _, q => inferInstanceAs (Decidable (x = q))
  | .infinity _, _ => .isFalse id
  | .nan, _ => .isFalse id

/-- The result of an operation with this exact value. -/
def ofRat (q : ℚ) : Number :=
  if |binary64.nearest q| < 2 ^ 1024 then
    .finite (binary64.nearest q) (BinaryFormat.representable_nearest q)
  else .infinity (q < 0)

/-- `a - b`. -/
def sub : Number → Number → Number
  | .finite a _, .finite b _ => ofRat (a - b)
  | .finite _ _, .infinity n => .infinity (!n)
  | .infinity m, .finite _ _ => .infinity m
  | .infinity m, .infinity n => if m = n then .nan else .infinity m
  | _, _ => .nan

/-- `a / 2`. -/
def half : Number → Number
  | .finite a _ => ofRat (a / 2)
  | .infinity n => .infinity n
  | .nan => .nan

end Number

/-! ## Texts -/

/-- The digits with a point after the first, if there are more. -/
def mantissa (digits : Text) : Text :=
  if digits.length = 1 then digits else digits.take 1 ++ '.' :: digits.drop 1

/-- An exponent with its sign. -/
def exponentText (e : ℤ) : Text := 'e' :: (if e < 0 then '-' else '+') :: natText e.natAbs

/-- The digits with the decimal point after the first `n` of them. -/
def layout (digits : Text) (n : ℤ) : Text :=
  if digits.length ≤ n ∧ n ≤ 21 then digits ++ List.replicate (n - digits.length).toNat '0'
  else if 0 < n ∧ n ≤ 21 then digits.take n.toNat ++ '.' :: digits.drop n.toNat
  else if -6 < n ∧ n ≤ 0 then '0' :: '.' :: (List.replicate (-n).toNat '0' ++ digits)
  else mantissa digits ++ exponentText (n - 1)

/-- The text of a positive double.  A power of ten that the search finds as `10 ^ k` units is
the digit `1` in the next place. -/
def positiveText (x : ℚ) : Text :=
  let found := shortest binary64 x
  if found.1 = 10 ^ found.2 then layout ['1'] (decimalExponent x + 1)
  else layout (natText found.1.toNat) (decimalExponent x)

/-- `String(v)`. -/
def toText : Number → Text
  | .finite x _ =>
      if x = 0 then ['0'] else if x < 0 then '-' :: positiveText (-x) else positiveText x
  | .infinity negative => if negative then "-Infinity".toList else "Infinity".toList
  | .nan => "NaN".toList

/-! ## The characters -/

/-- The characters in texts of numbers. -/
def IsNumberChar (c : Char) : Prop := c.isDigit = true ∨ c ∈ "+-.eNaInfity".toList

instance (c : Char) : Decidable (IsNumberChar c) := inferInstanceAs (Decidable (_ ∨ _))

theorem isNumberChar_of_mem_natText {n : ℕ} {c : Char} (h : c ∈ natText n) : IsNumberChar c :=
  Or.inl (isDigit_of_mem_natText h)

theorem mem_exponentText (e : ℤ) : ∀ c ∈ exponentText e, IsNumberChar c := by
  refine List.forall_mem_cons.mpr ⟨by decide, List.forall_mem_cons.mpr ⟨?_, ?_⟩⟩
  · split_ifs <;> decide
  · exact fun c hc => isNumberChar_of_mem_natText hc

theorem mem_mantissa {digits : Text} (hdigits : ∀ c ∈ digits, IsNumberChar c) :
    ∀ c ∈ mantissa digits, IsNumberChar c := by
  unfold mantissa
  split_ifs
  · exact hdigits
  · refine List.forall_mem_append.mpr ⟨fun c hc => hdigits c (List.mem_of_mem_take hc), ?_⟩
    exact List.forall_mem_cons.mpr ⟨by decide, fun c hc => hdigits c (List.mem_of_mem_drop hc)⟩

theorem mem_layout {digits : Text} (hdigits : ∀ c ∈ digits, IsNumberChar c) (n : ℤ) :
    ∀ c ∈ layout digits n, IsNumberChar c := by
  have hzeros : ∀ (m : ℕ), ∀ c ∈ List.replicate m '0', IsNumberChar c := by
    intro m c hc
    rw [List.eq_of_mem_replicate hc]
    decide
  unfold layout
  split_ifs
  · exact List.forall_mem_append.mpr ⟨hdigits, hzeros _⟩
  · refine List.forall_mem_append.mpr ⟨fun c hc => hdigits c (List.mem_of_mem_take hc), ?_⟩
    exact List.forall_mem_cons.mpr ⟨by decide, fun c hc => hdigits c (List.mem_of_mem_drop hc)⟩
  · refine List.forall_mem_cons.mpr ⟨by decide, List.forall_mem_cons.mpr ⟨by decide, ?_⟩⟩
    exact List.forall_mem_append.mpr ⟨hzeros _, hdigits⟩
  · exact List.forall_mem_append.mpr ⟨mem_mantissa hdigits, mem_exponentText _⟩

theorem mem_positiveText (x : ℚ) : ∀ c ∈ positiveText x, IsNumberChar c := by
  simp only [positiveText]
  split_ifs
  · exact mem_layout (List.forall_mem_singleton.mpr (by decide)) _
  · exact mem_layout (fun c hc => isNumberChar_of_mem_natText hc) _

theorem mem_toText (v : Number) : ∀ c ∈ toText v, IsNumberChar c := by
  cases v with
  | finite x hx =>
      simp only [toText]
      split_ifs
      · exact List.forall_mem_singleton.mpr (by decide)
      · exact List.forall_mem_cons.mpr ⟨by decide, mem_positiveText _⟩
      · exact mem_positiveText x
  | infinity negative => cases negative <;> simp [toText, IsNumberChar]
  | nan => simp [toText, IsNumberChar]

/-- Unless the digits and zeros make an integer, there is a point or an exponent. -/
theorem mark_mem_layout {digits : Text} {n : ℤ} (h : ¬ (digits.length ≤ n ∧ n ≤ 21)) :
    '.' ∈ layout digits n ∨ 'e' ∈ layout digits n := by
  rw [layout, if_neg h]
  split_ifs <;> simp [exponentText]

/-! ## Integers -/

theorem representable_pow_ten {n : ℕ} (hn : n ≤ 22) : binary64.Representable (10 ^ n) := by
  refine ⟨5 ^ n, n, ?_, ?_, ?_⟩
  · rw [abs_of_nonneg (by positivity)]
    calc (5 : ℤ) ^ n ≤ 5 ^ 22 := pow_le_pow_right₀ (by norm_num) hn
      _ < 2 ^ 53 := by norm_num
  · show (-1074 : ℤ) ≤ n
    omega
  · rw [zpow_natCast]
    push_cast
    rw [← mul_pow]
    norm_num

/-- The search does not find the next power of ten when that is a double. -/
theorem shortest_ne_pow {x : ℚ} (hx : binary64.Representable x) (hpos : 0 < x) {s : ℤ} {k : ℕ}
    (h : shortest binary64 x = (s, k)) {n : ℕ} (hn : decimalExponent x = n) (hn' : n ≤ 22) :
    s ≠ 10 ^ k := by
  intro hpow
  have hround := nearest_shortest hx hpos h
  rw [hpow, pow_mul_digitUnit, sub_add_cancel, hn, zpow_natCast,
    BinaryFormat.nearest_eq_self (representable_pow_ten hn')] at hround
  have hlt := lt_zpow x
  rw [hn, zpow_natCast, hround] at hlt
  exact lt_irrefl x hlt

/-- **An integer below `10 ^ 21`** is printed as an integer, and as itself exactly when no
decimal with fewer digits rounds to it. -/
theorem positiveText_natCast {n : ℕ} (hx : binary64.Representable n) (hpos : 0 < n)
    (hn : n < 10 ^ 21) :
    ∃ w : ℕ, positiveText n = natText w ∧ 0 < w ∧ w < 10 ^ 21 ∧
      (w = n ↔ SpelledShort binary64 n) := by
  have hpos' : (0 : ℚ) < n := by exact_mod_cast hpos
  rcases hfound : shortest binary64 (n : ℚ) with ⟨s, k⟩
  obtain ⟨hat, hk, hmin⟩ := shortest_spec hx hpos' hfound
  obtain ⟨hlow, hhigh⟩ := shortest_bounds hx hpos' hfound
  obtain ⟨z, rfl⟩ : ∃ z : ℕ, s = z := Int.eq_ofNat_of_zero_le (le_trans (by positivity) hlow)
  obtain ⟨hbelow, habove⟩ := decimal_bounds hpos 0
  simp only [add_zero, zpow_zero, mul_one] at hbelow habove
  have hexp : decimalExponent (n : ℚ) = (natText n).length := decimalExponent_eq hbelow habove
  have hlen : (natText n).length ≤ 21 := length_natText_le (by norm_num) hn
  have hkn : k ≤ (natText n).length := by
    refine hmin n 0 ?_
    rw [zpow_zero, mul_one, BinaryFormat.nearest_eq_self hx]
  have hne := shortest_ne_pow hx hpos' hfound hexp (by omega)
  have hlt : z < 10 ^ k := by exact_mod_cast lt_of_le_of_ne hhigh hne
  have hdigits : (natText z).length = k :=
    length_natText_eq hk (by exact_mod_cast hlow) hlt
  have hz : 0 < z :=
    lt_of_lt_of_le (by positivity : 0 < 10 ^ (k - 1)) (by exact_mod_cast hlow)
  refine ⟨z * 10 ^ ((natText n).length - k), ?_, by positivity, ?_, ?_⟩
  · rw [positiveText, hfound]
    simp only [hne, if_false, Int.toNat_natCast, layout, hexp, hdigits]
    rw [if_pos (by omega), natText_mul_pow hz]
    congr 2
    omega
  · calc z * 10 ^ ((natText n).length - k) < 10 ^ k * 10 ^ ((natText n).length - k) :=
          Nat.mul_lt_mul_of_lt_of_le hlt le_rfl (by positivity)
      _ = 10 ^ (natText n).length := by rw [← pow_add, Nat.add_sub_cancel' hkn]
      _ ≤ 10 ^ 21 := Nat.pow_le_pow_right (by norm_num) hlen
  · rw [← shortest_eq_iff hx hpos' hfound, digitUnit, hexp, ← Nat.cast_sub hkn, zpow_natCast]
    exact_mod_cast Iff.rfl

/-- **Every other number** has a point or an exponent: a decimal without them is an integer,
and rounding it gives an integer. -/
theorem mark_mem_positiveText {x : ℚ} (hx : binary64.Representable x) (hpos : 0 < x)
    (h : ∀ n : ℕ, x = n → 10 ^ 21 ≤ n) : '.' ∈ positiveText x ∨ 'e' ∈ positiveText x := by
  rcases hfound : shortest binary64 x with ⟨s, k⟩
  obtain ⟨hat, hk, hmin⟩ := shortest_spec hx hpos hfound
  obtain ⟨hlow, hhigh⟩ := shortest_bounds hx hpos hfound
  obtain ⟨z, rfl⟩ : ∃ z : ℕ, s = z := Int.eq_ofNat_of_zero_le (le_trans (by positivity) hlow)
  simp only [positiveText, hfound]
  split_ifs with hten
  · refine mark_mem_layout fun hfits => ?_
    simp only [List.length_singleton] at hfits
    exact shortest_ne_pow hx hpos hfound (n := (decimalExponent x).toNat) (by omega) (by omega) hten
  · refine mark_mem_layout fun hfits => ?_
    have hlt : z < 10 ^ k := by exact_mod_cast lt_of_le_of_ne hhigh hten
    have hdigits : (natText z).length = k :=
      length_natText_eq hk (by exact_mod_cast hlow) hlt
    rw [Int.toNat_natCast, hdigits] at hfits
    obtain ⟨j, hj⟩ := Int.eq_ofNat_of_zero_le (sub_nonneg.mpr hfits.1)
    have hround := nearest_shortest hx hpos hfound
    rw [digitUnit, hj] at hround
    obtain ⟨m, hm⟩ := BinaryFormat.exists_nearest_intCast (f := binary64) (by decide) (z * 10 ^ j)
    rw [show (((z : ℤ) * 10 ^ j : ℤ) : ℚ) = ((z : ℤ) : ℚ) * 10 ^ (j : ℤ) by push_cast; rfl,
      hround] at hm
    obtain ⟨n, rfl⟩ : ∃ n : ℕ, m = n :=
      Int.eq_ofNat_of_zero_le (by exact_mod_cast (hm ▸ hpos).le)
    have hbig : (10 : ℚ) ^ (21 : ℤ) ≤ x := by
      rw [hm]
      exact_mod_cast h n (by exact_mod_cast hm)
    have hsmall := (lt_zpow x).trans_le (zpow_le_zpow_right₀ (by norm_num) hfits.2)
    exact absurd hbig (not_le.mpr hsmall)

/-! ## All numbers -/

/-- The number is an integer below `10 ^ 21` that is printed as itself. -/
def PrintsItself (v : Number) (n : ℤ) : Prop :=
  v.Is n ∧ |n| < 10 ^ 21 ∧ (n = 0 ∨ SpelledShort binary64 |(n : ℚ)|)

/-- Small integers are printed as themselves. -/
theorem printsItself_of_lt {v : Number} {n : ℤ} (hv : v.Is n) (h : |n| < 2 ^ 53) :
    PrintsItself v n := by
  refine ⟨hv, h.trans (by norm_num), ?_⟩
  rcases eq_or_ne n 0 with hzero | hne
  · exact Or.inl hzero
  · have habs : |(n : ℚ)| = (n.natAbs : ℕ) := by
      rw [← Int.cast_abs, Int.abs_eq_natAbs, Int.cast_natCast]
    rw [habs]
    refine Or.inr (spelledShort_of_lt (by decide) (Int.natAbs_pos.mpr hne) ?_)
    have hcast : ((n.natAbs : ℕ) : ℤ) < 2 ^ 53 := by rwa [← Int.abs_eq_natAbs]
    exact_mod_cast hcast

/-- The text of an integer below `10 ^ 21`. -/
theorem toText_intCast {n : ℤ} (hn : binary64.Representable (n : ℚ)) (hlt : |n| < 10 ^ 21) :
    ∃ w : ℤ, toText (.finite n hn) = intText w ∧ |w| < 10 ^ 21 ∧
      (w = n ↔ n = 0 ∨ SpelledShort binary64 |(n : ℚ)|) := by
  rcases lt_trichotomy n 0 with hneg | rfl | hpos
  · obtain ⟨m, rfl⟩ := Int.exists_eq_neg_ofNat hneg.le
    have hm : 0 < m := by omega
    have hrep : binary64.Representable (m : ℚ) := by simpa using hn.neg
    have hmlt : m < 10 ^ 21 := by
      rw [abs_neg, Nat.abs_cast] at hlt
      exact_mod_cast hlt
    obtain ⟨w, htext, hw, hwlt, hiff⟩ := positiveText_natCast hrep hm hmlt
    have hcast : ((-(m : ℤ) : ℤ) : ℚ) = -(m : ℚ) := by push_cast; rfl
    refine ⟨-w, ?_, by rw [abs_neg, Nat.abs_cast]; exact_mod_cast hwlt, ?_⟩
    · simp only [toText, hcast, neg_neg, htext, intText_neg hw]
      rw [if_neg (by simpa using hm.ne'), if_pos (by simpa using hm)]
    · rw [hcast, abs_neg, Nat.abs_cast, ← hiff]
      omega
  · exact ⟨0, rfl, by norm_num, by simp⟩
  · obtain ⟨m, rfl⟩ := Int.eq_ofNat_of_zero_le hpos.le
    have hm : 0 < m := by omega
    have hrep : binary64.Representable (m : ℚ) := by exact_mod_cast hn
    have hmlt : m < 10 ^ 21 := by
      rw [Nat.abs_cast] at hlt
      exact_mod_cast hlt
    obtain ⟨w, htext, hw, hwlt, hiff⟩ := positiveText_natCast hrep hm hmlt
    refine ⟨w, ?_, by rw [Nat.abs_cast]; exact_mod_cast hwlt, ?_⟩
    · simp only [toText, Int.cast_natCast, htext]
      rw [if_neg (by exact_mod_cast hm.ne'), if_neg (by simp)]
      rfl
    · rw [Int.cast_natCast, Nat.abs_cast, ← hiff]
      omega

/-- A double that is no integer below `10 ^ 21` has a point or an exponent in its text. -/
theorem mark_mem_toText {x : ℚ} (hx : binary64.Representable x)
    (hint : ¬ ∃ n : ℤ, x = n ∧ |n| < 10 ^ 21) :
    '.' ∈ toText (.finite x hx) ∨ 'e' ∈ toText (.finite x hx) := by
  -- whichever sign it has
  have hbig : ∀ n : ℕ, |x| = n → 10 ^ 21 ≤ n := by
    intro n hn
    by_contra hlt
    rw [not_le] at hlt
    have hcast : |(n : ℤ)| < 10 ^ 21 := by rw [Nat.abs_cast]; exact_mod_cast hlt
    rcases abs_cases x with ⟨heq, -⟩ | ⟨heq, -⟩
    · exact hint ⟨n, by push_cast; linarith, hcast⟩
    · exact hint ⟨-n, by push_cast; linarith, by rwa [abs_neg]⟩
  simp only [toText]
  rcases lt_trichotomy x 0 with hneg | rfl | hpos
  · rw [if_neg hneg.ne, if_pos hneg]
    rw [abs_of_neg hneg] at hbig
    exact (mark_mem_positiveText hx.neg (neg_pos.mpr hneg) hbig).imp
      (List.mem_cons_of_mem _) (List.mem_cons_of_mem _)
  · exact absurd ⟨0, by norm_num⟩ hint
  · rw [if_neg hpos.ne', if_neg hpos.not_gt]
    rw [abs_of_pos hpos] at hbig
    exact mark_mem_positiveText hx hpos hbig

/-- **How a number is printed**: as an integer, which is the number itself exactly when
`PrintsItself` says so, or with a character that is in no integer. -/
theorem toText_cases (v : Number) :
    (∃ w n : ℤ, toText v = intText w ∧ |w| < 10 ^ 21 ∧ v.Is n ∧ (w = n ↔ PrintsItself v n)) ∨
      ((∀ n, ¬ PrintsItself v n) ∧ ∃ c ∈ toText v, c ∈ ".eNI".toList) := by
  cases v with
  | finite x hx =>
      by_cases hint : ∃ n : ℤ, x = n ∧ |n| < 10 ^ 21
      · obtain ⟨n, rfl, hn⟩ := hint
        obtain ⟨w, htext, hw, hiff⟩ := toText_intCast hx hn
        refine Or.inl ⟨w, n, htext, hw, rfl, hiff.trans ⟨fun h => ⟨rfl, hn, h⟩, fun h => h.2.2⟩⟩
      · refine Or.inr ⟨fun n h => hint ⟨n, h.1, h.2.1⟩, ?_⟩
        rcases mark_mem_toText hx hint with h | h
        · exact ⟨'.', h, by decide⟩
        · exact ⟨'e', h, by decide⟩
  | infinity negative =>
      refine Or.inr ⟨fun n h => h.1, 'I', ?_, by decide⟩
      cases negative <;> decide
  | nan => exact Or.inr ⟨fun n h => h.1, 'N', by decide, by decide⟩

theorem toText_ne_nil (v : Number) : toText v ≠ [] := by
  rcases toText_cases v with ⟨w, n, htext, -⟩ | ⟨-, c, hc, -⟩
  · exact htext ▸ intText_ne_nil w
  · exact List.ne_nil_of_mem hc

end JavaScript
