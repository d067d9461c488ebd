/-
# Decimal text of integers

The canonical decimal spelling of an integer, as printers in most languages
produce it: no leading zeros, a `-` in front of a negative number, nothing in
front of the others.  `readNat_natText` reads the digits back, and `sign_cases`
presents a decimal text to a reader that looks for a sign first.

Nothing here refers to a particular program.
-/
import Mathlib.Data.Nat.Digits.Defs
import Mathlib.Data.Int.Basic

namespace DecimalText

/-- The decimal digits of a natural number, most significant first. -/
def natText (n : ℕ) : List Char := Nat.toDigits 10 n

/-- The decimal text of an integer. -/
def intText : ℤ → List Char
  | .ofNat n => natText n
  | .negSucc n => '-' :: natText (n + 1)

theorem intText_neg {n : ℕ} (hn : 0 < n) : intText (-(n : ℤ)) = '-' :: natText n := by
  obtain ⟨m, rfl⟩ := Nat.exists_eq_succ_of_ne_zero hn.ne'
  rfl

/-- The value of a sequence of decimal digits. -/
def readNat (ds : List Char) : ℕ := Nat.ofDigitChars 10 ds 0

@[simp] theorem readNat_natText (n : ℕ) : readNat (natText n) = n :=
  Nat.ofDigitChars_ten_toDigits

theorem natText_ne_nil (n : ℕ) : natText n ≠ [] := Nat.toDigits_ne_nil

theorem isDigit_of_mem_natText {n : ℕ} {c : Char} (h : c ∈ natText n) : c.isDigit = true :=
  Nat.isDigit_of_mem_toDigits (by norm_num) le_rfl h

/-- The digits of `n` are at most `k` in number when `n < 10 ^ k`. -/
theorem length_natText_le {n k : ℕ} (hk : 0 < k) (h : n < 10 ^ k) :
    (natText n).length ≤ k :=
  (Nat.length_toDigits_le_iff (by norm_num) hk).mpr h

theorem lt_pow_length_natText (n : ℕ) : n < 10 ^ (natText n).length :=
  (Nat.length_toDigits_le_iff (by norm_num) (List.length_pos_iff.mpr (natText_ne_nil n))).mp
    le_rfl

/-- The first digit of a positive number is not zero. -/
theorem pow_length_natText_le {n : ℕ} (hn : 0 < n) : 10 ^ ((natText n).length - 1) ≤ n := by
  by_contra hlt
  have hpos := List.length_pos_iff.mpr (natText_ne_nil n)
  by_cases hone : (natText n).length - 1 = 0
  · rw [hone, pow_zero] at hlt
    omega
  · have hle := length_natText_le (Nat.pos_of_ne_zero hone) (not_le.mp hlt)
    omega

theorem length_natText_eq {n k : ℕ} (hk : 0 < k) (hlow : 10 ^ (k - 1) ≤ n) (hhigh : n < 10 ^ k) :
    (natText n).length = k := by
  refine le_antisymm (length_natText_le hk hhigh) ?_
  have hlt := (Nat.pow_lt_pow_iff_right (by norm_num)).mp (hlow.trans_lt (lt_pow_length_natText n))
  omega

/-- The last digit. -/
theorem natText_append {m d : ℕ} (hm : 0 < m) (hd : d < 10) :
    natText (10 * m + d) = natText m ++ natText d :=
  (Nat.toDigits_append_toDigits (by norm_num) hm hd).symm

/-- Multiplying by a power of ten appends zeros. -/
theorem natText_mul_pow {n : ℕ} (hn : 0 < n) (i : ℕ) :
    natText (n * 10 ^ i) = natText n ++ List.replicate i '0' := by
  induction i with
  | zero => rw [pow_zero, mul_one, List.replicate_zero, List.append_nil]
  | succ i ih =>
      have hpos : 0 < n * 10 ^ i := Nat.mul_pos hn (Nat.pow_pos (by norm_num))
      rw [show n * 10 ^ (i + 1) = 10 * (n * 10 ^ i) + 0 by ring,
        natText_append hpos (by norm_num), ih, List.append_assoc, List.replicate_succ']
      rfl

/-- A beginning of the digits of a number is again the digits of a number. -/
theorem exists_natText_of_prefix {n : ℕ} {p : List Char} (hp : p <+: natText n) (hne : p ≠ []) :
    ∃ m ≤ n, (0 < n → 0 < m) ∧ p = natText m := by
  induction n using Nat.strong_induction_on with
  | _ n ih =>
    -- one digit has no shorter beginning; otherwise the last digit is cut off first
    have hdigit : ∀ d < 10, ∃ c, natText d = [c] := fun d hd => ⟨_, Nat.toDigits_of_lt_base hd⟩
    by_cases hlt : n < 10
    · obtain ⟨c, hc⟩ := hdigit n hlt
      have hwhole : p = natText n := by
        rw [hc] at hp ⊢
        obtain ⟨t, ht, hnil⟩ := (List.prefix_cons_iff.mp hp).resolve_left hne
        rw [ht, List.prefix_nil.mp hnil]
      exact ⟨n, le_rfl, id, hwhole⟩
    · obtain ⟨c, hc⟩ := hdigit (n % 10) (Nat.mod_lt n (by norm_num))
      have hsplit : natText n = natText (n / 10) ++ [c] := by
        rw [← hc, ← natText_append (by omega) (Nat.mod_lt n (by norm_num)), Nat.div_add_mod]
      rw [hsplit] at hp
      rcases List.prefix_concat_iff.mp hp with hall | hbegin
      · exact ⟨n, le_rfl, id, hall.trans hsplit.symm⟩
      · obtain ⟨m, hm, hpos, hp⟩ := ih (n / 10) (by omega) hbegin
        exact ⟨m, by omega, fun _ => hpos (by omega), hp⟩

/-- The characters of a decimal text are digits and the minus sign. -/
theorem mem_intText {n : ℤ} {c : Char} (h : c ∈ intText n) : c.isDigit = true ∨ c = '-' := by
  cases n with
  | ofNat n => exact Or.inl (isDigit_of_mem_natText h)
  | negSucc n =>
      rcases List.mem_cons.mp h with rfl | h
      · exact Or.inr rfl
      · exact Or.inl (isDigit_of_mem_natText h)

/-- A character that is neither a digit nor the minus sign is in no decimal text. -/
theorem not_mem_intText {c : Char} (hd : c.isDigit = false) (hm : c ≠ '-') (n : ℤ) :
    c ∉ intText n := by
  intro h
  rcases mem_intText h with h | h
  · rw [hd] at h
    exact Bool.false_ne_true h
  · exact hm h

theorem intText_ne_nil (n : ℤ) : intText n ≠ [] := by
  cases n with
  | ofNat n => exact natText_ne_nil n
  | negSucc n => exact List.cons_ne_nil _ _

/-- **How a reader meets a decimal text**: a digit string with the value itself, or
a minus sign and a digit string with the opposite value. -/
theorem sign_cases (n : ℤ) :
    (intText n = natText n.natAbs ∧ n = (n.natAbs : ℤ)) ∨
      (intText n = '-' :: natText n.natAbs ∧ n = -(n.natAbs : ℤ)) := by
  cases n with
  | ofNat n => exact Or.inl ⟨rfl, rfl⟩
  | negSucc n => exact Or.inr ⟨rfl, by omega⟩

/-- A beginning of a decimal text is the text of an integer that is not farther from zero, unless
nothing of the digits is left. -/
theorem prefix_intText_cases {n : ℤ} {p : List Char} (hp : p <+: intText n) :
    p = [] ∨ p = ['-'] ∨ ∃ m, min 0 n ≤ m ∧ m ≤ max 0 n ∧ p = intText m := by
  by_cases hne : p = []
  · exact Or.inl hne
  refine Or.inr ?_
  cases n with
  | ofNat n =>
      obtain ⟨m, hm, -, rfl⟩ := exists_natText_of_prefix hp hne
      have hle : (m : ℤ) ≤ Int.ofNat n := Int.ofNat_le.mpr hm
      exact Or.inr ⟨m, by omega, by omega, rfl⟩
  | negSucc n =>
      obtain ⟨q, rfl, hq⟩ := (List.prefix_cons_iff.mp hp).resolve_left hne
      by_cases hnil : q = []
      · exact Or.inl (by rw [hnil])
      · obtain ⟨m, hm, hpos, rfl⟩ := exists_natText_of_prefix hq hnil
        exact Or.inr ⟨-(m : ℤ), by omega, by omega, (intText_neg (hpos n.succ_pos)).symm⟩

/-- The digits of a natural number do not begin with a minus sign. -/
theorem natText_ne_minus (n : ℕ) (s : List Char) : natText n ≠ '-' :: s := by
  intro h
  have hdigit := isDigit_of_mem_natText (h ▸ List.mem_cons_self : '-' ∈ natText n)
  exact absurd hdigit (by decide)

/-- A minus sign alone is no decimal text. -/
theorem intText_ne_minus (n : ℤ) : intText n ≠ ['-'] := by
  cases n with
  | ofNat n => exact natText_ne_minus n []
  | negSucc n => exact fun h => natText_ne_nil (n + 1) (List.cons.inj h).2

/-- Different integers have different texts. -/
theorem intText_injective : Function.Injective intText := by
  have hread : ∀ {m n : ℕ}, natText m = natText n → m = n := by
    intro m n h
    rw [← readNat_natText m, h, readNat_natText]
  intro m n h
  rcases sign_cases m with ⟨hm, hm'⟩ | ⟨hm, hm'⟩ <;> rcases sign_cases n with ⟨hn, hn'⟩ | ⟨hn, hn'⟩ <;>
    rw [hm, hn] at h
  · rw [hm', hn', hread h]
  · exact absurd h (natText_ne_minus _ _)
  · exact absurd h.symm (natText_ne_minus _ _)
  · rw [hm', hn', hread (List.cons.inj h).2]

/-- The first character of a digit string is a digit. -/
theorem exists_cons_natText (n : ℕ) :
    ∃ d ds, natText n = d :: ds ∧ d.isDigit = true := by
  obtain ⟨d, ds, h⟩ := List.exists_cons_of_ne_nil (natText_ne_nil n)
  exact ⟨d, ds, h, isDigit_of_mem_natText (h ▸ List.mem_cons_self)⟩

end DecimalText
