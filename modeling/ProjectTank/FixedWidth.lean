/-
# Numbers of a fixed width in a text

Numbers that are padded with zeros to fixed widths, one behind the other with fixed separators.  Such
texts stand in the order of their numbers (`layout_lt`), so a list of names is sorted as the numbers
in them are.

Nothing here refers to a particular program.
-/
import ProjectTank.DecimalText
import Mathlib.Data.List.Lex
import Mathlib.Data.Char

open DecimalText

namespace FixedWidth

/-- A number with zeros in front, up to the width. -/
def padded (width n : ℕ) : List Char := (natText n).leftpad width '0'

/-- The last digits of a number. -/
def lastDigits : ℕ → ℕ → List Char
  | 0, _ => []
  | width + 1, n => lastDigits width (n / 10) ++ [Nat.digitChar (n % 10)]

@[simp] theorem length_lastDigits (width n : ℕ) : (lastDigits width n).length = width := by
  induction width generalizing n with
  | zero => rfl
  | succ width ih => rw [lastDigits, List.length_append, ih, List.length_singleton]

theorem lastDigits_zero (width : ℕ) : lastDigits width 0 = List.replicate width '0' := by
  induction width with
  | zero => rfl
  | succ width ih => rw [lastDigits, Nat.zero_div, ih, List.replicate_succ']; rfl

/-- A number that has room is its last digits. -/
theorem padded_eq {width n : ℕ} (hwidth : 0 < width) (hn : n < 10 ^ width) :
    padded width n = lastDigits width n := by
  induction width generalizing n with
  | zero => exact absurd hwidth (lt_irrefl 0)
  | succ width ih =>
      by_cases hsmall : n < 10
      · -- one digit, with zeros in front
        have hdigit : natText n = [Nat.digitChar n] := Nat.toDigits_of_lt_base hsmall
        rw [padded, hdigit, lastDigits, Nat.div_eq_of_lt hsmall, Nat.mod_eq_of_lt hsmall,
          lastDigits_zero]
        rfl
      · have hpos : 0 < n / 10 := by omega
        have hsplit : natText n = natText (n / 10) ++ [Nat.digitChar (n % 10)] := by
          have hlast : natText (n % 10) = [Nat.digitChar (n % 10)] :=
            Nat.toDigits_of_lt_base (Nat.mod_lt n (by norm_num))
          rw [← hlast, ← natText_append hpos (Nat.mod_lt n (by norm_num)), Nat.div_add_mod]
        have hroom : n / 10 < 10 ^ width := by
          rw [pow_succ] at hn
          omega
        have hwidth' : 0 < width := by
          by_contra hzero
          rw [Nat.eq_zero_of_not_pos hzero, pow_zero] at hroom
          omega
        rw [lastDigits, ← ih hwidth' hroom, padded, padded, hsplit, List.leftpad, List.leftpad,
          List.length_append, List.length_singleton, Nat.add_sub_add_right, List.append_assoc]

/-- A number that fits has exactly the width. -/
theorem length_padded {width n : ℕ} (hwidth : 0 < width) (hn : n < 10 ^ width) :
    (padded width n).length = width := by
  rw [padded_eq hwidth hn, length_lastDigits]

theorem isDigit_of_mem_padded {width n : ℕ} {c : Char} (h : c ∈ padded width n) :
    c.isDigit = true := by
  rcases List.mem_append.mp h with hzero | hdigit
  · rw [List.eq_of_mem_replicate hzero]
    rfl
  · exact isDigit_of_mem_natText hdigit

theorem padded_ne_nil (width n : ℕ) : padded width n ≠ [] :=
  fun h => natText_ne_nil n (List.append_eq_nil_iff.mp h).2

/-- A number that fills the width has no zeros in front. -/
theorem padded_eq_natText {width n : ℕ} (hlow : 10 ^ (width - 1) ≤ n) : padded width n = natText n := by
  have hpos : 0 < n := lt_of_lt_of_le (Nat.pow_pos (by norm_num)) hlow
  have hlength : width ≤ (natText n).length := by
    have hlt := (Nat.pow_lt_pow_iff_right (by norm_num)).mp
      (hlow.trans_lt (lt_pow_length_natText n))
    omega
  rw [padded, List.leftpad, Nat.sub_eq_zero_of_le hlength]
  rfl

/-! ## The order of the texts -/

/-- Of two lists of one length, what follows does not change the order. -/
theorem append_lt_append {α : Type*} [LinearOrder α] {s t : List α} (hlength : s.length = t.length)
    (h : s < t) (s' t' : List α) : s ++ s' < t ++ t' := by
  induction s generalizing t with
  | nil =>
      rw [List.length_eq_zero_iff.mp hlength.symm] at h
      exact absurd h (lt_irrefl [])
  | cons c s ih =>
      cases t with
      | nil => cases hlength
      | cons d t =>
          rw [List.cons_append, List.cons_append, List.cons_lt_cons_iff]
          rcases List.cons_lt_cons_iff.mp h with hlt | ⟨heq, hlt⟩
          · exact Or.inl hlt
          · exact Or.inr ⟨heq, ih (Nat.succ.inj hlength) hlt⟩

/-- Digits are ordered as their characters. -/
theorem digitChar_lt {m n : ℕ} (hmn : m < n) (hn : n < 10) :
    Nat.digitChar m < Nat.digitChar n := by
  have hall : ∀ n < 10, ∀ m < n, Nat.digitChar m < Nat.digitChar n := by decide
  exact hall n hn m hmn

/-- **Numbers of one width are ordered as their texts.** -/
theorem lastDigits_lt {width m n : ℕ} (hmn : m < n) (hn : n < 10 ^ width) :
    lastDigits width m < lastDigits width n := by
  induction width generalizing m n with
  | zero =>
      rw [pow_zero] at hn
      omega
  | succ width ih =>
      rw [pow_succ] at hn
      rw [lastDigits, lastDigits]
      by_cases hdiv : m / 10 < n / 10
      · exact append_lt_append (by simp) (ih hdiv (by omega)) _ _
      · have heq : m / 10 = n / 10 := by omega
        rw [heq]
        apply List.append_left_lt
        rw [List.cons_lt_cons_iff]
        exact Or.inl (digitChar_lt (by omega) (Nat.mod_lt n (by norm_num)))

/-- Padded numbers, each with its separator behind it. -/
def layout : List (ℕ × List Char) → List ℕ → List Char
  | (width, separator) :: shape, n :: ns => padded width n ++ (separator ++ layout shape ns)
  | _, _ => []

/-- Each number has room in its width. -/
def Fits : List (ℕ × List Char) → List ℕ → Prop
  | (width, _) :: shape, n :: ns => 0 < width ∧ n < 10 ^ width ∧ Fits shape ns
  | [], [] => True
  | _, _ => False

/-- **The texts stand in the order of their numbers.** -/
theorem layout_lt {shape : List (ℕ × List Char)} {ms ns : List ℕ} (hms : Fits shape ms)
    (hns : Fits shape ns) (h : ms < ns) : layout shape ms < layout shape ns := by
  induction shape generalizing ms ns with
  | nil =>
      cases ms with
      | cons m ms => exact hms.elim
      | nil =>
          cases ns with
          | cons n ns => exact hns.elim
          | nil => exact absurd h (lt_irrefl [])
  | cons field shape ih =>
      obtain ⟨width, separator⟩ := field
      cases ms with
      | nil => exact hms.elim
      | cons m ms =>
          cases ns with
          | nil => exact hns.elim
          | cons n ns =>
              obtain ⟨hwidth, hm, hms⟩ := hms
              obtain ⟨-, hn, hns⟩ := hns
              rw [layout, layout]
              rcases List.cons_lt_cons_iff.mp h with hlt | ⟨rfl, hlt⟩
              · apply append_lt_append
                · rw [length_padded hwidth hm, length_padded hwidth hn]
                · rw [padded_eq hwidth hm, padded_eq hwidth hn]
                  exact lastDigits_lt hlt hn
              · exact List.append_left_lt (List.append_left_lt (ih hms hns hlt))

end FixedWidth
