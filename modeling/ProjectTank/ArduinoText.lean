/-
# The `String` class of the Arduino core

The operations of Arduino's `String` and of the serial input that the firmwares
use, as the core documents them: `indexOf`, `substring`, `trim`, `toInt`,
`equalsIgnoreCase` and `readStringUntil`.  A `String` is a text without NUL: the core
searches in the C string, which a NUL ends, so with a NUL inside it finds less than
`indexOf` here.

`toInt` is `atol`: white space, a sign, a prefix of decimal digits; a value
outside the 32-bit `long` is clipped to its nearest end.
-/
import Mathlib.Data.List.TakeWhile
import ProjectTank.DecimalText
import ProjectTank.ProgramText
import ProjectTank.SeparatedText

open DecimalText ProgramText

namespace Arduino

/-- `indexOf(ch, fromIndex)`: the first position of `ch` at or after `fromIndex`, or
`-1`. -/
def indexOf (s : Text) (ch : Char) (fromIndex : ℕ) : ℤ :=
  if s.length ≤ fromIndex then -1
  else
    match (s.drop fromIndex).idxOf? ch with
    | some k => ((fromIndex + k : ℕ) : ℤ)
    | none => -1

/-- `substring(left, right)`: the bounds are swapped when out of order and clipped to
the length. -/
def substring (s : Text) (left right : ℕ) : Text :=
  (s.take (max left right)).drop (min left right)

/-- `substring(left)`: the text from `left` on. -/
def substringFrom (s : Text) (left : ℕ) : Text := s.drop left

/-- `equalsIgnoreCase`: the same text up to the case of ASCII letters. -/
def equalsIgnoreCase (s t : Text) : Bool := s.map Char.toLower == t.map Char.toLower

/-- `trim()`: without white space at either end. -/
def trim (s : Text) : Text := strip s

/-- Clipping to the 32-bit `long`, as `strtol` does on overflow. -/
def clipLong (n : ℤ) : ℤ := max (-2 ^ 31) (min (2 ^ 31 - 1) n)

/-- The value of the decimal digits at the front of a text. -/
def digitsPrefix (s : Text) : ℕ := readNat (s.takeWhile Char.isDigit)

/-- `toInt()`. -/
def toInt (s : Text) : ℤ :=
  match s.dropWhile isSpace with
  | '-' :: ds => clipLong (-(digitsPrefix ds : ℤ))
  | '+' :: ds => clipLong (digitsPrefix ds)
  | ds => clipLong (digitsPrefix ds)

/-- `Serial.readStringUntil(terminator)`: the characters up to the terminator, which is
consumed, or everything that has arrived when the time-out passes first; and what is
left in the receive buffer. -/
def readStringUntil (terminator : UInt8) (rx : List UInt8) : Text × List UInt8 :=
  match SeparatedText.cut terminator rx with
  | some (line, rest) => (ofBytes line, rest)
  | none => (ofBytes rx, [])

/-! ## Searching and cutting -/

theorem indexOf_eq_neg_one_iff {s : Text} {ch : Char} {k : ℕ} :
    indexOf s ch k = -1 ↔ ch ∉ s.drop k := by
  unfold indexOf
  by_cases hlen : s.length ≤ k
  · simp [hlen, List.drop_eq_nil_of_le hlen]
  · rw [if_neg hlen]
    cases h : (s.drop k).idxOf? ch with
    | none => simpa using List.idxOf?_eq_none_iff.mp h
    | some i =>
        have hmem : ch ∈ s.drop k := by
          by_contra hno
          rw [List.idxOf?_eq_none_iff.mpr hno] at h
          exact absurd h (by simp)
        constructor
        · intro hneg
          exact absurd hneg (by simp only; omega)
        · intro hno
          exact absurd hmem hno

/-- A search that succeeds from `k` cuts the text from `k` on at the separator. -/
theorem cut_of_indexOf {s : Text} {ch : Char} {k : ℕ} (h : indexOf s ch k ≠ -1) :
    ∃ i : ℕ, indexOf s ch k = (i : ℤ) ∧ k ≤ i ∧ i < s.length ∧
      SeparatedText.cut ch (s.drop k) = some (substring s k i, s.drop (i + 1)) := by
  have hmem : ch ∈ s.drop k := not_not.mp fun hno => h (indexOf_eq_neg_one_iff.mpr hno)
  have hlen : ¬ s.length ≤ k := by
    intro hle
    rw [List.drop_eq_nil_of_le hle] at hmem
    exact List.not_mem_nil hmem
  cases hidx : (s.drop k).idxOf? ch with
  | none => exact absurd hmem (List.idxOf?_eq_none_iff.mp hidx)
  | some i =>
      have hi : i < (s.drop k).length := (List.idxOf?_eq_some_iff.mp hidx).1
      rw [List.length_drop] at hi
      refine ⟨k + i, ?_, by omega, by omega, ?_⟩
      · rw [indexOf, if_neg hlen, hidx]
      · rw [SeparatedText.cut_eq_map_idxOf?, hidx, Option.map_some, substring,
          Nat.max_eq_right (by omega), Nat.min_eq_left (by omega), List.drop_drop,
          List.take_drop]
        congr 3

/-! ## Reading decimal text -/

/-- A digit string is its own digit prefix. -/
theorem digitsPrefix_natText (n : ℕ) : digitsPrefix (natText n) = n := by
  rw [digitsPrefix, List.takeWhile_eq_self_iff.mpr fun c hc => isDigit_of_mem_natText hc,
    readNat_natText]

/-- **`toInt` reads back what a decimal printer wrote**, clipped to the `long`. -/
theorem toInt_intText (n : ℤ) : toInt (intText n) = clipLong n := by
  rcases sign_cases n with ⟨htext, hval⟩ | ⟨htext, hval⟩
  · obtain ⟨d, ds, hcons, hd⟩ := exists_cons_natText n.natAbs
    have hspace : (natText n.natAbs).dropWhile isSpace = d :: ds := by
      rw [hcons, List.dropWhile_cons_of_neg (by simp [isSpace_of_isDigit hd])]
    have hminus : d ≠ '-' := by
      rintro rfl
      exact absurd hd (by decide)
    have hplus : d ≠ '+' := by
      rintro rfl
      exact absurd hd (by decide)
    rw [htext, toInt, hspace]
    split
    · next heq => exact absurd (List.cons.inj heq).1 hminus
    · next heq => exact absurd (List.cons.inj heq).1 hplus
    · rw [← hcons, digitsPrefix_natText, ← hval]
  · rw [htext, toInt, List.dropWhile_cons_of_neg (by decide)]
    simp only
    rw [digitsPrefix_natText, ← hval]

theorem clipLong_eq_self {n : ℤ} (h : FitsInt32 n) : clipLong n = n := by
  obtain ⟨hlo, hhi⟩ := h
  unfold clipLong
  omega

/-- Every value `toInt` can return fits the 32-bit `long`. -/
theorem fitsInt32_toInt (s : Text) : FitsInt32 (toInt s) := by
  have hclip : ∀ n, FitsInt32 (clipLong n) := by
    intro n
    unfold clipLong
    constructor <;> omega
  unfold toInt
  split <;> exact hclip _

end Arduino
