/-
# Texts, bytes and the Unicode tables

The pages, the servers and the firmwares exchange text.  A text is a list of
characters; what travels on the serial line and in request lines is bytes, one
for each ASCII character.

JavaScript and Python consult the Unicode character database for characters
outside ASCII (case mapping, white space, decimal digits).  `UnicodeTables` holds
those answers; every definition that needs them takes the tables as an argument
and uses them for non-ASCII text only.
-/
import Mathlib.Tactic

/-- A text, as a list of characters. -/
abbrev Text := List Char

namespace ProgramText

instance lawfulBEqText : LawfulBEq Text := inferInstance

/-- An ASCII character. -/
def isAscii (c : Char) : Bool := c.toNat < 128

/-- `isspace` of C: blank, tab, line feed, vertical tab, form feed, carriage return. -/
def isSpace (c : Char) : Bool := c = ' ' || (9 ≤ c.toNat && c.toNat ≤ 13)

/-- A text without the white space at either end. -/
def strip (s : Text) : Text := ((s.dropWhile isSpace).reverse.dropWhile isSpace).reverse

/-- The answers of the Unicode character database, for text with characters outside
ASCII: case mappings of a text, white space, and the value of decimal digits. -/
structure UnicodeTables where
  upper : Text → Text
  lower : Text → Text
  space : Char → Bool
  decimal : Char → Option (Fin 10)

/-- Tables that know no character outside ASCII. -/
def UnicodeTables.bare : UnicodeTables where
  upper := id
  lower := id
  space := fun _ => false
  decimal := fun _ => none

/-- Upper case: `str.upper` of Python, `toUpperCase` of JavaScript. -/
def toUpperCase (u : UnicodeTables) (s : Text) : Text :=
  if s.all isAscii then s.map Char.toUpper else u.upper s

/-- Lower case: `toLowerCase` of JavaScript. -/
def toLowerCase (u : UnicodeTables) (s : Text) : Text :=
  if s.all isAscii then s.map Char.toLower else u.lower s

theorem toUpperCase_ascii (u : UnicodeTables) {s : Text} (h : s.all isAscii = true) :
    toUpperCase u s = s.map Char.toUpper :=
  if_pos h

/-! ## White space -/

theorem isSpace_of_isDigit {c : Char} (h : c.isDigit = true) : isSpace c = false := by
  rw [Char.isDigit_iff_toNat] at h
  have h0 : '0'.toNat = 48 := rfl
  have h9 : '9'.toNat = 57 := rfl
  have hblank : c ≠ ' ' := by
    rintro rfl
    exact absurd h.1 (by decide)
  simp only [isSpace, hblank, decide_false, Bool.false_or, Bool.and_eq_false_iff,
    decide_eq_false_iff_not]
  omega

/-- A text that neither begins nor ends with white space is left as it is. -/
theorem strip_eq_self {s : Text} (hfirst : ∀ c, s.head? = some c → isSpace c = false)
    (hlast : ∀ c, s.getLast? = some c → isSpace c = false) : strip s = s := by
  have hdrop : ∀ t : Text, (∀ c, t.head? = some c → isSpace c = false) →
      t.dropWhile isSpace = t := by
    intro t ht
    cases t with
    | nil => rfl
    | cons c t => exact List.dropWhile_cons_of_neg (by simp [ht c rfl])
  rw [strip, hdrop s hfirst, hdrop s.reverse (by simpa using hlast), List.reverse_reverse]

/-! ## Bytes -/

/-- The UTF-8 bytes of a text. -/
def encodeUtf8 (s : Text) : List UInt8 := s.flatMap String.utf8EncodeChar

/-- The characters with the codes of the given bytes, as C's `(char)` makes them and as
the request line is decoded (ISO 8859-1). -/
def ofBytes (bs : List UInt8) : Text := bs.map fun b => Char.ofNat b.toNat

@[simp] theorem encodeUtf8_append (s t : Text) :
    encodeUtf8 (s ++ t) = encodeUtf8 s ++ encodeUtf8 t :=
  List.flatMap_append

@[simp] theorem ofBytes_append (bs cs : List UInt8) :
    ofBytes (bs ++ cs) = ofBytes bs ++ ofBytes cs :=
  List.map_append

theorem utf8EncodeChar_ascii {c : Char} (h : isAscii c = true) :
    String.utf8EncodeChar c = [UInt8.ofNat c.toNat] := by
  have hlt : c.toNat < 128 := by simpa [isAscii] using h
  have hle : c.val.toNat ≤ 0x7f := by
    have hval : c.val.toNat = c.toNat := rfl
    omega
  simp only [String.utf8EncodeChar, hle, if_true]
  rfl

/-- ASCII text is sent one byte for each character. -/
theorem encodeUtf8_ascii {s : Text} (h : s.all isAscii = true) :
    encodeUtf8 s = s.map fun c => UInt8.ofNat c.toNat := by
  induction s with
  | nil => rfl
  | cons c s ih =>
      rw [List.all_cons, Bool.and_eq_true] at h
      rw [encodeUtf8, List.flatMap_cons, utf8EncodeChar_ascii h.1, List.map_cons]
      exact congrArg (List.cons _) (ih h.2)

/-- **ASCII text survives the serial line.** -/
theorem ofBytes_encodeUtf8 {s : Text} (h : s.all isAscii = true) :
    ofBytes (encodeUtf8 s) = s := by
  rw [encodeUtf8_ascii h, ofBytes, List.map_map]
  refine (List.map_congr_left fun c hc => ?_).trans (List.map_id s)
  have hlt : c.toNat < 128 := by simpa [isAscii] using List.all_eq_true.mp h c hc
  have hbyte : (UInt8.ofNat c.toNat).toNat = c.toNat := by
    rw [UInt8.toNat_ofNat']
    exact Nat.mod_eq_of_lt (by omega)
  simp only [Function.comp, hbyte, Char.ofNat_toNat, id]

/-- The bytes of an ASCII text are the codes of its characters. -/
theorem mem_of_mem_encodeUtf8 {s : Text} (h : s.all isAscii = true) {b : UInt8}
    (hb : b ∈ encodeUtf8 s) : Char.ofNat b.toNat ∈ s := by
  rw [← ofBytes_encodeUtf8 h]
  exact List.mem_map_of_mem hb

end ProgramText

/-! ## Integers of the firmware and of the pages -/

/-- The values of a 32-bit `int`. -/
def FitsInt32 (n : ℤ) : Prop := -2 ^ 31 ≤ n ∧ n < 2 ^ 31

instance (n : ℤ) : Decidable (FitsInt32 n) :=
  inferInstanceAs (Decidable (_ ∧ _))
