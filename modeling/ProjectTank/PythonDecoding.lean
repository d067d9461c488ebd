/-
# Decoding and stripping a line in Python

`bytes.decode('utf-8')` refuses bytes that are not UTF-8; `str.strip` removes what
`str.isspace` accepts, which in ASCII are four control characters more than C's `isspace`.

* `decodeStrict_append`: an ASCII text at the front is decoded as itself;
* `head?_strStrip`, `strStrip_append`: what stripping keeps, and what it removes.
-/
import Mathlib.Data.List.DropRight
import ProjectTank.PythonText

open ProgramText

namespace Python

/-! ## UTF-8 without replacement -/

/-- The byte continues a character, or starts one. -/
def Utf8State.accepts (st : Utf8State) (b : ℕ) : Bool :=
  if st.needed = 0 then b < 0x80 || (0xC2 ≤ b && b ≤ 0xF4) else st.lower ≤ b && b ≤ st.upper

/-- Decode from a state; the text is refused at a byte that cannot come there, and at an
unfinished character. -/
def decodeStrictFrom (st : Utf8State) : List UInt8 → Option Text
  | [] => if st.needed = 0 then some [] else none
  | b :: bs =>
      if st.accepts b.toNat then
        (decodeStrictFrom (st.feed b.toNat).2 bs).map ((st.feed b.toNat).1 ++ ·)
      else none

/-- `bytes.decode('utf-8')`, or `none` for the `UnicodeDecodeError`. -/
def decodeStrict (bs : List UInt8) : Option Text := decodeStrictFrom {} bs

/-- ASCII text at the front is decoded as itself. -/
theorem decodeStrict_append {s : Text} (h : s.all isAscii = true) (bs : List UInt8) :
    decodeStrict (encodeUtf8 s ++ bs) = (decodeStrict bs).map (s ++ ·) := by
  rw [encodeUtf8_ascii h]
  induction s with
  | nil =>
      show decodeStrict bs = (decodeStrict bs).map ([] ++ ·)
      simp
  | cons c s ih =>
      rw [List.all_cons, Bool.and_eq_true] at h
      have hlt : c.toNat < 128 := by simpa [isAscii] using h.1
      have hbyte : (UInt8.ofNat c.toNat).toNat = c.toNat := by
        rw [UInt8.toNat_ofNat']
        exact Nat.mod_eq_of_lt (by omega)
      have hfeed : ({} : Utf8State).feed c.toNat = ([c], {}) := by
        simp [Utf8State.feed, utf8Lead, hlt]
      have haccepts : ({} : Utf8State).accepts c.toNat = true := by
        simp [Utf8State.accepts, hlt]
      have htail := ih h.2
      rw [decodeStrict] at htail
      rw [List.map_cons, List.cons_append, decodeStrict, decodeStrictFrom, hbyte, if_pos haccepts,
        hfeed, htail, Option.map_map]
      rfl

theorem decodeStrict_ascii {s : Text} (h : s.all isAscii = true) :
    decodeStrict (encodeUtf8 s) = some s := by
  have hwhole := decodeStrict_append h []
  rw [List.append_nil] at hwhole
  rw [hwhole]
  simp [decodeStrict, decodeStrictFrom]

/-! ## `strip` -/

/-- `str.isspace` of one character. -/
def isSpaceChar (u : UnicodeTables) (c : Char) : Bool :=
  if isAscii c then isSpace c || (28 ≤ c.toNat && c.toNat ≤ 31) else u.space c

/-- `str.strip()`. -/
def strStrip (u : UnicodeTables) (s : Text) : Text :=
  (s.dropWhile (isSpaceChar u)).rdropWhile (isSpaceChar u)

variable {u : UnicodeTables}

theorem mem_of_mem_strStrip {s : Text} {c : Char} (h : c ∈ strStrip u s) : c ∈ s :=
  (List.dropWhile_suffix _).subset ((List.rdropWhile_prefix _ _).subset h)

/-- White space at the end is removed, and nothing else of a text that neither begins nor ends
with it. -/
theorem strStrip_append {s t : Text} (hne : s ≠ [])
    (hfirst : ∀ c, s.head? = some c → isSpaceChar u c = false)
    (hlast : ∀ c, s.getLast? = some c → isSpaceChar u c = false)
    (ht : ∀ c ∈ t, isSpaceChar u c = true) : strStrip u (s ++ t) = s := by
  obtain ⟨c, rest, rfl⟩ := List.exists_cons_of_ne_nil hne
  have hdrop : t.reverse.dropWhile (isSpaceChar u) = [] :=
    List.dropWhile_eq_nil_iff.mpr (by simpa using ht)
  have hself : (c :: rest).rdropWhile (isSpaceChar u) = c :: rest := by
    rw [List.rdropWhile_eq_self_iff]
    intro hl
    rw [hlast _ (List.getLast?_eq_some_getLast hl)]
    simp
  rw [strStrip, List.cons_append, List.dropWhile_cons_of_neg (by simp [hfirst c rfl]),
    ← List.cons_append, List.rdropWhile, List.reverse_append, List.dropWhile_append, hdrop]
  exact hself

/-- A first character that is not white space stays the first. -/
theorem head?_strStrip {s : Text} {c : Char} (hs : s.head? = some c)
    (hc : isSpaceChar u c = false) : (strStrip u s).head? = some c := by
  obtain ⟨rest, rfl⟩ := List.head?_eq_some_iff.mp hs
  rw [strStrip, List.dropWhile_cons_of_neg (by simp [hc])]
  have hne : (c :: rest).rdropWhile (isSpaceChar u) ≠ [] := by
    rw [Ne, List.rdropWhile_eq_nil_iff]
    intro hall
    rw [hall c List.mem_cons_self] at hc
    cases hc
  obtain ⟨d, kept, hkept⟩ := List.exists_cons_of_ne_nil hne
  obtain ⟨t, ht⟩ := List.rdropWhile_prefix (isSpaceChar u) (c :: rest)
  rw [hkept] at ht ⊢
  exact congrArg some (List.cons.inj ht).1

end Python
