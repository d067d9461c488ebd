/-
# Text functions of the Python library that the servers use

`urllib.parse.splitquery` and `parse_qsl`, `unquote`, the UTF-8 decoder with
`errors='replace'`, and the conversion `int(...)` of a text, as CPython documents
them.  A query is cut at `&`, each pair at its first `=`; a percent escape stands for
a byte, and the bytes of a stretch of ASCII are decoded together.

`int` accepts white space around an optional sign and digits, which single
underscores may separate, of at most 4300 digits; digits and white space outside
ASCII are those of the Unicode tables.
-/
import ProjectTank.DecimalText
import ProjectTank.ProgramText
import ProjectTank.SeparatedText

open ProgramText DecimalText SeparatedText

namespace Python

/-! ## UTF-8 with replacement -/

/-- The state of the decoder: how many continuation bytes are missing, the code point so
far, and the range that the next byte must lie in. -/
structure Utf8State where
  needed : ℕ := 0
  codePoint : ℕ := 0
  lower : ℕ := 0x80
  upper : ℕ := 0xBF

/-- The replacement character. -/
def replacement : Char := Char.ofNat 0xFFFD

/-- A byte at the start of a character: what it yields at once, and the state after. -/
def utf8Lead (b : ℕ) : Text × Utf8State :=
  if b < 0x80 then ([Char.ofNat b], {})
  else if 0xC2 ≤ b ∧ b ≤ 0xDF then ([], { needed := 1, codePoint := b - 0xC0 })
  else if b = 0xE0 then ([], { needed := 2, codePoint := 0, lower := 0xA0 })
  else if b = 0xED then ([], { needed := 2, codePoint := 0xD, upper := 0x9F })
  else if 0xE1 ≤ b ∧ b ≤ 0xEF then ([], { needed := 2, codePoint := b - 0xE0 })
  else if b = 0xF0 then ([], { needed := 3, codePoint := 0, lower := 0x90 })
  else if 0xF1 ≤ b ∧ b ≤ 0xF3 then ([], { needed := 3, codePoint := b - 0xF0 })
  else if b = 0xF4 then ([], { needed := 3, codePoint := 4, upper := 0x8F })
  else ([replacement], {})

/-- One byte.  A byte that cannot continue the character ends it with a replacement and
starts the next. -/
def Utf8State.feed (st : Utf8State) (b : ℕ) : Text × Utf8State :=
  if st.needed = 0 then utf8Lead b
  else if st.lower ≤ b ∧ b ≤ st.upper then
    let codePoint := st.codePoint * 64 + (b - 0x80)
    if st.needed = 1 then ([Char.ofNat codePoint], {})
    else ([], { needed := st.needed - 1, codePoint := codePoint })
  else (replacement :: (utf8Lead b).1, (utf8Lead b).2)

/-- Decode from a state; an unfinished character at the end is replaced. -/
def decodeUtf8From (st : Utf8State) : List UInt8 → Text
  | [] => if st.needed = 0 then [] else [replacement]
  | b :: bs => (st.feed b.toNat).1 ++ decodeUtf8From (st.feed b.toNat).2 bs

/-- `bytes.decode('utf-8', 'replace')`. -/
def decodeUtf8 (bs : List UInt8) : Text := decodeUtf8From {} bs

theorem decodeUtf8_encodeUtf8_ascii {s : Text} (h : s.all isAscii = true) :
    decodeUtf8 (encodeUtf8 s) = s := by
  rw [encodeUtf8_ascii h]
  induction s with
  | nil => rfl
  | cons c s ih =>
      rw [List.all_cons, Bool.and_eq_true] at h
      have hlt : c.toNat < 128 := by simpa [isAscii] using h.1
      have hbyte : (UInt8.ofNat c.toNat).toNat = c.toNat := by
        rw [UInt8.toNat_ofNat']
        exact Nat.mod_eq_of_lt (by omega)
      have hfeed : ({} : Utf8State).feed c.toNat = ([c], {}) := by
        simp [Utf8State.feed, utf8Lead, hlt]
      rw [List.map_cons, decodeUtf8, decodeUtf8From, hbyte, hfeed]
      exact congrArg (List.cons c) (ih h.2)

/-! ## Percent decoding -/

/-- The value of a hexadecimal digit. -/
def hexDigit? (c : Char) : Option ℕ :=
  if c.isDigit then some (c.toNat - '0'.toNat)
  else if 'a' ≤ c ∧ c ≤ 'f' then some (c.toNat - 'a'.toNat + 10)
  else if 'A' ≤ c ∧ c ≤ 'F' then some (c.toNat - 'A'.toNat + 10)
  else none

/-- What follows a `%`, up to the next one: two hexadecimal digits make a byte, anything
else leaves the `%` in place. -/
def unquoteItem (item : Text) : List UInt8 :=
  match item with
  | a :: b :: rest =>
      match hexDigit? a, hexDigit? b with
      | some x, some y => UInt8.ofNat (16 * x + y) :: encodeUtf8 rest
      | _, _ => encodeUtf8 ('%' :: item)
  | _ => encodeUtf8 ('%' :: item)

/-- `unquote_to_bytes`. -/
def unquoteToBytes (s : Text) : List UInt8 :=
  match s.splitOn '%' with
  | [] => []
  | bit :: items => encodeUtf8 bit ++ items.flatMap unquoteItem

/-- `unquote` with a stretch of ASCII already read: stretches are decoded, the other
characters stay. -/
def unquoteFrom (stretch : Text) : Text → Text
  | [] => decodeUtf8 (unquoteToBytes stretch)
  | c :: s =>
      if isAscii c then unquoteFrom (stretch ++ [c]) s
      else decodeUtf8 (unquoteToBytes stretch) ++ c :: unquoteFrom [] s

/-- `unquote`. -/
def unquote (s : Text) : Text := if '%' ∈ s then unquoteFrom [] s else s

theorem unquoteToBytes_cons {c : Char} (hc : c ≠ '%') (s : Text) :
    unquoteToBytes (c :: s) = encodeUtf8 [c] ++ unquoteToBytes s := by
  obtain ⟨bit, items, hs⟩ := List.exists_cons_of_ne_nil (List.splitOn_ne_nil '%' s)
  have hsplit : (c :: s).splitOn '%' = (c :: bit) :: items := by
    rw [List.splitOn_cons_eq_if_modifyHead, if_neg (by simpa using hc), hs]
    rfl
  simp only [unquoteToBytes, hsplit, hs]
  rw [← List.singleton_append, encodeUtf8_append, List.append_assoc]

theorem hexDigit?_percent : hexDigit? '%' = none := by decide

/-- An escape is its byte. -/
theorem unquoteToBytes_escape {a b : Char} {x y : ℕ} (ha : hexDigit? a = some x)
    (hb : hexDigit? b = some y) (s : Text) :
    unquoteToBytes ('%' :: a :: b :: s) = UInt8.ofNat (16 * x + y) :: unquoteToBytes s := by
  have hne : ∀ {c : Char} {z : ℕ}, hexDigit? c = some z → c ≠ '%' := by
    rintro c z hc rfl
    rw [hexDigit?_percent] at hc
    exact absurd hc (by simp)
  obtain ⟨bit, items, hs⟩ := List.exists_cons_of_ne_nil (List.splitOn_ne_nil '%' s)
  have hsplit : ('%' :: a :: b :: s).splitOn '%' = [] :: (a :: b :: bit) :: items := by
    rw [List.splitOn_cons_eq_if_modifyHead, if_pos (by simp),
      List.splitOn_cons_eq_if_modifyHead, if_neg (by simpa using hne ha),
      List.splitOn_cons_eq_if_modifyHead, if_neg (by simpa using hne hb), hs]
    rfl
  simp only [unquoteToBytes, hsplit, hs, List.flatMap_cons, unquoteItem, ha, hb]
  rfl

theorem unquoteFrom_ascii {s : Text} (h : s.all isAscii = true) (stretch : Text) :
    unquoteFrom stretch s = decodeUtf8 (unquoteToBytes (stretch ++ s)) := by
  induction s generalizing stretch with
  | nil => rw [unquoteFrom, List.append_nil]
  | cons c s ih =>
      rw [List.all_cons, Bool.and_eq_true] at h
      rw [unquoteFrom, if_pos h.1, ih h.2, List.append_assoc, List.singleton_append]

/-- On ASCII text `unquote` decodes the bytes of the whole text. -/
theorem unquote_ascii {s : Text} (h : s.all isAscii = true) :
    unquote s = decodeUtf8 (unquoteToBytes s) := by
  unfold unquote
  split
  · rw [unquoteFrom_ascii h, List.nil_append]
  · next hno =>
      have hbytes : unquoteToBytes s = encodeUtf8 s := by
        rw [unquoteToBytes, List.splitOn_eq_singleton hno]
        exact List.append_nil _
      rw [hbytes, decodeUtf8_encodeUtf8_ascii h]

/-! ## Queries -/

/-- `splitquery`: the parts before and after the last `?`. -/
def splitquery (url : Text) : Text × Option Text :=
  match cut '?' url.reverse with
  | some (query, path) => (path.reverse, some query.reverse)
  | none => (url, none)

/-- `s.replace('+', ' ')`. -/
def replacePlus (s : Text) : Text := s.map fun c => if c = '+' then ' ' else c

/-- One pair of a query: nothing without `=` or without a value. -/
def parsePair (nameValue : Text) : Option (Text × Text) :=
  match cut '=' nameValue with
  | some (name, value) =>
      if value = [] then none else some (unquote (replacePlus name), unquote (replacePlus value))
  | none => none

/-- `parse_qsl`, with its defaults. -/
def parseQsl (qs : Text) : List (Text × Text) := (qs.splitOn '&').filterMap parsePair

/-- The entry of `parse_qs(qs)` under a name: the values in their order, none when there
is no entry. -/
def parseQs (qs : Text) (name : Text) : List Text :=
  ((parseQsl qs).filter fun nv => nv.1 = name).map Prod.snd

/-- What stands behind the last `?` is the query. -/
theorem splitquery_append {query : Text} (h : '?' ∉ query) (path : Text) :
    splitquery (path ++ '?' :: query) = (path, some query) := by
  have hrev : (path ++ '?' :: query).reverse = query.reverse ++ '?' :: path.reverse := by simp
  rw [splitquery, hrev, cut_append (by simpa using h)]
  simp

/-- A query of one pair. -/
theorem parseQs_single {name value : Text} (hname : '=' ∉ name) (hvalue : value ≠ [])
    (hamp : '&' ∉ name ++ '=' :: value) (hplain : unquote (replacePlus name) = name) :
    parseQs (name ++ '=' :: value) name = [unquote (replacePlus value)] := by
  have hpair : parsePair (name ++ '=' :: value) = some (name, unquote (replacePlus value)) := by
    rw [parsePair, cut_append hname]
    simp only [hvalue, if_false, hplain]
  rw [parseQs, parseQsl, List.splitOn_eq_singleton hamp]
  simp [hpair]

/-! ## `int` of a text -/

/-- The limit on the number of digits that `int` converts. -/
def maxStrDigits : ℕ := 4300

/-- A text with a character outside ASCII is brought to ASCII first: white space, digits,
and `?` for the rest. -/
def toAsciiForInt (u : UnicodeTables) (s : Text) : Text :=
  if s.all isAscii then s
  else s.map fun c =>
    if isAscii c then c
    else if u.space c then ' '
    else match u.decimal c with
      | some d => Char.ofNat ('0'.toNat + d)
      | none => '?'

/-- The digits of an `int` literal: groups of digits between single underscores. -/
def intDigits (s : Text) : Option ℕ :=
  let groups := s.splitOn '_'
  if groups.all (fun g => g ≠ [] ∧ g.all Char.isDigit) ∧ groups.flatten.length ≤ maxStrDigits then
    some (readNat groups.flatten)
  else none

/-- `int(s)`: the value, or `none` for the `ValueError`. -/
def int (u : UnicodeTables) (s : Text) : Option ℤ :=
  match strip (toAsciiForInt u s) with
  | '-' :: ds => (intDigits ds).map fun n : ℕ => -(n : ℤ)
  | '+' :: ds => (intDigits ds).map fun n : ℕ => (n : ℤ)
  | ds => (intDigits ds).map fun n : ℕ => (n : ℤ)

theorem intDigits_natText {n : ℕ} (h : (natText n).length ≤ maxStrDigits) :
    intDigits (natText n) = some n := by
  have hund : '_' ∉ natText n := by
    intro hmem
    exact absurd (isDigit_of_mem_natText hmem) (by decide)
  have hall : ∀ c ∈ natText n, c.isDigit = true := fun c hc => isDigit_of_mem_natText hc
  rw [intDigits, List.splitOn_eq_singleton hund]
  simpa [natText_ne_nil, h] using hall

theorem isAscii_of_isDigit {c : Char} (h : c.isDigit = true) : isAscii c = true := by
  rw [Char.isDigit_iff_toNat] at h
  have h9 : '9'.toNat = 57 := rfl
  simp only [isAscii, decide_eq_true_eq]
  omega

theorem intText_ascii (n : ℤ) : (intText n).all isAscii = true := by
  rw [List.all_eq_true]
  intro c hc
  rcases mem_intText hc with h | rfl
  · exact isAscii_of_isDigit h
  · decide

theorem strip_intText (n : ℤ) : strip (intText n) = intText n := by
  have hno : ∀ c ∈ intText n, isSpace c = false := by
    intro c hc
    rcases mem_intText hc with h | rfl
    · exact isSpace_of_isDigit h
    · decide
  exact strip_eq_self (fun c hc => hno c (List.mem_of_head? hc))
    (fun c hc => hno c (List.mem_of_getLast? hc))

/-- **`int` reads back what `str` wrote**, up to the limit on digits. -/
theorem int_intText (u : UnicodeTables) {n : ℤ} (h : (natText n.natAbs).length ≤ maxStrDigits) :
    int u (intText n) = some n := by
  rw [int, toAsciiForInt, if_pos (intText_ascii n), strip_intText]
  rcases sign_cases n with ⟨htext, hval⟩ | ⟨htext, hval⟩
  · obtain ⟨d, ds, hcons, hd⟩ := exists_cons_natText n.natAbs
    rw [htext]
    split
    · next heq =>
        rw [hcons, List.cons.injEq] at heq
        exact absurd (heq.1 ▸ hd) (by decide)
    · next heq =>
        rw [hcons, List.cons.injEq] at heq
        exact absurd (heq.1 ▸ hd) (by decide)
    · rw [intDigits_natText h, Option.map_some, ← hval]
  · rw [htext]
    simp only [intDigits_natText h, Option.map_some, ← hval]

/-- A character that is in no group of digits, and is not at an end, is refused. -/
theorem int_eq_none_of_mem (u : UnicodeTables) {s : Text} (hascii : s.all isAscii = true) {c : Char}
    (hc : c ∈ s) (hspace : isSpace c = false) (hdigit : c.isDigit = false)
    (hsign : c ∉ ['_', '+', '-']) : int u s = none := by
  have hkeep : ∀ t : Text, c ∈ t → c ∈ t.dropWhile isSpace := by
    intro t ht
    rw [← List.takeWhile_append_dropWhile (p := isSpace) (l := t)] at ht
    rcases List.mem_append.mp ht with ht | ht
    · rw [List.all_eq_true.mp List.all_takeWhile c ht] at hspace
      cases hspace
    · exact ht
  have hstrip : c ∈ strip s := by
    rw [strip, List.mem_reverse]
    exact hkeep _ (List.mem_reverse.mpr (hkeep s hc))
  have hgroups : ∀ ds : Text, c ∈ ds → intDigits ds = none := by
    intro ds hds
    have hne : c ≠ '_' := by
      rintro rfl
      exact hsign (by decide)
    obtain ⟨g, hg, hcg⟩ := exists_mem_splitOn hne hds
    refine if_neg fun h => ?_
    have hall := (decide_eq_true_eq.mp (List.all_eq_true.mp h.1 g hg)).2
    rw [List.all_eq_true.mp hall c hcg] at hdigit
    cases hdigit
  have htail : ∀ {d : Char} {ds : Text}, strip s = d :: ds → d ∈ ['_', '+', '-'] → c ∈ ds := by
    intro d ds heq hd
    rw [heq] at hstrip
    exact (List.mem_cons.mp hstrip).resolve_left fun h => hsign (h ▸ hd)
  rw [int, toAsciiForInt, if_pos hascii]
  split
  · next heq => rw [hgroups _ (htail heq (by simp)), Option.map_none]
  · next heq => rw [hgroups _ (htail heq (by simp)), Option.map_none]
  · rw [hgroups _ hstrip, Option.map_none]

/-- The values of a 32-bit `int` are within the limit. -/
theorem int_intText_of_fitsInt32 (u : UnicodeTables) {n : ℤ} (h : FitsInt32 n) :
    int u (intText n) = some n := by
  obtain ⟨hlo, hhi⟩ := h
  have hlen : (natText n.natAbs).length ≤ 10 := length_natText_le (by omega) (by omega)
  have hmax : 10 ≤ maxStrDigits := by decide
  exact int_intText u (hlen.trans hmax)

/-! ## `float` of an integer -/

/-- The magnitude of the double nearest to `m`, ties to even: 53 binary digits are kept. -/
def nearestDouble (m : ℕ) : ℕ :=
  let unit := 2 ^ (m.log2 - 52)
  let q := m / unit
  let r := m % unit
  (if unit < 2 * r ∨ (2 * r = unit ∧ q % 2 = 1) then q + 1 else q) * unit

/-- The value of `float(n)`, which is an integer again, or `none` for the
`OverflowError`. -/
def floatOfInt (n : ℤ) : Option ℤ :=
  if nearestDouble n.natAbs < 2 ^ 1024 then some (n.sign * nearestDouble n.natAbs) else none

/-- Up to 53 binary digits the conversion is exact. -/
theorem nearestDouble_eq_self {m : ℕ} (h : m < 2 ^ 53) : nearestDouble m = m := by
  have hlog : m.log2 - 52 = 0 := by
    by_cases hm : m = 0
    · rw [hm]
      rfl
    · have := (Nat.log2_lt hm).mpr h
      omega
  simp only [nearestDouble, hlog, pow_zero, Nat.div_one, Nat.mod_one]
  simp

/-- Beyond, it keeps the order of magnitude. -/
theorem le_nearestDouble {m : ℕ} (h : 2 ^ 53 ≤ m) : 2 ^ 52 ≤ nearestDouble m := by
  have hm : m ≠ 0 := by
    rintro rfl
    exact absurd h (by norm_num)
  have hlog : 53 ≤ m.log2 := (Nat.le_log2 hm).mpr h
  have hself : 2 ^ 52 * 2 ^ (m.log2 - 52) ≤ m := by
    rw [← pow_add]
    have hexp : 52 + (m.log2 - 52) = m.log2 := by omega
    rw [hexp]
    exact Nat.log2_self_le hm
  have hq : 2 ^ 52 ≤ m / 2 ^ (m.log2 - 52) := (Nat.le_div_iff_mul_le (by positivity)).mpr hself
  have hunit : 1 ≤ 2 ^ (m.log2 - 52) := Nat.one_le_two_pow
  unfold nearestDouble
  simp only
  split
  · exact (Nat.le_succ_of_le hq).trans (Nat.le_mul_of_pos_right _ hunit)
  · exact hq.trans (Nat.le_mul_of_pos_right _ hunit)

end Python
