/-
# The serial reader (`read_serial_data_thread` in `Guy/peter/web_fixed.py`)

The thread reads raw lines, decodes and strips them, and assigns one of three globals by the
prefix of the line.  What a line does is an `Update`, so that every statement about the thread
is about `updateOf`.

* `Carries.dist`, `Carries.m1`, `Carries.m2`: what a line does that begins with a name;
* `carries_or_updateOf_eq_none`: there are no other lines that do something;
* `updateOf_bytes`: what the lines of the firmware do.
-/
import ProjectTank.PythonDecoding
import ProjectTank.TankFirmware

open ProgramText DecimalText

namespace SerialReader

/-! ## The thread -/

/-- The globals that the thread assigns. -/
structure Telemetry where
  ultrasonicDistance : Text := "N/A".toList
  motorM1Speed : ℤ := 0
  motorM2Speed : ℤ := 0
  deriving DecidableEq

/-- `line`: decoded as UTF-8, or as Latin-1, which refuses no byte, and stripped. -/
def decodeLine (u : UnicodeTables) (rawData : List UInt8) : Text :=
  match Python.decodeStrict rawData with
  | some line => Python.strStrip u line
  | none => Python.strStrip u (ofBytes rawData)

/-- `line.split(':')[1]`. -/
def secondField (line : Text) : Option Text := (line.splitOn ':')[1]?

/-- An assignment to one of the globals. -/
inductive Update
  | distance (value : Text)
  | m1 (value : ℤ)
  | m2 (value : ℤ)
  deriving DecidableEq

/-- The assignment that a line leads to. -/
def updateOf (u : UnicodeTables) (rawData : List UInt8) : Option Update :=
  let line := decodeLine u rawData
  if line = [] then none
  else if "Dist:".toList.isPrefixOf line then
    match secondField line with
    | some distanceValue =>
        if distanceValue = "ERROR".toList then some (.distance "N/A".toList)
        else some (.distance distanceValue)
    -- the bare `except` of this branch assigns too, that of the others does not
    | none => some (.distance "N/A".toList)
  else if "M1:".toList.isPrefixOf line then
    ((secondField line).bind (Python.int u)).map .m1
  else if "M2:".toList.isPrefixOf line then
    ((secondField line).bind (Python.int u)).map .m2
  else none

/-- The effect of an assignment. -/
def Telemetry.assign (t : Telemetry) : Update → Telemetry
  | .distance value => { t with ultrasonicDistance := value }
  | .m1 value => { t with motorM1Speed := value }
  | .m2 value => { t with motorM2Speed := value }

/-- The body of the loop, for what `readline` has returned. -/
def Telemetry.readLine (u : UnicodeTables) (t : Telemetry) (rawData : List UInt8) : Telemetry :=
  match updateOf u rawData with
  | some update => t.assign update
  | none => t

/-! ## The branches -/

section Branches

variable {u : UnicodeTables} {raw : List UInt8} {x : Text}

/-- The line begins with a name, and `y` is its second field. -/
def Carries (u : UnicodeTables) (raw : List UInt8) (name y : Text) : Prop :=
  name <+: decodeLine u raw ∧ secondField (decodeLine u raw) = some y

/-- A line with one colon. -/
theorem carries_of_eq {name : Text} (h : decodeLine u raw = name ++ ':' :: x) (hname : ':' ∉ name)
    (hx : ':' ∉ x) : Carries u raw (name ++ [':']) x := by
  refine ⟨⟨x, by rw [h]; simp⟩, ?_⟩
  rw [h, secondField, List.splitOn_append_cons_self_of_not_mem hname, List.splitOn_eq_singleton hx]
  rfl

/-- A line does not begin with two names. -/
theorem Carries.not_isPrefixOf {p q : Text} (h : Carries u raw p x) (hpq : ¬ p <+: q)
    (hqp : ¬ q <+: p) : ¬ q.isPrefixOf (decodeLine u raw) = true := by
  intro hq
  rcases List.prefix_or_prefix_of_prefix h.1 (List.isPrefixOf_iff_prefix.mp hq) with hp | hp
  · exact hpq hp
  · exact hqp hp

theorem exists_secondField {name line : Text} (hname : name <+: line) (hcolon : ':' ∈ name) :
    ∃ y, secondField line = some y := by
  have hcount : 0 < line.count ':' := List.count_pos_iff.mpr (hname.subset hcolon)
  have hlength : 1 < (line.splitOn ':').length := by
    rw [SeparatedText.length_splitOn]
    omega
  exact ⟨_, List.getElem?_eq_getElem hlength⟩

theorem Carries.m1 (h : Carries u raw "M1:".toList x) :
    updateOf u raw = (Python.int u x).map .m1 := by
  simp only [updateOf, h.2]
  rw [if_neg (h.1.ne_nil (by decide)),
    if_neg (h.not_isPrefixOf (by decide) (by decide)),
    if_pos (List.isPrefixOf_iff_prefix.mpr h.1), Option.bind_some]

theorem Carries.m2 (h : Carries u raw "M2:".toList x) :
    updateOf u raw = (Python.int u x).map .m2 := by
  simp only [updateOf, h.2]
  rw [if_neg (h.1.ne_nil (by decide)),
    if_neg (h.not_isPrefixOf (by decide) (by decide)),
    if_neg (h.not_isPrefixOf (by decide) (by decide)),
    if_pos (List.isPrefixOf_iff_prefix.mpr h.1), Option.bind_some]

theorem Carries.dist (h : Carries u raw "Dist:".toList x) :
    updateOf u raw = some (.distance (if x = "ERROR".toList then "N/A".toList else x)) := by
  simp only [updateOf, h.2]
  rw [if_neg (h.1.ne_nil (by decide)), if_pos (List.isPrefixOf_iff_prefix.mpr h.1)]
  split_ifs <;> rfl

/-- **The branches of the reader**: a line begins with one of the three names, or does nothing. -/
theorem carries_or_updateOf_eq_none (u : UnicodeTables) (raw : List UInt8) :
    (∃ y, Carries u raw "Dist:".toList y) ∨ (∃ y, Carries u raw "M1:".toList y) ∨
      (∃ y, Carries u raw "M2:".toList y) ∨ updateOf u raw = none := by
  by_cases hdist : "Dist:".toList <+: decodeLine u raw
  · obtain ⟨y, hy⟩ := exists_secondField hdist (by decide)
    exact Or.inl ⟨y, hdist, hy⟩
  by_cases hm1 : "M1:".toList <+: decodeLine u raw
  · obtain ⟨y, hy⟩ := exists_secondField hm1 (by decide)
    exact Or.inr (Or.inl ⟨y, hm1, hy⟩)
  by_cases hm2 : "M2:".toList <+: decodeLine u raw
  · obtain ⟨y, hy⟩ := exists_secondField hm2 (by decide)
    exact Or.inr (Or.inr (Or.inl ⟨y, hm2, hy⟩))
  refine Or.inr (Or.inr (Or.inr ?_))
  rw [← List.isPrefixOf_iff_prefix] at hdist hm1 hm2
  simp only [updateOf, if_neg hdist, if_neg hm1, if_neg hm2, ite_self]

/-- **What a line does that does something.** -/
theorem updateOf_eq_some_iff {update : Update} : updateOf u raw = some update ↔
    match update with
    | .distance d => ∃ y, Carries u raw "Dist:".toList y ∧
        d = if y = "ERROR".toList then "N/A".toList else y
    | .m1 v => ∃ y, Carries u raw "M1:".toList y ∧ Python.int u y = some v
    | .m2 v => ∃ y, Carries u raw "M2:".toList y ∧ Python.int u y = some v := by
  constructor
  · intro h
    rcases carries_or_updateOf_eq_none u raw with ⟨y, hy⟩ | ⟨y, hy⟩ | ⟨y, hy⟩ | hnone
    · obtain rfl := Option.some.inj (hy.dist.symm.trans h)
      exact ⟨y, hy, rfl⟩
    · obtain ⟨v, hv, rfl⟩ := Option.map_eq_some_iff.mp (hy.m1.symm.trans h)
      exact ⟨y, hy, hv⟩
    · obtain ⟨v, hv, rfl⟩ := Option.map_eq_some_iff.mp (hy.m2.symm.trans h)
      exact ⟨y, hy, hv⟩
    · cases hnone.symm.trans h
  · cases update with
    | distance d =>
        rintro ⟨y, hy, rfl⟩
        exact hy.dist
    | m1 v =>
        rintro ⟨y, hy, hv⟩
        rw [hy.m1, hv, Option.map_some]
    | m2 v =>
        rintro ⟨y, hy, hv⟩
        rw [hy.m2, hv, Option.map_some]

theorem updateOf_eq_m1_iff {v : ℤ} : updateOf u raw = some (.m1 v) ↔
    ∃ y, Carries u raw "M1:".toList y ∧ Python.int u y = some v :=
  updateOf_eq_some_iff

theorem updateOf_eq_m2_iff {v : ℤ} : updateOf u raw = some (.m2 v) ↔
    ∃ y, Carries u raw "M2:".toList y ∧ Python.int u y = some v :=
  updateOf_eq_some_iff

theorem updateOf_eq_distance_iff {d : Text} : updateOf u raw = some (.distance d) ↔
    ∃ y, Carries u raw "Dist:".toList y ∧ d = if y = "ERROR".toList then "N/A".toList else y :=
  updateOf_eq_some_iff

/-- All names end with a colon. -/
theorem updateOf_eq_none_of_not_mem (h : ':' ∉ decodeLine u raw) : updateOf u raw = none := by
  have hnot : ∀ {p y : Text}, ':' ∈ p → ¬ Carries u raw p y := fun hp hy => h (hy.1.subset hp)
  rcases carries_or_updateOf_eq_none u raw with ⟨y, hy⟩ | ⟨y, hy⟩ | ⟨y, hy⟩ | hnone
  · exact absurd hy (hnot (by decide))
  · exact absurd hy (hnot (by decide))
  · exact absurd hy (hnot (by decide))
  · exact hnone

/-- All names begin with a `D` or an `M`. -/
theorem updateOf_eq_none (h : ∀ c, (decodeLine u raw).head? = some c → c ≠ 'D' ∧ c ≠ 'M') :
    updateOf u raw = none := by
  have hbegin : ∀ {p y : Text}, p.head? = some 'D' ∨ p.head? = some 'M' → ¬ Carries u raw p y := by
    rintro p y hp ⟨⟨rest, hrest⟩, -⟩
    rcases hp with hp | hp
    · exact (h 'D' (by rw [← hrest, List.head?_append, hp]; rfl)).1 rfl
    · exact (h 'M' (by rw [← hrest, List.head?_append, hp]; rfl)).2 rfl
  rcases carries_or_updateOf_eq_none u raw with ⟨y, hy⟩ | ⟨y, hy⟩ | ⟨y, hy⟩ | hnone
  · exact absurd hy (hbegin (Or.inl rfl))
  · exact absurd hy (hbegin (Or.inr rfl))
  · exact absurd hy (hbegin (Or.inr rfl))
  · exact hnone

end Branches

/-! ## Decoding -/

section Decoding

variable {u : UnicodeTables}

theorem isSpaceChar_of_isDigit {c : Char} (h : c.isDigit = true) :
    Python.isSpaceChar u c = false := by
  rw [Python.isSpaceChar, if_pos (Python.isAscii_of_isDigit h), isSpace_of_isDigit h]
  rw [Char.isDigit_iff_toNat] at h
  have h0 : '0'.toNat = 48 := rfl
  simp
  omega

theorem decodeLine_ascii {s : Text} (h : s.all isAscii = true) :
    decodeLine u (encodeUtf8 s) = Python.strStrip u s := by
  rw [decodeLine, Python.decodeStrict_ascii h]

/-- A line with an ASCII beginning: what is stripped begins with it or is a beginning of it. -/
theorem head?_decodeLine {s : Text} (hascii : s.all isAscii = true) {c : Char}
    (hc : s.head? = some c) (hspace : Python.isSpaceChar u c = false) (bs : List UInt8) :
    (decodeLine u (encodeUtf8 s ++ bs)).head? = some c := by
  rw [decodeLine, Python.decodeStrict_append hascii]
  cases Python.decodeStrict bs with
  | none =>
      refine Python.head?_strStrip ?_ hspace
      rw [ofBytes_append, ofBytes_encodeUtf8 hascii, List.head?_append, hc]
      rfl
  | some t =>
      refine Python.head?_strStrip ?_ hspace
      rw [List.head?_append, hc]
      rfl

end Decoding

/-! ## The lines of the firmware -/

/-- A line that `setMotorSpeed` or `loop` prints. -/
inductive FirmwareLine
  | m1 (speed : ℤ)
  | m2 (speed : ℤ)
  | dist (distance : ℤ)
  deriving DecidableEq

namespace FirmwareLine

/-- What stands before the number. -/
def name : FirmwareLine → Text
  | .m1 _ => "M1:".toList
  | .m2 _ => "M2:".toList
  | .dist _ => "Dist:".toList

/-- The number. -/
def value : FirmwareLine → ℤ
  | .m1 speed => speed
  | .m2 speed => speed
  | .dist distance => distance

/-- The characters of the line. -/
def text (l : FirmwareLine) : Text := l.name ++ intText l.value ++ ['\r', '\n']

/-- The bytes of the line. -/
def bytes (l : FirmwareLine) : List UInt8 := encodeUtf8 l.text

/-- The speeds are values of an `int`. -/
def Printable : FirmwareLine → Prop
  | .m1 speed => FitsInt32 speed
  | .m2 speed => FitsInt32 speed
  | .dist _ => True

/-- What the reader makes of the line. -/
def update : FirmwareLine → Update
  | .m1 speed => .m1 speed
  | .m2 speed => .m2 speed
  | .dist distance => .distance (intText distance)

theorem name_ascii (l : FirmwareLine) : l.name.all isAscii = true := by
  cases l <;> rfl

theorem newline_not_mem_name (l : FirmwareLine) : '\n' ∉ l.name := by
  cases l with
  | m1 speed => exact (by decide : '\n' ∉ "M1:".toList)
  | m2 speed => exact (by decide : '\n' ∉ "M2:".toList)
  | dist distance => exact (by decide : '\n' ∉ "Dist:".toList)

theorem text_ascii (l : FirmwareLine) : l.text.all isAscii = true := by
  rw [text, List.all_append, List.all_append, l.name_ascii, Python.intText_ascii]
  rfl

end FirmwareLine

/-- A line that begins with the name of a firmware line, and goes on with ASCII text that does not
end with white space, is stripped of the white space after it. -/
theorem decodeLine_named {u : UnicodeTables} (l : FirmwareLine) {x w : Text}
    (hx : x.all isAscii = true) (hlast : ∀ c, x.getLast? = some c → Python.isSpaceChar u c = false)
    (hw : ∀ c ∈ w, c = '\r' ∨ c = '\n') :
    decodeLine u (encodeUtf8 (l.name ++ x ++ w)) = l.name ++ x := by
  have hspace : ∀ c : Char, c = '\r' ∨ c = '\n' → isAscii c = true ∧
      Python.isSpaceChar u c = true := by
    rintro c (rfl | rfl) <;> exact ⟨rfl, rfl⟩
  have hname : l.name ≠ [] ∧ (∀ c, l.name.head? = some c → Python.isSpaceChar u c = false) ∧
      l.name.getLast? = some ':' := by
    cases l <;> exact ⟨List.cons_ne_nil _ _, fun c hc => Option.some.inj hc ▸ rfl, rfl⟩
  obtain ⟨hne, hfirst, hcolon⟩ := hname
  have hascii : (l.name ++ x ++ w).all isAscii = true := by
    rw [List.all_append, List.all_append, l.name_ascii, hx,
      List.all_eq_true.mpr fun c hc => (hspace c (hw c hc)).1]
    rfl
  rw [decodeLine_ascii hascii]
  refine Python.strStrip_append ?_ ?_ ?_ fun c hc => (hspace c (hw c hc)).2
  · exact List.append_ne_nil_of_left_ne_nil hne x
  · intro c hc
    obtain ⟨d, rest, hcons⟩ := List.exists_cons_of_ne_nil hne
    refine hfirst c ?_
    rw [hcons] at hc ⊢
    exact hc
  · intro c hc
    rw [List.getLast?_append, hcolon] at hc
    cases hlastx : x.getLast? with
    | none =>
        rw [hlastx] at hc
        exact Option.some.inj hc ▸ rfl
    | some d =>
        rw [hlastx] at hc
        exact hlast c (hlastx.trans hc)

theorem getLast?_intText {u : UnicodeTables} {n : ℤ} {c : Char}
    (h : (intText n).getLast? = some c) : Python.isSpaceChar u c = false := by
  rcases mem_intText (List.mem_of_getLast? h) with hd | rfl
  · exact isSpaceChar_of_isDigit hd
  · rfl

theorem colon_not_mem_intText (n : ℤ) : ':' ∉ intText n :=
  not_mem_intText (by decide) (by decide) n

theorem intText_ne_error (n : ℤ) : intText n ≠ "ERROR".toList := by
  intro h
  have hmem : 'E' ∈ intText n := h ▸ by decide
  exact not_mem_intText (by decide) (by decide) n hmem

/-- A line that is a name and a number assigns the number. -/
theorem updateOf_of_decodeLine {u : UnicodeTables} {raw : List UInt8} {l : FirmwareLine}
    (h : l.Printable) (hline : decodeLine u raw = l.name ++ intText l.value) :
    updateOf u raw = some l.update := by
  have hcolon := colon_not_mem_intText l.value
  cases l with
  | m1 speed =>
      have hint : Python.int u (intText speed) = some speed := Python.int_intText_of_fitsInt32 u h
      have hcarries : Carries u raw "M1:".toList (intText speed) :=
        carries_of_eq hline (by decide : ':' ∉ "M1".toList) hcolon
      exact hcarries.m1.trans (congrArg (Option.map Update.m1) hint)
  | m2 speed =>
      have hint : Python.int u (intText speed) = some speed := Python.int_intText_of_fitsInt32 u h
      have hcarries : Carries u raw "M2:".toList (intText speed) :=
        carries_of_eq hline (by decide : ':' ∉ "M2".toList) hcolon
      exact hcarries.m2.trans (congrArg (Option.map Update.m2) hint)
  | dist distance =>
      have hcarries : Carries u raw "Dist:".toList (intText distance) :=
        carries_of_eq hline (by decide : ':' ∉ "Dist".toList) hcolon
      rw [hcarries.dist, if_neg (intText_ne_error distance)]
      rfl

/-- **What a line of the firmware does**: it assigns the number that was printed. -/
theorem updateOf_bytes (u : UnicodeTables) (l : FirmwareLine)
    (h : l.Printable) : updateOf u l.bytes = some l.update :=
  updateOf_of_decodeLine h
    (decodeLine_named l (Python.intText_ascii _) (fun _ hc => getLast?_intText hc) (by simp))

end SerialReader
