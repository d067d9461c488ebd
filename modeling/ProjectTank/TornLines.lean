/-
# Lines that are read in pieces (`read_serial_data_thread` in `Guy/peter/web_fixed.py`)

A line of the firmware arrives byte by byte.  `readline` returns at the end of a line, or when
its time-out comes, with what has arrived; the thread takes either for a whole line.

* `Aligned`: what waits to be read are rests of sent lines and a part of the current one;
* `good_step_iff`: when a step keeps the telemetry at values that were sent;
* `telemetry_sent_iff`: the same through a run;
* `speed_read_in_pieces`: a time-out in the middle of a number.
-/
import ProjectTank.SerialReader
import ProjectTank.Transition

open ProgramText DecimalText SeparatedText SerialReader

namespace TornLines

/-! ## The serial line -/

/-- The lines whose bytes are all sent, the line under way with the bytes that are still to
come, what has arrived and has not been read, and the globals. -/
structure Serial where
  complete : List FirmwareLine := []
  current : Option (FirmwareLine × List UInt8) := none
  rx : List UInt8 := []
  telemetry : Telemetry := {}

inductive Event
  | printLine (l : FirmwareLine)
  | sendByte
  | readLine
  | timeOut

instance : (l : FirmwareLine) → Decidable l.Printable
  | .m1 speed => inferInstanceAs (Decidable (FitsInt32 speed))
  | .m2 speed => inferInstanceAs (Decidable (FitsInt32 speed))
  | .dist _ => .isTrue trivial

def step (u : UnicodeTables) (x : Serial) : Event → Option Serial
  | .printLine l =>
      if x.current = none ∧ l.Printable then some { x with current := some (l, l.bytes) } else none
  | .sendByte =>
      match x.current with
      -- with its last byte the line is complete
      | some (l, [b]) =>
          some { x with complete := x.complete ++ [l], current := none, rx := x.rx ++ [b] }
      | some (l, b :: rest) => some { x with current := some (l, rest), rx := x.rx ++ [b] }
      | _ => none
  | .readLine =>
      match cut 10 x.rx with
      | some (line, rest) =>
          some { x with rx := rest, telemetry := x.telemetry.readLine u (line ++ [10]) }
      | none => none
  | .timeOut =>
      -- the thread calls `readline` when something has arrived
      if x.rx ≠ [] ∧ 10 ∉ x.rx then
        some { x with rx := [], telemetry := x.telemetry.readLine u x.rx }
      else none

def machine (u : UnicodeTables) : Machine Serial Event where
  init := {}
  step := step u

/-- What a line shows has been sent: it is what a complete line shows, or the initial speed. -/
def Sent (complete : List FirmwareLine) (l : FirmwareLine) : Prop :=
  l ∈ complete ∨ l = .m1 0 ∨ l = .m2 0

/-- The globals show what has been sent. -/
structure Shown (complete : List FirmwareLine) (t : Telemetry) : Prop where
  m1 : Sent complete (.m1 t.motorM1Speed)
  m2 : Sent complete (.m2 t.motorM2Speed)
  distance : t.ultrasonicDistance = "N/A".toList ∨
    ∃ d, Sent complete (.dist d) ∧ t.ultrasonicDistance = intText d

def Good (x : Serial) : Prop := Shown x.complete x.telemetry

/-- The bytes are a line, but for its end of line or the second half of it. -/
def Unterminated (l : FirmwareLine) (bs : List UInt8) : Prop :=
  bs = encodeUtf8 (l.name ++ intText l.value) ∨ bs = encodeUtf8 (l.name ++ intText l.value ++ ['\r'])

/-- A time-out comes when what has arrived looks like a line that has not been sent, or like a
distance without digits. -/
def Torn (x : Serial) : Event → Prop
  | .timeOut => (∃ l : FirmwareLine, l.Printable ∧ Unterminated l x.rx ∧ ¬ Sent x.complete l) ∨
      x.rx = encodeUtf8 "Dist:".toList ∨ x.rx = encodeUtf8 "Dist:-".toList
  | _ => False

/-! ## The bytes of a line -/

theorem body_ascii (l : FirmwareLine) :
    (l.name ++ intText l.value ++ ['\r']).all isAscii = true := by
  rw [List.all_append, List.all_append, l.name_ascii, Python.intText_ascii]
  rfl

/-- A line is its body and the end of line, which is not in the body. -/
theorem bytes_eq (l : FirmwareLine) :
    l.bytes = encodeUtf8 (l.name ++ intText l.value ++ ['\r']) ++ [10] ∧
      10 ∉ encodeUtf8 (l.name ++ intText l.value ++ ['\r']) := by
  constructor
  · rw [FirmwareLine.bytes, FirmwareLine.text, show ['\r', '\n'] = ['\r'] ++ ['\n'] from rfl,
      ← List.append_assoc, encodeUtf8_append]
    rfl
  · intro hmem
    rcases List.mem_append.mp (mem_of_mem_encodeUtf8 (body_ascii l) hmem) with htext | hcr
    · rcases List.mem_append.mp htext with hname | hvalue
      · exact l.newline_not_mem_name hname
      · exact not_mem_intText (by decide) (by decide) _ hvalue
    · exact absurd hcr (by decide)

/-- What comes before the last element. -/
theorem prefix_of_append_eq_concat {α : Type*} {p q body : List α} {a : α}
    (h : p ++ q = body ++ [a]) (hq : q ≠ []) : p <+: body := by
  refine (List.prefix_concat_iff.mp ⟨q, h⟩).resolve_left fun heq => hq ?_
  rw [heq] at h
  exact List.append_right_eq_self.mp h

/-- What is left of a line ends with its end of line. -/
theorem rest_eq {l : FirmwareLine} {q : List UInt8} (hq : q <:+ l.bytes) (hne : q ≠ []) :
    ∃ body, q = body ++ [10] ∧ 10 ∉ body := by
  obtain ⟨hbytes, hbody⟩ := bytes_eq l
  rw [hbytes] at hq
  obtain ⟨body, rfl, hsuffix⟩ := (List.suffix_concat_iff.mp hq).resolve_left hne
  exact ⟨body, rfl, fun hmem => hbody (hsuffix.subset hmem)⟩

/-- A part of a line that is followed by more of it has no end of line. -/
theorem newline_not_mem {l : FirmwareLine} {last p : List UInt8} (h : last ++ p <:+ l.bytes)
    (hp : p ≠ []) : 10 ∉ last := by
  obtain ⟨body, hbody, hmem⟩ := rest_eq h (List.append_ne_nil_of_right_ne_nil last hp)
  exact fun h10 => hmem ((prefix_of_append_eq_concat hbody hp).subset h10)

/-! ## What reading a piece does -/

variable {u : UnicodeTables}

/-- After its first character a line has no letter with which a name begins. -/
theorem updateOf_of_infix_tail {l : FirmwareLine} {p : List UInt8} (hp : p <:+: l.bytes.tail) :
    updateOf u p = none := by
  have hletters : ∀ c ∈ l.text.tail, c ≠ 'D' ∧ c ≠ 'M' := by
    have hnumber : ∀ c ∈ intText l.value ++ ['\r', '\n'], c ≠ 'D' ∧ c ≠ 'M' := by
      intro c hc
      constructor
      · rintro rfl
        exact not_mem_intText (by decide) (by decide) _
          ((List.mem_append.mp hc).resolve_right (by decide))
      · rintro rfl
        exact not_mem_intText (by decide) (by decide) _
          ((List.mem_append.mp hc).resolve_right (by decide))
    have hname : ∀ c ∈ l.name.tail, c ≠ 'D' ∧ c ≠ 'M' := by
      cases l with
      | m1 speed => simp [FirmwareLine.name]
      | m2 speed => simp [FirmwareLine.name]
      | dist distance => simp [FirmwareLine.name]
    have hne : l.name ≠ [] := by cases l <;> exact List.cons_ne_nil _ _
    intro c hc
    rw [FirmwareLine.text, List.append_assoc, List.tail_append_of_ne_nil hne] at hc
    exact (List.mem_append.mp hc).elim (hname c) (hnumber c)
  rw [FirmwareLine.bytes, encodeUtf8_ascii l.text_ascii, ← List.map_tail] at hp
  obtain ⟨t, ht, rfl⟩ := List.infix_map_iff.mp hp
  have hascii : t.all isAscii = true := List.all_eq_true.mpr fun c hc =>
    List.all_eq_true.mp l.text_ascii c (List.mem_of_mem_tail (ht.subset hc))
  refine updateOf_eq_none fun c hc => hletters c (ht.subset ?_)
  rw [← encodeUtf8_ascii hascii, decodeLine_ascii hascii] at hc
  exact Python.mem_of_mem_strStrip (List.mem_of_head? hc)

/-- An unterminated line is read as if it were whole. -/
theorem updateOf_unterminated {l : FirmwareLine} (hl : l.Printable) {bs : List UInt8}
    (h : Unterminated l bs) : updateOf u bs = some l.update := by
  refine updateOf_of_decodeLine hl ?_
  have hnamed := fun w hw => @decodeLine_named u l (intText l.value) w (Python.intText_ascii _)
    (fun c hc => getLast?_intText hc) hw
  rcases h with rfl | rfl
  · simpa using hnamed [] (by simp)
  · exact hnamed ['\r'] (by simp)

/-- A distance without digits is read as a distance. -/
theorem updateOf_dist_without_digits :
    updateOf u (encodeUtf8 "Dist:".toList) = some (.distance []) ∧
      updateOf u (encodeUtf8 "Dist:-".toList) = some (.distance ['-']) := ⟨rfl, rfl⟩

/-- A number between zero and one that fits an `int` fits it. -/
theorem fitsInt32_of_between {n m : ℤ} (h : FitsInt32 n) (hlow : min 0 n ≤ m)
    (hhigh : m ≤ max 0 n) : FitsInt32 m := by
  unfold FitsInt32 at h ⊢
  omega

/-- The same line with another number. -/
def withValue (n : ℤ) : FirmwareLine → FirmwareLine
  | .m1 _ => .m1 n
  | .m2 _ => .m2 n
  | .dist _ => .dist n

/-- Without its colon a name is not recognised. -/
theorem updateOf_of_name_begun {l : FirmwareLine} {t : Text} (ht : t <+: l.name)
    (hne : t ≠ l.name) : updateOf u (encodeUtf8 t) = none := by
  obtain ⟨start, hstart, hcolon⟩ : ∃ start, l.name = start ++ [':'] ∧ ':' ∉ start := by
    cases l with
    | m1 speed => exact ⟨"M1".toList, rfl, by decide⟩
    | m2 speed => exact ⟨"M2".toList, rfl, by decide⟩
    | dist distance => exact ⟨"Dist".toList, rfl, by decide⟩
  have hascii : t.all isAscii = true := List.all_eq_true.mpr fun c hc =>
    List.all_eq_true.mp l.name_ascii c (ht.subset hc)
  rw [hstart] at ht hne
  have hbegun := (List.prefix_concat_iff.mp ht).resolve_left hne
  refine updateOf_eq_none_of_not_mem fun hmem => hcolon (hbegun.subset ?_)
  rw [decodeLine_ascii hascii] at hmem
  exact Python.mem_of_mem_strStrip hmem

/-- A line that stops in its number is taken for a line with the number so far. -/
theorem updateOf_of_number_begun {l : FirmwareLine} (hl : l.Printable) {w : Text}
    (hw : w <+: intText l.value) :
    updateOf u (encodeUtf8 (l.name ++ w)) = none ∨
      (∃ l' : FirmwareLine, l'.Printable ∧ Unterminated l' (encodeUtf8 (l.name ++ w))) ∨
      l.name ++ w = "Dist:".toList ∨ l.name ++ w = "Dist:-".toList := by
  rcases prefix_intText_cases hw with rfl | rfl | ⟨m, hlow, hhigh, rfl⟩
  · cases l with
    | m1 speed => exact Or.inl rfl
    | m2 speed => exact Or.inl rfl
    | dist distance => exact Or.inr (Or.inr (Or.inl rfl))
  · cases l with
    | m1 speed => exact Or.inl rfl
    | m2 speed => exact Or.inl rfl
    | dist distance => exact Or.inr (Or.inr (Or.inr rfl))
  · refine Or.inr (Or.inl ⟨withValue m l, ?_, Or.inl ?_⟩)
    · cases l with
      | m1 speed => exact fitsInt32_of_between hl hlow hhigh
      | m2 speed => exact fitsInt32_of_between hl hlow hhigh
      | dist distance => trivial
    · cases l <;> rfl

/-- A beginning of a line that stores something looks like another line. -/
theorem updateOf_of_beginning {l : FirmwareLine} (hl : l.Printable) {last p : List UInt8}
    (h : last ++ p = l.bytes) (hp : p ≠ []) :
    updateOf u last = none ∨ (∃ l' : FirmwareLine, l'.Printable ∧ Unterminated l' last) ∨
      last = encodeUtf8 "Dist:".toList ∨ last = encodeUtf8 "Dist:-".toList := by
  have hascii := body_ascii l
  -- the end of line is still to come
  have hbody := prefix_of_append_eq_concat (h.trans (bytes_eq l).1) hp
  obtain ⟨t, ht, rfl⟩ : ∃ t, t <+: l.name ++ intText l.value ++ ['\r'] ∧ last = encodeUtf8 t := by
    rw [encodeUtf8_ascii hascii] at hbody
    obtain ⟨t, ht, rfl⟩ := List.prefix_map_iff.mp hbody
    refine ⟨t, ht, (encodeUtf8_ascii (List.all_eq_true.mpr fun c hc => ?_)).symm⟩
    exact List.all_eq_true.mp hascii c (ht.subset hc)
  rcases List.prefix_concat_iff.mp ht with rfl | ht
  · exact Or.inr (Or.inl ⟨l, hl, Or.inr rfl⟩)
  by_cases hname : l.name <+: t
  · obtain ⟨w, rfl⟩ := hname
    rw [List.prefix_append_right_inj] at ht
    exact (updateOf_of_number_begun hl ht).imp_right
      (Or.imp_right (Or.imp (congrArg encodeUtf8) (congrArg encodeUtf8)))
  · have hshort : t <+: l.name :=
      (List.prefix_or_prefix_of_prefix ht (List.prefix_append _ _)).resolve_right hname
    refine Or.inl (updateOf_of_name_begun hshort ?_)
    rintro rfl
    exact hname (List.prefix_refl _)

theorem exists_cons_bytes (l : FirmwareLine) : ∃ b tail, l.bytes = b :: tail := by
  refine List.exists_cons_of_ne_nil ?_
  rw [(bytes_eq l).1]
  exact List.append_ne_nil_of_right_ne_nil _ (List.cons_ne_nil _ _)

/-- What is left of a line has no effect, unless it is the whole line. -/
theorem updateOf_of_suffix {l : FirmwareLine} (hl : l.Printable) {q : List UInt8}
    (hq : q <:+ l.bytes) : updateOf u q = none ∨ updateOf u q = some l.update := by
  obtain ⟨b, tail, hbytes⟩ := exists_cons_bytes l
  rw [hbytes, List.suffix_cons_iff, ← hbytes] at hq
  rcases hq with rfl | htail
  · exact Or.inr (updateOf_bytes u l hl)
  · refine Or.inl (@updateOf_of_infix_tail u l q ?_)
    rw [hbytes]
    exact htail.isInfix

/-- **What a time-out in a line leads to**: nothing, unless what has arrived begins with the line. -/
theorem updateOf_of_part {l : FirmwareLine} (hl : l.Printable) {last p : List UInt8} (hp : p ≠ [])
    (h : last ++ p <:+ l.bytes) :
    updateOf u last = none ∨ (∃ l' : FirmwareLine, l'.Printable ∧ Unterminated l' last) ∨
      last = encodeUtf8 "Dist:".toList ∨ last = encodeUtf8 "Dist:-".toList := by
  obtain ⟨b, tail, hbytes⟩ := exists_cons_bytes l
  rw [hbytes, List.suffix_cons_iff, ← hbytes] at h
  rcases h with hwhole | htail
  · exact updateOf_of_beginning hl hwhole hp
  · refine Or.inl (@updateOf_of_infix_tail u l last ?_)
    rw [hbytes]
    exact (List.prefix_append last p).isInfix.trans htail.isInfix

/-! ## What waits to be read -/

/-- The bytes that have been sent of the current line, as far as they have not been read, go
on with the bytes that are still to come. -/
def Continues (last : List UInt8) : Option (FirmwareLine × List UInt8) → Prop
  | none => last = []
  | some (l, p) => l.Printable ∧ p ≠ [] ∧ last ++ p <:+ l.bytes

/-- What waits to be read are rests of sent lines, and a part of the current line. -/
structure Aligned (x : Serial) : Prop where
  printable : ∀ l ∈ x.complete, l.Printable
  pieces : ∃ (ps : List (List UInt8)) (last : List UInt8), x.rx = ps.flatten ++ last ∧
    (∀ q ∈ ps, ∃ l ∈ x.complete, q ≠ [] ∧ q <:+ l.bytes) ∧ Continues last x.current

theorem Continues.newline_not_mem {last : List UInt8}
    {current : Option (FirmwareLine × List UInt8)} (h : Continues last current) : 10 ∉ last := by
  cases current with
  | none =>
      rw [show last = [] from h]
      exact List.not_mem_nil
  | some lp => exact TornLines.newline_not_mem h.2.2 h.2.1

variable {x x' : Serial}

/-- A line that is read to its end is what is left of a line that has been sent. -/
theorem Aligned.readLine (h : Aligned x) {line rest : List UInt8}
    (hcut : cut 10 x.rx = some (line, rest)) (t : Telemetry) :
    (∃ l ∈ x.complete, line ++ [10] <:+ l.bytes) ∧ Aligned { x with rx := rest, telemetry := t } := by
  obtain ⟨ps, last, hrx, hps, hlast⟩ := h.pieces
  cases ps with
  | nil =>
      rw [hrx, List.flatten_nil, List.nil_append, cut_eq_none_iff.mpr hlast.newline_not_mem] at hcut
      cases hcut
  | cons q ps =>
      obtain ⟨l, hl, hne, hq⟩ := hps q List.mem_cons_self
      obtain ⟨body, rfl, hbody⟩ := rest_eq hq hne
      rw [hrx, List.flatten_cons, List.append_assoc, List.append_assoc, List.singleton_append,
        cut_append hbody] at hcut
      obtain ⟨rfl, rfl⟩ := Prod.mk.inj (Option.some.inj hcut)
      exact ⟨⟨l, hl, hq⟩, h.printable, ps, last, rfl,
        fun q' hq' => hps q' (List.mem_cons_of_mem _ hq'), hlast⟩

/-- What is read at a time-out is a part of the current line. -/
theorem Aligned.timeOut (h : Aligned x) (hne : x.rx ≠ []) (hline : 10 ∉ x.rx) (t : Telemetry) :
    (∃ (l : FirmwareLine) (p : List UInt8), l.Printable ∧ p ≠ [] ∧ x.rx ++ p <:+ l.bytes) ∧
      Aligned { x with rx := [], telemetry := t } := by
  obtain ⟨ps, last, hrx, hps, hlast⟩ := h.pieces
  -- a whole rest would have an end of line
  have hnil : ps = [] := by
    refine List.eq_nil_iff_forall_not_mem.mpr fun q hq => hline ?_
    obtain ⟨l, -, hqne, hsuffix⟩ := hps q hq
    obtain ⟨body, rfl, -⟩ := rest_eq hsuffix hqne
    rw [hrx]
    exact List.mem_append_left _ (List.mem_flatten.mpr ⟨_, hq, by simp⟩)
  rw [hnil, List.flatten_nil, List.nil_append] at hrx
  rw [hrx] at hne ⊢
  cases hcurrent : x.current with
  | none =>
      rw [hcurrent] at hlast
      exact absurd hlast hne
  | some lp =>
      obtain ⟨l, p⟩ := lp
      rw [hcurrent] at hlast
      obtain ⟨hl, hp, hsuffix⟩ := hlast
      exact ⟨⟨l, p, hl, hp, hsuffix⟩, h.printable, [], [], rfl, by simp, hl, hp,
        (List.suffix_append _ _).trans hsuffix⟩

theorem Aligned.printLine (h : Aligned x) (hcurrent : x.current = none) {l : FirmwareLine}
    (hl : l.Printable) : Aligned { x with current := some (l, l.bytes) } := by
  obtain ⟨ps, last, hrx, hps, hlast⟩ := h.pieces
  rw [hcurrent] at hlast
  have hne : l.bytes ≠ [] := by
    obtain ⟨b, tail, hbytes⟩ := exists_cons_bytes l
    exact hbytes ▸ List.cons_ne_nil b tail
  have hwhole : last ++ l.bytes <:+ l.bytes := by rw [show last = [] from hlast, List.nil_append]
  exact ⟨h.printable, ps, last, hrx, hps, hl, hne, hwhole⟩

/-- The last byte of a line arrives. -/
theorem Aligned.sendLast (h : Aligned x) {l : FirmwareLine} {b : UInt8}
    (hcurrent : x.current = some (l, [b])) :
    Aligned { x with complete := x.complete ++ [l], current := none, rx := x.rx ++ [b] } := by
  obtain ⟨ps, last, hrx, hps, hlast⟩ := h.pieces
  rw [hcurrent] at hlast
  obtain ⟨hl, -, hsuffix⟩ := hlast
  constructor
  · exact List.forall_mem_append.mpr ⟨h.printable, by simpa using hl⟩
  · refine ⟨ps ++ [last ++ [b]], [], by simp [hrx], List.forall_mem_append.mpr ⟨?_, ?_⟩, rfl⟩
    · intro q hq
      obtain ⟨l', hl', hq⟩ := hps q hq
      exact ⟨l', List.mem_append_left _ hl', hq⟩
    · intro q hq
      obtain rfl := List.mem_singleton.mp hq
      exact ⟨l, by simp, by simp, hsuffix⟩

/-- Another byte of a line arrives. -/
theorem Aligned.sendNext (h : Aligned x) {l : FirmwareLine} {b : UInt8} {rest : List UInt8}
    (hcurrent : x.current = some (l, b :: rest)) (hrest : rest ≠ []) :
    Aligned { x with current := some (l, rest), rx := x.rx ++ [b] } := by
  obtain ⟨ps, last, hrx, hps, hlast⟩ := h.pieces
  rw [hcurrent] at hlast
  obtain ⟨hl, -, hsuffix⟩ := hlast
  refine ⟨h.printable, ps, last ++ [b], by simp [hrx], hps, hl, hrest, ?_⟩
  rwa [List.append_assoc, List.singleton_append]

/-- **What an event does.** -/
theorem step_cases {e : Event} (hs : step u x e = some x') :
    (∃ l : FirmwareLine, e = .printLine l ∧ x.current = none ∧ l.Printable ∧
      x' = { x with current := some (l, l.bytes) }) ∨
    (∃ l b, e = .sendByte ∧ x.current = some (l, [b]) ∧
      x' = { x with complete := x.complete ++ [l], current := none, rx := x.rx ++ [b] }) ∨
    (∃ l b rest, e = .sendByte ∧ x.current = some (l, b :: rest) ∧ rest ≠ [] ∧
      x' = { x with current := some (l, rest), rx := x.rx ++ [b] }) ∨
    (∃ line rest, e = .readLine ∧ cut 10 x.rx = some (line, rest) ∧
      x' = { x with rx := rest, telemetry := x.telemetry.readLine u (line ++ [10]) }) ∨
    (e = .timeOut ∧ x.rx ≠ [] ∧ 10 ∉ x.rx ∧
      x' = { x with rx := [], telemetry := x.telemetry.readLine u x.rx }) := by
  cases e with
  | printLine l =>
      simp only [step] at hs
      split_ifs at hs with hguard
      exact Or.inl ⟨l, rfl, hguard.1, hguard.2, (Option.some.inj hs).symm⟩
  | sendByte =>
      simp only [step] at hs
      split at hs
      · next l b hcurrent =>
          exact Or.inr (Or.inl ⟨l, b, rfl, hcurrent, (Option.some.inj hs).symm⟩)
      · next l b rest hmore hcurrent =>
          exact Or.inr (Or.inr (Or.inl ⟨l, b, rest, rfl, hcurrent, hmore,
            (Option.some.inj hs).symm⟩))
      · cases hs
  | readLine =>
      simp only [step] at hs
      split at hs
      · next line rest hcut =>
          exact Or.inr (Or.inr (Or.inr (Or.inl ⟨line, rest, rfl, hcut, (Option.some.inj hs).symm⟩)))
      · cases hs
  | timeOut =>
      simp only [step] at hs
      split_ifs at hs with hguard
      exact Or.inr (Or.inr (Or.inr (Or.inr ⟨rfl, hguard.1, hguard.2, (Option.some.inj hs).symm⟩)))

theorem Aligned.step {e : Event} (h : Aligned x) (hs : step u x e = some x') : Aligned x' := by
  rcases step_cases hs with ⟨l, -, hcurrent, hl, rfl⟩ | ⟨l, b, -, hcurrent, rfl⟩ |
    ⟨l, b, rest, -, hcurrent, hmore, rfl⟩ | ⟨line, rest, -, hcut, rfl⟩ | ⟨-, hne, hline, rfl⟩
  · exact h.printLine hcurrent hl
  · exact h.sendLast hcurrent
  · exact h.sendNext hcurrent hmore
  · exact (h.readLine hcut _).2
  · exact (h.timeOut hne hline _).2

/-! ## What the globals show -/

theorem Shown.mono {complete complete' : List FirmwareLine} {t : Telemetry}
    (h : Shown complete t) (hsub : ∀ l ∈ complete, l ∈ complete') : Shown complete' t := by
  have hsent : ∀ {l}, Sent complete l → Sent complete' l := fun hl => hl.imp_left (hsub _)
  exact ⟨hsent h.m1, hsent h.m2, h.distance.imp_right fun ⟨d, hd, heq⟩ => ⟨d, hsent hd, heq⟩⟩

/-- A line that is taken for whole must have been sent. -/
theorem Shown.assign_iff {complete : List FirmwareLine} {t : Telemetry} (h : Shown complete t)
    (l : FirmwareLine) : Shown complete (t.assign l.update) ↔ Sent complete l := by
  cases l with
  | m1 speed => exact ⟨fun h' => h'.m1, fun hl => ⟨hl, h.m2, h.distance⟩⟩
  | m2 speed => exact ⟨fun h' => h'.m2, fun hl => ⟨h.m1, hl, h.distance⟩⟩
  | dist distance =>
      constructor
      · intro h'
        rcases h'.distance with hmark | ⟨d, hd, heq⟩
        · have hletter : 'N' ∈ intText distance := by
            rw [show intText distance = "N/A".toList from hmark]
            decide
          exact absurd hletter (not_mem_intText (by decide) (by decide) _)
        · rwa [intText_injective heq]
      · exact fun hl => ⟨h.m1, h.m2, Or.inr ⟨distance, hl, rfl⟩⟩

/-- A distance that is no number has not been sent. -/
theorem not_shown_assign_distance {complete : List FirmwareLine} {t : Telemetry} {w : Text}
    (hmark : w ≠ "N/A".toList) (hw : ∀ d, intText d ≠ w) :
    ¬ Shown complete (t.assign (.distance w)) := by
  intro h
  rcases h.distance with heq | ⟨d, -, heq⟩
  · exact hmark heq
  · exact hw d heq.symm

/-- What a torn line stores has not been sent. -/
theorem exists_update_of_torn (h : Torn x .timeOut) :
    ∃ update, updateOf u x.rx = some update ∧ ∀ t : Telemetry, Shown x.complete t →
      ¬ Shown x.complete (t.assign update) := by
  rcases h with ⟨l, hl, hline, hsent⟩ | hdist | hdist
  · exact ⟨l.update, updateOf_unterminated hl hline, fun t ht h => hsent ((ht.assign_iff l).mp h)⟩
  · rw [hdist]
    exact ⟨_, updateOf_dist_without_digits.1, fun t _ =>
      not_shown_assign_distance (by decide) intText_ne_nil⟩
  · rw [hdist]
    exact ⟨_, updateOf_dist_without_digits.2, fun t _ =>
      not_shown_assign_distance (by decide) intText_ne_minus⟩

/-- What is read to an end of line stores nothing that has not been sent. -/
theorem Good.readLine (ha : Aligned x) (hx : Good x) {line rest : List UInt8}
    (hcut : cut 10 x.rx = some (line, rest)) :
    Shown x.complete (x.telemetry.readLine u (line ++ [10])) := by
  obtain ⟨⟨l, hl, hsuffix⟩, -⟩ := ha.readLine hcut x.telemetry
  rw [Telemetry.readLine]
  rcases updateOf_of_suffix (ha.printable l hl) hsuffix with hnone | hsome
  · rwa [hnone]
  · rw [hsome]
    exact (hx.assign_iff l).mpr (Or.inl hl)

theorem Good.timeOut_iff (ha : Aligned x) (hx : Good x) (hne : x.rx ≠ []) (hline : 10 ∉ x.rx) :
    Shown x.complete (x.telemetry.readLine u x.rx) ↔ ¬ Torn x .timeOut := by
  obtain ⟨⟨l, p, hl, hp, hsuffix⟩, -⟩ := ha.timeOut hne hline x.telemetry
  rw [Telemetry.readLine]
  constructor
  · intro hgood htorn
    obtain ⟨update, hupdate, hnot⟩ := @exists_update_of_torn u x htorn
    rw [hupdate] at hgood
    exact hnot x.telemetry hx hgood
  · intro htorn
    rcases updateOf_of_part hl hp hsuffix with hnone | ⟨l', hl', hline⟩ | hdist
    · rwa [hnone]
    · rw [updateOf_unterminated hl' hline]
      refine (hx.assign_iff l').mpr ?_
      by_contra hsent
      exact htorn (Or.inl ⟨l', hl', hline, hsent⟩)
    · exact absurd (Or.inr hdist) htorn

/-- **When a step keeps the globals at what has been sent.** -/
theorem good_step_iff {e : Event} (ha : Aligned x) (hx : Good x) (hs : step u x e = some x') :
    Good x' ↔ ¬ Torn x e := by
  rcases step_cases hs with ⟨l, rfl, -, -, rfl⟩ | ⟨l, b, rfl, -, rfl⟩ |
    ⟨l, b, rest, rfl, -, -, rfl⟩ | ⟨line, rest, rfl, hcut, rfl⟩ | ⟨rfl, hne, hline, rfl⟩
  · exact iff_of_true hx id
  · exact iff_of_true (hx.mono fun l' hl => List.mem_append_left _ hl) id
  · exact iff_of_true hx id
  · exact iff_of_true (hx.readLine ha hcut) id
  · exact hx.timeOut_iff ha hne hline

/-! ## Runs -/

/-- **When the globals show what has been sent**: exactly as long as no time-out comes at a torn
line. -/
theorem telemetry_sent_iff (u : UnicodeTables) (events : List Event) :
    (machine u).Throughout Good events ↔ (machine u).Avoids Torn events := by
  refine Machine.throughout_iff_avoids (I := Aligned) ?_ ?_ (fun _ _ _ ha hs => ha.step hs)
    (fun _ _ _ ha hx hs => good_step_iff ha hx hs) events
  · exact ⟨by simp [machine], [], [], rfl, by simp, rfl⟩
  · exact ⟨Or.inr (Or.inl rfl), Or.inr (Or.inr rfl), Or.inl rfl⟩

/-- The board prints the speed -255, and the time-out comes before its last digit. -/
theorem speed_read_in_pieces : ¬ ∀ events, (machine .bare).Throughout Good events := by
  intro h
  have hgood := (h (.printLine (.m1 (-255)) :: List.replicate 6 .sendByte ++ [.timeOut]) _
    (List.prefix_refl _) _ rfl).m1
  revert hgood
  unfold Sent
  decide +kernel

end TornLines
