/-
# A command from the page to the firmware

The page joins six values into a text, the server takes it apart and joins it again,
the firmware takes it apart once more.  This file follows the six values through:

* `parseTankCommand_tankCommandUrl`: the server finds the values the page sent;
* `readStringUntil_messageToSend`: the firmware reads the line the server wrote;
* `parseEvents_lineOf`: the firmware's parser assigns the six values of a line, one
  to each field;
* `command_round_trip`: all of it together.
-/
import ProjectTank.JoystickText
import ProjectTank.MotorDrive
import ProjectTank.TankServer

open ProgramText DecimalText SeparatedText TankFirmware TankServer

namespace CommandLink

/-! ## The line and the fields of the firmware -/

/-- The key of each field. -/
def keyOf : Field → Text
  | .forwardReverse => "FR".toList
  | .leftRight => "LR".toList
  | .upDown => "UD".toList
  | .turretLeftRight => "TLR".toList
  | .fireCannon => "FC".toList
  | .lightControl => "LC".toList

/-- The fields in the order of a line. -/
def fields : List Field :=
  [.forwardReverse, .leftRight, .upDown, .turretLeftRight, .fireCannon, .lightControl]

/-- The line of a value for each field. -/
def lineOf (v : Field → ℤ) : Text :=
  commandLine (v .forwardReverse) (v .leftRight) (v .upDown) (v .turretLeftRight)
    (v .fireCannon) (v .lightControl)

/-- A part of a line. -/
def segment (v : Field → ℤ) (f : Field) : Text := keyOf f ++ ':' :: intText (v f)

/-- A line consists of its parts, joined with semicolons. -/
theorem lineOf_eq (v : Field → ℤ) : lineOf v = [';'].intercalate (fields.map (segment v)) := by
  unfold lineOf commandLine fields List.intercalate
  simp only [List.append_assoc, List.map_cons, List.map_nil, List.intersperse_cons_cons,
    List.intersperse_singleton, List.flatten_cons, List.flatten_nil]
  unfold segment keyOf
  simp only [List.append_assoc, List.append_nil, List.cons_append]
  rfl

theorem semicolon_not_mem_segment (v : Field → ℤ) (f : Field) : ';' ∉ segment v f := by
  rw [segment, List.mem_append, List.mem_cons, not_or, not_or]
  refine ⟨?_, by decide, not_mem_intText (by decide) (by decide) (v f)⟩
  cases f <;> decide

theorem splitOn_lineOf (v : Field → ℤ) : (lineOf v).splitOn ';' = fields.map (segment v) := by
  have hparts : ∀ part ∈ fields.map (segment v), ';' ∉ part := by
    intro part hpart
    obtain ⟨f, -, rfl⟩ := List.mem_map.mp hpart
    exact semicolon_not_mem_segment v f
  rw [lineOf_eq, List.splitOn_intercalate ';' hparts (by simp [fields])]

theorem cut_segment (v : Field → ℤ) (f : Field) :
    cut ':' (segment v f) = some (keyOf f, intText (v f)) :=
  cut_append (by cases f <;> decide) _

/-! ## The firmware's side -/

theorem fieldOf_keyOf (f : Field) : fieldOf (keyOf f) = some f := by
  cases f <;> decide

/-- **The firmware's parser makes exactly six assignments of a line**, one to each field. -/
theorem parseEvents_lineOf (v : Field → ℤ) :
    parseEvents (lineOf v) = fields.map fun f => .assign f (Arduino.clipLong (v f)) := by
  have hpart : ∀ f, processPart (segment v f) = some (.assign f (Arduino.clipLong (v f))) :=
    fun f => processPart_segment (by cases f <;> decide) (fieldOf_keyOf f) (v f)
  rw [parseEvents_eq, splitOn_lineOf, List.filterMap_map]
  simp only [fields, List.filterMap_cons, List.filterMap_nil, Function.comp, hpart, List.map_cons,
    List.map_nil]

theorem lastAssigned_lineOf (v : Field → ℤ) (f : Field) :
    lastAssigned f (parseEvents (lineOf v)) = some (Arduino.clipLong (v f)) := by
  rw [parseEvents_lineOf]
  cases f <;> rfl

theorem lineOf_ascii (v : Field → ℤ) : (lineOf v).all isAscii = true := commandLine_ascii ..

theorem lineOf_ne_nil (v : Field → ℤ) : lineOf v ≠ [] := by
  have hhead : (lineOf v).head? = some 'F' := rfl
  intro hnil
  rw [hnil] at hhead
  exact absurd hhead (by simp)

/-- `trim` finds nothing to remove. -/
theorem trim_lineOf (v : Field → ℤ) : Arduino.trim (lineOf v) = lineOf v := by
  refine strip_eq_self ?_ ?_
  · intro c hc
    have hhead : (lineOf v).head? = some 'F' := rfl
    obtain rfl : 'F' = c := Option.some.inj (hhead.symm.trans hc)
    decide
  · intro c hc
    obtain ⟨d, hd⟩ := Option.ne_none_iff_exists'.mp
      (mt List.getLast?_eq_none_iff.mp (intText_ne_nil (v .lightControl)))
    have hlast : (lineOf v).getLast? = some d := by
      unfold lineOf commandLine
      rw [List.getLast?_append, hd]
      rfl
    obtain rfl : d = c := Option.some.inj (hlast.symm.trans hc)
    rcases mem_intText (List.mem_of_getLast? hd) with h | rfl
    · exact isSpace_of_isDigit h
    · decide

/-- The newline comes only at the end of what the server writes. -/
theorem newline_not_mem_bytes (v : Field → ℤ) : (10 : UInt8) ∉ encodeUtf8 (lineOf v) :=
  fun hmem => newline_not_mem_commandLine _ _ _ _ _ _ (mem_of_mem_encodeUtf8 (lineOf_ascii v) hmem)

/-- **The firmware reads back the line that the server wrote**, and nothing of what
follows it. -/
theorem readStringUntil_messageToSend (v : Field → ℤ) (rest : List UInt8) :
    Arduino.readStringUntil 10 (messageToSend (lineOf v) ++ rest) = (lineOf v, rest) := by
  have hbytes : messageToSend (lineOf v) ++ rest = encodeUtf8 (lineOf v) ++ 10 :: rest := by
    rw [messageToSend, encodeUtf8_append, List.append_assoc]
    rfl
  rw [hbytes, Arduino.readStringUntil, cut_append (newline_not_mem_bytes v)]
  simp only [ofBytes_encodeUtf8 (lineOf_ascii v)]

/-- The receive block of `loop`, on a line of the server. -/
theorem get_receive_lineOf (g : Globals) (v : Field → ℤ) (f : Field) :
    (receive g (lineOf v)).1.get f = Arduino.clipLong (v f) := by
  have h := get_receiveIfAvailable g { received := some (lineOf v) } f
  have hevents : ({ received := some (lineOf v) } : Iteration).events = parseEvents (lineOf v) := by
    show parseEvents (Arduino.trim (lineOf v)) = _
    rw [trim_lineOf]
  rw [hevents, lastAssigned_lineOf, Option.getD_some] at h
  exact h

/-! ## The server's side -/

theorem keyOf_injective {f f' : Field} (h : keyOf f = keyOf f') : f = f' := by
  have hf := fieldOf_keyOf f
  rw [h, fieldOf_keyOf f'] at hf
  exact (Option.some.inj hf).symm

/-- The keys are in upper case already. -/
theorem toUpperCase_keyOf (u : UnicodeTables) (f : Field) : toUpperCase u (keyOf f) = keyOf f := by
  rw [toUpperCase_ascii u (by cases f <;> decide)]
  cases f <;> decide

/-- The server decodes the command of the page's URL. -/
theorem commandStr_tankCommandUrl {cmd : Text} (h : cmd.all isAscii = true) (hne : cmd ≠ []) :
    commandStr (JoystickPage.tankCommandUrl cmd) = cmd := by
  set value := JoystickPage.encodeURIComponent cmd with hvalue
  have hdecode : Python.unquote (Python.replacePlus value) = cmd :=
    JoystickPage.unquote_encodeURIComponent h
  have hno : ∀ {c : Char}, JoystickPage.isUnreserved c = false → c ≠ '%' → c ∉ value :=
    fun hun hpercent => JoystickPage.not_mem_encodeURIComponent hun hpercent cmd
  have hvalue_ne : value ≠ [] := by
    intro hnil
    rw [hnil] at hdecode
    exact hne hdecode.symm
  have hquery : '?' ∉ "cmd".toList ++ '=' :: value := by
    rw [List.mem_append, List.mem_cons, not_or, not_or]
    exact ⟨by decide, by decide, hno (by decide) (by decide)⟩
  have hamp : '&' ∉ "cmd".toList ++ '=' :: value := by
    rw [List.mem_append, List.mem_cons, not_or, not_or]
    exact ⟨by decide, by decide, hno (by decide) (by decide)⟩
  have hurl : JoystickPage.tankCommandUrl cmd =
      "/tank_command".toList ++ '?' :: ("cmd".toList ++ '=' :: value) := rfl
  rw [hurl, commandStr, Python.splitquery_append hquery]
  simp only [Python.parseQs_single (by decide) hvalue_ne hamp (by decide), List.headD_cons, hdecode]

/-- **The server finds the values that the page sent.** -/
theorem parseTankCommand_tankCommandUrl (u : UnicodeTables) {v : Field → ℤ}
    (hv : ∀ f, FitsInt32 (v f)) (f : Field) :
    parseTankCommand u (JoystickPage.tankCommandUrl (lineOf v)) (keyOf f) = some (v f) := by
  have hcmd := commandStr_tankCommandUrl (lineOf_ascii v) (lineOf_ne_nil v)
  rw [parseTankCommand_eq_lastAccepted, hcmd, lastAccepted, splitOn_lineOf, List.filterMap_map]
  have haccepted : ∀ f', acceptedValue u (keyOf f) (segment v f') =
      if f' = f then some (v f') else none := by
    intro f'
    rw [acceptedValue, cut_segment, Option.bind_some, toUpperCase_keyOf,
      Python.int_intText_of_fitsInt32 u (hv f')]
    by_cases hf : f' = f
    · rw [if_pos (congrArg keyOf hf), if_pos hf]
    · rw [if_neg fun heq => hf (keyOf_injective heq), if_neg hf]
  simp only [fields, List.filterMap_cons, List.filterMap_nil, Function.comp, haccepted]
  cases f <;> rfl

/-- The values a command is about. -/
theorem formatCommand_of_values {commandData : CommandData} {v : Field → ℤ}
    (h : ∀ f, commandData (keyOf f) = some (v f)) : formatCommand commandData = .ok (lineOf v) :=
  formatCommand_eq_ok_iff.mpr ⟨_, h .forwardReverse, _, h .leftRight, _, h .upDown, _,
    h .turretLeftRight, _, h .fireCannon, _, h .lightControl, rfl⟩

/-- Six values, one for each field. -/
def valuesOf (fr lr ud tlr fc lc : ℤ) : Field → ℤ
  | .forwardReverse => fr
  | .leftRight => lr
  | .upDown => ud
  | .turretLeftRight => tlr
  | .fireCannon => fc
  | .lightControl => lc

/-- The page's text is the line that the server writes for the same values. -/
theorem rawCommand_eq_lineOf (fr lr ud tlr fc lc : ℤ) :
    JoystickPage.rawCommand fr lr ud tlr fc lc = lineOf (valuesOf fr lr ud tlr fc lc) := rfl

/-- The fields of the firmware after a line of 32-bit values. -/
theorem get_of_lineOf (g : Globals) {v : Field → ℤ} (hv : ∀ f, FitsInt32 (v f)) (f : Field) :
    (parseCommand g (Arduino.trim (lineOf v))).1.get f = v f ∧
      (receive g (lineOf v)).1.get f = v f := by
  rw [get_receive_lineOf, trim_lineOf, get_parseCommand, lastAssigned_lineOf, Option.getD_some,
    Arduino.clipLong_eq_self (hv f)]
  exact ⟨rfl, rfl⟩

/-- **The round trip.**  For any six values of a 32-bit `int`, any state of the firmware
and anything that follows on the serial line: the server formats a line for the page's
request, the firmware reads exactly that line, and both `parseCommand` and the receive
block around it leave the six values in the six fields. -/
theorem command_round_trip (u : UnicodeTables) (g : Globals) (rest : List UInt8)
    (fr lr ud tlr fc lc : ℤ) (hfr : FitsInt32 fr) (hlr : FitsInt32 lr) (hud : FitsInt32 ud)
    (htlr : FitsInt32 tlr) (hfc : FitsInt32 fc) (hlc : FitsInt32 lc) :
    ∃ line received,
      formatCommand (parseTankCommand u
        (JoystickPage.tankCommandUrl (JoystickPage.rawCommand fr lr ud tlr fc lc))) = .ok line ∧
      Arduino.readStringUntil 10 (messageToSend line ++ rest) = (received, rest) ∧
      ∀ g' ∈ [(parseCommand g (Arduino.trim received)).1, (receive g received).1],
        g'.forwardReverse = fr ∧ g'.leftRight = lr ∧ g'.upDown = ud ∧
          g'.turretLeftRight = tlr ∧ g'.fireCannon = fc ∧ g'.lightControl = lc := by
  have hv : ∀ f, FitsInt32 (valuesOf fr lr ud tlr fc lc f) := by
    intro f
    cases f <;> assumption
  rw [rawCommand_eq_lineOf]
  generalize hvdef : valuesOf fr lr ud tlr fc lc = v at hv
  refine ⟨lineOf v, lineOf v, formatCommand_of_values (parseTankCommand_tankCommandUrl u hv),
    readStringUntil_messageToSend v rest, ?_⟩
  intro g' hg'
  have hget : ∀ f, g'.get f = valuesOf fr lr ud tlr fc lc f := by
    intro f
    simp only [List.mem_cons, List.not_mem_nil, or_false] at hg'
    rw [hvdef]
    rcases hg' with heq | heq
    · rw [heq]
      exact (get_of_lineOf g hv f).1
    · rw [heq]
      exact (get_of_lineOf g hv f).2
  exact ⟨hget .forwardReverse, hget .leftRight, hget .upDown, hget .turretLeftRight,
    hget .fireCannon, hget .lightControl⟩

/-- The round trip at both ends of the range. -/
theorem command_round_trip_extremes :
    ∃ line received,
      formatCommand (parseTankCommand .bare (JoystickPage.tankCommandUrl
        (JoystickPage.rawCommand (-2147483648) 2147483647 (-7) 0 1 1))) = .ok line ∧
      Arduino.readStringUntil 10 (messageToSend line ++ []) = (received, []) ∧
      ∀ g' ∈ [(parseCommand { lastFired := 0 } (Arduino.trim received)).1,
          (receive { lastFired := 0 } received).1],
        g'.forwardReverse = -2147483648 ∧ g'.leftRight = 2147483647 ∧ g'.upDown = -7 ∧
          g'.turretLeftRight = 0 ∧ g'.fireCannon = 1 ∧ g'.lightControl = 1 :=
  command_round_trip .bare { lastFired := 0 } [] (-2147483648) 2147483647 (-7) 0 1 1
    (by decide) (by decide) (by decide) (by decide) (by decide) (by decide)

end CommandLink
