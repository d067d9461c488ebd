/-
# From the firmware to the telemetry (`espWorkProject_fixed.ino`, `web_fixed.py`)

An iteration of `loop` prints a warning for each unknown key, whose text comes from the command,
then the two motor speeds and the distance.  The reader takes line by line what the board has
sent.

* `iteration_lines`: the lines of an iteration, and what reading them does;
* `reported_values`: when the lines of an iteration have been read, the telemetry is what that
  iteration did.
-/
import ProjectTank.MotorDrive
import ProjectTank.SerialReader
import ProjectTank.Transition

open ProgramText DecimalText SeparatedText TankFirmware SerialReader

namespace TelemetryLink

/-! ## What is printed -/

/-- The bytes that `Serial.print` sends for a text. -/
def toBytes (s : Text) : List UInt8 := s.map fun c => UInt8.ofNat c.toNat

/-- The text that actions print. -/
def printed (as : List Action) : Text :=
  as.flatMap fun
    | .serialPrint s => s
    | _ => []

theorem sent_performAll (b : Board) (as : List Action) :
    (b.performAll as).sent = b.sent ++ printed as := by
  induction as generalizing b with
  | nil => exact (List.append_nil _).symm
  | cons a as ih =>
      show ((b.perform a).performAll as).sent = _
      rw [ih]
      cases a with
      | serialPrint s => exact List.append_assoc b.sent s (printed as)
      | _ => rfl

theorem printed_append (as as' : List Action) : printed (as ++ as') = printed as ++ printed as' :=
  List.flatMap_append

/-- A character that is one byte on the line, and not its end. -/
def OnWire (s : Text) : Prop := ∀ c ∈ s, c.toNat < 256 ∧ c ≠ '\n'

theorem onWire_of_ascii {s : Text} (h : s.all isAscii = true) (hnl : '\n' ∉ s) : OnWire s := by
  intro c hc
  have hlt : c.toNat < 128 := by simpa [isAscii] using List.all_eq_true.mp h c hc
  exact ⟨by omega, fun heq => hnl (heq ▸ hc)⟩

/-- The end of a line is not in the bytes of such a text. -/
theorem newline_not_mem_toBytes {s : Text} (h : OnWire s) : (10 : UInt8) ∉ toBytes s := by
  intro hmem
  obtain ⟨c, hc, hbyte⟩ := List.mem_map.mp hmem
  obtain ⟨hlt, hne⟩ := h c hc
  have hcode := congrArg UInt8.toNat hbyte
  rw [UInt8.toNat_ofNat', Nat.mod_eq_of_lt hlt] at hcode
  exact hne (by rw [← Char.ofNat_toNat c, hcode]; rfl)

theorem onWire_readStringUntil (rx : List UInt8) : OnWire (Arduino.readStringUntil 10 rx).1 := by
  have hbytes : ∀ bs : List UInt8, 10 ∉ bs → OnWire (ofBytes bs) := by
    intro bs hbs c hc
    obtain ⟨b, hb, rfl⟩ := List.mem_map.mp hc
    have hcode : (Char.ofNat b.toNat).toNat = b.toNat := by
      have hvalid : b.toNat.isValidChar := Or.inl (b.toNat_lt.trans (by norm_num))
      rw [Char.ofNat, dif_pos hvalid]
      rfl
    refine ⟨lt_of_eq_of_lt hcode b.toNat_lt, fun hnl => hbs ?_⟩
    rw [hnl] at hcode
    rwa [show b = 10 from UInt8.toNat_inj.mp hcode.symm] at hb
  unfold Arduino.readStringUntil
  split
  · next hcut => exact hbytes _ (eq_append_of_cut hcut).2
  · next hcut => exact hbytes _ (cut_eq_none_iff.mp hcut)

/-- What `parseCommand` prints for an unknown key. -/
def warning (key : Text) : Text :=
  "Warning: Unknown command key received: ".toList ++ key ++ ['\r', '\n']

/-- The key of a warning. -/
def unknownKey : ParseEvent → Option Text
  | .assign _ _ => none
  | .unknownKey key => some key

theorem printed_print_println (s t : Text) :
    printed [.serialPrint s, .serialPrintln t] = s ++ t ++ ['\r', '\n'] := by
  simp [printed, Action.serialPrintln]

theorem printed_events (events : List ParseEvent) :
    printed (events.flatMap ParseEvent.actions) = (events.filterMap unknownKey).flatMap warning := by
  induction events with
  | nil => rfl
  | cons e events ih =>
      rw [List.flatMap_cons, printed_append, ih, List.filterMap_cons]
      cases e with
      | assign f value => rfl
      | unknownKey key =>
          rw [ParseEvent.actions, printed_print_println]
          rfl

/-- The keys of a command on the wire are on the wire. -/
theorem onWire_unknownKey {s : Text} (h : OnWire s) :
    ∀ key ∈ (parseEvents s).filterMap unknownKey, OnWire key := by
  intro key hkey c hc
  obtain ⟨e, he, hunknown⟩ := List.mem_filterMap.mp hkey
  rw [parseEvents_eq] at he
  obtain ⟨part, hpart, hevent⟩ := List.mem_filterMap.mp he
  rw [processPart_eq, Option.map_eq_some_iff] at hevent
  obtain ⟨⟨k, v⟩, hcut, rfl⟩ := hevent
  refine h c (mem_of_mem_splitOn hpart ?_)
  rw [(eq_append_of_cut hcut).1]
  split at hunknown
  · cases hunknown
  · obtain rfl := Option.some.inj hunknown
    exact List.mem_append_left _ hc

theorem OnWire.trim {s : Text} (h : OnWire s) : OnWire (Arduino.trim s) := by
  intro c hc
  refine h c ?_
  rw [Arduino.trim, strip, List.mem_reverse] at hc
  have hrev := (List.dropWhile_suffix _).subset hc
  exact (List.dropWhile_suffix _).subset (List.mem_reverse.mp hrev)

/-! ## One iteration -/

/-- What an iteration of `loop` takes from outside: the bytes that have arrived, if any, the
clock, and the echo. -/
structure Round where
  rx : Option (List UInt8) := none
  now : ℕ := 0
  nowAccept : ℕ := 0
  echo : ℤ := 0
  deriving DecidableEq

/-- The iteration, with the line that `readStringUntil` returns. -/
def Round.iteration (r : Round) : Iteration where
  received := r.rx.map fun rx => (Arduino.readStringUntil 10 rx).1
  now := r.now
  nowAccept := r.nowAccept
  echo := r.echo

/-- The signed speed of motor 1 for the globals. -/
def speed1 (g : Globals) : ℤ :=
  constrain (mappedAxis (g.get .forwardReverse) + mappedAxis (g.get .leftRight)) (-255) 255

/-- The signed speed of motor 2. -/
def speed2 (g : Globals) : ℤ :=
  constrain (mappedAxis (g.get .forwardReverse) - mappedAxis (g.get .leftRight)) (-255) 255

/-- The three lines that end an iteration. -/
def reports (g : Globals) (i : Iteration) : List FirmwareLine :=
  [.m1 (speed1 g), .m2 (speed2 g), .dist (readDistance i)]

theorem printed_receive (g : Globals) (r : Round) :
    ∃ keys : List Text, (∀ key ∈ keys, OnWire key) ∧
      printed (receiveIfAvailable g r.iteration).2 = keys.flatMap warning := by
  have hturn : ∀ g, printed (turnTurret g) = [] := by
    intro g
    unfold turnTurret
    split_ifs <;> rfl
  cases hrx : r.rx with
  | none => exact ⟨[], by simp, by simp [receiveIfAvailable, Round.iteration, hrx, printed]⟩
  | some rx =>
      simp only [receiveIfAvailable, Round.iteration, hrx, Option.map_some, receive]
      set line := Arduino.trim (Arduino.readStringUntil 10 rx).1 with hline
      have honWire : OnWire line := (onWire_readStringUntil rx).trim
      by_cases hlen : line.length > 0
      · refine ⟨_, onWire_unknownKey honWire, ?_⟩
        rw [if_pos hlen, printed_append, hturn, List.append_nil, parseCommand, printed_events]
      · exact ⟨[], by simp, by rw [if_neg hlen, printed_append, hturn]; rfl⟩

/-- Writes to pins print nothing. -/
theorem printed_driveInputs (inA inB : Pin) (v : ℤ) : printed (driveInputs inA inB v) = [] := by
  unfold driveInputs
  split_ifs <;> rfl

theorem printed_checkLight (g : Globals) : printed (checkLight g) = [] := by
  unfold checkLight
  split_ifs <;> rfl

theorem printed_cannon (g : Globals) (i : Iteration) : printed (checkAndFireCannon g i).2 = [] := by
  unfold checkAndFireCannon
  simp only
  split_ifs <;> rfl

/-- The prints of `setMotorSpeed` make a line. -/
theorem printed_setMotorSpeed (speed : ℤ) :
    printed (setMotorSpeed 1 speed) = (FirmwareLine.m1 (constrain speed (-255) 255)).text ∧
      printed (setMotorSpeed 2 speed) = (FirmwareLine.m2 (constrain speed (-255) 255)).text := by
  have hprints : ∀ a b c d : Text, printed [.serialPrint a, .serialPrint b, .serialPrint c,
      .serialPrintln d] = a ++ b ++ c ++ d ++ ['\r', '\n'] := by
    intro a b c d
    simp [printed, Action.serialPrintln]
  have h1 : setMotorSpeed 1 speed = [.serialPrint "M".toList, .serialPrint (intText 1),
      .serialPrint ":".toList, .serialPrintln (intText (constrain speed (-255) 255))] ++
        driveInputs .in1Pin .in2Pin (constrain speed (-255) 255) := rfl
  have h2 : setMotorSpeed 2 speed = [.serialPrint "M".toList, .serialPrint (intText 2),
      .serialPrint ":".toList, .serialPrintln (intText (constrain speed (-255) 255))] ++
        driveInputs .in3Pin .in4Pin (constrain speed (-255) 255) := rfl
  rw [h1, h2, printed_append, printed_append, hprints, hprints, printed_driveInputs,
    printed_driveInputs, List.append_nil, List.append_nil]
  exact ⟨rfl, rfl⟩

/-- **What an iteration prints**: warnings, and the three reports. -/
theorem printed_loop (g : Globals) (r : Round) :
    ∃ keys : List Text, (∀ key ∈ keys, OnWire key) ∧
      printed (loop g r.iteration).2 = keys.flatMap warning ++
        (reports (loop g r.iteration).1 r.iteration).flatMap FirmwareLine.text := by
  obtain ⟨keys, hkeys, hprinted⟩ := printed_receive g r
  refine ⟨keys, hkeys, ?_⟩
  have hget : ∀ f, f ≠ .fireCannon → (loop g r.iteration).1.get f =
      (receiveIfAvailable g r.iteration).1.get f :=
    fun f hf => get_checkAndFireCannon _ _ hf
  have hrest : printed triggerPulse = [] := rfl
  simp only [reports, speed1, speed2, hget .forwardReverse (by decide),
    hget .leftRight (by decide), List.flatMap_cons, List.flatMap_nil, List.append_nil]
  simp only [loop, updateMotors, printed_append, hprinted, printed_checkLight, printed_cannon, hrest,
    printed_setMotorSpeed, printed_print_println, List.append_assoc]
  rfl

/-! ## Reading whole lines -/

/-- Reading lines one after the other. -/
def readLines (u : UnicodeTables) (t : Telemetry) (ls : List (List UInt8)) : Telemetry :=
  ls.foldl (fun t l => t.readLine u (l ++ [10])) t

/-- The bytes are whole lines, and reading them has the effect `f`. -/
def Lines (u : UnicodeTables) (bs : List UInt8) (f : Telemetry → Telemetry) : Prop :=
  ∃ ls : List (List UInt8), (∀ l ∈ ls, 10 ∉ l) ∧ bs = ls.flatMap (· ++ [10]) ∧
    ∀ t, readLines u t ls = f t

section Lines

variable {u : UnicodeTables}

theorem Lines.nil : Lines u [] id := ⟨[], by simp, rfl, fun _ => rfl⟩

theorem Lines.line {l : List UInt8} (hl : 10 ∉ l) :
    Lines u (l ++ [10]) fun t => t.readLine u (l ++ [10]) :=
  ⟨[l], by simpa using hl, by simp, fun _ => rfl⟩

theorem Lines.append {bs bs' : List UInt8} {f g : Telemetry → Telemetry} (h : Lines u bs f)
    (h' : Lines u bs' g) : Lines u (bs ++ bs') (g ∘ f) := by
  obtain ⟨ls, hls, rfl, hf⟩ := h
  obtain ⟨ls', hls', rfl, hg⟩ := h'
  refine ⟨ls ++ ls', List.forall_mem_append.mpr ⟨hls, hls'⟩, List.flatMap_append.symm, fun t => ?_⟩
  rw [readLines, List.foldl_append]
  exact (hg _).trans (congrArg g (hf t))

/-- Bytes are whole lines in one way only. -/
theorem Lines.unique {bs : List UInt8} {f g : Telemetry → Telemetry} (h : Lines u bs f)
    (h' : Lines u bs g) : f = g := by
  obtain ⟨ls, hls, rfl, hf⟩ := h
  obtain ⟨ls', hls', heq, hg⟩ := h'
  obtain rfl := eq_of_flatMap_terminated hls hls' heq
  funext t
  rw [← hf t, hg t]

theorem toBytes_append (s t : Text) : toBytes (s ++ t) = toBytes s ++ toBytes t := List.map_append

/-- A text and an end of line are one line. -/
theorem lines_of_onWire {s : Text} (hs : OnWire s) {f : Telemetry → Telemetry}
    (hf : ∀ t : Telemetry, t.readLine u (toBytes (s ++ ['\r', '\n'])) = f t) :
    Lines u (toBytes (s ++ ['\r', '\n'])) f := by
  have hwire : OnWire (s ++ ['\r']) := by
    intro c hc
    rcases List.mem_append.mp hc with hc | hc
    · exact hs c hc
    · obtain rfl := List.mem_singleton.mp hc
      exact ⟨by decide, by decide⟩
  have hbytes : toBytes (s ++ ['\r', '\n']) = toBytes (s ++ ['\r']) ++ [10] := by
    rw [show s ++ ['\r', '\n'] = (s ++ ['\r']) ++ ['\n'] by simp, toBytes_append]
    rfl
  have hline : (fun t : Telemetry => t.readLine u (toBytes (s ++ ['\r', '\n']))) = f := funext hf
  rw [hbytes] at hline ⊢
  exact hline ▸ Lines.line (newline_not_mem_toBytes hwire)

theorem OnWire.append {s t : Text} (hs : OnWire s) (ht : OnWire t) : OnWire (s ++ t) :=
  fun c hc => (List.mem_append.mp hc).elim (hs c) (ht c)

/-- A warning has no effect, whatever its key. -/
theorem lines_warning {key : Text} (hkey : OnWire key) : Lines u (toBytes (warning key)) id := by
  set lead : Text := "Warning: Unknown command key received: ".toList with hlead
  have hascii : lead.all isAscii = true := by decide
  refine lines_of_onWire ((onWire_of_ascii hascii (by decide)).append hkey) fun t => ?_
  have hnone : updateOf u (toBytes (lead ++ key ++ ['\r', '\n'])) = none := by
    refine updateOf_eq_none fun c hc => ?_
    rw [List.append_assoc, toBytes_append, toBytes, ← encodeUtf8_ascii hascii,
      head?_decodeLine hascii (c := 'W') rfl rfl] at hc
    obtain rfl := Option.some.inj hc
    decide
  rw [Telemetry.readLine, hnone]
  rfl

/-- A report assigns its number. -/
theorem lines_report {l : FirmwareLine} (hl : l.Printable) :
    Lines u (toBytes l.text) fun t => t.assign l.update := by
  have hwire : OnWire (l.name ++ intText l.value) :=
    (onWire_of_ascii l.name_ascii l.newline_not_mem_name).append
      (onWire_of_ascii (Python.intText_ascii _) (not_mem_intText (by decide) (by decide) _))
  refine lines_of_onWire hwire fun t => ?_
  rw [show l.name ++ intText l.value ++ ['\r', '\n'] = l.text from rfl, toBytes,
    ← encodeUtf8_ascii l.text_ascii, Telemetry.readLine, show encodeUtf8 l.text = l.bytes from rfl,
    updateOf_bytes u l hl]

theorem lines_warnings {keys : List Text} (hkeys : ∀ key ∈ keys, OnWire key) :
    Lines u (toBytes (keys.flatMap warning)) id := by
  induction keys with
  | nil => exact Lines.nil
  | cons key keys ih =>
      rw [List.flatMap_cons, toBytes_append]
      exact (lines_warning (hkeys key List.mem_cons_self)).append
        (ih fun k hk => hkeys k (List.mem_cons_of_mem key hk))

theorem fitsInt32_constrain (x : ℤ) : FitsInt32 (constrain x (-255) 255) := by
  rw [constrain_eq (by decide)]
  unfold FitsInt32
  omega

/-- **The lines of an iteration**: whatever the telemetry was, it is what the iteration did. -/
theorem iteration_lines (g : Globals) (r : Round) :
    Lines u (toBytes (printed (loop g r.iteration).2)) fun _ =>
      { ultrasonicDistance := intText (readDistance r.iteration)
        motorM1Speed := speed1 (loop g r.iteration).1
        motorM2Speed := speed2 (loop g r.iteration).1 } := by
  obtain ⟨keys, hkeys, hprinted⟩ := printed_loop g r
  have hm1 : FirmwareLine.Printable (.m1 (speed1 (loop g r.iteration).1)) := fitsInt32_constrain _
  have hm2 : FirmwareLine.Printable (.m2 (speed2 (loop g r.iteration).1)) := fitsInt32_constrain _
  have hdist : FirmwareLine.Printable (.dist (readDistance r.iteration)) := trivial
  rw [hprinted, toBytes_append, reports, List.flatMap_cons, List.flatMap_cons, List.flatMap_cons,
    List.flatMap_nil, List.append_nil, toBytes_append, toBytes_append]
  exact (lines_warnings hkeys).append
    ((lines_report hm1).append ((lines_report hm2).append (lines_report hdist)))

end Lines

/-! ## Runs of the board and the reader -/

/-- What a board sends in some iterations. -/
def wire (t : Tank) : List Round → List UInt8
  | [] => []
  | r :: rs => toBytes (printed (loop t.globals r.iteration).2) ++ wire (t.iterate r.iteration) rs

/-- The board after some iterations. -/
def after (t : Tank) (rounds : List Round) : Tank := t.run (rounds.map Round.iteration)

/-- It is what the port of the board has taken. -/
theorem sent_after (t : Tank) (rounds : List Round) :
    toBytes (after t rounds).board.sent = toBytes t.board.sent ++ wire t rounds := by
  induction rounds generalizing t with
  | nil => exact (List.append_nil _).symm
  | cons r rounds ih =>
      show toBytes (after (t.iterate r.iteration) rounds).board.sent = _
      rw [ih, Tank.iterate, sent_performAll, toBytes_append, wire, List.append_assoc]
      rfl

theorem wire_concat (t : Tank) (rounds : List Round) (r : Round) :
    wire t (rounds ++ [r]) =
      wire t rounds ++ toBytes (printed (loop (after t rounds).globals r.iteration).2) := by
  induction rounds generalizing t with
  | nil => exact List.append_nil _
  | cons r' rounds ih =>
      rw [List.cons_append, wire, ih, wire, List.append_assoc]
      rfl

/-- The iterations so far, what the reader has not read yet and what it has, and the globals of the
server. -/
structure Link where
  rounds : List Round := []
  unread : List UInt8 := []
  consumed : List UInt8 := []
  telemetry : Telemetry := {}
  deriving DecidableEq

/-- The board makes an iteration, or the reader reads a line. -/
inductive Event
  | iterate (r : Round)
  | readLine

/-- One step; the reader waits for a whole line. -/
def step (u : UnicodeTables) (start : Tank) (x : Link) : Event → Option Link
  | .iterate r =>
      -- what is printed waits for the reader, however long
      let sent := toBytes (printed (loop (after start x.rounds).globals r.iteration).2)
      some { x with rounds := x.rounds ++ [r], unread := x.unread ++ sent }
  | .readLine =>
      match cut 10 x.unread with
      | none => none
      | some (line, rest) =>
          some { x with
            unread := rest
            consumed := x.consumed ++ (line ++ [10])
            telemetry := x.telemetry.readLine u (line ++ [10]) }

def machine (u : UnicodeTables) (start : Tank) : Machine Link Event where
  init := {}
  step := step u start

/-- The telemetry is what the lines consumed so far have made of it. -/
def Consumed (u : UnicodeTables) (x : Link) : Prop :=
  ∃ f, Lines u x.consumed f ∧ x.telemetry = f {}

theorem Consumed.step {u : UnicodeTables} {start : Tank} {x x' : Link} {e : Event}
    (h : Consumed u x) (hs : step u start x e = some x') : Consumed u x' := by
  obtain ⟨f, hlines, htelemetry⟩ := h
  cases e with
  | iterate r =>
      obtain rfl := Option.some.inj hs
      exact ⟨f, hlines, htelemetry⟩
  | readLine =>
      simp only [TelemetryLink.step] at hs
      split at hs
      · cases hs
      · next hcut =>
          obtain rfl := Option.some.inj hs
          exact ⟨_, hlines.append (Lines.line (eq_append_of_cut hcut).2),
            congrArg (Telemetry.readLine u · _) htelemetry⟩

/-- The wire of any iterations is whole lines. -/
theorem lines_wire (u : UnicodeTables) (t : Tank) (rounds : List Round) :
    ∃ f, Lines u (wire t rounds) f := by
  induction rounds generalizing t with
  | nil => exact ⟨id, Lines.nil⟩
  | cons r rounds ih =>
      obtain ⟨f, hf⟩ := ih (t.iterate r.iteration)
      exact ⟨_, (iteration_lines t.globals r).append hf⟩

theorem after_concat (t : Tank) (rounds : List Round) (r : Round) :
    after t (rounds ++ [r]) = (after t rounds).iterate r.iteration := by
  rw [after, List.map_append, List.map_singleton, Tank.run_concat]
  rfl

/-- The last lines that have been consumed decide. -/
theorem telemetry_of_consumed {u : UnicodeTables} {start : Tank} {x : Link}
    (hx : (machine u start).Reachable x) {rounds : List Round} {r : Round}
    (hread : x.consumed = wire start (rounds ++ [r])) :
    x.telemetry =
      { ultrasonicDistance := intText (readDistance r.iteration)
        motorM1Speed := speed1 (after start (rounds ++ [r])).globals
        motorM2Speed := speed2 (after start (rounds ++ [r])).globals } := by
  obtain ⟨f, hlines, htelemetry⟩ : Consumed u x :=
    hx.invariant ⟨id, Lines.nil, rfl⟩ fun _ _ _ h hs => h.step hs
  obtain ⟨g, hg⟩ := lines_wire u start rounds
  rw [hread, wire_concat] at hlines
  rw [htelemetry, hlines.unique (hg.append (iteration_lines (after start rounds).globals r)),
    after_concat]
  rfl

/-- **The telemetry is real.**  Whenever the reader has consumed exactly the lines of the first
iterations of a run, the speeds are those of the last of these iterations, which drive the pins
of the two motors, and the distance is the decimal text of what it measured. -/
theorem reported_values (u : UnicodeTables) (start : Tank) {x : Link}
    (hx : (machine u start).Reachable x) {k : ℕ} (hk : k < x.rounds.length)
    (hread : x.consumed = wire start (x.rounds.take (k + 1))) :
    let tank := after start (x.rounds.take (k + 1))
    x.telemetry.motorM1Speed = speed1 tank.globals ∧
      x.telemetry.motorM2Speed = speed2 tank.globals ∧
      tank.board.Drives .in1Pin .in2Pin x.telemetry.motorM1Speed ∧
      tank.board.Drives .in3Pin .in4Pin x.telemetry.motorM2Speed ∧
      x.telemetry.ultrasonicDistance = intText (readDistance x.rounds[k].iteration) := by
  intro tank
  -- the last of these iterations
  have htake : x.rounds.take (k + 1) = x.rounds.take k ++ [x.rounds[k]] := by
    rw [List.take_append_getElem]
  have htank : tank = after start (x.rounds.take k ++ [x.rounds[k]]) := congrArg (after start) htake
  rw [htake] at hread
  have htelemetry := telemetry_of_consumed hx hread
  have hm1 : x.telemetry.motorM1Speed = speed1 tank.globals := by rw [htelemetry, htank]
  have hm2 : x.telemetry.motorM2Speed = speed2 tank.globals := by rw [htelemetry, htank]
  have hdrive : tank.board.FollowsDrive (tank.globals.get .forwardReverse)
      (tank.globals.get .leftRight) := by
    rw [htank, after_concat]
    exact followsDrive_iterate _ x.rounds[k].iteration
  refine ⟨hm1, hm2, ?_, ?_, ?_⟩
  · rw [hm1]
    exact hdrive.1
  · rw [hm2]
    exact hdrive.2
  · rw [htelemetry]

/-- A command with an unknown key, read by the board in its first iteration; the reader has read the
warning and the three reports. -/
def firstIteration : Link where
  rounds := [{ rx := some (encodeUtf8 "FR:7;XY:1\n".toList), echo := 580 }]
  consumed := encodeUtf8
    "Warning: Unknown command key received: XY\r\nM1:255\r\nM2:255\r\nDist:10\r\n".toList
  telemetry := { ultrasonicDistance := "10".toList, motorM1Speed := 255, motorM2Speed := 255 }

theorem firstIteration_reachable :
    (machine .bare (.boot 0 {})).Reachable firstIteration := by
  have hrun : (machine .bare (.boot 0 {})).run {}
      [.iterate { rx := some (encodeUtf8 "FR:7;XY:1\n".toList), echo := 580 }, .readLine,
        .readLine, .readLine, .readLine] = some firstIteration := by decide +kernel
  exact Machine.reachable_of_run hrun

/-- In that state the telemetry shows what the iteration did. -/
theorem reported_values_after_warning :
    firstIteration.telemetry.ultrasonicDistance = "10".toList ∧
      (after (.boot 0 {}) firstIteration.rounds).board.Drives .in1Pin .in2Pin 255 :=
  have h := reported_values .bare (.boot 0 {}) firstIteration_reachable (k := 0) (by decide)
    (by decide +kernel)
  ⟨h.2.2.2.2, h.2.2.1⟩

end TelemetryLink
