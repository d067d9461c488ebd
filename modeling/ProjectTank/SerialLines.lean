/-
# What the server writes to the serial port

The paths of requests are arbitrary text, and any number of handler threads run at
once.  Whatever they do, the serial port carries complete lines of the one shape the
firmware expects:

* `handler_writes`: a handler writes the line of the values its path stands for;
* `serial_port_carries_lines`: the bytes on the port are those lines, one after the
  other, at most one for each request, and the firmware makes six assignments of each;
* `request_can_complete`: nothing but the lock keeps a handler from writing its line.
-/
import ProjectTank.CommandRoundTrip

open ProgramText TankFirmware TankServer CommandLink WriterPool

namespace SerialLines

/-- The values that a path stands for: for each field the last accepted one. -/
def StandsFor (u : UnicodeTables) (path : Text) (v : Field → ℤ) : Prop :=
  ∀ f, lastAccepted u (keyOf f) (commandStr path) = some (v f)

/-- The bytes that a request may contribute: the line of the values of its path. -/
def LineOfRequest (s : Setting) (r : Request) (buf : List UInt8) : Prop :=
  s.serialOpen = true ∧ route r.path = .tankCommand ∧
    ∃ v, StandsFor s.unicode r.path v ∧ buf = messageToSend (lineOf v)

/-- A line is formatted exactly when every field has a value. -/
theorem formatCommand_eq_ok_iff_values {commandData : CommandData} {line : Text} :
    formatCommand commandData = .ok line ↔
      ∃ v : Field → ℤ, (∀ f, commandData (keyOf f) = some (v f)) ∧ line = lineOf v := by
  constructor
  · intro h
    obtain ⟨fr, hfr, lr, hlr, ud, hud, tlr, htlr, fc, hfc, lc, hlc, rfl⟩ :=
      formatCommand_eq_ok_iff.mp h
    refine ⟨valuesOf fr lr ud tlr fc lc, ?_, rfl⟩
    intro f
    cases f with
    | forwardReverse => exact hfr
    | leftRight => exact hlr
    | upDown => exact hud
    | turretLeftRight => exact htlr
    | fireCannon => exact hfc
    | lightControl => exact hlc
  · rintro ⟨v, hv, rfl⟩
    exact formatCommand_of_values hv

/-- **A handler writes the line of its path, or nothing.** -/
theorem handler_writes (s : Setting) : (handler s).Writes (LineOfRequest s) where
  ready := by
    intro d d' buf h
    simp only [handler, prepare] at h
    split_ifs at h with hroute hheaders hserial
    split at h
    · next line hline =>
        obtain ⟨rfl, rfl⟩ := Prep.ready.inj h
        obtain ⟨v, hv, rfl⟩ := formatCommand_eq_ok_iff_values.mp hline
        refine ⟨by simpa using hserial, not_not.mp hroute, v, fun f => ?_, rfl⟩
        rw [← parseTankCommand_eq_lastAccepted]
        exact hv f
    · exact absurd h (by simp)
  finish := fun _ _ h => h

/-- What the firmware makes of one line: it reads exactly the line, and the parser makes
six assignments, one to each field. -/
theorem firmware_reads_line (v : Field → ℤ) (rest : List UInt8) :
    Arduino.readStringUntil 10 (messageToSend (lineOf v) ++ rest) = (lineOf v, rest) ∧
      parseEvents (Arduino.trim (lineOf v)) =
        fields.map fun f => .assign f (Arduino.clipLong (v f)) := by
  rw [trim_lineOf, parseEvents_lineOf]
  exact ⟨readStringUntil_messageToSend v rest, rfl⟩

/-- **No command injection.**  In every state the server can reach, for arbitrary request
paths and any order of the threads: the bytes on the serial port are the completed
lines and then what the thread inside `ser.write`, if there is one, has written of its
own; every line belongs to one request, no request has two; and a line has the shape
`FR:i;LR:i;UD:i;TLR:i;FC:i;LC:i` and a newline, with the last accepted value of each key
of that request, of which the firmware makes exactly six assignments. -/
theorem serial_port_carries_lines (s : Setting) {p : Pool Request UInt8}
    (hp : (machine s).Reachable p) :
    ((∀ i, p.holder ≠ some (.writer i)) → p.out = (p.log.map Prod.snd).flatten) ∧
      (∀ i, p.holder = some (.writer i) → ∃ r sent rest,
        p.writers[i]? = some ⟨r, .writing sent rest⟩ ∧ LineOfRequest s r (sent ++ rest) ∧
          p.out = (p.log.map Prod.snd).flatten ++ sent) ∧
      (p.log.map Prod.fst).Nodup ∧
      ∀ i line, (i, line) ∈ p.log → ∃ (r : Request) (v : Field → ℤ),
        p.writers[i]? = some ⟨r, .finished⟩ ∧
        route r.path = .tankCommand ∧
        (∀ f, lastAccepted s.unicode (keyOf f) (commandStr r.path) = some (v f)) ∧
        line = messageToSend (commandLine (v .forwardReverse) (v .leftRight) (v .upDown)
          (v .turretLeftRight) (v .fireCannon) (v .lightControl)) ∧
        ∀ rest, ∃ text, Arduino.readStringUntil 10 (line ++ rest) = (text, rest) ∧
          parseEvents (Arduino.trim text) =
            [.assign .forwardReverse (Arduino.clipLong (v .forwardReverse)),
              .assign .leftRight (Arduino.clipLong (v .leftRight)),
              .assign .upDown (Arduino.clipLong (v .upDown)),
              .assign .turretLeftRight (Arduino.clipLong (v .turretLeftRight)),
              .assign .fireCannon (Arduino.clipLong (v .fireCannon)),
              .assign .lightControl (Arduino.clipLong (v .lightControl))] := by
  have hs := Sound.of_reachable hp
  have hc := Carries.of_reachable (handler_writes s) hp
  refine ⟨hs.idle, ?_, hs.nodup, ?_⟩
  · intro i hi
    obtain ⟨r, sent, rest, hw⟩ := hs.inside i hi
    exact ⟨r, sent, rest, hw, hc.staged i r _ _ hw rfl, hs.busy i r sent rest hw⟩
  · intro i line hline
    obtain ⟨r, hr, -, hroute, v, hv, hline⟩ := hc.logged i line hline
    refine ⟨r, v, hr, hroute, hv, hline, fun rest => ⟨lineOf v, ?_⟩⟩
    rw [hline]
    exact firmware_reads_line v rest

/-- Two requests at once.  The first has an escaped newline after a value; the thread of the second
takes the lock before the first one waits for it. -/
def twoRequests : List (Move Request) :=
  [.spawn { path := "/tank_command?cmd=fr:5%0A;LR:0;UD:0;TLR:0;FC:0;LC:x;LC:0".toList },
    .spawn { path := "/tank_command?cmd=FR:-7;LR:3;UD:0;TLR:0;FC:1;LC:1".toList },
    .advance 0, .advance 1, .advance 1, .advance 1, .advance 1, .advance 0] ++
  List.replicate 32 (.advance 1) ++ List.replicate 33 (.advance 0)

/-- The port carries their lines one after the other, without the newline of the first request,
and of each line the firmware makes one assignment to each field. -/
theorem serial_port_carries_two_lines :
    let s : Setting := ⟨.bare, true, []⟩
    ∃ p, (machine s).run (machine s).init twoRequests = some p ∧
      p.log = [(1, messageToSend "FR:-7;LR:3;UD:0;TLR:0;FC:1;LC:1".toList),
        (0, messageToSend "FR:5;LR:0;UD:0;TLR:0;FC:0;LC:0".toList)] ∧
      p.out = (p.log.map Prod.snd).flatten ∧
      ∀ i line, (i, line) ∈ p.log → ∀ rest, ∃ (text : Text) (v : Field → ℤ),
        Arduino.readStringUntil 10 (line ++ rest) = (text, rest) ∧
          parseEvents (Arduino.trim text) = fields.map fun f => .assign f (v f) := by
  intro s
  have hrun : ((machine s).run (machine s).init twoRequests).map (fun p => (p.holder, p.log)) =
      some (none, [(1, messageToSend "FR:-7;LR:3;UD:0;TLR:0;FC:1;LC:1".toList),
        (0, messageToSend "FR:5;LR:0;UD:0;TLR:0;FC:0;LC:0".toList)]) := by decide +kernel
  obtain ⟨p, hp, hfacts⟩ := Option.map_eq_some_iff.mp hrun
  obtain ⟨hholder, hlog⟩ := Prod.mk.inj hfacts
  obtain ⟨hidle, -, -, hlines⟩ := serial_port_carries_lines s (Machine.reachable_of_run hp)
  refine ⟨p, hp, hlog, hidle fun i => ?_, fun i line hline rest => ?_⟩
  · rw [hholder]
    simp
  · obtain ⟨r, v, -, -, -, -, hread⟩ := hlines i line hline
    obtain ⟨text, htext, hevents⟩ := hread rest
    exact ⟨text, fun f => Arduino.clipLong (v f), htext, hevents⟩

/-! ## Progress -/

/-- The two steps of a handler before it waits for the lock: the headers, then the line. -/
theorem prepare_of_standsFor {s : Setting} (hserial : s.serialOpen = true) {r : Request}
    (hroute : route r.path = .tankCommand) {v : Field → ℤ} (hv : StandsFor s.unicode r.path v) :
    (r.headersSent = false → prepare s r =
        .work { r with headersSent := true, responses := r.responses ++ [.headers 200] }) ∧
      (r.headersSent = true → prepare s r = .ready r (messageToSend (lineOf v))) := by
  constructor
  · intro hheaders
    rw [prepare, if_neg (not_not.mpr hroute), if_pos hheaders]
  · intro hheaders
    have hline : formatCommand (parseTankCommand s.unicode r.path) = .ok (lineOf v) := by
      refine formatCommand_eq_ok_iff_values.mpr ⟨v, fun f => ?_, rfl⟩
      rw [parseTankCommand_eq_lastAccepted]
      exact hv f
    rw [prepare, if_neg (not_not.mpr hroute), if_neg (by simp [hheaders])]
    simp only [hserial, Bool.true_eq_false, if_false, hline]

/-- **A request can always complete**: while the lock is free, a new request whose path
stands for six values can be handled to the end, and its line is the next on the port. -/
theorem request_can_complete (s : Setting) (hserial : s.serialOpen = true)
    {p : Pool Request UInt8} (hfree : p.holder = none) {path : Text}
    (hroute : route path = .tankCommand) {v : Field → ℤ} (hv : StandsFor s.unicode path v) :
    ∃ moves p', (machine s).run p moves = some p' ∧
      p'.log = p.log ++ [(p.writers.length, messageToSend (lineOf v))] ∧
      p'.out = p.out ++ messageToSend (lineOf v) := by
  let r : Request := { path := path }
  let r' : Request := { path := path, headersSent := true, responses := [.headers 200] }
  let p₁ := p.spawn r
  let p₂ := p₁.setWriter p.writers.length ⟨r', .preparing⟩
  let p₃ := p₂.setWriter p.writers.length ⟨r', .waiting (messageToSend (lineOf v))⟩
  have hw₁ : p₁.writers[p.writers.length]? = some ⟨r, .preparing⟩ := by
    simpa using p.getElem?_spawn r p.writers.length
  have hw₂ : p₂.writers[p.writers.length]? = some ⟨r', .preparing⟩ := by
    simpa using Pool.getElem?_setWriter hw₁ ⟨r', .preparing⟩ p.writers.length
  have hw₃ : p₃.writers[p.writers.length]? =
      some ⟨r', .waiting (messageToSend (lineOf v))⟩ := by
    simpa using Pool.getElem?_setWriter hw₂ ⟨r', .waiting (messageToSend (lineOf v))⟩ p.writers.length
  -- the handler starts, sends its headers, and formats its line
  have hstart : (machine s).run p [.spawn r, .advance p.writers.length, .advance p.writers.length] =
      some p₃ := by
    have hheaders : (handler s).prepare r = .work r' :=
      (prepare_of_standsFor (r := r) hserial hroute hv).1 rfl
    have hline : (handler s).prepare r' = .ready r' (messageToSend (lineOf v)) :=
      (prepare_of_standsFor (r := r') hserial hroute hv).2 rfl
    have hstep₁ : (TankServer.machine s).step p (.spawn r) = some p₁ := rfl
    have hstep₂ : (TankServer.machine s).step p₁ (.advance p.writers.length) = some p₂ :=
      advance_of_work hw₁ hheaders
    have hstep₃ : (TankServer.machine s).step p₂ (.advance p.writers.length) = some p₃ :=
      advance_of_ready hw₂ hline
    rw [Machine.run_cons, hstep₁, Option.bind_some, Machine.run_cons, hstep₂, Option.bind_some,
      Machine.run_cons, hstep₃, Option.bind_some, Machine.run_nil]
  have hend := exists_completion (handler s) hw₃ hfree
  exact ⟨_, _, Machine.run_trans _ hstart hend, rfl, rfl⟩

end SerialLines
