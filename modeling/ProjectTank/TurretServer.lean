/-
# Turret commands (`peter/ultrasonic/web.py` and `tank.ino`)

Three endpoints of the server turn the turret.  `/turret_move_key` sends one of the
letters `j` and `k`; `/turret_move` and `/set_mouse_pos` send `P`, a number of steps and
a newline.  `tank.ino` takes one byte in an iteration of `loop`; it knows the two
letters, but nothing that begins with `P`.

* `do_GET` is a list of effects: what is sent to the firmware, what is done to the tilt
  servo, what is answered; a write to the port that fails is printed, and answered like
  one that does not;
* `quiet_stepCommand`: no byte of a `P` command means anything to the firmware;
* `turret_command_obeyed_iff`: which requests the firmware carries out.
-/
import ProjectTank.LetterServer

open ProgramText DecimalText CarFirmware
open TankServer (Response)

namespace TurretServer

/-! ## The server -/

def MAX_STEPS_PER_COMMAND : ℤ := 10
def X_SCALE_FACTOR : ℤ := 32
def TURRET_STEP_DELTA : ℤ := 3
def TURRET_TILT_DELTA_ANGLE : ℤ := 5

/-- What the handlers find when they run, with `GPIO_SUPPORT`, and the outcome of `ser.write`:
the port takes every byte, or it raises after it has taken some. -/
structure Setting extends TankServer.Setting where
  gpioSupport : Bool
  raisesAfter : Option ℕ

/-- The branches of `do_GET` for the turret. -/
inductive Route
  | turretMoveKey
  | turretMove
  | setMousePos
  | other
  deriving DecidableEq

/-- The chain of comparisons in `do_GET`, as far as turret paths go through it. -/
def route (path : Text) : Route :=
  if ".mp3".toList.isSuffixOf path then .other
  else if "/turret_move_key".toList.isPrefixOf path then .turretMoveKey
  else if "/turret_move".toList.isPrefixOf path then .turretMove
  else if "/set_mouse_pos".toList.isPrefixOf path then .setMousePos
  else .other

/-- What a handler does: a call of `send_command_to_arduino`, a call of `adjust_tilt` or of
`set_pos`, a response. -/
inductive Effect
  | send (command : Text)
  | adjustTilt (deltaAngle : ℤ)
  | setPos (x y : ℤ)
  | respond (r : Response)
  deriving DecidableEq

/-- The answer to a request that was carried out. -/
def Effect.accepted : Effect := .respond (.headers 200)

def Effect.unavailable : Effect :=
  .respond (.sendError 503 "GPIO control is not available".toList)

/-- `self.path.split('?')[-1]`. -/
def query (path : Text) : Text := (path.splitOn '?').getLastD []

/-- `s.split('=')[1]`, or `none` for the `IndexError`. -/
def valueOf (s : Text) : Option Text := (s.splitOn '=')[1]?

/-- `direction`. -/
def direction (s : Setting) (path : Text) : Option Text :=
  (valueOf (query path)).map (toUpperCase s.unicode)

def indexError : Text := "list index out of range".toList

/-- `/turret_move_key`. -/
def turretMoveKey (s : Setting) (path : Text) : List Effect :=
  if s.gpioSupport = false then [.unavailable]
  else
    match direction s path with
    | none => [.respond (.sendError 500 ("Error moving turret: ".toList ++ indexError))]
    | some direction =>
        let commandToSend :=
          if direction = ['L'] then ['j'] else if direction = ['R'] then ['k'] else []
        (if commandToSend ≠ [] then [.send commandToSend] else []) ++ [.accepted]

/-- The command `P[Steps]` with its newline. -/
def stepCommand (steps : ℤ) : Text := 'P' :: intText steps ++ ['\n']

/-- `/turret_move`. -/
def turretMove (s : Setting) (path : Text) : List Effect :=
  if s.gpioSupport = false then [.unavailable]
  else
    match direction s path with
    | none => [.respond (.sendError 500 ("Error moving turret: ".toList ++ indexError))]
    | some direction =>
        let stepsToMove :=
          if direction = ['L'] then -TURRET_STEP_DELTA
          else if direction = ['R'] then TURRET_STEP_DELTA
          else 0
        let tilt :=
          if direction = ['U'] then [.adjustTilt TURRET_TILT_DELTA_ANGLE]
          else if direction = ['D'] then [.adjustTilt (-TURRET_TILT_DELTA_ANGLE)]
          else []
        tilt ++ (if |stepsToMove| > 0 then [.send (stepCommand stepsToMove)] else []) ++ [.accepted]

/-- `x` and `y` of `/set_mouse_pos`, or the text of the exception. -/
def coordinates (s : Setting) (path : Text) : Except Text (ℤ × ℤ) :=
  let queryParts := (query path).splitOn '&'
  match queryParts[0]?.bind valueOf, queryParts[1]?.bind valueOf with
  | some xStr, some yStr =>
      match Python.int s.unicode xStr, Python.int s.unicode yStr with
      | some x, some y => .ok (x, y)
      | _, _ => .error s.exceptionText
  | _, _ => .error indexError

/-- `steps_to_move` for `x`.  The division by a power of two is exact, `int` drops the
fraction. -/
def panSteps (x : ℤ) : Option ℤ :=
  (Python.floatOfInt x).map fun x =>
    max (-MAX_STEPS_PER_COMMAND) (min MAX_STEPS_PER_COMMAND (x.tdiv X_SCALE_FACTOR))

/-- The answer to `/set_mouse_pos` when an exception is raised. -/
def mouseError (e : Text) : Effect :=
  .respond (.sendError 500 ("Error setting mouse/stepper position: ".toList ++ e))

/-- `/set_mouse_pos`. -/
def setMousePos (s : Setting) (path : Text) : List Effect :=
  if s.gpioSupport = false then [.unavailable]
  else
    match coordinates s path with
    | .error e => [mouseError e]
    | .ok (x, y) =>
        match panSteps x with
        | none => [mouseError "int too large to convert to float".toList]
        | some stepsToMove =>
            (if |stepsToMove| > 0 then [.send (stepCommand stepsToMove)] else []) ++
              [.setPos x y, .accepted]

/-- `do_GET`, the part for the turret. -/
def doGet (s : Setting) (path : Text) : List Effect :=
  match route path with
  | .turretMoveKey => turretMoveKey s path
  | .turretMove => turretMove s path
  | .setMousePos => setMousePos s path
  | .other => []

/-- `send_command_to_arduino`: its three branches write the same.  Without a serial port
nothing is written; an exception of `ser.write` is printed, and the handler goes on. -/
def sendCommandToArduino (s : Setting) (command : Text) : List UInt8 :=
  if s.serialOpen then
    match s.raisesAfter with
    | none => encodeUtf8 command
    | some taken => (encodeUtf8 command).take taken
  else []

/-- The bytes that an effect writes to the serial port. -/
def Effect.written (s : Setting) : Effect → List UInt8
  | .send command => sendCommandToArduino s command
  | _ => []

/-- The bytes that a request writes. -/
def written (s : Setting) (path : Text) : List UInt8 := (doGet s path).flatMap (Effect.written s)

/-- The request is answered with `200`. -/
def Succeeds (s : Setting) (path : Text) : Prop := (doGet s path).getLast? = some .accepted

instance (s : Setting) (path : Text) : Decidable (Succeeds s path) :=
  inferInstanceAs (Decidable (_ = _))

/-! ## What is asked for -/

inductive Side
  | left
  | right
  deriving DecidableEq

/-- A request to turn the turret. -/
inductive Request
  | key (side : Side)
  | move (side : Side)
  | mouse (x y : ℤ)
  deriving DecidableEq

def sideOf (direction : Text) : Option Side :=
  if direction = ['L'] then some .left else if direction = ['R'] then some .right else none

/-- What a path asks for, if it asks to turn the turret. -/
def requestOf (s : Setting) (path : Text) : Option Request :=
  match route path with
  | .turretMoveKey => ((direction s path).bind sideOf).map .key
  | .turretMove => ((direction s path).bind sideOf).map .move
  | .setMousePos =>
      match coordinates s path with
      | .ok (x, y) => some (.mouse x y)
      | .error _ => none
  | .other => none

/-- The steps that are asked for. -/
def Request.steps : Request → ℤ
  | .key .left => -stepsToTake
  | .key .right => stepsToTake
  | .move .left => -TURRET_STEP_DELTA
  | .move .right => TURRET_STEP_DELTA
  | .mouse x _ => max (-MAX_STEPS_PER_COMMAND) (min MAX_STEPS_PER_COMMAND (x.tdiv X_SCALE_FACTOR))

/-- The command that a request leads to, if any. -/
def Request.command : Request → Option Text
  | .key .left => some ['j']
  | .key .right => some ['k']
  | .move side => some (stepCommand (Request.move side).steps)
  | .mouse x y =>
      if (Request.mouse x y).steps = 0 then none else some (stepCommand (Request.mouse x y).steps)

/-- `int` rounds towards zero, on both sides. -/
theorem steps_mouse_eq (x y : ℤ) :
    (Request.mouse x y).steps =
      if 0 ≤ x then min 10 (x / 32) else max (-10) (-(-x / 32)) := by
  simp only [Request.steps, MAX_STEPS_PER_COMMAND, X_SCALE_FACTOR]
  split_ifs with hx
  · rw [Int.tdiv_eq_ediv_of_nonneg hx]
    omega
  · have hneg : x.tdiv 32 = -(-x / 32) := by
      rw [← Int.tdiv_eq_ediv_of_nonneg (by omega), Int.neg_tdiv, neg_neg]
    rw [hneg]
    omega

/-- Rounding `x` to a double does not show after the clamp. -/
theorem panSteps_eq {x n : ℤ} (h : panSteps x = some n) (y : ℤ) : n = (Request.mouse x y).steps := by
  unfold panSteps at h
  obtain ⟨v, hv, rfl⟩ := Option.map_eq_some_iff.mp h
  obtain rfl := Option.some.inj (Option.ite_none_right_eq_some.mp hv).2
  by_cases hx : x.natAbs < 2 ^ 53
  · rw [Python.nearestDouble_eq_self hx, Int.sign_mul_natAbs]
    rfl
  · have hlarge := Python.le_nearestDouble (not_lt.mp hx)
    have hhuge : (2 : ℤ) ^ 52 ≤ (Python.nearestDouble x.natAbs : ℤ) := by exact_mod_cast hlarge
    show (Request.mouse (x.sign * Python.nearestDouble x.natAbs) y).steps = _
    rw [steps_mouse_eq, steps_mouse_eq]
    -- both quotients lie beyond the clamp, on the side of `x`
    rcases lt_trichotomy x 0 with hneg | hzero | hpos
    · rw [Int.sign_eq_neg_one_of_neg hneg, if_neg (by omega), if_neg (by omega)]
      omega
    · simp [hzero] at hx
    · rw [Int.sign_eq_one_of_pos hpos, if_pos (by omega), if_pos hpos.le]
      omega

/-- Without GPIO no request to turn the turret succeeds. -/
theorem gpioSupport_of_succeeds {s : Setting} {path : Text} (hok : Succeeds s path) :
    s.gpioSupport = true := by
  by_contra hoff
  rw [Bool.not_eq_true] at hoff
  unfold Succeeds doGet at hok
  cases hroute : route path <;>
    simp [hroute, turretMoveKey, turretMove, setMousePos, hoff, Effect.unavailable,
      Effect.accepted] at hok

/-- The value of `dir` for a side. -/
def Side.letter : Side → Text
  | .left => ['L']
  | .right => ['R']

theorem direction_of_sideOf {s : Setting} {path : Text} {side : Side}
    (h : (direction s path).bind sideOf = some side) : direction s path = some side.letter := by
  obtain ⟨d, hd, hside⟩ := Option.bind_eq_some_iff.mp h
  unfold sideOf at hside
  split_ifs at hside with hL hR
  · obtain rfl := Option.some.inj hside
    rw [hd, hL]
    rfl
  · obtain rfl := Option.some.inj hside
    rw [hd, hR]
    rfl

theorem sends_turretMoveKey {s : Setting} (hgpio : s.gpioSupport = true) {path : Text} {side : Side}
    (h : (direction s path).bind sideOf = some side) :
    (turretMoveKey s path).flatMap (Effect.written s) =
      ((Request.key side).command.map (sendCommandToArduino s)).getD [] := by
  have hdirection := direction_of_sideOf h
  cases side <;>
    simp [turretMoveKey, hgpio, hdirection, Side.letter, Effect.written, Effect.accepted,
      Request.command]

theorem sends_turretMove {s : Setting} (hgpio : s.gpioSupport = true) {path : Text} {side : Side}
    (h : (direction s path).bind sideOf = some side) :
    (turretMove s path).flatMap (Effect.written s) =
      ((Request.move side).command.map (sendCommandToArduino s)).getD [] := by
  have hdirection := direction_of_sideOf h
  cases side <;>
    simp [turretMove, hgpio, hdirection, Side.letter, Effect.written, Effect.accepted,
      Request.command, Request.steps, TURRET_STEP_DELTA]

theorem sends_setMousePos {s : Setting} (hgpio : s.gpioSupport = true) {path : Text} {x y : ℤ}
    (hxy : coordinates s path = .ok (x, y))
    (hok : (setMousePos s path).getLast? = some .accepted) :
    (setMousePos s path).flatMap (Effect.written s) =
      ((Request.mouse x y).command.map (sendCommandToArduino s)).getD [] := by
  simp only [setMousePos, hgpio, Bool.true_eq_false, if_false, hxy] at hok ⊢
  cases hsteps : panSteps x with
  | none =>
      rw [hsteps] at hok
      exact absurd hok (by simp [mouseError, Effect.accepted])
  | some n =>
      obtain rfl := panSteps_eq hsteps y
      by_cases hzero : (Request.mouse x y).steps = 0
      · simp [hzero, Effect.written, Effect.accepted, Request.command]
      · simp [hzero, Effect.written, Effect.accepted, Request.command]

/-- **What a request that succeeds writes**: its command, as far as the serial port takes it. -/
theorem written_eq {s : Setting} {path : Text} {r : Request} (hr : requestOf s path = some r)
    (hok : Succeeds s path) :
    written s path = (r.command.map (sendCommandToArduino s)).getD [] := by
  have hgpio := gpioSupport_of_succeeds hok
  unfold Succeeds at hok
  unfold requestOf at hr
  unfold written
  unfold doGet at hok ⊢
  cases hroute : route path with
  | turretMoveKey =>
      rw [hroute] at hr
      obtain ⟨side, hside, rfl⟩ := Option.map_eq_some_iff.mp hr
      exact sends_turretMoveKey hgpio hside
  | turretMove =>
      rw [hroute] at hr
      obtain ⟨side, hside, rfl⟩ := Option.map_eq_some_iff.mp hr
      exact sends_turretMove hgpio hside
  | setMousePos =>
      simp only [hroute] at hr hok
      cases hxy : coordinates s path with
      | error e =>
          rw [hxy] at hr
          exact absurd hr (by simp)
      | ok xy =>
          rw [hxy] at hr
          obtain rfl := Option.some.inj hr
          exact sends_setMousePos hgpio hxy hok
  | other => simp [hroute] at hr

/-! ## The firmware's side -/

/-- The character is neither a letter for the motors nor one for the turret. -/
def Quiet (c : Char) : Prop := isAscii c = true ∧ isCommand c = false ∧ c ≠ 'j' ∧ c ≠ 'k'

/-- A `P` command consists of characters that `tank.ino` ignores. -/
theorem quiet_stepCommand (n : ℤ) : ∀ c ∈ stepCommand n, Quiet c := by
  intro c hc
  rcases List.mem_cons.mp hc with rfl | hc
  · exact ⟨rfl, rfl, by decide, by decide⟩
  rcases List.mem_append.mp hc with hc | hc
  · rcases mem_intText hc with hd | rfl
    · have hne : ∀ c' : Char, c'.isDigit = false → c ≠ c' := by
        rintro c' hc' rfl
        rw [hd] at hc'
        exact absurd hc' (by simp)
      refine ⟨Python.isAscii_of_isDigit hd, ?_, hne 'j' rfl, hne 'k' rfl⟩
      simp [isCommand, hne 'W' rfl, hne 'A' rfl, hne 'S' rfl, hne 'D' rfl, hne 'X' rfl]
    · exact ⟨rfl, rfl, by decide, by decide⟩
  · obtain rfl := List.mem_singleton.mp hc
    exact ⟨rfl, rfl, by decide, by decide⟩

/-- The firmware does not react to quiet characters. -/
theorem consume_quiet {command : Text} (hquiet : ∀ c ∈ command, Quiet c) (currentCommand : Char) :
    (encodeUtf8 command).foldl receive currentCommand = currentCommand ∧
      (encodeUtf8 command).flatMap turretSteps = [] := by
  have hascii : command.all isAscii = true :=
    List.all_eq_true.mpr fun c hc => (hquiet c hc).1
  rw [encodeUtf8_ascii hascii]
  clear hascii
  induction command with
  | nil => exact ⟨rfl, rfl⟩
  | cons c command ih =>
      obtain ⟨hc, hrest⟩ := List.forall_mem_cons.mp hquiet
      obtain ⟨hascii, hcommand, hj, hk⟩ := hc
      have hbyte : Char.ofNat (UInt8.ofNat c.toNat).toNat = c := by
        have hsingle := ofBytes_encodeUtf8 (s := [c]) (by simpa using hascii)
        rw [encodeUtf8_ascii (by simpa using hascii)] at hsingle
        exact (List.cons.inj hsingle).1
      obtain ⟨hfold, hflat⟩ := ih hrest
      constructor
      · rw [List.map_cons, List.foldl_cons]
        have hsame : receive currentCommand (UInt8.ofNat c.toNat) = currentCommand := by
          simp only [receive, hbyte, hcommand, Bool.false_eq_true, if_false]
        rw [hsame, hfold]
      · rw [List.map_cons, List.flatMap_cons, hflat]
        simp only [turretSteps, hbyte, hj, hk, if_false, List.append_nil]

/-! ## Requests and steps -/

/-- The port is open, and `ser.write` does not raise before it has taken a byte. -/
def Setting.TakesLetter (s : Setting) : Prop := s.serialOpen = true ∧ s.raisesAfter ≠ some 0

instance (s : Setting) : Decidable s.TakesLetter := inferInstanceAs (Decidable (_ ∧ _))

/-- When the firmware carries a request out: a letter that the serial port takes, or
nothing to be done. -/
def Request.Understood (s : Setting) : Request → Prop
  | .key _ => s.TakesLetter
  | .move _ => False
  | .mouse x _ => |x| < X_SCALE_FACTOR

theorem Request.steps_mouse_eq_zero_iff (x y : ℤ) :
    (Request.mouse x y).steps = 0 ↔ |x| < X_SCALE_FACTOR := by
  rw [steps_mouse_eq, X_SCALE_FACTOR, abs_lt]
  split_ifs <;> omega

/-- What is written of a command in ASCII is a beginning of it. -/
theorem sendCommandToArduino_eq_take (s : Setting) {command : Text}
    (hascii : command.all isAscii = true) :
    ∃ n, sendCommandToArduino s command = encodeUtf8 (command.take n) := by
  unfold sendCommandToArduino
  split
  · cases s.raisesAfter with
    | none => exact ⟨command.length, by rw [List.take_length]⟩
    | some taken =>
        have htake : (command.take taken).all isAscii = true := by
          rw [List.all_eq_true] at hascii ⊢
          exact fun c hc => hascii c (List.mem_of_mem_take hc)
        refine ⟨taken, ?_⟩
        dsimp only
        rw [encodeUtf8_ascii hascii, encodeUtf8_ascii htake, List.map_take]
  · exact ⟨0, rfl⟩

/-- A `P` command leaves the turret where it is, whatever it asks for, and however much of it
is written. -/
theorem consume_stepCommand (s : Setting) (n : ℤ) (c : Char) :
    (sendCommandToArduino s (stepCommand n)).foldl receive c = c ∧
      (sendCommandToArduino s (stepCommand n)).flatMap turretSteps = [] := by
  have hquiet := quiet_stepCommand n
  obtain ⟨k, hk⟩ := sendCommandToArduino_eq_take s
    (List.all_eq_true.mpr fun c hc => (hquiet c hc).1)
  rw [hk]
  exact consume_quiet (fun c hc => hquiet c (List.mem_of_mem_take hc)) c

/-- The byte that is sent for a side. -/
def Side.byte : Side → UInt8
  | .left => 106
  | .right => 107

/-- A single byte is taken, or it is not. -/
theorem sendCommandToArduino_byte (s : Setting) {letter : Text} {b : UInt8}
    (hb : encodeUtf8 letter = [b]) :
    sendCommandToArduino s letter = if s.TakesLetter then [b] else [] := by
  unfold sendCommandToArduino
  by_cases hopen : s.serialOpen = true
  · rw [if_pos hopen, hb]
    by_cases hraises : s.raisesAfter = some 0
    · rw [if_neg fun h => h.2 hraises, hraises]
      rfl
    · rw [if_pos ⟨hopen, hraises⟩]
      cases hn : s.raisesAfter with
      | none => rfl
      | some n =>
          cases n with
          | zero => exact absurd hn hraises
          | succ n => exact List.take_of_length_le (Nat.le_add_left 1 n)
  · rw [if_neg hopen, if_neg fun h => hopen h.1]

theorem written_key (s : Setting) (side : Side) :
    ((Request.key side).command.map (sendCommandToArduino s)).getD [] =
      if s.TakesLetter then [side.byte] else [] := by
  cases side with
  | left => exact sendCommandToArduino_byte s rfl
  | right => exact sendCommandToArduino_byte s rfl

/-- What the bytes of a request do to a tank: the current command stays, and the turret
makes the steps asked for exactly when the request is understood. -/
theorem Request.effect (s : Setting) (r : Request) (c : Char) :
    let bytes := (r.command.map (sendCommandToArduino s)).getD []
    bytes.foldl receive c = c ∧ ((bytes.flatMap turretSteps).sum = r.steps ↔ r.Understood s) := by
  intro bytes
  cases r with
  | key side =>
      have hbytes : bytes = if s.TakesLetter then [side.byte] else [] := written_key s side
      rw [hbytes]
      by_cases htakes : s.TakesLetter
      · rw [if_pos htakes]
        cases side with
        | left => exact ⟨rfl, iff_of_true rfl htakes⟩
        | right => exact ⟨rfl, iff_of_true rfl htakes⟩
      · rw [if_neg htakes]
        refine ⟨rfl, iff_of_false ?_ htakes⟩
        cases side <;> decide
  | move side =>
      obtain ⟨hcommand, hsteps⟩ := consume_stepCommand s (Request.move side).steps c
      refine ⟨hcommand, ?_⟩
      rw [show bytes.flatMap turretSteps = [] from hsteps]
      cases side <;> simp [Request.Understood, Request.steps, TURRET_STEP_DELTA]
  | mouse x y =>
      obtain ⟨hcommand, hsteps⟩ := consume_stepCommand s (Request.mouse x y).steps c
      have hiff := Request.steps_mouse_eq_zero_iff x y
      by_cases hzero : (Request.mouse x y).steps = 0
      · have hbytes : bytes = [] := by simp [bytes, Request.command, hzero]
        rw [hbytes, hzero]
        exact ⟨rfl, by simpa [Request.Understood] using hiff.mp hzero⟩
      · have hbytes : bytes = sendCommandToArduino s (stepCommand (Request.mouse x y).steps) := by
          simp [bytes, Request.command, hzero]
        rw [hbytes, hcommand, hsteps]
        refine ⟨rfl, ?_⟩
        rw [List.sum_nil, Request.Understood, ← hiff]
        exact ⟨fun h => h.symm, fun h => h.symm⟩

/-- **Which turret requests the firmware carries out.**  For a request that succeeds, let
`tank.ino`, in any state, take the bytes written for it one in an iteration.  The turret
makes the steps asked for and the current command stays if and only if the request is one
for a letter that the serial port takes, or one that asks for no steps. -/
theorem turret_command_obeyed_iff (s : Setting) (path : Text) (r : Request)
    (hr : requestOf s path = some r) (hok : Succeeds s path) (tank : Tank)
    (arrivals : List (UInt8 × Surroundings)) (hbytes : arrivals.map Prod.fst = written s path) :
    ((tank.consume arrivals).steps.sum = tank.steps.sum + r.steps ∧
        (tank.consume arrivals).currentCommand = tank.currentCommand) ↔ r.Understood s := by
  obtain ⟨hcommand, hsteps⟩ := tank.consume_spec arrivals
  rw [hbytes, written_eq hr hok] at hcommand hsteps
  obtain ⟨hkeep, hsum⟩ := r.effect s tank.currentCommand
  rw [hcommand, hsteps, hkeep, List.sum_append, ← hsum]
  constructor
  · rintro ⟨h, -⟩
    omega
  · intro h
    exact ⟨by rw [h], rfl⟩

/-- A server with GPIO and a serial port that takes every byte. -/
def Setting.wired : Setting where
  unicode := .bare
  serialOpen := true
  exceptionText := []
  gpioSupport := true
  raisesAfter := none

/-- The key request to the left turns the turret to the left. -/
theorem turret_command_obeyed_left :
    requestOf .wired "/turret_move_key?dir=L".toList = some (.key .left) ∧
      (({} : Tank).consume [(106, {})]).steps.sum =
          ({} : Tank).steps.sum + (Request.key .left).steps ∧
        (({} : Tank).consume [(106, {})]).currentCommand = ({} : Tank).currentCommand :=
  ⟨by decide, (turret_command_obeyed_iff .wired "/turret_move_key?dir=L".toList (.key .left)
    (by decide) (by decide) {} [(106, {})] (by decide)).mpr ⟨rfl, by decide⟩⟩

/-- The pointer at the right edge of the picture asks for ten steps to the right; the
server writes `P10` and a newline, and the turret does not move. -/
theorem turret_command_ignored :
    requestOf .wired "/set_mouse_pos?x=320&y=0".toList = some (.mouse 320 0) ∧
      Succeeds .wired "/set_mouse_pos?x=320&y=0".toList ∧
      written .wired "/set_mouse_pos?x=320&y=0".toList = [80, 49, 48, 10] ∧
      (Request.mouse 320 0).steps = 10 ∧
      (({} : Tank).consume [(80, {}), (49, {}), (48, {}), (10, {})]).steps.sum ≠
        ({} : Tank).steps.sum + (Request.mouse 320 0).steps := by
  decide +kernel

end TurretServer
