/-
# The tank firmware (`Guy/peter/espWorkProject_fixed.ino`)

The program of the ESP32 board: `parseCommand`, `updateMotors`,
`checkAndFireCannon`, `checkLight`, `readDistance` and `loop`, function by function.

What the program does to the board (pins, servo, stepper, serial port) is a list
of `Action`s in the order of the source, and `Board.perform` is the effect of one
action, so that statements about every single pin write and statements about the end
of an iteration are about the same model.  What an iteration of `loop` takes from
outside (the received line, two clock readings, the echo) is an `Iteration`.

`int` and `long` are 32 bits wide.  The arithmetic stays far inside that range
(`parseCommand` only assigns values of `toInt`, everything else clamps first), so
it is written over `ℤ`; the clock, which does wrap, is a `BitVec 32`.
-/
import ProjectTank.ArduinoText
import ProjectTank.ModularClock

open DecimalText

namespace TankFirmware

/-! ## Global variables -/

/-- The six globals that commands assign. -/
inductive Field
  | forwardReverse
  | leftRight
  | upDown
  | turretLeftRight
  | fireCannon
  | lightControl
  deriving DecidableEq, Repr

/-- The globals, with their initial values; `lastFired` starts as a clock reading. -/
structure Globals where
  forwardReverse : ℤ := 0
  leftRight : ℤ := 0
  upDown : ℤ := 0
  turretLeftRight : ℤ := 0
  fireCannon : ℤ := 0
  lightControl : ℤ := 0
  servoDeg : ℤ := 90
  lastFired : BitVec 32
  readyFire : Bool := true
  firing : Bool := false
  deriving DecidableEq

/-- Read a command field. -/
def Globals.get (g : Globals) : Field → ℤ
  | .forwardReverse => g.forwardReverse
  | .leftRight => g.leftRight
  | .upDown => g.upDown
  | .turretLeftRight => g.turretLeftRight
  | .fireCannon => g.fireCannon
  | .lightControl => g.lightControl

/-- Assign a command field. -/
def Globals.assign (g : Globals) (f : Field) (value : ℤ) : Globals :=
  match f with
  | .forwardReverse => { g with forwardReverse := value }
  | .leftRight => { g with leftRight := value }
  | .upDown => { g with upDown := value }
  | .turretLeftRight => { g with turretLeftRight := value }
  | .fireCannon => { g with fireCannon := value }
  | .lightControl => { g with lightControl := value }

theorem Globals.get_assign (g : Globals) (f f' : Field) (value : ℤ) :
    (g.assign f value).get f' = if f' = f then value else g.get f' := by
  cases f <;> cases f' <;> rfl

/-! ## Outputs -/

/-- The output pins that `loop` writes. -/
inductive Pin
  | in1Pin
  | in2Pin
  | in3Pin
  | in4Pin
  | laserPin
  | buzzerPin
  | trigPin
  | frontLED
  | rearLED
  deriving DecidableEq, Repr

/-- The GPIO numbers of the pins. -/
def Pin.number : Pin → ℕ
  | .in1Pin => 27
  | .in2Pin => 26
  | .in3Pin => 25
  | .in4Pin => 14
  | .laserPin => 23
  | .buzzerPin => 5
  | .trigPin => 32
  | .frontLED => 0
  | .rearLED => 2

/-- No two pins share a GPIO, so writing one leaves the others alone. -/
theorem Pin.number_injective : Function.Injective Pin.number := by
  intro p q h
  cases p <;> cases q <;> first | rfl | exact absurd h (by decide)

/-- What the program does to the board. -/
inductive Action
  | analogWrite (pin : Pin) (value : ℤ)
  | digitalWrite (pin : Pin) (level : Bool)
  | servoWrite (angle : ℤ)
  | stepperStep (steps : ℤ)
  | serialPrint (s : Text)
  deriving DecidableEq

/-- `LOW` and `HIGH`. -/
abbrev LOW : Bool := false
abbrev HIGH : Bool := true

/-- `Serial.println`. -/
def Action.serialPrintln (s : Text) : Action := .serialPrint (s ++ ['\r', '\n'])

/-- The board: duty of each PWM output, level of each digital output, the angle last
written to the servo, the steps made in total, the text sent. -/
structure Board where
  pwm : Pin → ℤ := fun _ => 0
  level : Pin → Bool := fun _ => LOW
  servo : Option ℤ := none
  steps : ℤ := 0
  sent : Text := []

/-- The effect of one action. -/
def Board.perform (b : Board) : Action → Board
  | .analogWrite pin value => { b with pwm := Function.update b.pwm pin value }
  | .digitalWrite pin level => { b with level := Function.update b.level pin level }
  | .servoWrite angle => { b with servo := some angle }
  | .stepperStep steps => { b with steps := b.steps + steps }
  | .serialPrint s => { b with sent := b.sent ++ s }

/-- The effect of a list of actions. -/
def Board.performAll (b : Board) (as : List Action) : Board := as.foldl Board.perform b

theorem Board.performAll_append (b : Board) (as as' : List Action) :
    b.performAll (as ++ as') = (b.performAll as).performAll as' :=
  List.foldl_append

/-! ## `parseCommand` -/

/-- What one part of a command does. -/
inductive ParseEvent
  | assign (f : Field) (value : ℤ)
  | unknownKey (key : Text)
  deriving DecidableEq

/-- The chain of key comparisons. -/
def fieldOf (key : Text) : Option Field :=
  if Arduino.equalsIgnoreCase key "FR".toList then some .forwardReverse
  else if Arduino.equalsIgnoreCase key "LR".toList then some .leftRight
  else if Arduino.equalsIgnoreCase key "UD".toList then some .upDown
  else if Arduino.equalsIgnoreCase key "TLR".toList then some .turretLeftRight
  else if Arduino.equalsIgnoreCase key "FC".toList then some .fireCannon
  else if Arduino.equalsIgnoreCase key "LC".toList then some .lightControl
  else none

/-- Process the part: nothing without a colon. -/
def processPart (part : Text) : Option ParseEvent :=
  let colonIndex := Arduino.indexOf part ':' 0
  if colonIndex ≠ -1 then
    let key := Arduino.substring part 0 colonIndex.toNat
    let valueStr := Arduino.substringFrom part (colonIndex + 1).toNat
    match fieldOf key with
    | some f => some (.assign f (Arduino.toInt valueStr))
    | none => some (.unknownKey key)
  else none

/-- The loop variables of `parseCommand`, and what its rounds have done so far. -/
structure ParseState where
  start : ℕ
  end_ : ℤ
  events : List ParseEvent
  deriving DecidableEq

/-- One round of the `while` loop. -/
def parseRound (dataString : Text) (st : ParseState) : ParseState :=
  let end_ := Arduino.indexOf dataString ';' st.start
  let part :=
    if end_ = -1 then Arduino.substringFrom dataString st.start
    else Arduino.substring dataString st.start end_.toNat
  { start := (end_ + 1).toNat, end_ := end_, events := st.events ++ (processPart part).toList }

/-- `while (end != -1)`, for at most `fuel` rounds. -/
def parseWhile (dataString : Text) : ℕ → ParseState → ParseState
  | 0, st => st
  | fuel + 1, st =>
      if st.end_ ≠ -1 then parseWhile dataString fuel (parseRound dataString st) else st

/-- The loop variables before the first round. -/
def ParseState.initial : ParseState := { start := 0, end_ := 0, events := [] }

/-- What `parseCommand` does, part by part.  A text of length `n` has at most `n + 1`
parts, so the fuel suffices (`parseWhile_end`). -/
def parseEvents (dataString : Text) : List ParseEvent :=
  (parseWhile dataString (dataString.length + 1) .initial).events

/-- The effect of an event on the globals. -/
def Globals.handle (g : Globals) : ParseEvent → Globals
  | .assign f value => g.assign f value
  | .unknownKey _ => g

/-- The output of an event. -/
def ParseEvent.actions : ParseEvent → List Action
  | .assign _ _ => []
  | .unknownKey key =>
      [.serialPrint "Warning: Unknown command key received: ".toList, .serialPrintln key]

/-- `parseCommand`. -/
def parseCommand (g : Globals) (dataString : Text) : Globals × List Action :=
  ((parseEvents dataString).foldl Globals.handle g,
    (parseEvents dataString).flatMap ParseEvent.actions)

/-! ## Lights, distance, cannon -/

/-- `checkLight`. -/
def checkLight (g : Globals) : List Action :=
  if g.lightControl = 1 then [.digitalWrite .frontLED HIGH, .digitalWrite .rearLED HIGH]
  else [.digitalWrite .frontLED LOW, .digitalWrite .rearLED LOW]

/-- `microsecondsToCentimeters`. -/
def microsecondsToCentimeters (microseconds : ℤ) : ℤ := (microseconds.tdiv 29).tdiv 2

/-- What one iteration of `loop` takes from outside: the line read when
`Serial.available()`, the real times of the two calls of `millis()` in
`checkAndFireCannon` (the second only counts when a shot is accepted), and the
duration `pulseIn` returns. -/
structure Iteration where
  received : Option Text := none
  now : ℕ := 0
  nowAccept : ℕ := 0
  echo : ℤ := 0

/-- The trigger pulse of `readDistance`. -/
def triggerPulse : List Action :=
  [.digitalWrite .trigPin LOW, .digitalWrite .trigPin HIGH, .digitalWrite .trigPin LOW]

/-- `readDistance`: the value it returns. -/
def readDistance (i : Iteration) : ℤ := microsecondsToCentimeters i.echo

/-- `millis()` at real time `t` milliseconds. -/
def millis (t : ℕ) : BitVec 32 := ModularClock.reading 32 t

def reloadDuration : ℕ := 500
def laserDuration : ℕ := 100
def buzzDuration : ℕ := 190

/-- `dif` in `checkAndFireCannon`. -/
def sinceLastFired (g : Globals) (now : ℕ) : ℕ := (millis now - g.lastFired).toNat

/-- The block of `checkAndFireCannon` that decides on a shot. -/
def tryFire (g : Globals) (i : Iteration) : Globals :=
  if g.fireCannon = 1 then
    let g :=
      if reloadDuration < sinceLastFired g i.now then { g with readyFire := true, firing := false }
      else g
    let g :=
      if g.readyFire then
        { g with readyFire := false, firing := true, lastFired := millis i.nowAccept }
      else g
    { g with fireCannon := 0 }
  else g

/-- `checkAndFireCannon`.  The outputs use the difference computed before the shot. -/
def checkAndFireCannon (g : Globals) (i : Iteration) : Globals × List Action :=
  let dif := sinceLastFired g i.now
  let g := tryFire g i
  (g,
    if g.firing then
      [.digitalWrite .laserPin (decide (dif < laserDuration)),
        .digitalWrite .buzzerPin (decide (dif < buzzDuration))]
    else [.digitalWrite .laserPin LOW, .digitalWrite .buzzerPin LOW])

/-! ## Motors -/

/-- The macro `constrain`. -/
def constrain (x lo hi : ℤ) : ℤ := if x < lo then lo else if x > hi then hi else x

/-- The Arduino function `map`, with the division of C. -/
def mapRange (x inMin inMax outMin outMax : ℤ) : ℤ :=
  ((x - inMin) * (outMax - outMin)).tdiv (inMax - inMin) + outMin

/-- `setMotorSpeed`. -/
def setMotorSpeed (motorNum speed : ℤ) : List Action :=
  let constrainedSpeed := constrain speed (-255) 255
  let motorSpeed := |constrainedSpeed|
  [.serialPrint "M".toList, .serialPrint (intText motorNum), .serialPrint ":".toList,
    .serialPrintln (intText constrainedSpeed)] ++
  if motorNum = 1 then
    if constrainedSpeed > 0 then [.analogWrite .in1Pin 0, .analogWrite .in2Pin motorSpeed]
    else if constrainedSpeed < 0 then [.analogWrite .in1Pin motorSpeed, .analogWrite .in2Pin 0]
    else [.analogWrite .in1Pin 0, .analogWrite .in2Pin 0]
  else if motorNum = 2 then
    if constrainedSpeed > 0 then [.analogWrite .in3Pin 0, .analogWrite .in4Pin motorSpeed]
    else if constrainedSpeed < 0 then [.analogWrite .in3Pin motorSpeed, .analogWrite .in4Pin 0]
    else [.analogWrite .in3Pin 0, .analogWrite .in4Pin 0]
  else []

/-- An axis value clamped to `[-7, 7]` and mapped to `[-255, 255]`. -/
def mappedAxis (value : ℤ) : ℤ := mapRange (constrain value (-7) 7) (-7) 7 (-255) 255

/-- `updateMotors`. -/
def updateMotors (forwardReverse leftRight : ℤ) : List Action :=
  let mappedThrottle := mappedAxis forwardReverse
  let mappedSteer := mappedAxis leftRight
  setMotorSpeed 1 (mappedThrottle + mappedSteer) ++ setMotorSpeed 2 (mappedThrottle - mappedSteer)

/-! ## `loop` -/

def stepsToTake : ℤ := 10

/-- The stepper command of the receive block. -/
def turnTurret (g : Globals) : List Action :=
  if g.turretLeftRight < -3 then [.stepperStep stepsToTake]
  else if g.turretLeftRight > 3 then [.stepperStep (-stepsToTake)]
  else []

/-- The new servo angle of the receive block: one degree up or down, kept in
`[0, 180]`. -/
def nextServoDeg (g : Globals) : ℤ :=
  let servoDeg :=
    if g.upDown > 3 then g.servoDeg + -1 else if g.upDown < -3 then g.servoDeg + 1 else g.servoDeg
  if servoDeg > 180 then 180 else if servoDeg < 0 then 0 else servoDeg

/-- The block `if (Serial.available())`, for the line that `readStringUntil` returned. -/
def receive (g : Globals) (line : Text) : Globals × List Action :=
  let commandString := Arduino.trim line
  let parsed := if commandString.length > 0 then parseCommand g commandString else (g, [])
  ({ parsed.1 with servoDeg := nextServoDeg parsed.1 }, parsed.2 ++ turnTurret parsed.1)

/-- The globals and the output after the receive block, which is skipped when nothing
is available. -/
def receiveIfAvailable (g : Globals) (i : Iteration) : Globals × List Action :=
  match i.received with
  | none => (g, [])
  | some line => receive g line

/-- `loop`. -/
def loop (g : Globals) (i : Iteration) : Globals × List Action :=
  let received := receiveIfAvailable g i
  let g := received.1
  let cannon := checkAndFireCannon g i
  (cannon.1,
    received.2 ++ checkLight g ++ [.servoWrite g.servoDeg] ++
      updateMotors g.forwardReverse g.leftRight ++ cannon.2 ++ triggerPulse ++
      [.serialPrint "Dist:".toList, .serialPrintln (intText (readDistance i))])

/-! ## Runs -/

/-- The board with its program. -/
structure Tank where
  globals : Globals
  board : Board

/-- Power-on at real time `t₀`, with the outputs in any state. -/
def Tank.boot (t₀ : ℕ) (board : Board) : Tank := ⟨{ lastFired := millis t₀ }, board⟩

/-- One iteration of `loop`. -/
def Tank.iterate (t : Tank) (i : Iteration) : Tank :=
  let r := loop t.globals i
  ⟨r.1, t.board.performAll r.2⟩

/-- Any number of iterations. -/
def Tank.run (t : Tank) (is : List Iteration) : Tank := is.foldl Tank.iterate t

@[simp] theorem Tank.run_nil (t : Tank) : t.run [] = t := rfl

@[simp] theorem Tank.run_concat (t : Tank) (is : List Iteration) (i : Iteration) :
    t.run (is ++ [i]) = (t.run is).iterate i := by
  simp [Tank.run]

end TankFirmware
