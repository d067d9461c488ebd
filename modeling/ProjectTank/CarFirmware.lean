/-
# The letter firmwares (`main/car.ino` and `peter/ultrasonic/tank.ino`)

Both sketches take one byte from `Serial` in an iteration of `loop`, keep it in
`current_command` when it is one of the five letters, and drive the motors by
`current_command` again and again, whether or not anything has arrived.  `tank.ino`
also turns the turret for `j` and `k` and prints the distance ten times a second.

* `receive` is the part of `loop` that both have in common: what a byte does to
  `current_command`;
* `Car.loop` and `Tank.loop` are the iterations.

What comes from outside (the byte, the clock, the echo) is an argument.
-/
import ProjectTank.ProgramText
import ProjectTank.DecimalText

open DecimalText

namespace CarFirmware

/-! ## Motors -/

/-- The inputs of the motor bridge. -/
inductive Pin
  | in1Pin
  | in2Pin
  | in3Pin
  | in4Pin
  deriving DecidableEq, Repr

/-- The levels of the four pins. -/
abbrev Pins := Pin → Bool

def stopMotors : Pins := fun _ => false

/-- Forward. -/
def fw : Pins
  | .in1Pin => true
  | .in2Pin => false
  | .in3Pin => true
  | .in4Pin => false

/-- Reverse. -/
def re : Pins
  | .in1Pin => false
  | .in2Pin => true
  | .in3Pin => false
  | .in4Pin => true

/-- Spin left: left wheel in reverse, right wheel forward. -/
def turnL : Pins
  | .in1Pin => false
  | .in2Pin => true
  | .in3Pin => true
  | .in4Pin => false

/-- Spin right: left wheel forward, right wheel in reverse. -/
def turnR : Pins
  | .in1Pin => true
  | .in2Pin => false
  | .in3Pin => false
  | .in4Pin => true

/-- The `switch` over the current command; `'X'` is the same as the default. -/
def execute (currentCommand : Char) : Pins :=
  if currentCommand = 'W' then fw
  else if currentCommand = 'S' then re
  else if currentCommand = 'A' then turnL
  else if currentCommand = 'D' then turnR
  else stopMotors

/-! ## Commands -/

/-- The letters that become the current command. -/
def isCommand (c : Char) : Bool := c = 'W' || c = 'A' || c = 'S' || c = 'D' || c = 'X'

/-- `current_command` after a byte. -/
def receive (currentCommand : Char) (b : UInt8) : Char :=
  let incomingChar := Char.ofNat b.toNat
  if isCommand incomingChar then incomingChar else currentCommand

/-- `current_command` after all these bytes since power-on. -/
def afterBytes (bs : List UInt8) : Char := bs.foldl receive 'X'

theorem afterBytes_snoc (bs : List UInt8) (b : UInt8) :
    afterBytes (bs ++ [b]) = receive (afterBytes bs) b := by
  rw [afterBytes, List.foldl_append]
  rfl

/-- The byte of the stop command. -/
def stopByte : UInt8 := 88

@[simp] theorem receive_stopByte (c : Char) : receive c stopByte = 'X' := rfl

/-- After a stop byte the current command is `'X'`, whatever came before. -/
theorem afterBytes_of_getLast? {bs : List UInt8} (h : bs.getLast? = some stopByte) :
    afterBytes bs = 'X' := by
  obtain ⟨front, rfl⟩ := List.getLast?_eq_some_iff.mp h
  rw [afterBytes_snoc, receive_stopByte]

/-! ## `car.ino` -/

/-- The state of the car board. -/
structure Car where
  currentCommand : Char := 'X'
  pins : Pins := stopMotors

/-- `loop`, with the byte that `Serial` has for it. -/
def Car.loop (car : Car) (incoming : Option UInt8) : Car :=
  let currentCommand := match incoming with
    | some b => receive car.currentCommand b
    | none => car.currentCommand
  { currentCommand := currentCommand, pins := execute currentCommand }

@[simp] theorem Car.currentCommand_loop_some (car : Car) (b : UInt8) :
    (car.loop (some b)).currentCommand = receive car.currentCommand b := rfl

@[simp] theorem Car.currentCommand_loop_none (car : Car) :
    (car.loop none).currentCommand = car.currentCommand := rfl

/-- The car board at the other end of a serial port, with the first `consumed` bytes taken
from it. -/
structure Board where
  car : Car := {}
  consumed : ℕ := 0

/-- An iteration of `loop` on what has arrived at the port. -/
def Board.loop (board : Board) (port : List UInt8) : Board :=
  match port[board.consumed]? with
  | some b => { car := board.car.loop (some b), consumed := board.consumed + 1 }
  | none => { board with car := board.car.loop none }

/-- The current command is the one of the bytes taken so far. -/
structure Board.Follows (board : Board) (port : List UInt8) : Prop where
  le : board.consumed ≤ port.length
  command : board.car.currentCommand = afterBytes (port.take board.consumed)

theorem Board.Follows.append {board : Board} {port : List UInt8} (h : board.Follows port)
    (added : List UInt8) : board.Follows (port ++ added) where
  le := h.le.trans (by simp)
  command := by rw [List.take_append_of_le_length h.le, h.command]

/-- **Every iteration keeps the board with the port.** -/
theorem Board.Follows.loop {board : Board} {port : List UInt8} (h : board.Follows port) :
    (board.loop port).Follows port := by
  unfold Board.loop
  split
  · next b hb =>
    refine ⟨(List.getElem?_eq_some_iff.mp hb).1, ?_⟩
    show receive board.car.currentCommand b = afterBytes (port.take (board.consumed + 1))
    rw [List.take_add_one, hb, Option.toList_some, afterBytes_snoc, h.command]
  · exact ⟨h.le, h.command⟩

/-- Once everything is taken the current command is that of the whole port. -/
theorem Board.Follows.of_all {board : Board} {port : List UInt8} (h : board.Follows port)
    (hall : board.consumed = port.length) : board.car.currentCommand = afterBytes port := by
  rw [h.command, hall, List.take_length]

/-! ## `tank.ino` -/

/-- The state of the tank board: `steps` are the steps asked from the turret motor, `printed`
is what has been printed since power-on. -/
structure Tank where
  currentCommand : Char := 'X'
  pins : Pins := stopMotors
  lastDistanceTime : BitVec 32 := 0
  steps : List ℤ := []
  printed : Text := []

/-- The clock readings of an iteration and the distance that `readDistance` would find. -/
structure Surroundings where
  now : BitVec 32 := 0
  distance : ℤ := 0
  later : BitVec 32 := 0

def stepsToTake : ℤ := 50
def distanceInterval : ℕ := 100

/-- The steps that a byte asks for: `j` to the left, `k` to the right. -/
def turretSteps (b : UInt8) : List ℤ :=
  let incomingChar := Char.ofNat b.toNat
  if incomingChar = 'j' then [-stepsToTake]
  else if incomingChar = 'k' then [stepsToTake]
  else []

/-- Receive and execute: the first two parts of `loop`. -/
def Tank.drive (tank : Tank) (incoming : Option UInt8) : Tank :=
  match incoming with
  | some b =>
      let currentCommand := receive tank.currentCommand b
      { tank with
        currentCommand := currentCommand
        pins := execute currentCommand
        steps := tank.steps ++ turretSteps b }
  | none => { tank with pins := execute tank.currentCommand }

/-- The third part of `loop`: the distance, when the last one is old enough. -/
def Tank.report (tank : Tank) (e : Surroundings) : Tank :=
  if distanceInterval ≤ (e.now - tank.lastDistanceTime).toNat then
    { tank with
      printed := tank.printed ++ "Dist:".toList ++ intText e.distance ++ ['\r', '\n']
      lastDistanceTime := e.later }
  else tank

/-- `loop`, with the byte that `Serial` has for it. -/
def Tank.loop (tank : Tank) (incoming : Option UInt8) (e : Surroundings) : Tank :=
  (tank.drive incoming).report e

@[simp] theorem Tank.currentCommand_report (tank : Tank) (e : Surroundings) :
    (tank.report e).currentCommand = tank.currentCommand := by
  unfold Tank.report
  split <;> rfl

@[simp] theorem Tank.currentCommand_loop_some (tank : Tank) (b : UInt8) (e : Surroundings) :
    (tank.loop (some b) e).currentCommand = receive tank.currentCommand b := by
  rw [Tank.loop, Tank.currentCommand_report]
  rfl

@[simp] theorem Tank.currentCommand_loop_none (tank : Tank) (e : Surroundings) :
    (tank.loop none e).currentCommand = tank.currentCommand := by
  rw [Tank.loop, Tank.currentCommand_report]
  rfl

theorem Tank.steps_loop (tank : Tank) (b : UInt8) (e : Surroundings) :
    (tank.loop (some b) e).steps = tank.steps ++ turretSteps b := by
  show (Tank.report _ e).steps = _
  unfold Tank.report
  split <;> rfl

/-- Iterations of `loop` that each find a byte. -/
def Tank.consume (tank : Tank) (arrivals : List (UInt8 × Surroundings)) : Tank :=
  arrivals.foldl (fun tank a => tank.loop (some a.1) a.2) tank

/-- What arriving bytes do to the command and the turret does not depend on the
surroundings. -/
theorem Tank.consume_spec (tank : Tank) (arrivals : List (UInt8 × Surroundings)) :
    (tank.consume arrivals).currentCommand =
        (arrivals.map Prod.fst).foldl CarFirmware.receive tank.currentCommand ∧
      (tank.consume arrivals).steps =
        tank.steps ++ (arrivals.map Prod.fst).flatMap turretSteps := by
  induction arrivals generalizing tank with
  | nil => exact ⟨rfl, (List.append_nil _).symm⟩
  | cons a arrivals ih =>
      obtain ⟨hcommand, hsteps⟩ := ih (tank.loop (some a.1) a.2)
      constructor
      · rw [show tank.consume (a :: arrivals) = (tank.loop (some a.1) a.2).consume arrivals from rfl,
          hcommand, Tank.currentCommand_loop_some]
        rfl
      · rw [show tank.consume (a :: arrivals) = (tank.loop (some a.1) a.2).consume arrivals from rfl,
          hsteps, Tank.steps_loop, List.append_assoc]
        rfl

end CarFirmware
