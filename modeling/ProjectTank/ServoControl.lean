/-
# The servo thread (`MouseControlThread` in `main/web.py`)

Handler threads set a position, and a thread moves the pan and the tilt angle a tenth
of the way towards it in each turn of its loop, when the way is longer than a degree.
Angles are exact rationals here; the servo raises an exception on a value outside
`[-1, 1]`, which would end the thread.

The range of an axis is convex, and both the angle and the clamped target lie in it, so
the angle stays in it however the target jumps (`move_mem_range`).  The thread keeps
every assigned value legal and never ends by an exception (`servo_values_legal`).
-/
import Mathlib.Analysis.Convex.Basic
import Mathlib.Tactic.Linarith
import Mathlib.Tactic.NormNum
import ProjectTank.Transition

namespace MouseControl

/-! ## The program -/

def PAN_RANGE : ℚ := 90
def TILT_RANGE : ℚ := 45
def HALF_VIDEO_WIDTH : ℚ := 640 / 2
def HALF_VIDEO_HEIGHT : ℚ := 480 / 2

/-- A target angle: the position scaled to the range of the axis and clamped to it. -/
def targetAngle (range half : ℚ) (position : ℤ) : ℚ :=
  max (-range) (min range (position / half * range))

def targetPanAngle (x : ℤ) : ℚ := targetAngle PAN_RANGE HALF_VIDEO_WIDTH x
def targetTiltAngle (y : ℤ) : ℚ := targetAngle TILT_RANGE HALF_VIDEO_HEIGHT y

/-- The new angle of an axis, or `none` when the target is within a degree. -/
def move (current target : ℚ) : Option ℚ :=
  if |target - current| > 1 then some (current + (target - current) * (1 / 10)) else none

/-- The value assigned to a servo for an angle. -/
def servoValue (angle : ℚ) : ℚ := angle / 90

/-- Where the thread is: at the head of its loop, before the pan axis, before the tilt
axis, or ended by an exception. -/
inductive Stage
  | head
  | pan (targetX targetY : ℤ)
  | tilt (targetY : ℤ)
  | raised
  deriving DecidableEq

/-- The position, the local variables of `run`, and the values assigned to the servos. -/
structure System where
  x : ℤ := 0
  y : ℤ := 0
  running : Bool := true
  stage : Stage := .head
  currentPanAngle : ℚ := 0
  currentTiltAngle : ℚ := 0
  panValues : List ℚ := []
  tiltValues : List ℚ := []
  deriving DecidableEq

/-- A handler calls `set_pos`, the thread takes its next step, or somebody calls
`stop`. -/
inductive Event
  | setPos (x y : ℤ)
  | advance
  | stop
  deriving DecidableEq

/-- Assign to the pan servo, which checks the value. -/
def System.assignPan (s : System) (angle : ℚ) (next : Stage) : System :=
  { s with
    currentPanAngle := angle
    panValues := s.panValues ++ [servoValue angle]
    stage := if -1 ≤ servoValue angle ∧ servoValue angle ≤ 1 then next else .raised }

/-- Assign to the tilt servo. -/
def System.assignTilt (s : System) (angle : ℚ) (next : Stage) : System :=
  { s with
    currentTiltAngle := angle
    tiltValues := s.tiltValues ++ [servoValue angle]
    stage := if -1 ≤ servoValue angle ∧ servoValue angle ≤ 1 then next else .raised }

/-- One step.  Position and targets are read and written under the lock, so each is one
step. -/
def step (s : System) : Event → Option System
  | .setPos x y => some { s with x := x, y := y }
  | .stop => some { s with running := false }
  | .advance =>
      match s.stage with
      | .head => if s.running then some { s with stage := .pan s.x s.y } else none
      | .pan targetX targetY =>
          match move s.currentPanAngle (targetPanAngle targetX) with
          | some angle => some (s.assignPan angle (.tilt targetY))
          | none => some { s with stage := .tilt targetY }
      | .tilt targetY =>
          match move s.currentTiltAngle (targetTiltAngle targetY) with
          | some angle => some (s.assignTilt angle .head)
          | none => some { s with stage := .head }
      | .raised => none

def machine : Machine System Event where
  init := {}
  step := step

/-! ## The range of an axis -/

/-- A target is in the range of its axis. -/
theorem targetAngle_mem_range {range : ℚ} (hrange : 0 ≤ range) (half : ℚ) (position : ℤ) :
    targetAngle range half position ∈ Set.Icc (-range) range := by
  constructor
  · exact le_max_left _ _
  · exact max_le (by linarith) (min_le_left _ _)

/-- **A tenth of the way to a point of the range leads to a point of the range.** -/
theorem move_mem_range {range current target angle : ℚ} (hcurrent : current ∈ Set.Icc (-range) range)
    (htarget : target ∈ Set.Icc (-range) range) (h : move current target = some angle) :
    angle ∈ Set.Icc (-range) range := by
  obtain rfl := Option.some.inj (Option.ite_none_right_eq_some.mp h).2
  have hconvex := (convex_Icc (-range) range).add_smul_sub_mem hcurrent htarget
    (t := (1 / 10 : ℚ)) ⟨by norm_num, by norm_num⟩
  rwa [smul_eq_mul, mul_comm] at hconvex

/-- The values of an axis with a range are within `range / 90`. -/
theorem servoValue_mem {range angle : ℚ} (h : angle ∈ Set.Icc (-range) range) :
    servoValue angle ∈ Set.Icc (-(range / 90)) (range / 90) := by
  unfold servoValue
  constructor
  · rw [← neg_div]
    exact div_le_div_of_nonneg_right h.1 (by norm_num)
  · exact div_le_div_of_nonneg_right h.2 (by norm_num)

/-! ## The invariant -/

/-- Angles and assigned values are legal, and no assignment has raised. -/
structure Legal (s : System) : Prop where
  pan : s.currentPanAngle ∈ Set.Icc (-90) 90
  tilt : s.currentTiltAngle ∈ Set.Icc (-45) 45
  panValues : ∀ value ∈ s.panValues, value ∈ Set.Icc (-1) 1
  tiltValues : ∀ value ∈ s.tiltValues, value ∈ Set.Icc (-(1 / 2)) (1 / 2)
  alive : s.stage ≠ .raised

/-- An angle in the range of the pan servo is assigned. -/
theorem Legal.assignPan {s : System} (h : Legal s) {angle : ℚ} (hangle : angle ∈ Set.Icc (-90) 90)
    {next : Stage} (hnext : next ≠ .raised) : Legal (s.assignPan angle next) := by
  have hvalue : servoValue angle ∈ Set.Icc (-1) 1 := by
    have hmem := servoValue_mem hangle
    norm_num at hmem ⊢
    exact hmem
  refine ⟨hangle, h.tilt, ?_, h.tiltValues, ?_⟩
  · exact List.forall_mem_append.mpr ⟨h.panValues, List.forall_mem_singleton.mpr hvalue⟩
  · simp only [System.assignPan]
    rw [if_pos (show _ ∧ _ from hvalue)]
    exact hnext

/-- An angle in the range of the tilt servo is assigned. -/
theorem Legal.assignTilt {s : System} (h : Legal s) {angle : ℚ} (hangle : angle ∈ Set.Icc (-45) 45)
    {next : Stage} (hnext : next ≠ .raised) : Legal (s.assignTilt angle next) := by
  have hvalue : servoValue angle ∈ Set.Icc (-(1 / 2)) (1 / 2) := by
    have hmem := servoValue_mem hangle
    norm_num at hmem ⊢
    exact hmem
  refine ⟨h.pan, hangle, h.panValues, ?_, ?_⟩
  · exact List.forall_mem_append.mpr ⟨h.tiltValues, List.forall_mem_singleton.mpr hvalue⟩
  · simp only [System.assignTilt]
    rw [if_pos ⟨by linarith [hvalue.1], by linarith [hvalue.2]⟩]
    exact hnext

/-- **One step keeps everything legal**, whatever the targets are. -/
theorem Legal.step {s s' : System} {e : Event} (h : Legal s) (hs : step s e = some s') :
    Legal s' := by
  cases e with
  | setPos x y => exact Option.some.inj hs ▸ ⟨h.pan, h.tilt, h.panValues, h.tiltValues, h.alive⟩
  | stop => exact Option.some.inj hs ▸ ⟨h.pan, h.tilt, h.panValues, h.tiltValues, h.alive⟩
  | advance =>
      simp only [MouseControl.step] at hs
      cases hstage : s.stage with
      | head =>
          rw [hstage] at hs
          obtain rfl := Option.some.inj (Option.ite_none_right_eq_some.mp hs).2
          exact ⟨h.pan, h.tilt, h.panValues, h.tiltValues, by simp⟩
      | pan targetX targetY =>
          rw [hstage] at hs
          simp only at hs
          cases hmove : move s.currentPanAngle (targetPanAngle targetX) with
          | none =>
              rw [hmove] at hs
              exact Option.some.inj hs ▸ ⟨h.pan, h.tilt, h.panValues, h.tiltValues, by simp⟩
          | some angle =>
              rw [hmove] at hs
              have htarget : targetPanAngle targetX ∈ Set.Icc (-90) 90 :=
                targetAngle_mem_range (by norm_num [PAN_RANGE]) _ targetX
              have hangle := move_mem_range h.pan htarget hmove
              exact Option.some.inj hs ▸ h.assignPan hangle (by simp)
      | tilt targetY =>
          rw [hstage] at hs
          simp only at hs
          cases hmove : move s.currentTiltAngle (targetTiltAngle targetY) with
          | none =>
              rw [hmove] at hs
              exact Option.some.inj hs ▸ ⟨h.pan, h.tilt, h.panValues, h.tiltValues, by simp⟩
          | some angle =>
              rw [hmove] at hs
              have htarget : targetTiltAngle targetY ∈ Set.Icc (-45) 45 :=
                targetAngle_mem_range (by norm_num [TILT_RANGE]) _ targetY
              have hangle := move_mem_range h.tilt htarget hmove
              exact Option.some.inj hs ▸ h.assignTilt hangle (by simp)
      | raised => exact absurd hstage h.alive

/-- **Servo values stay legal in every run.**  After any sequence of `set_pos` calls, in
any order with the steps of the thread, the angles are in their ranges, every value
assigned to a servo was in its interval, and no assignment has ended the thread. -/
theorem servo_values_legal {s : System} (h : machine.Reachable s) :
    s.currentPanAngle ∈ Set.Icc (-90) 90 ∧ s.currentTiltAngle ∈ Set.Icc (-45) 45 ∧
      (∀ value ∈ s.panValues, value ∈ Set.Icc (-1) 1) ∧
      (∀ value ∈ s.tiltValues, value ∈ Set.Icc (-(1 / 2)) (1 / 2)) ∧ s.stage ≠ .raised := by
  have hlegal : Legal s :=
    Machine.Reachable.invariant (I := Legal)
      ⟨by norm_num [machine], by norm_num [machine], by simp [machine], by simp [machine],
        by simp [machine]⟩
      (fun _ _ _ hl hs => hl.step hs) h
  exact ⟨hlegal.pan, hlegal.tilt, hlegal.panValues, hlegal.tiltValues, hlegal.alive⟩

/-- A position far outside the picture: the angles start on their way to the ends. -/
theorem servo_values_legal_far :
    ∃ s, machine.run machine.init [.setPos 100000 (-100000), .advance, .advance, .advance] = some s ∧
      s.panValues = [1 / 10] ∧ s.tiltValues = [-(1 / 20)] ∧
      s.currentPanAngle ∈ Set.Icc (-90) 90 := by
  have hrun : machine.run machine.init
      [.setPos 100000 (-100000), .advance, .advance, .advance] = some
        { x := 100000, y := -100000, currentPanAngle := 9, currentTiltAngle := -(9 / 2),
          panValues := [1 / 10], tiltValues := [-(1 / 20)] } := by
    decide +kernel
  exact ⟨_, hrun, rfl, rfl, (servo_values_legal (Machine.reachable_of_run hrun)).1⟩

end MouseControl
