/-
# An accepted position ends the servo thread (`main/web.py`)

`/set_mouse_pos` accepts integers of any size, up to the limit on digits.  The thread
divides them by a float in its next iteration, and nothing there catches the
`OverflowError` of an integer that no float can hold.  Angles are doubles here; there is no
largest exponent, because a product beyond the largest double is clamped like an infinity.

* `move_mem_range`: the rounded angle stays in the range of its axis;
* `thread_survives_iff`: the thread goes on through a run if and only if no iteration works
  on a position with a coordinate that is too large for a float.
-/
import Mathlib.Tactic.Linarith
import Mathlib.Tactic.NormNum
import ProjectTank.PythonFloat
import ProjectTank.ServoControl
import ProjectTank.TurretServer

open ProgramText
open TankServer (Response)
open TurretServer (query valueOf indexError)
open MouseControl (PAN_RANGE TILT_RANGE HALF_VIDEO_WIDTH HALF_VIDEO_HEIGHT)

namespace ServoOverflow

/-! ## The handler -/

/-- What the handlers and the thread find when they run: the Unicode tables, whether
`gpiozero` could be imported, and the text of the `ValueError` that `int` raises. -/
structure Setting where
  unicode : UnicodeTables
  gpioSupport : Bool
  valueError : Text → Text

/-- The condition of the branch in `do_GET`, with that of the audio files, which comes
first. -/
def isSetMousePos (path : Text) : Bool :=
  !".mp3".toList.isSuffixOf path && "/set_mouse_pos".toList.isPrefixOf path

/-- `int(part.split('=')[1])`, or the text of the exception. -/
def coordinate (setting : Setting) (part : Option Text) : Except Text ℤ :=
  match part.bind valueOf with
  | none => .error indexError
  | some value =>
      match Python.int setting.unicode value with
      | some n => .ok n
      | none => .error (setting.valueError value)

/-- `x` and `y`, or the text of the first exception. -/
def coordinates (setting : Setting) (path : Text) : Except Text (ℤ × ℤ) := do
  let queryParts := (query path).splitOn '&'
  let x ← coordinate setting queryParts[0]?
  let y ← coordinate setting queryParts[1]?
  pure (x, y)

/-- `/set_mouse_pos`: the arguments of `set_pos`, if it is called, and the answer. -/
def setMousePos (setting : Setting) (path : Text) : Option (ℤ × ℤ) × Response :=
  if setting.gpioSupport = false then
    (none, .sendError 503 "GPIO control is not available".toList)
  else
    match coordinates setting path with
    | .ok position => (some position, .headers 200)
    | .error e => (none, .sendError 500 ("Error setting mouse position: ".toList ++ e))

/-! ## The thread -/

/-- The result of a float operation with this exact value. -/
def double (q : ℚ) : ℚ := binary64.nearest q

/-- A target angle, or `none` for the `OverflowError` of the division. -/
def targetAngle (range half : ℚ) (position : ℤ) : Option ℚ :=
  (Python.floatOfInt position).map fun position : ℤ =>
    max (-range) (min range (double (double (position / half) * range)))

def targetPanAngle (x : ℤ) : Option ℚ := targetAngle PAN_RANGE HALF_VIDEO_WIDTH x
def targetTiltAngle (y : ℤ) : Option ℚ := targetAngle TILT_RANGE HALF_VIDEO_HEIGHT y

/-- The new angle of an axis, or `none` when the target is within a degree. -/
def move (current target : ℚ) : Option ℚ :=
  let way := double (target - current)
  if |way| > 1 then some (double (current + double (way * double (1 / 10)))) else none

/-- The value assigned to a servo for an angle. -/
def servoValue (angle : ℚ) : ℚ := double (angle / 90)

/-- Where the thread is: at the head of its loop, after reading the position, before the pan
axis, before the tilt axis, or ended by an exception. -/
inductive Stage
  | head
  | read (targetX targetY : ℤ)
  | pan (panTarget tiltTarget : ℚ)
  | tilt (tiltTarget : ℚ)
  | raised
  deriving DecidableEq

/-- The fields of the thread, the local variables of `run`, the values assigned to the
servos, and the answers to the requests. -/
structure System where
  x : ℤ := 0
  y : ℤ := 0
  running : Bool := true
  stage : Stage := .head
  currentPanAngle : ℚ := 0
  currentTiltAngle : ℚ := 0
  panValues : List ℚ := []
  tiltValues : List ℚ := []
  responses : List Response := []
  deriving DecidableEq

/-- A handler thread serves a request, the servo thread takes its next step, or somebody
calls `stop`. -/
inductive Event
  | request (path : Text)
  | advance
  | stop
  deriving DecidableEq

/-- `set_pos`, when it is called, and the answer. -/
def System.serve (s : System) : Option (ℤ × ℤ) × Response → System
  | (some (x, y), r) => { s with x := x, y := y, responses := s.responses ++ [r] }
  | (none, r) => { s with responses := s.responses ++ [r] }

/-- Assign to the pan servo, which checks the value. -/
def System.assignPan (s : System) (angle : ℚ) (next : Stage) : System :=
  { s with
    currentPanAngle := angle
    panValues := s.panValues ++ [servoValue angle]
    stage := if -1 ≤ servoValue angle ∧ servoValue angle ≤ 1 then next else .raised }

/-- Assign to the tilt servo. -/
def System.assignTilt (s : System) (angle : ℚ) (next : Stage) : System :=
  { s with
    currentTiltAngle := angle
    tiltValues := s.tiltValues ++ [servoValue angle]
    stage := if -1 ≤ servoValue angle ∧ servoValue angle ≤ 1 then next else .raised }

/-- The next step of `run`. -/
def System.advance (setting : Setting) (s : System) : Option System :=
  match s.stage with
  | .head =>
      -- without `gpiozero` the thread is not started
      if setting.gpioSupport && s.running then some { s with stage := .read s.x s.y } else none
  | .read targetX targetY =>
      match targetPanAngle targetX, targetTiltAngle targetY with
      | some panTarget, some tiltTarget => some { s with stage := .pan panTarget tiltTarget }
      | _, _ => some { s with stage := .raised }
  | .pan panTarget tiltTarget =>
      match move s.currentPanAngle panTarget with
      | some angle => some (s.assignPan angle (.tilt tiltTarget))
      | none => some { s with stage := .tilt tiltTarget }
  | .tilt tiltTarget =>
      match move s.currentTiltAngle tiltTarget with
      | some angle => some (s.assignTilt angle .head)
      | none => some { s with stage := .head }
  | .raised => none

/-- One step.  A request that does not come to the branch is none of this machine's. -/
def step (setting : Setting) (s : System) : Event → Option System
  | .request path => if isSetMousePos path then some (s.serve (setMousePos setting path)) else none
  | .advance => s.advance setting
  | .stop => some { s with running := false }

def machine (setting : Setting) : Machine System Event where
  init := {}
  step := step setting

/-- A servo is left where it is, or assigned the angle that it moves to. -/
theorem move_cases {moved : Option ℚ} {rest : System} {assign : ℚ → System} {s' : System}
    (h : (match moved with
      | some angle => some (assign angle)
      | none => some rest) = some s') :
    s' = rest ∨ ∃ angle, moved = some angle ∧ s' = assign angle := by
  cases moved with
  | none => exact Or.inl (Option.some.inj h).symm
  | some angle => exact Or.inr ⟨angle, rfl, (Option.some.inj h).symm⟩

/-- Everything a step of the thread can do. -/
theorem advance_cases {setting : Setting} {s s' : System} (h : s.advance setting = some s') :
    (s.stage = .head ∧ s' = { s with stage := .read s.x s.y }) ∨
      (∃ x y p t, s.stage = .read x y ∧ targetPanAngle x = some p ∧ targetTiltAngle y = some t ∧
        s' = { s with stage := .pan p t }) ∨
      (∃ x y, s.stage = .read x y ∧ (targetPanAngle x = none ∨ targetTiltAngle y = none) ∧
        s' = { s with stage := .raised }) ∨
      (∃ p t, s.stage = .pan p t ∧ (s' = { s with stage := .tilt t } ∨
        ∃ angle, move s.currentPanAngle p = some angle ∧ s' = s.assignPan angle (.tilt t))) ∨
      (∃ t, s.stage = .tilt t ∧ (s' = { s with stage := .head } ∨
        ∃ angle, move s.currentTiltAngle t = some angle ∧ s' = s.assignTilt angle .head)) := by
  unfold System.advance at h
  cases hstage : s.stage with
  | head =>
      rw [hstage] at h
      obtain ⟨-, hs'⟩ := Option.ite_none_right_eq_some.mp h
      exact Or.inl ⟨rfl, (Option.some.inj hs').symm⟩
  | read x y =>
      rw [hstage] at h
      simp only at h
      cases hp : targetPanAngle x with
      | none =>
          rw [hp] at h
          exact Or.inr (Or.inr (Or.inl ⟨x, y, rfl, Or.inl hp, (Option.some.inj h).symm⟩))
      | some p =>
          cases ht : targetTiltAngle y with
          | none =>
              rw [hp, ht] at h
              exact Or.inr (Or.inr (Or.inl ⟨x, y, rfl, Or.inr ht, (Option.some.inj h).symm⟩))
          | some t =>
              rw [hp, ht] at h
              exact Or.inr (Or.inl ⟨x, y, p, t, rfl, hp, ht, (Option.some.inj h).symm⟩)
  | pan p t =>
      rw [hstage] at h
      exact Or.inr (Or.inr (Or.inr (Or.inl ⟨p, t, rfl, move_cases h⟩)))
  | tilt t =>
      rw [hstage] at h
      exact Or.inr (Or.inr (Or.inr (Or.inr ⟨t, rfl, move_cases h⟩)))
  | raised =>
      rw [hstage] at h
      cases h

/-! ## Rounding and the ranges -/

theorem targetAngle_mem_range {range : ℚ} (hrange : 0 ≤ range) {half angle : ℚ} {position : ℤ}
    (h : targetAngle range half position = some angle) : angle ∈ Set.Icc (-range) range := by
  obtain ⟨-, -, rfl⟩ := Option.map_eq_some_iff.mp h
  exact ⟨le_max_left _ _, max_le (by linarith) (min_le_left _ _)⟩

/-- Each of the three roundings at most doubles what it rounds, so the increment is at most
eight tenths of the way. -/
theorem increment_mem_Icc {way : ℚ} (h : 0 ≤ way) :
    double (double way * double (1 / 10)) ∈ Set.Icc 0 way := by
  have hdouble : ∀ {q : ℚ}, 0 ≤ q → double q ∈ Set.Icc 0 (2 * q) := by
    intro q hq
    have hmem := BinaryFormat.nearest_mem_uIcc (f := binary64) q
    rwa [Set.uIcc_of_le (by linarith)] at hmem
  obtain ⟨hgain, hgain'⟩ := hdouble (q := 1 / 10) (by norm_num)
  obtain ⟨hway, hway'⟩ := hdouble h
  obtain ⟨hpos, hle⟩ := hdouble (mul_nonneg hway hgain)
  refine ⟨hpos, ?_⟩
  calc double (double way * double (1 / 10)) ≤ 2 * (double way * double (1 / 10)) := hle
    _ ≤ 2 * (2 * way * (2 * (1 / 10))) :=
        mul_le_mul_of_nonneg_left (mul_le_mul hway' hgain' hgain (by linarith)) (by norm_num)
    _ ≤ way := by linarith

/-- The increment lies between zero and the way, in either direction. -/
theorem increment_mem_uIcc (way : ℚ) : double (double way * double (1 / 10)) ∈ Set.uIcc 0 way := by
  rcases le_total 0 way with hpos | hneg
  · rw [Set.uIcc_of_le hpos]
    exact increment_mem_Icc hpos
  · obtain ⟨hlo, hhi⟩ := increment_mem_Icc (neg_nonneg.mpr hneg)
    have hsign : double (double (-way) * double (1 / 10)) = -double (double way * double (1 / 10)) := by
      simp only [double, BinaryFormat.nearest_neg, neg_mul]
    rw [hsign] at hlo hhi
    rw [Set.uIcc_of_ge hneg]
    exact ⟨neg_le_neg_iff.mp hhi, neg_nonneg.mp hlo⟩

/-- Integers of up to 53 binary digits are doubles. -/
theorem double_intCast {n : ℤ} (h : |n| < 2 ^ 53) : double n = n :=
  BinaryFormat.nearest_eq_self (BinaryFormat.representable_intCast (by decide) h)

/-- Rounding does not lead out of an interval with ends that are doubles. -/
theorem double_mem_Icc {lo hi q : ℚ} (hlo : double lo = lo) (hhi : double hi = hi)
    (h : q ∈ Set.Icc lo hi) : double q ∈ Set.Icc lo hi := by
  constructor
  · exact hlo.symm.le.trans (BinaryFormat.nearest_mono h.1)
  · exact (BinaryFormat.nearest_mono h.2).trans hhi.le

/-- **The rounded angle stays in the range of its axis.** -/
theorem move_mem_range {lo hi : ℚ} (hlo : double lo = lo) (hhi : double hi = hi)
    {current target angle : ℚ} (hcurrent : current ∈ Set.Icc lo hi) (htarget : target ∈ Set.Icc lo hi)
    (h : move current target = some angle) : angle ∈ Set.Icc lo hi := by
  obtain rfl := Option.some.inj (Option.ite_none_right_eq_some.mp h).2
  apply double_mem_Icc hlo hhi
  have hincrement := increment_mem_uIcc (target - current)
  rcases le_total 0 (target - current) with hpos | hneg
  · rw [Set.uIcc_of_le hpos] at hincrement
    exact ⟨by linarith [hcurrent.1, hincrement.1], by linarith [htarget.2, hincrement.2]⟩
  · rw [Set.uIcc_of_ge hneg] at hincrement
    exact ⟨by linarith [htarget.1, hincrement.1], by linarith [hcurrent.2, hincrement.2]⟩

/-- The value for an angle of at most 90 degrees is legal. -/
theorem servoValue_mem {angle : ℚ} (h : angle ∈ Set.Icc (-90) 90) :
    -1 ≤ servoValue angle ∧ servoValue angle ≤ 1 := by
  have hlo : double (-1) = -1 := by exact_mod_cast double_intCast (n := -1) (by decide)
  have hhi : double 1 = 1 := by exact_mod_cast double_intCast (n := 1) (by decide)
  exact double_mem_Icc hlo hhi ⟨by linarith [h.1], by linarith [h.2]⟩

/-! ## One step -/

/-- Both angles are in range, and so are the targets that the thread works on. -/
structure Legal (s : System) : Prop where
  pan : s.currentPanAngle ∈ Set.Icc (-90) 90
  tilt : s.currentTiltAngle ∈ Set.Icc (-45) 45
  panTarget : ∀ {p t}, s.stage = .pan p t → p ∈ Set.Icc (-90) 90 ∧ t ∈ Set.Icc (-45) 45
  tiltTarget : ∀ {t}, s.stage = .tilt t → t ∈ Set.Icc (-45) 45

theorem assignPan_of_mem (s : System) {angle : ℚ} (h : angle ∈ Set.Icc (-90) 90) (next : Stage) :
    s.assignPan angle next = { s with
      currentPanAngle := angle, panValues := s.panValues ++ [servoValue angle], stage := next } := by
  rw [System.assignPan, if_pos (servoValue_mem h)]

theorem assignTilt_of_mem (s : System) {angle : ℚ} (h : angle ∈ Set.Icc (-45) 45) (next : Stage) :
    s.assignTilt angle next = { s with
      currentTiltAngle := angle, tiltValues := s.tiltValues ++ [servoValue angle], stage := next } := by
  have hwide : angle ∈ Set.Icc (-90) 90 := ⟨by linarith [h.1], by linarith [h.2]⟩
  rw [System.assignTilt, if_pos (servoValue_mem hwide)]

theorem move_pan_mem {current target angle : ℚ} (hcurrent : current ∈ Set.Icc (-90) 90)
    (htarget : target ∈ Set.Icc (-90) 90) (h : move current target = some angle) :
    angle ∈ Set.Icc (-90) 90 :=
  move_mem_range (by exact_mod_cast double_intCast (n := -90) (by decide))
    (by exact_mod_cast double_intCast (n := 90) (by decide)) hcurrent htarget h

theorem move_tilt_mem {current target angle : ℚ} (hcurrent : current ∈ Set.Icc (-45) 45)
    (htarget : target ∈ Set.Icc (-45) 45) (h : move current target = some angle) :
    angle ∈ Set.Icc (-45) 45 :=
  move_mem_range (by exact_mod_cast double_intCast (n := -45) (by decide))
    (by exact_mod_cast double_intCast (n := 45) (by decide)) hcurrent htarget h

/-- The thread works on a position with a coordinate that is too large for a float. -/
def Overflows (s : System) : Event → Prop
  | .advance =>
      match s.stage with
      | .read targetX targetY =>
          Python.floatLimit ≤ targetX.natAbs ∨ Python.floatLimit ≤ targetY.natAbs
      | _ => False
  | _ => False

theorem targetAngle_eq_none_iff (range half : ℚ) (position : ℤ) :
    targetAngle range half position = none ↔ Python.floatLimit ≤ position.natAbs := by
  rw [targetAngle, Option.map_eq_none_iff, Python.floatOfInt_eq_none_iff]

/-- The two coordinates together. -/
theorem overflows_iff_of_read {s : System} {x y : ℤ} (h : s.stage = .read x y) :
    Overflows s .advance ↔ targetPanAngle x = none ∨ targetTiltAngle y = none := by
  simp only [Overflows, h, targetPanAngle, targetTiltAngle, targetAngle_eq_none_iff]

/-- **One step of the thread** keeps everything in range, and it raises exactly when it works
on a position that is too large. -/
theorem Legal.advance {setting : Setting} {s s' : System} (h : Legal s)
    (hs : s.advance setting = some s') :
    Legal s' ∧ (s'.stage ≠ .raised ↔ ¬ Overflows s .advance) := by
  rcases advance_cases hs with ⟨hstage, rfl⟩ | ⟨x, y, p, t, hstage, hp, ht, rfl⟩ |
    ⟨x, y, hstage, hnone, rfl⟩ | ⟨p, t, hstage, hpan⟩ | ⟨t, hstage, htilt⟩
  · exact ⟨⟨h.pan, h.tilt, by simp, by simp⟩, by simp [Overflows, hstage]⟩
  · have hnot : ¬ Overflows s .advance := by simp [overflows_iff_of_read hstage, hp, ht]
    refine ⟨⟨h.pan, h.tilt, ?_, by simp⟩, iff_of_true (by simp) hnot⟩
    rintro p' t' ⟨⟩
    exact ⟨targetAngle_mem_range (by norm_num [PAN_RANGE]) hp,
      targetAngle_mem_range (by norm_num [TILT_RANGE]) ht⟩
  · have hoverflows : Overflows s .advance := (overflows_iff_of_read hstage).mpr hnone
    exact ⟨⟨h.pan, h.tilt, by simp, by simp⟩, iff_of_false (by simp) (not_not.mpr hoverflows)⟩
  · obtain ⟨hp, ht⟩ := h.panTarget hstage
    rcases hpan with rfl | ⟨angle, hmove, rfl⟩
    · refine ⟨⟨h.pan, h.tilt, by simp, ?_⟩, by simp [Overflows, hstage]⟩
      rintro t' ⟨⟩
      exact ht
    · have hangle := move_pan_mem h.pan hp hmove
      rw [assignPan_of_mem s hangle]
      refine ⟨⟨hangle, h.tilt, by simp, ?_⟩, by simp [Overflows, hstage]⟩
      rintro t' ⟨⟩
      exact ht
  · rcases htilt with rfl | ⟨angle, hmove, rfl⟩
    · exact ⟨⟨h.pan, h.tilt, by simp, by simp⟩, by simp [Overflows, hstage]⟩
    · have hangle := move_tilt_mem h.tilt (h.tiltTarget hstage) hmove
      rw [assignTilt_of_mem s hangle]
      exact ⟨⟨h.pan, hangle, by simp, by simp⟩, by simp [Overflows, hstage]⟩

/-- A request changes the position and the answers, and nothing that the thread owns. -/
theorem System.serve_thread (s : System) (served : Option (ℤ × ℤ) × Response) :
    (s.serve served).stage = s.stage ∧ (s.serve served).currentPanAngle = s.currentPanAngle ∧
      (s.serve served).currentTiltAngle = s.currentTiltAngle := by
  rcases served with ⟨_ | ⟨x, y⟩, r⟩ <;> exact ⟨rfl, rfl, rfl⟩

/-- **One step** of anybody. -/
theorem Legal.step {setting : Setting} {s s' : System} {e : Event} (h : Legal s)
    (hs : step setting s e = some s') :
    Legal s' ∧ (s.stage ≠ .raised → (s'.stage ≠ .raised ↔ ¬ Overflows s e)) := by
  cases e with
  | request path =>
      obtain ⟨-, hs'⟩ := Option.ite_none_right_eq_some.mp hs
      obtain rfl := Option.some.inj hs'
      obtain ⟨hstage, hpan, htilt⟩ := s.serve_thread (setMousePos setting path)
      refine ⟨⟨hpan ▸ h.pan, htilt ▸ h.tilt, ?_, ?_⟩, fun halive => iff_of_true (hstage ▸ halive) id⟩
      · rw [hstage]
        exact h.panTarget
      · rw [hstage]
        exact h.tiltTarget
  | advance =>
      obtain ⟨hlegal, hraised⟩ := h.advance hs
      exact ⟨hlegal, fun _ => hraised⟩
  | stop =>
      obtain rfl := Option.some.inj hs
      exact ⟨⟨h.pan, h.tilt, h.panTarget, h.tiltTarget⟩, fun halive => iff_of_true halive id⟩

/-! ## Whole runs -/

/-- **When the thread survives.**  Through a whole run of requests and steps of the thread, in
any order, no exception ends the thread if and only if no iteration works on a position with
a coordinate that is too large for a float.  No servo value is ever refused. -/
theorem thread_survives_iff (setting : Setting) (es : List Event) :
    (machine setting).Throughout (fun s => s.stage ≠ .raised) es ↔
      (machine setting).Avoids Overflows es :=
  Machine.throughout_iff_avoids (I := Legal)
    ⟨by norm_num [machine], by norm_num [machine], by simp [machine], by simp [machine]⟩
    (by simp [machine]) (fun _ _ _ h hs => (h.step hs).1)
    (fun _ _ _ h halive hs => (h.step hs).2 halive) es

/-- A server with `gpiozero`, on text without characters outside ASCII. -/
def Setting.wired : Setting := ⟨.bare, true, fun _ => []⟩

/-- The request for the position `x = 10 ** 309` is answered with `200`, and ends the thread
with its next iteration. -/
theorem accepted_position_ends_thread :
    ¬ ∀ es s, (machine .wired).run (machine .wired).init es = some s →
      (∀ r ∈ s.responses, r = .headers 200) → s.stage ≠ .raised := by
  intro h
  have hrun : (machine .wired).run (machine .wired).init
      [.request ("/set_mouse_pos?x=1".toList ++ List.replicate 309 '0' ++ "&y=0".toList),
        .advance, .advance] =
      some { x := 10 ^ 309, stage := .raised, responses := [.headers 200] } := by
    decide +kernel
  exact h _ _ hrun (by simp) rfl

end ServoOverflow
