/-
# Outputs of the board and the actions that write them

A frame for lists of actions: `Writes as os` bounds the outputs that `as` writes, and
`Writes.agree` says that every other output stays as it was.  Each part of `loop` has
its own bound, so that the parts that come after a write can be skipped.
-/
import ProjectTank.MotorDrive

namespace TankFirmware

/-! ## Outputs -/

/-- An output of the board. -/
inductive Output
  | duty (pin : Pin)
  | level (pin : Pin)
  | servo
  | steps
  deriving DecidableEq

/-- The output an action writes. -/
def Action.output : Action → Option Output
  | .analogWrite pin _ => some (.duty pin)
  | .digitalWrite pin _ => some (.level pin)
  | .servoWrite _ => some .servo
  | .stepperStep _ => some .steps
  | .serialPrint _ => none

/-- Two boards agree on an output. -/
def Board.Agree (b b' : Board) : Output → Prop
  | .duty pin => b.pwm pin = b'.pwm pin
  | .level pin => b.level pin = b'.level pin
  | .servo => b.servo = b'.servo
  | .steps => b.steps = b'.steps

theorem Board.Agree.trans {b₁ b₂ b₃ : Board} {o : Output} (h : b₁.Agree b₂ o)
    (h' : b₂.Agree b₃ o) : b₁.Agree b₃ o := by
  cases o <;> exact Eq.trans h h'

/-- An action writes one output at most. -/
theorem Board.agree_perform {a : Action} {o : Output} (h : a.output ≠ some o) (b : Board) :
    (b.perform a).Agree b o := by
  cases a with
  | analogWrite pin value =>
      cases o with
      | duty pin' => exact Function.update_of_ne (fun heq => h (by rw [heq]; rfl)) _ _
      | _ => rfl
  | digitalWrite pin value =>
      cases o with
      | level pin' => exact Function.update_of_ne (fun heq => h (by rw [heq]; rfl)) _ _
      | _ => rfl
  | servoWrite angle =>
      cases o with
      | servo => exact absurd rfl h
      | _ => rfl
  | stepperStep steps =>
      cases o with
      | steps => exact absurd rfl h
      | _ => rfl
  | serialPrint s => cases o <;> rfl

/-- The actions write no outputs but those of `os`; `none` stands for a print. -/
def Writes (as : List Action) (os : List (Option Output)) : Prop := ∀ a ∈ as, a.output ∈ os

instance (as : List Action) (os : List (Option Output)) : Decidable (Writes as os) :=
  inferInstanceAs (Decidable (∀ a ∈ as, a.output ∈ os))

/-- Bounds of two lists of actions make a bound of both in a row. -/
theorem Writes.append {as as' : List Action} {os os' : List (Option Output)} (h : Writes as os)
    (h' : Writes as' os') : Writes (as ++ as') (os ++ os') := by
  intro a ha
  rw [List.mem_append]
  exact (List.mem_append.mp ha).imp (h a) (h' a)

/-- What the actions do not write stays as it was. -/
theorem Writes.agree {as : List Action} {os : List (Option Output)} (h : Writes as os)
    {o : Output} (ho : some o ∉ os) (b : Board) : (b.performAll as).Agree b o := by
  induction as generalizing b with
  | nil => cases o <;> rfl
  | cons a as ih =>
      have ha : a.output ≠ some o := fun heq => ho (heq ▸ h a List.mem_cons_self)
      exact (ih (fun a' ha' => h a' (List.mem_cons_of_mem a ha')) (b.perform a)).trans
        (Board.agree_perform ha b)

/-! ## The parts of `loop` -/

/-- The turret's part only steps. -/
theorem writes_turnTurret (g : Globals) : Writes (turnTurret g) [some .steps] := by
  unfold turnTurret
  split_ifs
  · exact List.forall_mem_singleton.mpr (by decide)
  · exact List.forall_mem_singleton.mpr (by decide)
  · exact fun _ h => absurd h List.not_mem_nil

/-- The lights' part writes the two light pins. -/
theorem writes_checkLight (g : Globals) :
    Writes (checkLight g) [some (.level .frontLED), some (.level .rearLED)] := by
  unfold checkLight
  split_ifs <;> decide

/-- The cannon's part writes laser and buzzer. -/
theorem writes_cannon (g : Globals) (i : Iteration) :
    Writes (checkAndFireCannon g i).2 [some (.level .laserPin), some (.level .buzzerPin)] := by
  unfold checkAndFireCannon
  simp only
  split_ifs <;>
    · intro a ha
      simp only [List.mem_cons, List.not_mem_nil, or_false] at ha
      rcases ha with rfl | rfl <;> simp [Action.output]

/-- A motor's part writes the duties of its two inputs. -/
theorem writes_driveInputs (inA inB : Pin) (v : ℤ) :
    Writes (driveInputs inA inB v) [some (.duty inA), some (.duty inB)] := by
  unfold driveInputs
  split_ifs <;>
    · intro a ha
      simp only [List.mem_cons, List.not_mem_nil, or_false] at ha
      rcases ha with rfl | rfl <;> simp [Action.output]

/-- Each motor prints its values and then writes its two inputs. -/
theorem writes_updateMotors (fr lr : ℤ) :
    Writes (updateMotors fr lr)
      (([none] ++ [some (.duty .in1Pin), some (.duty .in2Pin)]) ++
        ([none] ++ [some (.duty .in3Pin), some (.duty .in4Pin)])) := by
  have hprints : ∀ s₁ s₂ s₃ s₄ : Text,
      Writes [.serialPrint s₁, .serialPrint s₂, .serialPrint s₃, .serialPrintln s₄] [none] := by
    intro s₁ s₂ s₃ s₄ a ha
    simp only [List.mem_cons, List.not_mem_nil, or_false] at ha
    rcases ha with rfl | rfl | rfl | rfl <;> exact List.mem_singleton_self _
  exact ((hprints _ _ _ _).append (writes_driveInputs .in1Pin .in2Pin _)).append
    ((hprints _ _ _ _).append (writes_driveInputs .in3Pin .in4Pin _))

/-- The trigger pulse and the distance report that end an iteration. -/
theorem writes_report (d : ℤ) :
    Writes (triggerPulse ++ [.serialPrint "Dist:".toList, .serialPrintln (DecimalText.intText d)])
      [some (.level .trigPin), none] := by
  intro a ha
  simp only [triggerPulse, List.cons_append, List.nil_append, List.mem_cons, List.not_mem_nil,
    or_false] at ha
  rcases ha with rfl | rfl | rfl | rfl | rfl <;> simp [Action.output, Action.serialPrintln]

/-! ## Values written -/

/-- Both lights show the light field, whatever they showed before. -/
theorem level_checkLight (g : Globals) (b : Board) :
    (b.performAll (checkLight g)).level .frontLED = decide (g.lightControl = 1) ∧
      (b.performAll (checkLight g)).level .rearLED = decide (g.lightControl = 1) := by
  unfold checkLight
  split_ifs with h
  · simp [h, Board.performAll, Board.perform]
  · simp [h, Board.performAll, Board.perform]

/-- The lights after a list of actions that writes no light later. -/
theorem level_checkLight_append (g : Globals) (b : Board) (as : List Action) {as' : List Action}
    {os : List (Option Output)} (has' : Writes as' os) {pin : Pin}
    (hpin : pin ∈ [Pin.frontLED, Pin.rearLED]) (hos : some (.level pin) ∉ os) :
    (b.performAll (as ++ checkLight g ++ as')).level pin = decide (g.lightControl = 1) := by
  rw [Board.performAll_append, Board.performAll_append]
  apply Eq.trans (has'.agree hos _)
  obtain ⟨hfront, hrear⟩ := level_checkLight g (b.performAll as)
  rcases List.mem_cons.mp hpin with rfl | hpin
  · exact hfront
  · obtain rfl := List.mem_singleton.mp hpin
    exact hrear

/-- The cannon writes both of its levels, whatever they were. -/
theorem level_cannon (g : Globals) (i : Iteration) (b b' : Board) {pin : Pin}
    (hpin : pin ∈ [Pin.laserPin, Pin.buzzerPin]) :
    (b.performAll (checkAndFireCannon g i).2).Agree (b'.performAll (checkAndFireCannon g i).2)
      (.level pin) := by
  simp only [List.mem_cons, List.not_mem_nil, or_false] at hpin
  unfold checkAndFireCannon
  simp only
  rcases hpin with rfl | rfl <;> split_ifs <;>
    simp [Board.Agree, Board.performAll, Board.perform]

theorem writes_servo (angle : ℤ) : Writes [.servoWrite angle] [some .servo] :=
  List.forall_mem_singleton.mpr (List.mem_singleton_self _)

/-- The servo has the angle last written, if it is not written again. -/
theorem servo_performAll_append (b : Board) {as as' : List Action} {os : List (Option Output)}
    {angle : ℤ} (has' : Writes as' os) (hos : some .servo ∉ os) :
    (b.performAll (as ++ [.servoWrite angle] ++ as')).servo = some angle := by
  rw [Board.performAll_append, Board.performAll_append]
  exact has'.agree hos _

/-! ## Steps -/

/-- The steps an action makes. -/
def Action.steps : Action → ℤ
  | .stepperStep steps => steps
  | _ => 0

/-- The steps a list of actions makes in total. -/
def stepCount (as : List Action) : ℤ := (as.map Action.steps).sum

theorem stepCount_append (as as' : List Action) :
    stepCount (as ++ as') = stepCount as + stepCount as' := by
  simp [stepCount]

/-- A board has made its steps and those of the actions. -/
theorem steps_performAll (b : Board) (as : List Action) :
    (b.performAll as).steps = b.steps + stepCount as := by
  induction as generalizing b with
  | nil => simp [stepCount, Board.performAll]
  | cons a as ih =>
      show ((b.perform a).performAll as).steps = _
      rw [ih, stepCount, stepCount, List.map_cons, List.sum_cons]
      cases a <;> simp [Board.perform, Action.steps, add_assoc]

/-- Actions that do not write the stepper make no steps. -/
theorem Writes.stepCount_eq_zero {as : List Action} {os : List (Option Output)} (h : Writes as os)
    (hos : some .steps ∉ os) : stepCount as = 0 := by
  have hagree : (({} : Board).performAll as).steps = ({} : Board).steps := h.agree hos _
  rw [steps_performAll] at hagree
  simpa using hagree

end TankFirmware
