/-
# The older firmware (`Guy/recent/espWorkProject.ino`)

The older program updates the motors, the servo and the lights inside the receive block
of `loop`, in another order than `Guy/peter/espWorkProject_fixed.ino`, which updates
them in every iteration.  Apart from that and from the speed it does not print,
it is the same text, so everything else is taken from the model of the fixed program.

The outputs that the two programs hold are a function of the globals (`Shows`).  The
fixed program restores them in every iteration, the older one with every line it
receives, and between two lines neither the globals nor the outputs change.

* `loop_globals`: in one iteration the two programs change the globals alike;
* `shows_fixed`, `shows_received`, `shows_idle`: what one iteration of either program
  leaves on the board;
* `recent_equivalent`: from the first received line on the outputs are the same.
-/
import ProjectTank.BoardOutputs

open DecimalText

namespace RecentFirmware

open TankFirmware

/-! ## The program -/

/-- `setMotorSpeed`. -/
def setMotorSpeed (motorNum speed : ℤ) : List Action :=
  let constrainedSpeed := constrain speed (-255) 255
  let motorSpeed := |constrainedSpeed|
  if motorNum = 1 then
    if constrainedSpeed > 0 then [.analogWrite .in1Pin 0, .analogWrite .in2Pin motorSpeed]
    else if constrainedSpeed < 0 then [.analogWrite .in1Pin motorSpeed, .analogWrite .in2Pin 0]
    else [.analogWrite .in1Pin 0, .analogWrite .in2Pin 0]
  else if motorNum = 2 then
    if constrainedSpeed > 0 then [.analogWrite .in3Pin 0, .analogWrite .in4Pin motorSpeed]
    else if constrainedSpeed < 0 then [.analogWrite .in3Pin motorSpeed, .analogWrite .in4Pin 0]
    else [.analogWrite .in3Pin 0, .analogWrite .in4Pin 0]
  else []

/-- `updateMotors`. -/
def updateMotors (forwardReverse leftRight : ℤ) : List Action :=
  let mappedThrottle := mappedAxis forwardReverse
  let mappedSteer := mappedAxis leftRight
  setMotorSpeed 1 (mappedThrottle + mappedSteer) ++ setMotorSpeed 2 (mappedThrottle - mappedSteer)

/-- The block `if (Serial.available())`. -/
def receive (g : Globals) (line : Text) : Globals × List Action :=
  let commandString := Arduino.trim line
  let parsed := if commandString.length > 0 then parseCommand g commandString else (g, [])
  let g := { parsed.1 with servoDeg := nextServoDeg parsed.1 }
  (g,
    parsed.2 ++ updateMotors parsed.1.forwardReverse parsed.1.leftRight ++ turnTurret parsed.1 ++
      [.servoWrite g.servoDeg] ++ checkLight g)

/-- The globals and the output after the receive block. -/
def receiveIfAvailable (g : Globals) (i : Iteration) : Globals × List Action :=
  match i.received with
  | none => (g, [])
  | some line => receive g line

/-- `loop`. -/
def loop (g : Globals) (i : Iteration) : Globals × List Action :=
  let received := receiveIfAvailable g i
  let cannon := checkAndFireCannon received.1 i
  (cannon.1,
    received.2 ++ cannon.2 ++ triggerPulse ++
      [.serialPrint "Dist:".toList, .serialPrintln (intText (readDistance i))])

/-- One iteration of `loop` on a board. -/
def iterate (t : Tank) (i : Iteration) : Tank :=
  let r := loop t.globals i
  ⟨r.1, t.board.performAll r.2⟩

/-- Any number of iterations. -/
def run (t : Tank) (is : List Iteration) : Tank := is.foldl iterate t

@[simp] theorem run_concat (t : Tank) (is : List Iteration) (i : Iteration) :
    run t (is ++ [i]) = iterate (run t is) i := by
  simp [run]

/-! ## The globals -/

theorem receiveIfAvailable_globals (g : Globals) (i : Iteration) :
    (receiveIfAvailable g i).1 = (TankFirmware.receiveIfAvailable g i).1 := by
  unfold receiveIfAvailable TankFirmware.receiveIfAvailable
  cases i.received <;> rfl

/-- In one iteration both programs change the globals alike. -/
theorem loop_globals (g : Globals) (i : Iteration) :
    (loop g i).1 = (TankFirmware.loop g i).1 := by
  show (checkAndFireCannon (receiveIfAvailable g i).1 i).1 = _
  rw [receiveIfAvailable_globals]
  rfl

/-! ## Outputs that show the globals -/

/-- The board shows the held globals: the drive values, the lights and the servo. -/
structure Shows (g : Globals) (b : Board) : Prop where
  drive : b.FollowsDrive g.forwardReverse g.leftRight
  frontLED : b.level .frontLED = decide (g.lightControl = 1)
  rearLED : b.level .rearLED = decide (g.lightControl = 1)
  servo : b.servo = some g.servoDeg

/-- The outputs of `Shows`. -/
def held : List Output :=
  [.duty .in1Pin, .duty .in2Pin, .duty .in3Pin, .duty .in4Pin, .level .frontLED,
    .level .rearLED, .servo]

theorem FollowsDrive.of_agree {b b' : Board} {fr lr : ℤ} (h : b.FollowsDrive fr lr)
    (hb : ∀ o ∈ [Output.duty .in1Pin, .duty .in2Pin, .duty .in3Pin, .duty .in4Pin], b'.Agree b o) :
    b'.FollowsDrive fr lr := by
  simp only [List.mem_cons, List.not_mem_nil, or_false, forall_eq_or_imp, forall_eq] at hb
  obtain ⟨h1, h2, h3, h4⟩ := hb
  exact ⟨⟨Eq.trans h1 h.1.1, Eq.trans h2 h.1.2⟩, Eq.trans h3 h.2.1, Eq.trans h4 h.2.2⟩

theorem Shows.of_agree {g : Globals} {b b' : Board} (h : Shows g b)
    (hb : ∀ o ∈ held, b'.Agree b o) : Shows g b' where
  drive := FollowsDrive.of_agree h.drive fun o ho => hb o (List.mem_append_left [_, _, _] ho)
  frontLED := Eq.trans (hb (.level .frontLED) (by decide)) h.frontLED
  rearLED := Eq.trans (hb (.level .rearLED) (by decide)) h.rearLED
  servo := Eq.trans (hb .servo (by decide)) h.servo

/-- The cannon keeps the globals that are shown. -/
theorem Shows.cannon {g : Globals} {b : Board} (h : Shows g b) (i : Iteration) :
    Shows (checkAndFireCannon g i).1 b := by
  have hfr := get_checkAndFireCannon g i (show Field.forwardReverse ≠ .fireCannon by decide)
  have hlr := get_checkAndFireCannon g i (show Field.leftRight ≠ .fireCannon by decide)
  have hlc := get_checkAndFireCannon g i (show Field.lightControl ≠ .fireCannon by decide)
  have hservo : (checkAndFireCannon g i).1.servoDeg = g.servoDeg := by
    show (tryFire g i).servoDeg = _
    unfold tryFire
    simp only
    split_ifs <;> rfl
  simp only [Globals.get] at hfr hlr hlc
  exact ⟨by rw [hfr, hlr]; exact h.drive, by rw [hlc]; exact h.frontLED,
    by rw [hlc]; exact h.rearLED, by rw [hservo]; exact h.servo⟩

/-- The end of an iteration: the cannon and the distance report. -/
theorem writes_end (g : Globals) (i : Iteration) :
    Writes ((checkAndFireCannon g i).2 ++ (triggerPulse ++
        [.serialPrint "Dist:".toList, .serialPrintln (intText (readDistance i))]))
      ([some (.level .laserPin), some (.level .buzzerPin)] ++ [some (.level .trigPin), none]) :=
  (writes_cannon g i).append (writes_report (readDistance i))

/-! ## One iteration of the fixed program -/

/-- The fixed program shows its globals at the end of every iteration. -/
theorem shows_fixed (t : Tank) (i : Iteration) :
    Shows (t.iterate i).globals (t.iterate i).board := by
  set g := (TankFirmware.receiveIfAvailable t.globals i).1 with hg
  set b := t.board.performAll (TankFirmware.receiveIfAvailable t.globals i).2 with hb
  have hboard : (t.iterate i).board = b.performAll (checkLight g ++ [.servoWrite g.servoDeg] ++
      (TankFirmware.updateMotors g.forwardReverse g.leftRight ++
        ((checkAndFireCannon g i).2 ++ (triggerPulse ++
          [.serialPrint "Dist:".toList, .serialPrintln (intText (readDistance i))])))) := by
    simp only [Tank.iterate, TankFirmware.loop, ← hg, hb, Board.performAll_append]
  have hafter := (writes_updateMotors g.forwardReverse g.leftRight).append (writes_end g i)
  have hled : ∀ pin ∈ [Pin.frontLED, Pin.rearLED],
      (t.iterate i).board.level pin = decide (g.lightControl = 1) := by
    intro pin hpin
    rw [hboard, List.append_assoc]
    apply level_checkLight_append g b [] ((writes_servo g.servoDeg).append hafter) hpin
    simp only [List.mem_cons, List.not_mem_nil, or_false] at hpin
    rcases hpin with rfl | rfl <;> decide
  have hglobals : Shows g (t.iterate i).board := by
    refine ⟨?_, hled _ (by simp), hled _ (by simp), ?_⟩
    · have hfr := get_checkAndFireCannon g i (show Field.forwardReverse ≠ .fireCannon by decide)
      have hlr := get_checkAndFireCannon g i (show Field.leftRight ≠ .fireCannon by decide)
      have h := followsDrive_iterate t i
      rw [show (t.iterate i).globals = (checkAndFireCannon g i).1 from rfl, hfr, hlr] at h
      exact h
    · rw [hboard]
      exact servo_performAll_append b hafter (by decide)
  exact hglobals.cannon i

/-! ## One iteration of the older program -/

/-- The two programs write the same duties. -/
theorem followsDrive_updateMotors (b : Board) (fr lr : ℤ) :
    (b.performAll (updateMotors fr lr)).FollowsDrive fr lr := by
  have heq : updateMotors fr lr =
      driveInputs .in1Pin .in2Pin (constrain (mappedAxis fr + mappedAxis lr) (-255) 255) ++
        driveInputs .in3Pin .in4Pin (constrain (mappedAxis fr - mappedAxis lr) (-255) 255) := rfl
  rw [heq, Board.performAll_append]
  set b₁ := b.performAll
    (driveInputs .in1Pin .in2Pin (constrain (mappedAxis fr + mappedAxis lr) (-255) 255))
  have hleft : b₁.Drives .in1Pin .in2Pin _ := drives_driveInputs b (by decide) _
  refine ⟨⟨?_, ?_⟩, drives_driveInputs b₁ (by decide) _⟩
  · rw [pwm_driveInputs_of_ne b₁ (by decide) (by decide)]
    exact hleft.1
  · rw [pwm_driveInputs_of_ne b₁ (by decide) (by decide)]
    exact hleft.2

theorem writes_updateMotors (fr lr : ℤ) :
    Writes (updateMotors fr lr)
      ([some (.duty .in1Pin), some (.duty .in2Pin)] ++
        [some (.duty .in3Pin), some (.duty .in4Pin)]) :=
  (writes_driveInputs .in1Pin .in2Pin _).append (writes_driveInputs .in3Pin .in4Pin _)

/-- A received line makes the older program show the new globals. -/
theorem shows_received (t : Tank) {i : Iteration} {line : Text} (hline : i.received = some line) :
    Shows (iterate t i).globals (iterate t i).board := by
  set parsed := (if (Arduino.trim line).length > 0 then
    parseCommand t.globals (Arduino.trim line) else (t.globals, [])) with hparsed
  set g : Globals := { parsed.1 with servoDeg := nextServoDeg parsed.1 } with hg
  set b := t.board.performAll parsed.2 with hb
  set motors := updateMotors g.forwardReverse g.leftRight
  set tail := (checkAndFireCannon g i).2 ++ (triggerPulse ++
    [.serialPrint "Dist:".toList, .serialPrintln (intText (readDistance i))]) with htail
  have hloop : loop t.globals i = ((checkAndFireCannon g i).1,
      parsed.2 ++ motors ++ turnTurret parsed.1 ++ [.servoWrite g.servoDeg] ++ checkLight g ++
        (checkAndFireCannon g i).2 ++ triggerPulse ++
        [.serialPrint "Dist:".toList, .serialPrintln (intText (readDistance i))]) := by
    simp only [loop, receiveIfAvailable, hline]
    rfl
  have hboard : (iterate t i).board = b.performAll (motors ++ (turnTurret parsed.1 ++
      ([.servoWrite g.servoDeg] ++ (checkLight g ++ tail)))) := by
    simp only [iterate, hloop, hb, htail, Board.performAll_append]
  have hend := writes_end g i
  have hrest := (writes_turnTurret parsed.1).append
    ((writes_servo g.servoDeg).append ((writes_checkLight g).append hend))
  have hled : ∀ pin ∈ [Pin.frontLED, Pin.rearLED],
      (iterate t i).board.level pin = decide (g.lightControl = 1) := by
    intro pin hpin
    rw [hboard, ← List.append_assoc, ← List.append_assoc, ← List.append_assoc]
    apply level_checkLight_append g b _ hend hpin
    simp only [List.mem_cons, List.not_mem_nil, or_false] at hpin
    rcases hpin with rfl | rfl <;> decide
  have hglobals : Shows g (iterate t i).board := by
    refine ⟨?_, hled _ (by simp), hled _ (by simp), ?_⟩
    · rw [hboard, Board.performAll_append]
      refine FollowsDrive.of_agree (followsDrive_updateMotors b _ _) fun o ho => ?_
      refine hrest.agree ?_ _
      simp only [List.mem_cons, List.not_mem_nil, or_false] at ho
      rcases ho with rfl | rfl | rfl | rfl <;> decide
    · rw [hboard, ← List.append_assoc, ← List.append_assoc]
      exact servo_performAll_append b ((writes_checkLight g).append hend) (by decide)
  have hlast : (iterate t i).globals = (checkAndFireCannon g i).1 := by
    show (loop t.globals i).1 = _
    rw [hloop]
  rw [hlast]
  exact hglobals.cannon i

/-- Without a line the older program changes neither the held globals nor what shows
them. -/
theorem shows_idle {t : Tank} {i : Iteration} (hnone : i.received = none)
    (h : Shows t.globals t.board) : Shows (iterate t i).globals (iterate t i).board := by
  have hloop : loop t.globals i = ((checkAndFireCannon t.globals i).1,
      (checkAndFireCannon t.globals i).2 ++ (triggerPulse ++
        [.serialPrint "Dist:".toList, .serialPrintln (intText (readDistance i))])) := by
    simp only [loop, receiveIfAvailable, hnone, List.nil_append, List.append_assoc]
  rw [iterate, hloop]
  refine (h.of_agree fun o ho => ?_).cannon i
  refine (writes_end t.globals i).agree ?_ _
  revert o
  decide

/-! ## One iteration of both programs -/

/-- Both programs make the same steps. -/
theorem stepCount_loop (g : Globals) (i : Iteration) :
    stepCount (loop g i).2 = stepCount (TankFirmware.loop g i).2 := by
  set g' := (TankFirmware.receiveIfAvailable g i).1 with hg'
  have hend := (writes_end g' i).stepCount_eq_zero (by decide)
  have hupdate := ((writes_checkLight g').append ((writes_servo g'.servoDeg).append
    (TankFirmware.writes_updateMotors g'.forwardReverse g'.leftRight))).stepCount_eq_zero
      (by decide)
  have hreceive : stepCount (receiveIfAvailable g i).2 =
      stepCount (TankFirmware.receiveIfAvailable g i).2 := by
    unfold receiveIfAvailable TankFirmware.receiveIfAvailable
    cases i.received with
    | none => rfl
    | some line =>
        simp only [receive, TankFirmware.receive, stepCount_append,
          (writes_updateMotors _ _).stepCount_eq_zero (by decide),
          (writes_checkLight _).stepCount_eq_zero (by decide)]
        simp [stepCount, Action.steps]
  simp only [loop, TankFirmware.loop, receiveIfAvailable_globals, ← hg', stepCount_append,
    hreceive] at hend hupdate ⊢
  omega

/-- The outputs that the two programs are compared on. -/
structure SameOutputs (b b' : Board) : Prop where
  motors : ∀ pin ∈ [Pin.in1Pin, .in2Pin, .in3Pin, .in4Pin], b.pwm pin = b'.pwm pin
  lights : ∀ pin ∈ [Pin.frontLED, .rearLED], b.level pin = b'.level pin
  servo : b.servo = b'.servo
  steps : b.steps = b'.steps
  laser : b.level .laserPin = b'.level .laserPin
  buzzer : b.level .buzzerPin = b'.level .buzzerPin

/-- Two boards that show the same globals agree on the held outputs. -/
theorem Shows.motors {g : Globals} {b b' : Board} (h : Shows g b) (h' : Shows g b') :
    ∀ pin ∈ [Pin.in1Pin, .in2Pin, .in3Pin, .in4Pin], b.pwm pin = b'.pwm pin := by
  intro pin hpin
  simp only [List.mem_cons, List.not_mem_nil, or_false] at hpin
  rcases hpin with rfl | rfl | rfl | rfl
  · exact h.drive.1.1.trans h'.drive.1.1.symm
  · exact h.drive.1.2.trans h'.drive.1.2.symm
  · exact h.drive.2.1.trans h'.drive.2.1.symm
  · exact h.drive.2.2.trans h'.drive.2.2.symm

theorem Shows.lights {g : Globals} {b b' : Board} (h : Shows g b) (h' : Shows g b') :
    ∀ pin ∈ [Pin.frontLED, .rearLED], b.level pin = b'.level pin := by
  intro pin hpin
  simp only [List.mem_cons, List.not_mem_nil, or_false] at hpin
  rcases hpin with rfl | rfl
  · exact h.frontLED.trans h'.frontLED.symm
  · exact h.rearLED.trans h'.rearLED.symm

/-- The end of an iteration determines the cannon's outputs. -/
theorem level_end (g : Globals) (i : Iteration) (b b' : Board) {pin : Pin}
    (hpin : pin ∈ [Pin.laserPin, .buzzerPin]) :
    ((b.performAll (checkAndFireCannon g i).2).performAll (triggerPulse ++
        [.serialPrint "Dist:".toList, .serialPrintln (intText (readDistance i))])).level pin =
      ((b'.performAll (checkAndFireCannon g i).2).performAll (triggerPulse ++
        [.serialPrint "Dist:".toList, .serialPrintln (intText (readDistance i))])).level pin := by
  have hreport := writes_report (readDistance i)
  have hlevel : some (.level pin) ∉ [some (Output.level .trigPin), none] := by
    simp only [List.mem_cons, List.not_mem_nil, or_false] at hpin
    rcases hpin with rfl | rfl <;> decide
  calc _ = (b.performAll (checkAndFireCannon g i).2).level pin := hreport.agree hlevel _
    _ = (b'.performAll (checkAndFireCannon g i).2).level pin := level_cannon g i b b' hpin
    _ = _ := Eq.symm (hreport.agree hlevel _)

/-- The cannon's outputs are written in every iteration, from the same globals. -/
theorem cannon_outputs (t t' : Tank) (hglobals : t.globals = t'.globals) (i : Iteration) {pin : Pin}
    (hpin : pin ∈ [Pin.laserPin, .buzzerPin]) :
    (iterate t i).board.level pin = (t'.iterate i).board.level pin := by
  have h := level_end (TankFirmware.receiveIfAvailable t'.globals i).1 i
    (t.board.performAll (receiveIfAvailable t'.globals i).2)
    (t'.board.performAll ((TankFirmware.receiveIfAvailable t'.globals i).2 ++
      checkLight (TankFirmware.receiveIfAvailable t'.globals i).1 ++
      [.servoWrite (TankFirmware.receiveIfAvailable t'.globals i).1.servoDeg] ++
      TankFirmware.updateMotors (TankFirmware.receiveIfAvailable t'.globals i).1.forwardReverse
        (TankFirmware.receiveIfAvailable t'.globals i).1.leftRight)) hpin
  simp only [iterate, loop, Tank.iterate, TankFirmware.loop, hglobals, receiveIfAvailable_globals,
    Board.performAll_append] at h ⊢
  exact h

/-! ## Runs -/

theorem globals_run (t t' : Tank) (hglobals : t.globals = t'.globals) (is : List Iteration) :
    (run t is).globals = (t'.run is).globals := by
  induction is using List.reverseRecOn with
  | nil => exact hglobals
  | append_singleton is i ih =>
      rw [run_concat, Tank.run_concat]
      show (loop (run t is).globals i).1 = (TankFirmware.loop (t'.run is).globals i).1
      rw [ih, loop_globals]

theorem steps_run (t t' : Tank) (hglobals : t.globals = t'.globals)
    (hsteps : t.board.steps = t'.board.steps) (is : List Iteration) :
    (run t is).board.steps = (t'.run is).board.steps := by
  induction is using List.reverseRecOn with
  | nil => exact hsteps
  | append_singleton is i ih =>
      rw [run_concat, Tank.run_concat]
      show ((run t is).board.performAll _).steps = ((t'.run is).board.performAll _).steps
      rw [steps_performAll, steps_performAll, ih, stepCount_loop, globals_run t t' hglobals]

/-- Once it has received a line, the older program shows its globals forever. -/
theorem shows_run (t : Tank) (is : List Iteration) (hdriven : ∃ i ∈ is, i.received ≠ none) :
    Shows (run t is).globals (run t is).board := by
  induction is using List.reverseRecOn with
  | nil => simp at hdriven
  | append_singleton is i ih =>
      rw [run_concat]
      cases hline : i.received with
      | some line => exact shows_received _ hline
      | none =>
          refine shows_idle hline (ih ?_)
          obtain ⟨j, hj, hne⟩ := hdriven
          rcases List.mem_append.mp hj with hj | hj
          · exact ⟨j, hj, hne⟩
          · rw [List.mem_singleton.mp hj] at hne
            exact absurd hline hne

/-- **The two firmware versions are equivalent once driven.**  Started at the same time
on any two boards with the same stepper position, and given the same lines and clock
readings, they have the same motor duties, lights, servo angle, stepper steps, laser and
buzzer at the end of every iteration from the first that received a line. -/
theorem recent_equivalent (t₀ : ℕ) (board board' : Board) (hsteps : board.steps = board'.steps)
    (is : List Iteration) (hdriven : ∃ i ∈ is, i.received ≠ none) :
    SameOutputs (run (Tank.boot t₀ board) is).board ((Tank.boot t₀ board').run is).board := by
  have hglobals := globals_run (Tank.boot t₀ board) (Tank.boot t₀ board') rfl is
  have hrecent := shows_run (Tank.boot t₀ board) is hdriven
  have hsteps' := steps_run (Tank.boot t₀ board) (Tank.boot t₀ board') rfl hsteps is
  cases is using List.reverseRecOn with
  | nil => simp at hdriven
  | append_singleton is i =>
      have hprevious := globals_run (Tank.boot t₀ board) (Tank.boot t₀ board') rfl is
      rw [run_concat] at hglobals hrecent hsteps' ⊢
      rw [Tank.run_concat] at hglobals hsteps' ⊢
      have hfixed := shows_fixed ((Tank.boot t₀ board').run is) i
      rw [← hglobals] at hfixed
      exact ⟨hrecent.motors hfixed, hrecent.lights hfixed, hrecent.servo.trans hfixed.servo.symm,
        hsteps', cannon_outputs _ _ hprevious i (by decide),
        cannon_outputs _ _ hprevious i (by decide)⟩

/-- A line with every key, then an iteration without one. -/
theorem recent_equivalent_after_line :
    SameOutputs
      (run (Tank.boot 0 {}) [{ received := some "FR:7;LR:-3;UD:9;TLR:9;FC:1;LC:1".toList }, {}]).board
      ((Tank.boot 0 {}).run
        [{ received := some "FR:7;LR:-3;UD:9;TLR:9;FC:1;LC:1".toList }, {}]).board :=
  recent_equivalent 0 {} {} rfl _ ⟨_, List.mem_cons_self, by simp⟩

end RecentFirmware
