/-
# The motors follow the last drive command

`loop` writes the four motor inputs in every iteration, from `forwardReverse` and
`leftRight` alone.  The file follows a value from the line to the pin:

* `get_run`: after any run a command field holds the last value that any received
  line assigned to it, `0` when none did;
* `followsDrive_updateMotors`: each motor is driven at its clamped mix of throttle and
  steer, on the input the sign selects;
* `followsDrive_iterate`: these are the duties at the end of the iteration.
-/
import ProjectTank.CommandParser

open DecimalText

namespace TankFirmware

/-! ## Command fields over a run -/

/-- What the line received in an iteration does, `[]` when nothing was received. -/
def Iteration.events (i : Iteration) : List ParseEvent :=
  match i.received with
  | none => []
  | some line => parseEvents (Arduino.trim line)

/-- The last value that the lines of `is` assign to `f`, `0` when they assign none. -/
def lastReceived (f : Field) (is : List Iteration) : ℤ :=
  (lastAssigned f (is.flatMap Iteration.events)).getD 0

/-- The receive block assigns what the received line says; an empty line says nothing. -/
theorem get_receiveIfAvailable (g : Globals) (i : Iteration) (f : Field) :
    (receiveIfAvailable g i).1.get f = (lastAssigned f i.events).getD (g.get f) := by
  unfold receiveIfAvailable Iteration.events
  cases i.received with
  | none => rfl
  | some line =>
      have hservo : ∀ (g' : Globals) (d : ℤ), ({ g' with servoDeg := d } : Globals).get f = g'.get f := by
        intro g' d
        cases f <;> rfl
      simp only [receive]
      rw [hservo]
      by_cases hlen : (Arduino.trim line).length > 0
      · rw [if_pos hlen, get_parseCommand]
      · have hnil : Arduino.trim line = [] := List.length_eq_zero_iff.mp (by omega)
        rw [if_neg hlen, hnil]
        rfl

/-- The cannon clears `fireCannon` and touches no other command field. -/
theorem get_checkAndFireCannon (g : Globals) (i : Iteration) {f : Field} (hf : f ≠ .fireCannon) :
    (checkAndFireCannon g i).1.get f = g.get f := by
  show (tryFire g i).get f = _
  unfold tryFire
  cases f with
  | fireCannon => exact absurd rfl hf
  | forwardReverse => simp only [Globals.get]; split_ifs <;> rfl
  | leftRight => simp only [Globals.get]; split_ifs <;> rfl
  | upDown => simp only [Globals.get]; split_ifs <;> rfl
  | turretLeftRight => simp only [Globals.get]; split_ifs <;> rfl
  | lightControl => simp only [Globals.get]; split_ifs <;> rfl

theorem get_loop (g : Globals) (i : Iteration) {f : Field} (hf : f ≠ .fireCannon) :
    (loop g i).1.get f = (lastAssigned f i.events).getD (g.get f) := by
  show (checkAndFireCannon (receiveIfAvailable g i).1 i).1.get f = _
  rw [get_checkAndFireCannon _ i hf, get_receiveIfAvailable]

/-- **After any run a command field holds the last value received for it.** -/
theorem get_run (t : Tank) (is : List Iteration) {f : Field} (hf : f ≠ .fireCannon) :
    (t.run is).globals.get f =
      (lastAssigned f (is.flatMap Iteration.events)).getD (t.globals.get f) := by
  induction is using List.reverseRecOn with
  | nil => rfl
  | append_singleton is i ih =>
      rw [Tank.run_concat]
      show (loop (t.run is).globals i).1.get f = _
      rw [get_loop _ i hf, ih, List.flatMap_append, List.flatMap_singleton, lastAssigned_append]
      cases lastAssigned f i.events <;> rfl

theorem get_run_boot (t₀ : ℕ) (board : Board) (is : List Iteration) {f : Field}
    (hf : f ≠ .fireCannon) :
    ((Tank.boot t₀ board).run is).globals.get f = lastReceived f is := by
  rw [get_run _ is hf, lastReceived]
  cases f <;> rfl

/-- The values that commands put into the fields fit an `int`, so that modelling the
fields over `ℤ` loses nothing. -/
theorem fitsInt32_lastReceived (f : Field) (is : List Iteration) :
    FitsInt32 (lastReceived f is) := by
  unfold lastReceived
  cases h : lastAssigned f (is.flatMap Iteration.events) with
  | none => exact (by decide : FitsInt32 0)
  | some v =>
      obtain ⟨e, he, hv⟩ := List.mem_filterMap.mp (List.mem_of_getLast? h)
      obtain ⟨i, -, hi⟩ := List.mem_flatMap.mp he
      unfold Iteration.events at hi
      cases hrec : i.received with
      | none => simp [hrec] at hi
      | some line =>
          rw [hrec] at hi
          simp only [parseEvents_eq] at hi
          obtain ⟨part, -, hpart⟩ := List.mem_filterMap.mp hi
          cases e with
          | unknownKey key => exact absurd hv (by simp [ParseEvent.assigned])
          | assign f' v' =>
              have hfits := fitsInt32_of_assign hpart
              rw [ParseEvent.assigned] at hv
              split at hv
              · exact Option.some.inj hv ▸ hfits
              · exact absurd hv (by simp)

/-! ## Duties after a list of actions -/

/-- An action that writes no duty. -/
def Action.writesPwm : Action → Bool
  | .analogWrite _ _ => true
  | _ => false

theorem pwm_perform {b : Board} {a : Action} (h : a.writesPwm = false) :
    (b.perform a).pwm = b.pwm := by
  cases a with
  | analogWrite pin value => exact absurd h (by simp [Action.writesPwm])
  | _ => rfl

theorem pwm_performAll {b : Board} {as : List Action} (h : ∀ a ∈ as, a.writesPwm = false) :
    (b.performAll as).pwm = b.pwm := by
  induction as generalizing b with
  | nil => rfl
  | cons a as ih =>
      show ((b.perform a).performAll as).pwm = b.pwm
      rw [ih fun a' ha' => h a' (List.mem_cons_of_mem a ha'), pwm_perform (h a List.mem_cons_self)]

theorem writesPwm_turnTurret (g : Globals) : ∀ a ∈ turnTurret g, a.writesPwm = false := by
  intro a ha
  unfold turnTurret at ha
  split_ifs at ha
  · rw [List.mem_singleton.mp ha]; rfl
  · rw [List.mem_singleton.mp ha]; rfl
  · exact absurd ha List.not_mem_nil

theorem writesPwm_receive (g : Globals) (i : Iteration) :
    ∀ a ∈ (receiveIfAvailable g i).2, a.writesPwm = false := by
  intro a ha
  unfold receiveIfAvailable at ha
  cases hrec : i.received with
  | none => simp [hrec] at ha
  | some line =>
      rw [hrec] at ha
      simp only [receive, List.mem_append] at ha
      rcases ha with ha | ha
      · split at ha
        · simp only [parseCommand, List.mem_flatMap] at ha
          obtain ⟨e, -, he⟩ := ha
          cases e with
          | assign f v => exact absurd he List.not_mem_nil
          | unknownKey key =>
              simp only [ParseEvent.actions, List.mem_cons, List.not_mem_nil, or_false] at he
              rcases he with rfl | rfl <;> rfl
        · exact absurd ha List.not_mem_nil
      · exact writesPwm_turnTurret _ a ha

theorem writesPwm_cannon (g : Globals) (i : Iteration) :
    ∀ a ∈ (checkAndFireCannon g i).2, a.writesPwm = false := by
  intro a ha
  unfold checkAndFireCannon at ha
  simp only at ha
  split_ifs at ha <;>
    · simp only [List.mem_cons, List.not_mem_nil, or_false] at ha
      rcases ha with rfl | rfl <;> rfl

/-- The output of an iteration: `updateMotors` between two parts that write no duty. -/
theorem loop_actions (g : Globals) (i : Iteration) :
    ∃ before after, (loop g i).2 =
        before ++ updateMotors ((loop g i).1.get .forwardReverse) ((loop g i).1.get .leftRight) ++ after ∧
      (∀ a ∈ before, a.writesPwm = false) ∧ ∀ a ∈ after, a.writesPwm = false := by
  set r := receiveIfAvailable g i with hr
  refine ⟨r.2 ++ checkLight r.1 ++ [.servoWrite r.1.servoDeg],
    (checkAndFireCannon r.1 i).2 ++ triggerPulse ++
      [.serialPrint "Dist:".toList, .serialPrintln (intText (readDistance i))], ?_, ?_, ?_⟩
  · have hfr : (loop g i).1.get .forwardReverse = r.1.forwardReverse :=
      get_checkAndFireCannon r.1 i (by decide)
    have hlr : (loop g i).1.get .leftRight = r.1.leftRight :=
      get_checkAndFireCannon r.1 i (by decide)
    rw [hfr, hlr]
    simp only [loop, ← hr, List.append_assoc]
  · intro a ha
    rcases List.mem_append.mp ha with ha | ha
    · rcases List.mem_append.mp ha with ha | ha
      · exact writesPwm_receive g i a ha
      · unfold checkLight at ha
        split_ifs at ha <;>
          · simp only [List.mem_cons, List.not_mem_nil, or_false] at ha
            rcases ha with rfl | rfl <;> rfl
    · rw [List.mem_singleton.mp ha]; rfl
  · intro a ha
    rcases List.mem_append.mp ha with ha | ha
    · rcases List.mem_append.mp ha with ha | ha
      · exact writesPwm_cannon r.1 i a ha
      · simp only [triggerPulse, List.mem_cons, List.not_mem_nil, or_false] at ha
        rcases ha with rfl | rfl | rfl <;> rfl
    · simp only [List.mem_cons, List.not_mem_nil, or_false] at ha
      rcases ha with rfl | rfl <;> rfl

/-! ## What `updateMotors` writes -/

/-- A motor with the inputs `inA` and `inB` is driven at a signed speed: the sign selects
the input, the other one is off. -/
def Board.Drives (b : Board) (inA inB : Pin) (speed : ℤ) : Prop :=
  b.pwm inA = max (-speed) 0 ∧ b.pwm inB = max speed 0

/-- Both motors at their clamped mix of throttle and steer. -/
def Board.FollowsDrive (b : Board) (forwardReverse leftRight : ℤ) : Prop :=
  b.Drives .in1Pin .in2Pin (constrain (mappedAxis forwardReverse + mappedAxis leftRight) (-255) 255) ∧
    b.Drives .in3Pin .in4Pin
      (constrain (mappedAxis forwardReverse - mappedAxis leftRight) (-255) 255)

theorem constrain_eq {x lo hi : ℤ} (h : lo ≤ hi) : constrain x lo hi = max lo (min hi x) := by
  unfold constrain
  split_ifs <;> omega

/-- The writes of `setMotorSpeed`, for a motor with the inputs `inA` and `inB`. -/
def driveInputs (inA inB : Pin) (constrainedSpeed : ℤ) : List Action :=
  if constrainedSpeed > 0 then [.analogWrite inA 0, .analogWrite inB |constrainedSpeed|]
  else if constrainedSpeed < 0 then [.analogWrite inA |constrainedSpeed|, .analogWrite inB 0]
  else [.analogWrite inA 0, .analogWrite inB 0]

/-- The two branches of `setMotorSpeed` are the same code on different pins. -/
theorem setMotorSpeed_eq (speed : ℤ) :
    (∃ prints, setMotorSpeed 1 speed =
        prints ++ driveInputs .in1Pin .in2Pin (constrain speed (-255) 255) ∧
        ∀ a ∈ prints, a.writesPwm = false) ∧
      ∃ prints, setMotorSpeed 2 speed =
        prints ++ driveInputs .in3Pin .in4Pin (constrain speed (-255) 255) ∧
        ∀ a ∈ prints, a.writesPwm = false := by
  constructor
  · refine ⟨_, rfl, ?_⟩
    intro a ha
    simp only [List.mem_cons, List.not_mem_nil, or_false] at ha
    rcases ha with rfl | rfl | rfl | rfl <;> rfl
  · refine ⟨_, rfl, ?_⟩
    intro a ha
    simp only [List.mem_cons, List.not_mem_nil, or_false] at ha
    rcases ha with rfl | rfl | rfl | rfl <;> rfl

/-- Both inputs of a motor are written in every branch, so nothing stale is left. -/
theorem drives_driveInputs (b : Board) {inA inB : Pin} (hne : inA ≠ inB) (v : ℤ) :
    (b.performAll (driveInputs inA inB v)).Drives inA inB v := by
  unfold driveInputs
  rcases lt_trichotomy v 0 with hv | hv | hv
  · rw [if_neg (by omega), if_pos hv]
    simp [Board.performAll, Board.perform, Board.Drives, hne, abs_of_neg hv, hv.le]
  · simp [hv, Board.performAll, Board.perform, Board.Drives, hne]
  · rw [if_pos hv]
    simp [Board.performAll, Board.perform, Board.Drives, hne, abs_of_pos hv, hv.le]

theorem pwm_driveInputs_of_ne (b : Board) {inA inB pin : Pin} (hA : pin ≠ inA) (hB : pin ≠ inB)
    (v : ℤ) : (b.performAll (driveInputs inA inB v)).pwm pin = b.pwm pin := by
  unfold driveInputs
  split_ifs <;> simp [Board.performAll, Board.perform, hA, hB]

/-- No branch writes more than the magnitude of the speed. -/
theorem analogWrite_mem_driveInputs {inA inB pin : Pin} {v value : ℤ}
    (h : Action.analogWrite pin value ∈ driveInputs inA inB v) : 0 ≤ value ∧ value ≤ |v| := by
  unfold driveInputs at h
  have hv := abs_nonneg v
  split_ifs at h <;>
    · simp only [List.mem_cons, Action.analogWrite.injEq, List.not_mem_nil, or_false] at h
      rcases h with ⟨-, rfl⟩ | ⟨-, rfl⟩ <;> constructor <;> omega

/-- **`updateMotors` drives both motors as the two axes say, whatever the inputs held
before.** -/
theorem followsDrive_updateMotors (b : Board) (forwardReverse leftRight : ℤ) :
    (b.performAll (updateMotors forwardReverse leftRight)).FollowsDrive forwardReverse leftRight := by
  obtain ⟨prints₁, h₁, hp₁⟩ :=
    (setMotorSpeed_eq (mappedAxis forwardReverse + mappedAxis leftRight)).1
  obtain ⟨prints₂, h₂, hp₂⟩ :=
    (setMotorSpeed_eq (mappedAxis forwardReverse - mappedAxis leftRight)).2
  simp only [updateMotors, h₁, h₂, Board.performAll_append]
  set b₁ := (b.performAll prints₁).performAll (driveInputs .in1Pin .in2Pin
    (constrain (mappedAxis forwardReverse + mappedAxis leftRight) (-255) 255)) with hb₁
  have hkeep : ∀ pin, pin ≠ .in3Pin → pin ≠ .in4Pin →
      ((b₁.performAll prints₂).performAll (driveInputs .in3Pin .in4Pin
        (constrain (mappedAxis forwardReverse - mappedAxis leftRight) (-255) 255))).pwm pin =
        b₁.pwm pin := by
    intro pin h3 h4
    rw [pwm_driveInputs_of_ne _ h3 h4, pwm_performAll hp₂]
  have hdrive : b₁.Drives .in1Pin .in2Pin _ := drives_driveInputs _ (by decide) _
  constructor
  · exact ⟨(hkeep .in1Pin (by decide) (by decide)).trans hdrive.1,
      (hkeep .in2Pin (by decide) (by decide)).trans hdrive.2⟩
  · exact drives_driveInputs _ (by decide) _

theorem analogWrite_mem_updateMotors {forwardReverse leftRight value : ℤ} {pin : Pin}
    (h : Action.analogWrite pin value ∈ updateMotors forwardReverse leftRight) :
    0 ≤ value ∧ value ≤ 255 := by
  have hrange : ∀ {inA inB : Pin} {prints : List Action} {speed : ℤ},
      (∀ a ∈ prints, a.writesPwm = false) →
      Action.analogWrite pin value ∈ prints ++ driveInputs inA inB (constrain speed (-255) 255) →
      0 ≤ value ∧ value ≤ 255 := by
    intro inA inB prints speed hprints hmem
    rcases List.mem_append.mp hmem with hmem | hmem
    · exact absurd (hprints _ hmem) (by simp [Action.writesPwm])
    · obtain ⟨hlo, hhi⟩ := analogWrite_mem_driveInputs hmem
      rw [constrain_eq (by decide)] at hhi
      exact ⟨hlo, hhi.trans (abs_le.mpr ⟨by omega, by omega⟩)⟩
  obtain ⟨prints₁, h₁, hp₁⟩ :=
    (setMotorSpeed_eq (mappedAxis forwardReverse + mappedAxis leftRight)).1
  obtain ⟨prints₂, h₂, hp₂⟩ :=
    (setMotorSpeed_eq (mappedAxis forwardReverse - mappedAxis leftRight)).2
  simp only [updateMotors, h₁, h₂] at h
  rcases List.mem_append.mp h with h | h
  · exact hrange hp₁ h
  · exact hrange hp₂ h

/-! ## The mapped axes -/

/-- On the clamped axis the division is exact arithmetic rounded down. -/
theorem mappedAxis_eq (value : ℤ) :
    mappedAxis value = (max (-7) (min 7 value) + 7) * 510 / 14 - 255 := by
  unfold mappedAxis mapRange
  rw [constrain_eq (by decide), Int.tdiv_eq_ediv_of_nonneg (by omega)]
  omega

theorem mappedAxis_range (value : ℤ) : -255 ≤ mappedAxis value ∧ mappedAxis value ≤ 255 := by
  rw [mappedAxis_eq]
  omega

/-- The centre of the axis is mapped to `0` exactly. -/
theorem mappedAxis_zero : mappedAxis 0 = 0 := by decide

theorem sign_mappedAxis (value : ℤ) : (mappedAxis value).sign = value.sign := by
  rcases lt_trichotomy value 0 with hv | hv | hv
  · have hneg : mappedAxis value < 0 := by
      rw [mappedAxis_eq]
      omega
    rw [Int.sign_eq_neg_one_of_neg hv, Int.sign_eq_neg_one_of_neg hneg]
  · rw [hv, mappedAxis_zero]
  · have hpos : 0 < mappedAxis value := by
      rw [mappedAxis_eq]
      omega
    rw [Int.sign_eq_one_of_pos hv, Int.sign_eq_one_of_pos hpos]

theorem mappedAxis_eq_zero_iff {value : ℤ} : mappedAxis value = 0 ↔ value = 0 := by
  rw [← Int.sign_eq_zero_iff_zero, sign_mappedAxis, Int.sign_eq_zero_iff_zero]

/-- The motors stand still exactly when both axes are at their centre. -/
theorem Board.FollowsDrive.all_zero_iff {b : Board} {forwardReverse leftRight : ℤ}
    (h : b.FollowsDrive forwardReverse leftRight) :
    (b.pwm .in1Pin = 0 ∧ b.pwm .in2Pin = 0 ∧ b.pwm .in3Pin = 0 ∧ b.pwm .in4Pin = 0) ↔
      forwardReverse = 0 ∧ leftRight = 0 := by
  obtain ⟨⟨h1, h2⟩, h3, h4⟩ := h
  rw [constrain_eq (by decide)] at h1 h2 h3 h4
  rw [h1, h2, h3, h4, ← @mappedAxis_eq_zero_iff forwardReverse, ← @mappedAxis_eq_zero_iff leftRight]
  constructor
  · intro hzero
    constructor <;> omega
  · rintro ⟨hT, hS⟩
    rw [hT, hS]
    decide

/-! ## Runs -/

/-- At the end of an iteration the duties are those `updateMotors` wrote in it. -/
theorem followsDrive_iterate (t : Tank) (i : Iteration) :
    (t.iterate i).board.FollowsDrive ((t.iterate i).globals.get .forwardReverse)
      ((t.iterate i).globals.get .leftRight) := by
  obtain ⟨before, after, heq, -, hafter⟩ := loop_actions t.globals i
  have hpwm : (t.iterate i).board.pwm = ((t.board.performAll before).performAll
      (updateMotors ((t.iterate i).globals.get .forwardReverse)
        ((t.iterate i).globals.get .leftRight))).pwm := by
    show (t.board.performAll (loop t.globals i).2).pwm = _
    rw [heq, Board.performAll_append, Board.performAll_append, pwm_performAll hafter]
    rfl
  have h := followsDrive_updateMotors (t.board.performAll before)
    ((t.iterate i).globals.get .forwardReverse) ((t.iterate i).globals.get .leftRight)
  simpa only [Board.FollowsDrive, Board.Drives, hpwm] using h

/-- Every duty written in an iteration is a duty. -/
theorem analogWrite_mem_loop {g : Globals} {i : Iteration} {pin : Pin} {value : ℤ}
    (h : Action.analogWrite pin value ∈ (loop g i).2) : 0 ≤ value ∧ value ≤ 255 := by
  obtain ⟨before, after, heq, hbefore, hafter⟩ := loop_actions g i
  rw [heq, List.mem_append, List.mem_append] at h
  rcases h with (h | h) | h
  · exact absurd (hbefore _ h) (by simp [Action.writesPwm])
  · exact analogWrite_mem_updateMotors h
  · exact absurd (hafter _ h) (by simp [Action.writesPwm])

/-- The two inputs of a motor that is driven with `m`: one of them is off, and both are when
the motor stands. -/
theorem inputs_of_drive {a b m : ℤ} (ha : a = max (-m) 0) (hb : b = max m 0) :
    (a = 0 ∨ b = 0) ∧ (m = 0 → a = 0 ∧ b = 0) := by
  constructor
  · rcases le_total m 0 with h | h
    · exact Or.inr (hb.trans (max_eq_right h))
    · exact Or.inl (ha.trans (max_eq_right (neg_nonpos.mpr h)))
  · rintro rfl
    exact ⟨ha, hb⟩

/-- **The motors are a function of the last drive command.**  After any run that ends
with an iteration, with `fr` and `lr` the values last received (`0` at first), the
throttle `T` and the steer `S` are mixed and clamped to the speeds `m₁` and `m₂`, and
each motor is driven at its speed on the input selected by the sign. -/
theorem motors_follow_last_drive (t₀ : ℕ) (board : Board) (is : List Iteration) (i : Iteration) :
    let fr := lastReceived .forwardReverse (is ++ [i])
    let lr := lastReceived .leftRight (is ++ [i])
    let T := mapRange (max (-7) (min 7 fr)) (-7) 7 (-255) 255
    let S := mapRange (max (-7) (min 7 lr)) (-7) 7 (-255) 255
    let m₁ := max (-255) (min 255 (T + S))
    let m₂ := max (-255) (min 255 (T - S))
    let pwm := ((Tank.boot t₀ board).run (is ++ [i])).board.pwm
    (|T| ≤ 255 ∧ |S| ≤ 255) ∧
      (pwm .in1Pin = max (-m₁) 0 ∧ pwm .in2Pin = max m₁ 0) ∧
      (pwm .in3Pin = max (-m₂) 0 ∧ pwm .in4Pin = max m₂ 0) ∧
      (∀ pin value,
        Action.analogWrite pin value ∈ (loop ((Tank.boot t₀ board).run is).globals i).2 →
          0 ≤ value ∧ value ≤ 255) ∧
      (pwm .in1Pin = 0 ∨ pwm .in2Pin = 0) ∧ (pwm .in3Pin = 0 ∨ pwm .in4Pin = 0) ∧
      (lr = 0 → m₁ = m₂ ∧ m₁.sign = fr.sign) ∧
      (fr = 0 → m₁ = -m₂) ∧
      (fr = 0 → lr = 0 →
        pwm .in1Pin = 0 ∧ pwm .in2Pin = 0 ∧ pwm .in3Pin = 0 ∧ pwm .in4Pin = 0) := by
  intro fr lr T S m₁ m₂ pwm
  have hT : T = mappedAxis fr := by
    show mapRange _ _ _ _ _ = _
    rw [mappedAxis, constrain_eq (by decide)]
  have hS : S = mappedAxis lr := by
    show mapRange _ _ _ _ _ = _
    rw [mappedAxis, constrain_eq (by decide)]
  have hTrange := hT ▸ mappedAxis_range fr
  have hSrange := hS ▸ mappedAxis_range lr
  have hdrive := followsDrive_iterate ((Tank.boot t₀ board).run is) i
  rw [← Tank.run_concat, get_run_boot _ _ _ (by decide), get_run_boot _ _ _ (by decide)] at hdrive
  obtain ⟨⟨h1, h2⟩, h3, h4⟩ := hdrive
  rw [constrain_eq (by decide), ← hT, ← hS] at h1 h2 h3 h4
  have hsteer : lr = 0 → S = 0 := fun h => by rw [hS, h, mappedAxis_zero]
  have hthrottle : fr = 0 → T = 0 := fun h => by rw [hT, h, mappedAxis_zero]
  have hmotor₁ := inputs_of_drive h1 h2
  have hmotor₂ := inputs_of_drive h3 h4
  refine ⟨⟨abs_le.mpr hTrange, abs_le.mpr hSrange⟩, ⟨h1, h2⟩, ⟨h3, h4⟩,
    fun pin value => analogWrite_mem_loop, hmotor₁.1, hmotor₂.1, ?_, ?_, ?_⟩
  · intro hlr
    have hm : m₁ = T ∧ m₂ = T := by
      have := hsteer hlr
      constructor <;> omega
    exact ⟨hm.1.trans hm.2.symm, by rw [hm.1, hT, sign_mappedAxis]⟩
  · intro hfr
    have := hthrottle hfr
    omega
  · intro hfr hlr
    have hm : m₁ = 0 ∧ m₂ = 0 := by
      have := hthrottle hfr
      have := hsteer hlr
      constructor <;> omega
    obtain ⟨hin1, hin2⟩ := hmotor₁.2 hm.1
    obtain ⟨hin3, hin4⟩ := hmotor₂.2 hm.2
    exact ⟨hin1, hin2, hin3, hin4⟩

end TankFirmware
