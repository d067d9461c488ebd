/-
# Both inputs of a motor at once

An H-bridge half must never have both inputs active, not even between two writes.
`setMotorSpeed` keeps this on the way to forward, where it clears the other input
first, but on the way to reverse it writes the new input first.  So a motor that
runs forward and is told to reverse has both inputs active for one write.

* `throughout_driveInputs`: one call of `setMotorSpeed` is safe unless the motor ran
  forward and is now reversed;
* `drivesReverse_iff`: which drive values reverse a motor, the rounding of `map`
  included;
* `inputs_exclusive_iff`: a run is safe after every write if and only if no iteration
  reverses a motor that the drive values before it ran forward.
-/
import ProjectTank.MotorDrive

namespace TankFirmware

/-! ## A property of the board after every action -/

/-- `P` holds of the board before, between and after the actions. -/
def Board.Throughout (P : Board → Prop) (b : Board) (as : List Action) : Prop :=
  ∀ done, done <+: as → P (b.performAll done)

theorem Board.throughout_nil {P : Board → Prop} {b : Board} : b.Throughout P [] ↔ P b := by
  constructor
  · intro h
    exact h [] List.prefix_rfl
  · intro h done hdone
    rw [List.prefix_nil.mp hdone]
    exact h

theorem Board.throughout_cons {P : Board → Prop} {b : Board} {a : Action} {as : List Action} :
    b.Throughout P (a :: as) ↔ P b ∧ (b.perform a).Throughout P as := by
  constructor
  · intro h
    refine ⟨h [] List.nil_prefix, fun done hdone => ?_⟩
    exact h (a :: done) ((List.prefix_cons_inj a).mpr hdone)
  · rintro ⟨hb, has⟩ done hdone
    rcases List.prefix_cons_iff.mp hdone with rfl | ⟨done', rfl, hdone'⟩
    · exact hb
    · exact has done' hdone'

/-- Two lists of actions in a row; the board between them belongs to both. -/
theorem Board.throughout_append {P : Board → Prop} {b : Board} {as as' : List Action} :
    b.Throughout P (as ++ as') ↔ b.Throughout P as ∧ (b.performAll as).Throughout P as' := by
  induction as generalizing b with
  | nil =>
      rw [List.nil_append, throughout_nil]
      exact ⟨fun h => ⟨h [] List.nil_prefix, h⟩, fun h => h.2⟩
  | cons a as ih =>
      rw [List.cons_append, throughout_cons, throughout_cons, ih, and_assoc]
      rfl

theorem Board.throughout_and {P Q : Board → Prop} {b : Board} {as : List Action} :
    b.Throughout (fun b => P b ∧ Q b) as ↔ b.Throughout P as ∧ b.Throughout Q as := by
  constructor
  · intro h
    exact ⟨fun done hdone => (h done hdone).1, fun done hdone => (h done hdone).2⟩
  · intro h done hdone
    exact ⟨h.1 done hdone, h.2 done hdone⟩

/-! ## Two inputs of one motor -/

/-- At most one of the two inputs is active. -/
def Board.OneInput (inA inB : Pin) (b : Board) : Prop := b.pwm inA = 0 ∨ b.pwm inB = 0

/-- The action leaves the duties of both inputs alone. -/
def Action.Spares (inA inB : Pin) : Action → Prop
  | .analogWrite pin _ => pin ≠ inA ∧ pin ≠ inB
  | _ => True

theorem Action.spares_of_writesPwm {a : Action} (h : a.writesPwm = false) (inA inB : Pin) :
    a.Spares inA inB := by
  cases a with
  | analogWrite pin value => exact absurd h (by simp [Action.writesPwm])
  | _ => trivial

theorem Action.Spares.pwm_perform {inA inB : Pin} {a : Action} (h : a.Spares inA inB) (b : Board) :
    (b.perform a).pwm inA = b.pwm inA ∧ (b.perform a).pwm inB = b.pwm inB := by
  cases a with
  | analogWrite pin value =>
      exact ⟨Function.update_of_ne (Ne.symm h.1) _ _, Function.update_of_ne (Ne.symm h.2) _ _⟩
  | _ => exact ⟨rfl, rfl⟩

/-- Actions that spare both inputs keep what drives the motor, and are safe when the
board is. -/
theorem Board.Drives.spared {inA inB : Pin} {as : List Action} (has : ∀ a ∈ as, a.Spares inA inB)
    {b : Board} {u : ℤ} (h : b.Drives inA inB u) :
    (b.performAll as).Drives inA inB u ∧ b.Throughout (OneInput inA inB) as := by
  induction as generalizing b with
  | nil =>
      refine ⟨h, throughout_nil.mpr ?_⟩
      rcases le_total u 0 with hu | hu
      · exact Or.inr (h.2.trans (max_eq_right hu))
      · exact Or.inl (h.1.trans (max_eq_right (by omega)))
  | cons a as ih =>
      obtain ⟨ha, has⟩ := List.forall_mem_cons.mp has
      have hstep := ha.pwm_perform b
      have hnext := ih has (b := b.perform a) ⟨hstep.1.trans h.1, hstep.2.trans h.2⟩
      refine ⟨hnext.1, throughout_cons.mpr ⟨?_, hnext.2⟩⟩
      have hhead := hnext.2 [] List.nil_prefix
      rw [OneInput, show (b.perform a).performAll [] = b.perform a from rfl, hstep.1,
        hstep.2] at hhead
      exact hhead

/-- **One call of `setMotorSpeed` on a driven motor.**  The write that comes first is
the one to the new input only when the new speed is negative. -/
theorem throughout_driveInputs {b : Board} {inA inB : Pin} (hne : inA ≠ inB) {u : ℤ}
    (h : b.Drives inA inB u) (v : ℤ) :
    b.Throughout (Board.OneInput inA inB) (driveInputs inA inB v) ↔ ¬(0 < u ∧ v < 0) := by
  obtain ⟨hA, hB⟩ := h
  unfold driveInputs
  rcases lt_trichotomy v 0 with hv | hv | hv
  · rw [if_neg (by omega), if_pos hv]
    have habs : |v| ≠ 0 := abs_ne_zero.mpr (by omega)
    simp only [Board.throughout_cons, Board.throughout_nil, Board.OneInput, Board.perform,
      Function.update_self, Function.update_of_ne hne, Function.update_of_ne (Ne.symm hne), hA, hB,
      habs, or_true, and_true, false_or]
    omega
  · simp only [hv, lt_irrefl, if_false, Board.throughout_cons, Board.throughout_nil,
      Board.OneInput, Board.perform, Function.update_self, Function.update_of_ne hne,
      Function.update_of_ne (Ne.symm hne), hA, hB, or_true, true_or, and_true, and_false,
      not_false_eq_true, iff_true]
    omega
  · rw [if_pos hv]
    simp only [Board.throughout_cons, Board.throughout_nil, Board.OneInput, Board.perform,
      Function.update_self, Function.update_of_ne hne, Function.update_of_ne (Ne.symm hne), hA, hB,
      true_or, and_true]
    omega

/-! ## Which drive values reverse a motor -/

/-- The two motors. -/
inductive Motor
  | left
  | right
  deriving DecidableEq, Repr

/-- An axis value clamped to `[-7, 7]`. -/
def clampedAxis (value : ℤ) : ℤ := max (-7) (min 7 value)

/-- What the two axes add up to for a motor. -/
def Motor.balance (m : Motor) (forwardReverse leftRight : ℤ) : ℤ :=
  match m with
  | .left => clampedAxis forwardReverse + clampedAxis leftRight
  | .right => clampedAxis forwardReverse - clampedAxis leftRight

/-- The speed `updateMotors` gives to a motor, clamped. -/
def Motor.speed (m : Motor) (forwardReverse leftRight : ℤ) : ℤ :=
  match m with
  | .left => constrain (mappedAxis forwardReverse + mappedAxis leftRight) (-255) 255
  | .right => constrain (mappedAxis forwardReverse - mappedAxis leftRight) (-255) 255

/-- The axes drive the motor forward. -/
def Motor.DrivesForward (m : Motor) (forwardReverse leftRight : ℤ) : Prop :=
  0 < m.balance forwardReverse leftRight

/-- The axes drive the motor in reverse.  `map` rounds down, so that two axes that
cancel out leave the left motor creeping in reverse unless both are centred or both are
at their ends. -/
def Motor.DrivesReverse (m : Motor) (forwardReverse leftRight : ℤ) : Prop :=
  m.balance forwardReverse leftRight < 0 ∨
    (m = .left ∧ m.balance forwardReverse leftRight = 0 ∧ clampedAxis forwardReverse ≠ 0 ∧
      |clampedAxis forwardReverse| < 7)

instance (m : Motor) (fr lr : ℤ) : Decidable (m.DrivesForward fr lr) :=
  inferInstanceAs (Decidable (0 < m.balance fr lr))

instance (m : Motor) (fr lr : ℤ) : Decidable (m.DrivesReverse fr lr) :=
  inferInstanceAs (Decidable (_ ∨ _))

/-- A mapped axis, from the clamped one. -/
theorem mappedAxis_clampedAxis (value : ℤ) :
    mappedAxis value = (clampedAxis value + 7) * 510 / 14 - 255 :=
  mappedAxis_eq value

theorem clampedAxis_range (value : ℤ) : -7 ≤ clampedAxis value ∧ clampedAxis value ≤ 7 := by
  unfold clampedAxis
  omega

/-- Two mapped axes that cancel out: `map` rounds down on both sides of the centre. -/
theorem mappedAxis_add_of_cancel {fr lr : ℤ} (h : clampedAxis fr + clampedAxis lr = 0) :
    mappedAxis fr + mappedAxis lr < 0 ↔ clampedAxis fr ≠ 0 ∧ |clampedAxis fr| < 7 := by
  have hcases : ∀ c : ℤ, -7 ≤ c → c ≤ 7 →
      ((c + 7) * 510 / 14 - 255 + ((-c + 7) * 510 / 14 - 255) < 0 ↔ c ≠ 0 ∧ |c| < 7) := by
    intro c hlo hhi
    interval_cases c <;> decide
  have hneg : clampedAxis lr = -clampedAxis fr := by omega
  have hfr := clampedAxis_range fr
  rw [mappedAxis_clampedAxis, mappedAxis_clampedAxis, hneg]
  exact hcases _ hfr.1 hfr.2

theorem drivesForward_iff (m : Motor) (fr lr : ℤ) :
    m.DrivesForward fr lr ↔ 0 < m.speed fr lr := by
  have hfr := clampedAxis_range fr
  have hlr := clampedAxis_range lr
  cases m with
  | left =>
      rw [Motor.DrivesForward, Motor.balance, Motor.speed, constrain_eq (by decide),
        mappedAxis_clampedAxis, mappedAxis_clampedAxis]
      omega
  | right =>
      rw [Motor.DrivesForward, Motor.balance, Motor.speed, constrain_eq (by decide),
        mappedAxis_clampedAxis, mappedAxis_clampedAxis]
      omega

theorem drivesReverse_iff (m : Motor) (fr lr : ℤ) :
    m.DrivesReverse fr lr ↔ m.speed fr lr < 0 := by
  have hfr := clampedAxis_range fr
  have hlr := clampedAxis_range lr
  cases m with
  | left =>
      have hsign : constrain (mappedAxis fr + mappedAxis lr) (-255) 255 < 0 ↔
          mappedAxis fr + mappedAxis lr < 0 := by
        rw [constrain_eq (by decide)]
        omega
      rw [Motor.DrivesReverse, Motor.balance, Motor.speed, hsign]
      rcases lt_trichotomy (clampedAxis fr + clampedAxis lr) 0 with h | h | h
      · rw [mappedAxis_clampedAxis, mappedAxis_clampedAxis]
        omega
      · rw [mappedAxis_add_of_cancel h]
        simp [h]
      · rw [mappedAxis_clampedAxis, mappedAxis_clampedAxis]
        omega
  | right =>
      rw [Motor.DrivesReverse, Motor.balance, Motor.speed, constrain_eq (by decide),
        mappedAxis_clampedAxis, mappedAxis_clampedAxis]
      simp only [reduceCtorEq, false_and, or_false]
      omega

/-! ## One iteration -/

/-- Neither motor has both inputs active. -/
def Board.Exclusive (b : Board) : Prop :=
  OneInput .in1Pin .in2Pin b ∧ OneInput .in3Pin .in4Pin b

/-- The drive values before an iteration ran a motor forward, those after it reverse it. -/
def Reverses (fr lr fr' lr' : ℤ) : Prop :=
  ∃ m : Motor, m.DrivesForward fr lr ∧ m.DrivesReverse fr' lr'

theorem reverses_iff (fr lr fr' lr' : ℤ) :
    Reverses fr lr fr' lr' ↔
      (0 < Motor.left.speed fr lr ∧ Motor.left.speed fr' lr' < 0) ∨
        (0 < Motor.right.speed fr lr ∧ Motor.right.speed fr' lr' < 0) := by
  unfold Reverses
  simp only [drivesForward_iff, drivesReverse_iff]
  constructor
  · rintro ⟨m, h⟩
    cases m with
    | left => exact Or.inl h
    | right => exact Or.inr h
  · rintro (h | h)
    · exact ⟨.left, h⟩
    · exact ⟨.right, h⟩

theorem spares_driveInputs {inA inB inA' inB' : Pin} (hA : inA ≠ inA' ∧ inA ≠ inB')
    (hB : inB ≠ inA' ∧ inB ≠ inB') (v : ℤ) : ∀ a ∈ driveInputs inA inB v, a.Spares inA' inB' := by
  intro a ha
  unfold driveInputs at ha
  split_ifs at ha <;>
    · simp only [List.mem_cons, List.not_mem_nil, or_false] at ha
      rcases ha with rfl | rfl
      · exact hA
      · exact hB

/-- **`updateMotors` on a driven board** is safe after every write if and only if it
reverses no motor that ran forward. -/
theorem throughout_updateMotors {b : Board} {fr lr : ℤ} (h : b.FollowsDrive fr lr) (fr' lr' : ℤ) :
    b.Throughout Board.Exclusive (updateMotors fr' lr') ↔ ¬ Reverses fr lr fr' lr' := by
  obtain ⟨prints₁, h₁, hp₁⟩ := (setMotorSpeed_eq (mappedAxis fr' + mappedAxis lr')).1
  obtain ⟨prints₂, h₂, hp₂⟩ := (setMotorSpeed_eq (mappedAxis fr' - mappedAxis lr')).2
  set left := driveInputs .in1Pin .in2Pin (Motor.left.speed fr' lr')
  set right := driveInputs .in3Pin .in4Pin (Motor.right.speed fr' lr')
  have hup : updateMotors fr' lr' = (prints₁ ++ left) ++ (prints₂ ++ right) := by
    rw [updateMotors, h₁, h₂]
    rfl
  have hq₁ := fun inA inB a ha => Action.spares_of_writesPwm (hp₁ a ha) inA inB
  have hq₂ := fun inA inB a ha => Action.spares_of_writesPwm (hp₂ a ha) inA inB
  rw [hup, reverses_iff, not_or]
  unfold Board.Exclusive
  rw [Board.throughout_and]
  apply and_congr
  · -- the left motor: only its own writes matter, what follows spares its inputs
    have hprints := Board.Drives.spared (hq₁ .in1Pin .in2Pin) h.1
    have hdriven : ((b.performAll prints₁).performAll left).Drives .in1Pin .in2Pin
        (Motor.left.speed fr' lr') := drives_driveInputs _ (by decide) _
    have hspared : ∀ a ∈ prints₂ ++ right, a.Spares .in1Pin .in2Pin :=
      List.forall_mem_append.mpr ⟨hq₂ _ _, spares_driveInputs (by decide) (by decide) _⟩
    rw [Board.throughout_append, Board.throughout_append, Board.performAll_append,
      throughout_driveInputs (by decide) hprints.1]
    exact ⟨fun hall => hall.1.2, fun hall => ⟨⟨hprints.2, hall⟩, (Board.Drives.spared hspared hdriven).2⟩⟩
  · -- the right motor: what comes before its writes spares its inputs
    have hspared : ∀ a ∈ (prints₁ ++ left) ++ prints₂, a.Spares .in3Pin .in4Pin :=
      List.forall_mem_append.mpr ⟨List.forall_mem_append.mpr
        ⟨hq₁ _ _, spares_driveInputs (by decide) (by decide) _⟩, hq₂ _ _⟩
    have hbefore := Board.Drives.spared hspared h.2
    rw [← List.append_assoc, Board.throughout_append,
      throughout_driveInputs (by decide) hbefore.1]
    exact ⟨fun hall => hall.2, fun hall => ⟨hbefore.2, hall⟩⟩

/-- **One iteration**, from a board that shows the drive values held before it. -/
theorem throughout_loop {t : Tank}
    (h : t.board.FollowsDrive (t.globals.get .forwardReverse) (t.globals.get .leftRight))
    (i : Iteration) :
    t.board.Throughout Board.Exclusive (loop t.globals i).2 ↔
      ¬ Reverses (t.globals.get .forwardReverse) (t.globals.get .leftRight)
        ((loop t.globals i).1.get .forwardReverse) ((loop t.globals i).1.get .leftRight) := by
  obtain ⟨before, after, heq, hbefore, hafter⟩ := loop_actions t.globals i
  have hq := fun inA inB a ha => Action.spares_of_writesPwm (hbefore a ha) inA inB
  have hq' := fun inA inB a ha => Action.spares_of_writesPwm (hafter a ha) inA inB
  have h₁ := Board.Drives.spared (hq .in1Pin .in2Pin) h.1
  have h₂ := Board.Drives.spared (hq .in3Pin .in4Pin) h.2
  have hdriven := followsDrive_updateMotors (t.board.performAll before)
    ((loop t.globals i).1.get .forwardReverse) ((loop t.globals i).1.get .leftRight)
  have hend := Board.throughout_and.mpr
    ⟨(Board.Drives.spared (hq' .in1Pin .in2Pin) hdriven.1).2,
      (Board.Drives.spared (hq' .in3Pin .in4Pin) hdriven.2).2⟩
  rw [heq, Board.throughout_append, Board.throughout_append, Board.performAll_append,
    throughout_updateMotors ⟨h₁.1, h₂.1⟩]
  exact ⟨fun hall => hall.1.2,
    fun hall => ⟨⟨Board.throughout_and.mpr ⟨h₁.2, h₂.2⟩, hall⟩, hend⟩⟩

/-! ## Runs -/

/-- After every single action of every iteration of a run, neither motor has both
inputs active. -/
def Tank.ExclusiveRun (t : Tank) (is : List Iteration) : Prop :=
  ∀ before i after, is = before ++ i :: after →
    (t.run before).board.Throughout Board.Exclusive (loop (t.run before).globals i).2

/-- No iteration of a run reverses a motor that the drive values received before it ran
forward. -/
def NeverReverses (is : List Iteration) : Prop :=
  ∀ before i after, is = before ++ i :: after →
    ¬ Reverses (lastReceived .forwardReverse before) (lastReceived .leftRight before)
      (lastReceived .forwardReverse (before ++ [i])) (lastReceived .leftRight (before ++ [i]))

/-- All four motor inputs at `0`. -/
def Board.InputsOff (b : Board) : Prop :=
  b.pwm .in1Pin = 0 ∧ b.pwm .in2Pin = 0 ∧ b.pwm .in3Pin = 0 ∧ b.pwm .in4Pin = 0

/-- Between iterations the board shows the drive values last received. -/
theorem followsDrive_run (t₀ : ℕ) {board : Board} (hoff : board.InputsOff) (is : List Iteration) :
    ((Tank.boot t₀ board).run is).board.FollowsDrive
      (((Tank.boot t₀ board).run is).globals.get .forwardReverse)
      (((Tank.boot t₀ board).run is).globals.get .leftRight) := by
  induction is using List.reverseRecOn with
  | nil => exact ⟨⟨hoff.1, hoff.2.1⟩, hoff.2.2.1, hoff.2.2.2⟩
  | append_singleton is i _ =>
      rw [Tank.run_concat]
      exact followsDrive_iterate _ i

/-- **When both inputs of a motor are active at once.**  Starting with all inputs at
`0`, a run keeps them exclusive after every write if and only if no iteration drives a
motor in reverse that the values received before drove forward. -/
theorem inputs_exclusive_iff (t₀ : ℕ) (board : Board) (hoff : board.InputsOff)
    (is : List Iteration) :
    (Tank.boot t₀ board).ExclusiveRun is ↔ NeverReverses is := by
  have hstep : ∀ before i, ((Tank.boot t₀ board).run before).board.Throughout Board.Exclusive
      (loop ((Tank.boot t₀ board).run before).globals i).2 ↔
        ¬ Reverses (lastReceived .forwardReverse before) (lastReceived .leftRight before)
          (lastReceived .forwardReverse (before ++ [i]))
          (lastReceived .leftRight (before ++ [i])) := by
    intro before i
    have hloop : ∀ f, (loop ((Tank.boot t₀ board).run before).globals i).1.get f =
        ((Tank.boot t₀ board).run (before ++ [i])).globals.get f := by
      intro f
      rw [Tank.run_concat]
      rfl
    rw [throughout_loop (followsDrive_run t₀ hoff before) i, hloop, hloop]
    simp only [get_run_boot t₀ board _ (show Field.forwardReverse ≠ .fireCannon by decide),
      get_run_boot t₀ board _ (show Field.leftRight ≠ .fireCannon by decide)]
  constructor
  · intro h before i after heq
    exact (hstep before i).mp (h before i after heq)
  · intro h before i after heq
    exact (hstep before i).mpr (h before i after heq)

/-- Full speed ahead and then a stop keep the inputs exclusive. -/
theorem inputs_exclusive_of_stop :
    (Tank.boot 0 {}).ExclusiveRun
      [{ received := some "FR:7;LR:0".toList }, { received := some "FR:0;LR:0".toList }] := by
  refine (inputs_exclusive_iff 0 {} ⟨rfl, rfl, rfl, rfl⟩ _).mpr fun before i after heq => ?_
  rw [reverses_iff]
  rcases before with _ | ⟨first, _ | ⟨second, before⟩⟩
  · obtain ⟨rfl, -⟩ := List.cons.inj heq
    decide
  · obtain ⟨rfl, hrest⟩ := List.cons.inj heq
    obtain ⟨rfl, -⟩ := List.cons.inj hrest
    decide
  · simp at heq

/-- Full speed ahead and then full speed back: after the first write of the reversal
both inputs of the left motor are at full duty. -/
theorem inputs_not_exclusive :
    ¬ (Tank.boot 0 {}).ExclusiveRun
      [{ received := some "FR:7;LR:0".toList }, { received := some "FR:-7;LR:0".toList }] := by
  intro h
  have hlast := h [{ received := some "FR:7;LR:0".toList }]
    { received := some "FR:-7;LR:0".toList } [] rfl
  have hwrite := (hlast (List.take 8 _) (List.take_prefix 8 _)).1
  revert hwrite
  unfold Board.OneInput
  decide

end TankFirmware
