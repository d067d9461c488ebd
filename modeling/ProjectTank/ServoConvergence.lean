/-
# The servo angles settle (`MouseControlThread.run` in `main/web.py`)

While the position stays, each iteration of `run` is one turn of an approach with gain
`1/10` and dead band `1`, for the pan and for the tilt angle.

* `run_turns`: the steps of the thread are these turns;
* `servo_converges`: the way to each target never grows and is never crossed, after 50
  iterations both are within a degree, and then nothing changes any more.
-/
import ProjectTank.DeadBandApproach
import ProjectTank.ServoControl

open DeadBand

namespace MouseControl

/-! ## One iteration -/

/-- What one iteration of the loop does to the angles and the servos. -/
def System.turn (s : System) : System :=
  { s with
    currentPanAngle := approach (1 / 10) 1 (targetPanAngle s.x) s.currentPanAngle
    currentTiltAngle := approach (1 / 10) 1 (targetTiltAngle s.y) s.currentTiltAngle
    panValues := s.panValues ++ ((move s.currentPanAngle (targetPanAngle s.x)).map servoValue).toList
    tiltValues :=
      s.tiltValues ++ ((move s.currentTiltAngle (targetTiltAngle s.y)).map servoValue).toList }

/-- The new angle, when there is one, is the approach; otherwise the approach stays. -/
theorem move_cases (current target : ℚ) :
    (move current target = none ∧ approach (1 / 10) 1 target current = current) ∨
      move current target = some (approach (1 / 10) 1 target current) := by
  unfold move approach
  by_cases hfar : |target - current| > 1
  · exact Or.inr (by rw [if_pos hfar, if_pos hfar])
  · exact Or.inl ⟨if_neg hfar, if_neg hfar⟩

theorem approach_mem_range {range current target : ℚ} (hcurrent : current ∈ Set.Icc (-range) range)
    (htarget : target ∈ Set.Icc (-range) range) :
    approach (1 / 10) 1 target current ∈ Set.Icc (-range) range := by
  rcases move_cases current target with ⟨-, hstay⟩ | hmove
  · rwa [hstay]
  · exact move_mem_range hcurrent htarget hmove

/-- The thread is at the head of its loop, and both angles are in range. -/
structure Ready (s : System) : Prop where
  head : s.stage = .head
  running : s.running = true
  pan : s.currentPanAngle ∈ Set.Icc (-90) 90
  tilt : s.currentTiltAngle ∈ Set.Icc (-45) 45

theorem Ready.turn {s : System} (h : Ready s) : Ready s.turn where
  head := h.head
  running := h.running
  pan := approach_mem_range h.pan (targetAngle_mem_range (by norm_num [PAN_RANGE]) _ s.x)
  tilt := approach_mem_range h.tilt (targetAngle_mem_range (by norm_num [TILT_RANGE]) _ s.y)

theorem assignPan_of_mem (s : System) {angle : ℚ} (h : angle ∈ Set.Icc (-90) 90) (next : Stage) :
    s.assignPan angle next = { s with
      currentPanAngle := angle, panValues := s.panValues ++ [servoValue angle], stage := next } := by
  have hvalue := servoValue_mem h
  norm_num at hvalue
  rw [System.assignPan, if_pos hvalue]

theorem assignTilt_of_mem (s : System) {angle : ℚ} (h : angle ∈ Set.Icc (-45) 45) (next : Stage) :
    s.assignTilt angle next = { s with
      currentTiltAngle := angle, tiltValues := s.tiltValues ++ [servoValue angle], stage := next } := by
  have hvalue := servoValue_mem h
  norm_num at hvalue
  rw [System.assignTilt, if_pos ⟨by linarith [hvalue.1], by linarith [hvalue.2]⟩]

/-- The pan part of an iteration. -/
theorem step_pan {s : System} (h : Ready s) :
    step { s with stage := .pan s.x s.y } .advance = some { s with
      stage := .tilt s.y
      currentPanAngle := s.turn.currentPanAngle
      panValues := s.turn.panValues } := by
  have hangle : approach (1 / 10) 1 (targetPanAngle s.x) s.currentPanAngle =
      s.turn.currentPanAngle := rfl
  have hvalues : s.turn.panValues = s.panValues ++
      ((move s.currentPanAngle (targetPanAngle s.x)).map servoValue).toList := rfl
  simp only [step]
  rcases move_cases s.currentPanAngle (targetPanAngle s.x) with ⟨hnone, hstay⟩ | hmove
  · rw [hvalues, ← hangle, hstay, hnone, Option.map_none, Option.toList_none, List.append_nil]
  · rw [hvalues, hmove, hangle]
    simp only
    rw [assignPan_of_mem _ h.turn.pan]
    rfl

/-- The tilt part of an iteration. -/
theorem step_tilt {s : System} (h : Ready s) {t : System}
    (htilt : t.currentTiltAngle = s.currentTiltAngle) (hsame : t.tiltValues = s.tiltValues) :
    step { t with stage := .tilt s.y } .advance = some { t with
      stage := .head
      currentTiltAngle := s.turn.currentTiltAngle
      tiltValues := s.turn.tiltValues } := by
  have hangle : approach (1 / 10) 1 (targetTiltAngle s.y) s.currentTiltAngle =
      s.turn.currentTiltAngle := rfl
  have hvalues : s.turn.tiltValues = s.tiltValues ++
      ((move s.currentTiltAngle (targetTiltAngle s.y)).map servoValue).toList := rfl
  simp only [step, htilt]
  rcases move_cases s.currentTiltAngle (targetTiltAngle s.y) with ⟨hnone, hstay⟩ | hmove
  · rw [hvalues, ← hangle, hstay, hnone, Option.map_none, Option.toList_none, List.append_nil,
      ← htilt, ← hsame]
  · rw [hvalues, hmove, hangle]
    simp only
    rw [assignTilt_of_mem _ h.turn.tilt, hsame]
    rfl

/-- **One iteration** of the thread is one turn. -/
theorem run_turn {s : System} (h : Ready s) :
    machine.run s [.advance, .advance, .advance] = some s.turn := by
  have hread : step s .advance = some { s with stage := .pan s.x s.y } := by
    simp [step, h.head, h.running]
  have htilt := step_tilt h (t := { s with
    currentPanAngle := s.turn.currentPanAngle, panValues := s.turn.panValues }) rfl rfl
  show (step s .advance).bind (fun s => (step s .advance).bind fun s =>
    (step s .advance).bind fun s => some s) = _
  rw [hread, Option.bind_some, step_pan h, Option.bind_some, htilt, Option.bind_some]
  simp [System.turn, h.head]

/-- **Any number of iterations**: the thread goes on, turn after turn. -/
theorem run_turns {s : System} (h : Ready s) (n : ℕ) :
    machine.run s (List.replicate (3 * n) .advance) = some (System.turn^[n] s) ∧
      Ready (System.turn^[n] s) := by
  induction n with
  | zero => exact ⟨rfl, h⟩
  | succ n ih =>
      obtain ⟨hrun, hready⟩ := ih
      have hlist : List.replicate (3 * (n + 1)) Event.advance =
          List.replicate (3 * n) .advance ++ [.advance, .advance, .advance] := by
        rw [Nat.mul_succ, List.replicate_add]
        rfl
      rw [hlist, Function.iterate_succ_apply']
      exact ⟨machine.run_trans hrun (run_turn hready), hready.turn⟩

/-! ## Convergence -/

theorem turn_position (s : System) (n : ℕ) :
    (System.turn^[n] s).x = s.x ∧ (System.turn^[n] s).y = s.y := by
  induction n with
  | zero => exact ⟨rfl, rfl⟩
  | succ n ih =>
      rw [Function.iterate_succ_apply']
      exact ih

/-- An angle and the values of its servo settle on a target: from one iteration to the next
the way to the target does not grow and the target is not crossed, from iteration 50 on the
angle is within a degree, and within a degree neither it nor its servo ever changes. -/
structure Settles (target : ℚ) (angle : ℕ → ℚ) (values : ℕ → List ℚ) : Prop where
  closer : ∀ n, |target - angle (n + 1)| ≤ |target - angle n|
  below : ∀ n, angle n ≤ target → angle (n + 1) ≤ target
  above : ∀ n, target ≤ angle n → target ≤ angle (n + 1)
  near : ∀ n, 50 ≤ n → |target - angle n| ≤ 1
  still : ∀ n m, |target - angle n| ≤ 1 → n ≤ m → angle m = angle n ∧ values m = values n

/-- An axis that approaches its target turn by turn, and assigns to its servo only when it
moves. -/
theorem settles_of_approach {range target : ℚ} (hrange : range ≤ 90) {angle : ℕ → ℚ}
    {values : ℕ → List ℚ} (hstart : angle 0 ∈ Set.Icc (-range) range)
    (htarget : target ∈ Set.Icc (-range) range)
    (hangle : ∀ n, angle (n + 1) = approach (1 / 10) 1 target (angle n))
    (hvalues : ∀ n, values (n + 1) = values n ++ ((move (angle n) target).map servoValue).toList) :
    Settles target angle values := by
  have hiterate : ∀ n, angle n = (approach (1 / 10) 1 target)^[n] (angle 0) := by
    intro n
    induction n with
    | zero => rfl
    | succ n ih => rw [Function.iterate_succ_apply', ← ih, hangle]
  have hstay : ∀ n, |target - angle n| ≤ 1 → angle (n + 1) = angle n ∧ values (n + 1) = values n := by
    intro n hnear
    refine ⟨(hangle n).trans (approach_of_near hnear), ?_⟩
    rw [hvalues, move, if_neg (not_lt.mpr hnear)]
    exact List.append_nil _
  refine ⟨fun n => ?_, fun n h => ?_, fun n h => ?_, fun n hn => ?_, fun n m hnear hle => ?_⟩
  · rw [hangle]
    exact abs_target_sub_approach_le (by norm_num) (by norm_num)
  · rw [hangle]
    exact approach_le_target (by norm_num) h
  · rw [hangle]
    exact target_le_approach (by norm_num) h
  · rw [hiterate]
    apply iterate_near (by norm_num)
    -- the way is at most 180 degrees, and shrinks by a tenth 50 times
    have hway : |target - angle 0| ≤ 180 := by
      rw [abs_le]
      constructor <;> linarith [hstart.1, hstart.2, htarget.1, htarget.2]
    have hpow : (1 - 1 / 10 : ℚ) ^ n ≤ (1 - 1 / 10) ^ 50 :=
      pow_le_pow_of_le_one (by norm_num) (by norm_num) hn
    calc (1 - 1 / 10 : ℚ) ^ n * |target - angle 0|
        ≤ (1 - 1 / 10) ^ 50 * 180 := mul_le_mul hpow hway (abs_nonneg _) (by norm_num)
      _ ≤ 1 := by norm_num
  · induction m, hle using Nat.le_induction with
    | base => exact ⟨rfl, rfl⟩
    | succ m _ ih =>
        have hnear' : |target - angle m| ≤ 1 := by rwa [ih.1]
        exact ⟨(hstay m hnear').1.trans ih.1, (hstay m hnear').2.trans ih.2⟩

/-- **The smoothing converges without overshoot.**  From the head of the loop, with both
angles in range and any position that stays, the thread goes on for ever, and pan and tilt
settle on their clamped targets. -/
theorem servo_converges {s : System} (h : Ready s) :
    (∀ n, machine.run s (List.replicate (3 * n) .advance) = some (System.turn^[n] s)) ∧
      Settles (targetPanAngle s.x) (fun n => (System.turn^[n] s).currentPanAngle)
        (fun n => (System.turn^[n] s).panValues) ∧
      Settles (targetTiltAngle s.y) (fun n => (System.turn^[n] s).currentTiltAngle)
        (fun n => (System.turn^[n] s).tiltValues) := by
  have hvalues : ∀ n, System.turn^[n + 1] s = (System.turn^[n] s).turn := fun n =>
    Function.iterate_succ_apply' _ n s
  refine ⟨fun n => (run_turns h n).1, ?_, ?_⟩
  · refine settles_of_approach (le_refl (90 : ℚ)) h.pan
      (targetAngle_mem_range (by norm_num [PAN_RANGE]) _ s.x) (fun n => ?_) fun n => ?_
    · simp only [hvalues, System.turn, (turn_position s n).1]
    · simp only [hvalues, System.turn, (turn_position s n).1]
  · refine settles_of_approach (by norm_num : (45 : ℚ) ≤ 90) h.tilt
      (targetAngle_mem_range (by norm_num [TILT_RANGE]) _ s.y) (fun n => ?_) fun n => ?_
    · simp only [hvalues, System.turn, (turn_position s n).2]
    · simp only [hvalues, System.turn, (turn_position s n).2]

/-- From one end of both ranges to the other. -/
theorem servo_converges_across :
    let s : System := { x := 320, y := -240, currentPanAngle := -90, currentTiltAngle := 45 }
    |90 - (System.turn^[50] s).currentPanAngle| ≤ 1 ∧
      |-45 - (System.turn^[50] s).currentTiltAngle| ≤ 1 := by
  intro s
  have hready : Ready s := ⟨rfl, rfl, by norm_num [s], by norm_num [s]⟩
  have hpan : targetPanAngle 320 = 90 := by decide +kernel
  have htilt : targetTiltAngle (-240) = -45 := by decide +kernel
  obtain ⟨-, hpans, htilts⟩ := servo_converges hready
  have hnear := hpans.near 50 le_rfl
  have hnear' := htilts.near 50 le_rfl
  rw [show s.x = 320 from rfl, hpan] at hnear
  rw [show s.y = -240 from rfl, htilt] at hnear'
  exact ⟨hnear, hnear'⟩

end MouseControl
