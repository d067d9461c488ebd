/-
# The tilt angle with two writers (`MouseControlThread` in `peter/ultrasonic/web.py`)

`set_pos` gives the thread a target, and `adjust_tilt` changes the angle itself.  `run`
copies angle and target under the lock, but adds its increment later, without the lock, to
whatever the angle is by then.  Angles are exact rationals.

* `tilt_in_range_iff`: the angle stays in its range through a run if and only if, whenever
  the thread adds its increment, there is room for it;
* `inRange_of_no_adjustment`: so it does when no call of `adjust_tilt` comes between the
  copy and the increment;
* `tilt_kept_iff`: an adjusted angle is kept within a degree if and only if the target is
  less than about 1.92 degrees away from it.
-/
import ProjectTank.DeadBandApproach
import ProjectTank.Transition
import Mathlib.Data.List.Basic

open DeadBand

namespace TiltControl

/-! ## The program -/

def TILT_RANGE : ℚ := 45
def HALF_VIDEO_HEIGHT : ℚ := 480 / 2

/-- An angle clamped to the range. -/
def clampTilt (angle : ℚ) : ℚ := max (-TILT_RANGE) (min TILT_RANGE angle)

/-- `target_tilt_angle` for a position. -/
def targetTiltAngle (y : ℤ) : ℚ := clampTilt (y / HALF_VIDEO_HEIGHT * TILT_RANGE)

/-- The value assigned to the servo for an angle. -/
def servoValue (angle : ℚ) : ℚ := angle / 90

/-- Where the thread is: at the head of its loop, with the copies it took under the lock,
before the assignment to the servo, or ended by an exception. -/
inductive Stage
  | head
  | copied (targetY : ℤ) (copy : ℚ)
  | output
  | raised
  deriving DecidableEq

/-- The fields of the thread, where it is, and the values assigned to the servo. -/
structure System where
  x : ℤ := 0
  y : ℤ := 0
  running : Bool := true
  currentTiltAngle : ℚ := 0
  stage : Stage := .head
  tiltValues : List ℚ := []
  deriving DecidableEq

/-- Handler threads call `set_pos` and `adjust_tilt`, the thread takes its next step, or
somebody calls `stop`. -/
inductive Event
  | setPos (x y : ℤ)
  | adjustTilt (deltaAngle : ℚ)
  | advance
  | stop
  deriving DecidableEq

/-- `adjust_tilt`. -/
def System.adjustTilt (s : System) (deltaAngle : ℚ) : System :=
  let newAngle := s.currentTiltAngle + deltaAngle
  { s with
    currentTiltAngle := clampTilt newAngle
    tiltValues := s.tiltValues ++ [servoValue (clampTilt newAngle)] }

/-- The next step of `run`. -/
def System.advance (s : System) : Option System :=
  match s.stage with
  | .head => if s.running then some { s with stage := .copied s.y s.currentTiltAngle } else none
  | .copied targetY copy =>
      if |targetTiltAngle targetY - copy| > 1 then
        some { s with
          currentTiltAngle := s.currentTiltAngle + (targetTiltAngle targetY - copy) * (1 / 10)
          stage := .output }
      else some { s with stage := .head }
  | .output =>
      some { s with
        tiltValues := s.tiltValues ++ [servoValue s.currentTiltAngle]
        stage :=
          if -1 ≤ servoValue s.currentTiltAngle ∧ servoValue s.currentTiltAngle ≤ 1 then .head
          else .raised }
  | .raised => none

/-- One step.  The locked blocks are single steps. -/
def step (s : System) : Event → Option System
  | .setPos x y => some { s with x := x, y := y }
  | .adjustTilt deltaAngle => some (s.adjustTilt deltaAngle)
  | .advance => s.advance
  | .stop => some { s with running := false }

def machine : Machine System Event where
  init := {}
  step := step

theorem clampTilt_mem (angle : ℚ) : clampTilt angle ∈ Set.Icc (-TILT_RANGE) TILT_RANGE :=
  ⟨le_max_left _ _, max_le (by norm_num [TILT_RANGE]) (min_le_left _ _)⟩

/-- Everything a step of the thread can do. -/
theorem advance_cases {s s' : System} (h : s.advance = some s') :
    (s.stage = .head ∧ s.running = true ∧
        s' = { s with stage := .copied s.y s.currentTiltAngle }) ∨
      (∃ targetY copy, s.stage = .copied targetY copy ∧ |targetTiltAngle targetY - copy| > 1 ∧
        s' = { s with
          currentTiltAngle := s.currentTiltAngle + (targetTiltAngle targetY - copy) * (1 / 10)
          stage := .output }) ∨
      (∃ targetY copy, s.stage = .copied targetY copy ∧ |targetTiltAngle targetY - copy| ≤ 1 ∧
        s' = { s with stage := .head }) ∨
      (s.stage = .output ∧ s'.x = s.x ∧ s'.y = s.y ∧ s'.running = s.running ∧
        s'.currentTiltAngle = s.currentTiltAngle ∧ (s'.stage = .head ∨ s'.stage = .raised)) := by
  unfold System.advance at h
  cases hstage : s.stage with
  | head =>
      rw [hstage] at h
      obtain ⟨hrunning, hs'⟩ := Option.ite_none_right_eq_some.mp h
      exact Or.inl ⟨rfl, hrunning, (Option.some.inj hs').symm⟩
  | copied targetY copy =>
      rw [hstage] at h
      simp only at h
      by_cases hfar : |targetTiltAngle targetY - copy| > 1
      · rw [if_pos hfar] at h
        exact Or.inr (Or.inl ⟨targetY, copy, rfl, hfar, (Option.some.inj h).symm⟩)
      · rw [if_neg hfar] at h
        exact Or.inr (Or.inr (Or.inl ⟨targetY, copy, rfl, not_lt.mp hfar, (Option.some.inj h).symm⟩))
  | output =>
      rw [hstage] at h
      obtain rfl := Option.some.inj h
      refine Or.inr (Or.inr (Or.inr ⟨rfl, rfl, rfl, rfl, rfl, ?_⟩))
      simp only
      split_ifs
      · exact Or.inl rfl
      · exact Or.inr rfl
  | raised =>
      rw [hstage] at h
      cases h

/-! ## The range -/

/-- `current_tilt_angle` is in its range. -/
def InRange (s : System) : Prop := s.currentTiltAngle ∈ Set.Icc (-TILT_RANGE) TILT_RANGE

/-- The thread adds an increment that is larger than the room between the angle and the end of
the range in the direction of the increment. -/
def Overshoots (s : System) : Event → Prop
  | .advance =>
      match s.stage with
      | .copied targetY copy =>
          let increment := (targetTiltAngle targetY - copy) * (1 / 10)
          |targetTiltAngle targetY - copy| > 1 ∧
            ((0 < increment ∧ TILT_RANGE - s.currentTiltAngle < increment) ∨
              (increment < 0 ∧ s.currentTiltAngle - -TILT_RANGE < -increment))
      | _ => False
  | _ => False

/-- Adding to a value in a range: only the end in the direction of the increment counts. -/
theorem add_mem_Icc_iff {lo hi value increment : ℚ} (h : value ∈ Set.Icc lo hi) :
    value + increment ∈ Set.Icc lo hi ↔
      ¬((0 < increment ∧ hi - value < increment) ∨ (increment < 0 ∧ value - lo < -increment)) := by
  obtain ⟨hlo, hhi⟩ := h
  rw [Set.mem_Icc]
  constructor
  · rintro ⟨hlo', hhi'⟩ (⟨-, hroom⟩ | ⟨-, hroom⟩) <;> linarith
  · intro hroom
    rcases lt_trichotomy increment 0 with hneg | rfl | hpos
    · refine ⟨?_, by linarith⟩
      by_contra hout
      exact hroom (Or.inr ⟨hneg, by linarith⟩)
    · simpa using ⟨hlo, hhi⟩
    · refine ⟨by linarith, ?_⟩
      by_contra hout
      exact hroom (Or.inl ⟨hpos, by linarith⟩)

/-- **One step** keeps the angle in its range unless it overshoots. -/
theorem InRange.step_iff {s s' : System} {e : Event} (h : InRange s) (hs : step s e = some s') :
    InRange s' ↔ ¬ Overshoots s e := by
  cases e with
  | setPos x y =>
      obtain rfl := Option.some.inj hs
      exact iff_of_true h id
  | adjustTilt deltaAngle =>
      obtain rfl := Option.some.inj hs
      exact iff_of_true (clampTilt_mem _) id
  | stop =>
      obtain rfl := Option.some.inj hs
      exact iff_of_true h id
  | advance =>
      rcases advance_cases hs with ⟨hstage, -, rfl⟩ | ⟨targetY, copy, hstage, hfar, rfl⟩ |
        ⟨targetY, copy, hstage, hnear, rfl⟩ | ⟨hstage, -, -, -, hangle, -⟩
      · exact iff_of_true h (by simp [Overshoots, hstage])
      · simp only [Overshoots, hstage, hfar, true_and]
        exact add_mem_Icc_iff h
      · exact iff_of_true h (by simp [Overshoots, hstage, not_lt.mpr hnear])
      · refine iff_of_true ?_ (by simp [Overshoots, hstage])
        rw [InRange, hangle]
        exact h

/-- **When the angle stays in its range.**  Through a whole run of `set_pos` and `adjust_tilt`
calls and steps of the thread, the angle is in its range in every state if and only if,
whenever the thread adds its increment, the angle is at least as far from the end of the
range in that direction. -/
theorem tilt_in_range_iff (es : List Event) :
    machine.Throughout InRange es ↔ machine.Avoids Overshoots es :=
  Machine.throughout_iff_avoids (I := fun _ => True) trivial
    (by norm_num [InRange, machine, TILT_RANGE]) (fun _ _ _ _ _ => trivial)
    (fun _ _ _ _ h hs => h.step_iff hs) es

/-- With a copy that is up to date there is room for the increment. -/
theorem InRange.not_overshoots {s : System} (h : InRange s) {targetY : ℤ}
    (hstage : s.stage = .copied targetY s.currentTiltAngle) : ¬ Overshoots s .advance := by
  obtain ⟨hlo, hhi⟩ := h
  obtain ⟨htlo, hthi⟩ := clampTilt_mem (targetY / HALF_VIDEO_HEIGHT * TILT_RANGE)
  simp only [Overshoots, hstage, targetTiltAngle]
  rintro ⟨-, ⟨-, hroom⟩ | ⟨-, hroom⟩⟩ <;> linarith

/-- A call of `adjust_tilt` while the thread has its copies. -/
def AdjustsBetween (s : System) : Event → Prop
  | .adjustTilt _ => ∃ targetY copy, s.stage = .copied targetY copy
  | _ => False

/-- The angle is in its range, and a copy of it is up to date. -/
structure Settled (s : System) : Prop where
  inRange : InRange s
  copies : ∀ targetY copy, s.stage = .copied targetY copy → copy = s.currentTiltAngle

theorem Settled.not_overshoots {s : System} (h : Settled s) (e : Event) : ¬ Overshoots s e := by
  cases e with
  | advance =>
      cases hstage : s.stage with
      | copied targetY copy =>
          obtain rfl := h.copies targetY copy hstage
          exact h.inRange.not_overshoots hstage
      | _ => simp [Overshoots, hstage]
  | _ => exact id

/-- The thread itself changes the angle only when it gives up its copy. -/
theorem Settled.step {s s' : System} {e : Event} (h : Settled s) (he : ¬ AdjustsBetween s e)
    (hs : step s e = some s') : Settled s' := by
  refine ⟨(h.inRange.step_iff hs).mpr (h.not_overshoots e), fun targetY copy hcopied => ?_⟩
  cases e with
  | setPos x y =>
      obtain rfl := Option.some.inj hs
      exact h.copies targetY copy hcopied
  | adjustTilt deltaAngle =>
      obtain rfl := Option.some.inj hs
      exact absurd ⟨targetY, copy, hcopied⟩ he
  | stop =>
      obtain rfl := Option.some.inj hs
      exact h.copies targetY copy hcopied
  | advance =>
      rcases advance_cases hs with ⟨-, -, rfl⟩ | ⟨_, _, -, -, rfl⟩ | ⟨_, _, -, -, rfl⟩ |
        ⟨-, -, -, -, -, hnext⟩
      · exact (Stage.copied.inj hcopied).2.symm
      · cases hcopied
      · cases hcopied
      · rcases hnext with hnext | hnext <;>
          · rw [hnext] at hcopied
            cases hcopied

/-- **The race is the only way out of the range**: the angle is in its range in every state of a
run in which no call of `adjust_tilt` comes between the copy of the thread and its increment. -/
theorem inRange_of_no_adjustment {s : System}
    (hs : machine.ReachesUnder (fun s e => ¬ AdjustsBetween s e) s) : InRange s := by
  have hinit : Settled machine.init :=
    ⟨by norm_num [InRange, machine, TILT_RANGE], fun _ _ hcopied => by cases hcopied⟩
  exact (hs.invariant hinit fun _ _ _ h he hstep => h.step he hstep).inRange

/-- The thread copies angle 0, nine calls of `adjust_tilt` bring the angle to 45, and the
thread adds 4.5. -/
theorem tilt_leaves_range :
    ¬ ∀ s, machine.Reachable s → s.currentTiltAngle ∈ Set.Icc (-45) 45 := by
  intro h
  have hrun : (machine.run machine.init
      [.setPos 0 240, .advance, .adjustTilt 5, .adjustTilt 5, .adjustTilt 5, .adjustTilt 5,
        .adjustTilt 5, .adjustTilt 5, .adjustTilt 5, .adjustTilt 5, .adjustTilt 5,
        .advance]).map System.currentTiltAngle = some (99 / 2) := by decide +kernel
  obtain ⟨s, hs, hangle⟩ := Option.map_eq_some_iff.mp hrun
  have hmem := (h s (Machine.reachable_of_run hs)).2
  rw [hangle] at hmem
  exact absurd hmem (by norm_num)

/-! ## Adjusted angles -/

/-- How far the target may be away for an angle to be kept: after seven turns the way that is
covered is one degree. -/
def keptWithin : ℚ := 10 ^ 7 / (10 ^ 7 - 9 ^ 7)

/-- From further away than that, the first seven turns all move. -/
theorem far_of_keptWithin_lt {target start : ℚ} (h : keptWithin < |target - start|) {n : ℕ}
    (hn : n ≤ 7) : ∀ k < n, 1 < |target - (approach (1 / 10) 1 target)^[k] start| := by
  rw [keptWithin] at h
  induction n with
  | zero => exact fun k hk => absurd hk (Nat.not_lt_zero k)
  | succ n ih =>
      intro k hk
      rcases Nat.lt_succ_iff_lt_or_eq.mp hk with hlt | rfl
      · exact ih (by omega) k hlt
      · have hpow : (1 - 1 / 10 : ℚ) ^ 6 ≤ (1 - 1 / 10) ^ k :=
          pow_le_pow_of_le_one (by norm_num) (by norm_num) (by omega)
        rw [target_sub_iterate (ih (by omega)), abs_mul, abs_of_nonneg (by positivity)]
        calc (1 : ℚ) < (1 - 1 / 10) ^ 6 * (10 ^ 7 / (10 ^ 7 - 9 ^ 7)) := by norm_num
          _ ≤ (1 - 1 / 10) ^ k * |target - start| :=
              mul_le_mul hpow h.le (by norm_num) (by positivity)

/-- From not further away than that, at most seven turns move: after seven, the target is within
a degree. -/
theorem exists_turns_of_le_keptWithin {target start : ℚ} (h : |target - start| ≤ keptWithin)
    (n : ℕ) : ∃ i ≤ 7, target - (approach (1 / 10) 1 target)^[n] start =
      (1 - 1 / 10) ^ i * (target - start) := by
  rw [keptWithin] at h
  induction n with
  | zero => exact ⟨0, by norm_num, by simp⟩
  | succ n ih =>
      obtain ⟨i, hi, hleft⟩ := ih
      rw [Function.iterate_succ_apply']
      rcases lt_or_ge 1 |target - (approach (1 / 10) 1 target)^[n] start| with hfar | hstay
      · refine ⟨i + 1, ?_, ?_⟩
        · by_contra hseven
          obtain rfl : i = 7 := by omega
          rw [hleft, abs_mul, abs_of_nonneg (by norm_num)] at hfar
          have hle := mul_le_mul_of_nonneg_left h (show (0 : ℚ) ≤ (1 - 1 / 10) ^ 7 by norm_num)
          norm_num at hle hfar
          linarith
        · rw [target_sub_approach hfar, hleft, pow_succ']
          ring
      · exact ⟨i, hi, by rw [approach_of_near hstay, hleft]⟩

/-- **An approach stays within a degree of its start** if and only if the target is not further
away than `keptWithin`. -/
theorem iterate_near_start_iff (target start : ℚ) :
    (∀ n, |(approach (1 / 10) 1 target)^[n] start - start| ≤ 1) ↔ |target - start| ≤ keptWithin := by
  constructor
  · intro hnear
    by_contra hfar
    rw [not_le] at hfar
    have hseven := target_sub_iterate (far_of_keptWithin_lt hfar le_rfl)
    have hcovered : (approach (1 / 10) 1 target)^[7] start - start =
        (1 - (1 - 1 / 10) ^ 7) * (target - start) := by linarith
    have hle := hnear 7
    rw [hcovered, abs_mul, abs_of_nonneg (by norm_num)] at hle
    have hlt := mul_lt_mul_of_pos_left hfar (show (0 : ℚ) < 1 - (1 - 1 / 10) ^ 7 by norm_num)
    rw [keptWithin] at hlt
    norm_num at hlt hle
    linarith
  · intro hnear n
    obtain ⟨i, hi, hleft⟩ := exists_turns_of_le_keptWithin hnear n
    have hcovered : (approach (1 / 10) 1 target)^[n] start - start =
        (1 - (1 - 1 / 10) ^ i) * (target - start) := by linarith
    have hpow : (1 - 1 / 10 : ℚ) ^ 7 ≤ (1 - 1 / 10) ^ i :=
      pow_le_pow_of_le_one (by norm_num) (by norm_num) hi
    have hpos : (0 : ℚ) ≤ 1 - (1 - 1 / 10) ^ i :=
      sub_nonneg.mpr (pow_le_one₀ (by norm_num) (by norm_num))
    rw [hcovered, abs_mul, abs_of_nonneg hpos]
    calc (1 - (1 - 1 / 10) ^ i : ℚ) * |target - start|
        ≤ (1 - (1 - 1 / 10) ^ 7) * keptWithin :=
          mul_le_mul (by linarith) hnear (abs_nonneg _) (by norm_num)
      _ = 1 := by norm_num [keptWithin]

/-- The angle is one of the turns from `start` towards the target of `y`, and the copies of the
thread are up to date. -/
structure Follows (y : ℤ) (start : ℚ) (s : System) : Prop where
  position : s.y = y
  turns : ∃ n, s.currentTiltAngle = (approach (1 / 10) 1 (targetTiltAngle y))^[n] start
  copies : ∀ targetY copy, s.stage = .copied targetY copy →
    targetY = y ∧ copy = s.currentTiltAngle

/-- **The thread alone** takes one turn after the other. -/
theorem Follows.advance {y : ℤ} {start : ℚ} {s s' : System} (h : Follows y start s)
    (hs : s.advance = some s') : Follows y start s' := by
  rcases advance_cases hs with ⟨hstage, -, rfl⟩ | ⟨targetY, copy, hstage, hfar, rfl⟩ |
    ⟨targetY, copy, hstage, hnear, rfl⟩ | ⟨hstage, -, hy, -, hangle, hnext⟩
  · refine ⟨h.position, h.turns, fun targetY copy hcopied => ?_⟩
    obtain ⟨rfl, rfl⟩ := Stage.copied.inj hcopied
    exact ⟨h.position, rfl⟩
  · obtain ⟨rfl, rfl⟩ := h.copies targetY copy hstage
    obtain ⟨n, hn⟩ := h.turns
    refine ⟨h.position, ⟨n + 1, ?_⟩, fun _ _ hcopied => by cases hcopied⟩
    rw [Function.iterate_succ_apply', ← hn, approach_of_far hfar]
  · exact ⟨h.position, h.turns, fun _ _ hcopied => by cases hcopied⟩
  · refine ⟨hy.trans h.position, hangle ▸ h.turns, fun _ _ hcopied => ?_⟩
    rcases hnext with hhead | hraised
    · rw [hhead] at hcopied
      cases hcopied
    · rw [hraised] at hcopied
      cases hcopied

theorem Follows.run {y : ℤ} {start : ℚ} {s z : System} (h : Follows y start s) (k : ℕ)
    (hrun : machine.run s (List.replicate k .advance) = some z) : Follows y start z :=
  Machine.run_invariant (I := Follows y start) (C := fun e => e = .advance)
    (fun _ _ _ hf he hs => hf.advance (by subst he; exact hs))
    (fun _ he => List.eq_of_mem_replicate he) h hrun

/-- A tenth of the way to the target stays in the range. -/
theorem InRange.turn {s : System} (hrange : InRange s) :
    s.currentTiltAngle + (targetTiltAngle s.y - s.currentTiltAngle) * (1 / 10) ∈
      Set.Icc (-TILT_RANGE) TILT_RANGE := by
  obtain ⟨hlo, hhi⟩ := hrange
  obtain ⟨htlo, hthi⟩ := clampTilt_mem (s.y / HALF_VIDEO_HEIGHT * TILT_RANGE)
  rw [targetTiltAngle]
  constructor <;> linarith

/-- The servo takes the value of an angle in the range. -/
theorem servoValue_mem {angle : ℚ} (h : angle ∈ Set.Icc (-TILT_RANGE) TILT_RANGE) :
    -1 ≤ servoValue angle ∧ servoValue angle ≤ 1 := by
  obtain ⟨hlo, hhi⟩ := h
  rw [TILT_RANGE] at hlo hhi
  rw [servoValue]
  constructor <;> linarith

/-- One iteration from the head of the loop, with an angle in its range. -/
theorem exists_iteration {s : System} (hhead : s.stage = .head) (hrunning : s.running = true)
    (hrange : InRange s) :
    ∃ k z, machine.run s (List.replicate k .advance) = some z ∧ z.stage = .head ∧
      z.running = true ∧ z.y = s.y ∧ InRange z ∧
      z.currentTiltAngle = approach (1 / 10) 1 (targetTiltAngle s.y) s.currentTiltAngle := by
  have hread : s.advance = some { s with stage := .copied s.y s.currentTiltAngle } := by
    simp [System.advance, hhead, hrunning]
  rcases lt_or_ge 1 |targetTiltAngle s.y - s.currentTiltAngle| with hfar | hnear
  · have hmem := hrange.turn
    set angle := s.currentTiltAngle + (targetTiltAngle s.y - s.currentTiltAngle) * (1 / 10)
    have hmove : System.advance { s with stage := .copied s.y s.currentTiltAngle } =
        some { s with currentTiltAngle := angle, stage := .output } := by
      simp only [System.advance]
      rw [if_pos hfar]
    have hassign : System.advance { s with currentTiltAngle := angle, stage := .output } =
        some { s with
          currentTiltAngle := angle
          tiltValues := s.tiltValues ++ [servoValue angle]
          stage := .head } := by
      simp only [System.advance]
      rw [if_pos (servoValue_mem hmem)]
    refine ⟨3, { s with
      currentTiltAngle := angle
      tiltValues := s.tiltValues ++ [servoValue angle]
      stage := .head }, ?_, rfl, hrunning, rfl, hmem, (approach_of_far hfar).symm⟩
    show s.advance.bind (fun s => s.advance.bind fun s => s.advance.bind fun s => some s) = _
    rw [hread, Option.bind_some, hmove, Option.bind_some, hassign, Option.bind_some]
  · have hstay : System.advance { s with stage := .copied s.y s.currentTiltAngle } =
        some { s with stage := .head } := by
      simp only [System.advance]
      rw [if_neg (not_lt.mpr hnear)]
    refine ⟨2, { s with stage := .head }, ?_, rfl, hrunning, rfl, hrange,
      (approach_of_near hnear).symm⟩
    show s.advance.bind (fun s => s.advance.bind fun s => some s) = _
    rw [hread, Option.bind_some, hstay, Option.bind_some]

/-- Every turn is reached. -/
theorem exists_run_of_turns {s : System} (hhead : s.stage = .head) (hrunning : s.running = true)
    (hrange : InRange s) (n : ℕ) :
    ∃ k z, machine.run s (List.replicate k .advance) = some z ∧ z.stage = .head ∧
      z.running = true ∧ z.y = s.y ∧ InRange z ∧
      z.currentTiltAngle = (approach (1 / 10) 1 (targetTiltAngle s.y))^[n] s.currentTiltAngle := by
  induction n with
  | zero => exact ⟨0, s, rfl, hhead, hrunning, rfl, hrange, rfl⟩
  | succ n ih =>
      obtain ⟨k, z, hrun, hz, hzrunning, hzy, hzrange, hzangle⟩ := ih
      obtain ⟨k', z', hrun', hz', hzrunning', hzy', hzrange', hzangle'⟩ :=
        exists_iteration hz hzrunning hzrange
      refine ⟨k + k', z', ?_, hz', hzrunning', hzy'.trans hzy, hzrange', ?_⟩
      · rw [List.replicate_add]
        exact machine.run_trans hrun hrun'
      · rw [hzangle', hzangle, hzy, Function.iterate_succ_apply']

/-- **When an adjusted angle is kept.**  In a state in which the thread is between iterations,
let `adjust_tilt` set the angle.  In all further steps of the thread the angle is within a
degree of it, if and only if the thread is stopped or the target of the last position is not
further away than `10 ^ 7 / (10 ^ 7 - 9 ^ 7)`, about 1.92 degrees. -/
theorem tilt_kept_iff {s : System} (hhead : s.stage = .head) (deltaAngle : ℚ) :
    (∀ k z, machine.run (s.adjustTilt deltaAngle) (List.replicate k .advance) = some z →
      |z.currentTiltAngle - (s.adjustTilt deltaAngle).currentTiltAngle| ≤ 1) ↔
      s.running = false ∨
        |targetTiltAngle s.y - (s.adjustTilt deltaAngle).currentTiltAngle| ≤ keptWithin := by
  have hfollows : Follows s.y (s.adjustTilt deltaAngle).currentTiltAngle (s.adjustTilt deltaAngle) :=
    ⟨rfl, ⟨0, rfl⟩, fun _ _ hcopied => by cases hhead.symm.trans hcopied⟩
  cases hrunning : s.running with
  | false =>
      refine iff_of_true (fun k z hrun => ?_) (Or.inl rfl)
      cases k with
      | zero =>
          obtain rfl := Option.some.inj hrun
          simp
      | succ k =>
          -- a stopped thread takes no step at the head of its loop
          have hstopped : (s.adjustTilt deltaAngle).advance = none := by
            simp [System.advance, System.adjustTilt, hhead, hrunning]
          have hnone : machine.run (s.adjustTilt deltaAngle) (List.replicate (k + 1) .advance) = none := by
            rw [List.replicate_succ, Machine.run_cons]
            show (s.adjustTilt deltaAngle).advance.bind _ = none
            rw [hstopped]
            rfl
          rw [hnone] at hrun
          cases hrun
  | true =>
      simp only [Bool.true_eq_false, false_or]
      rw [← iterate_near_start_iff]
      constructor
      · intro hnear n
        obtain ⟨k, z, hrun, -, -, -, -, hangle⟩ :=
          exists_run_of_turns (s := s.adjustTilt deltaAngle) hhead hrunning (clampTilt_mem _) n
        have hle := hnear k z hrun
        rwa [hangle] at hle
      · intro hnear k z hrun
        obtain ⟨n, hn⟩ := (hfollows.run k hrun).turns
        rw [hn]
        exact hnear n

/-- The D-pad lifts the angle from 0 to 5 while the position has its target 1.5625 degrees above
that: five turns move the angle, and it is kept. -/
theorem small_adjustment_kept :
    let s : System := { x := 320, y := 35 }
    ∃ z, machine.run (s.adjustTilt 5) (List.replicate 21 .advance) = some z ∧
      (s.adjustTilt 5).currentTiltAngle = 5 ∧ 5.6 < z.currentTiltAngle ∧
      |z.currentTiltAngle - (s.adjustTilt 5).currentTiltAngle| ≤ 1 := by
  intro s
  have hrun : (machine.run (s.adjustTilt 5) (List.replicate 21 .advance)).map
      (fun z => decide (5.6 < z.currentTiltAngle)) = some true := by decide +kernel
  obtain ⟨z, hz, hmoved⟩ := Option.map_eq_some_iff.mp hrun
  have hnear : |targetTiltAngle s.y - (s.adjustTilt 5).currentTiltAngle| ≤ keptWithin := by
    decide +kernel
  exact ⟨z, hz, by decide +kernel, of_decide_eq_true hmoved,
    (tilt_kept_iff (s := s) rfl 5).mpr (Or.inr hnear) 21 z hz⟩

/-- The D-pad lifts the angle from 0 to 5, and three iterations take it below 4. -/
theorem adjustment_undone :
    ¬ ∀ s, machine.Reachable s → s.stage = .head → ∀ (deltaAngle : ℚ) (k : ℕ) (z : System),
      machine.run (s.adjustTilt deltaAngle) (List.replicate k .advance) = some z →
        |z.currentTiltAngle - (s.adjustTilt deltaAngle).currentTiltAngle| ≤ 1 := by
  intro h
  have hrun : (machine.run (machine.init.adjustTilt 5) (List.replicate 9 .advance)).map
      (fun z => decide (|z.currentTiltAngle - (machine.init.adjustTilt 5).currentTiltAngle| ≤ 1)) =
        some false := by decide +kernel
  obtain ⟨z, hz, hangle⟩ := Option.map_eq_some_iff.mp hrun
  exact of_decide_eq_false hangle (h machine.init Machine.ReachesUnder.init rfl 5 9 z hz)

end TiltControl
