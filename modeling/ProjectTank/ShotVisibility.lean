/-
# Shots that are seen

The loop runs for ever, and an iteration may take any time.  A shot is seen when the laser
is on at the end of some iteration, from the one that accepts the shot up to the one that
accepts the next.  The outputs are written with the difference that was computed before
`lastFired` is set, so the iteration of the shot itself shows how long ago the shot
before was; the shot is seen in a later iteration, if one comes in time.

* `AfterShot.loop`: what the cannon's variables are until the next shot;
* `FreshCannon.loop`: what they are up to the first shot;
* `shot_seen_iff`: a shot is seen exactly if it is the first one, right after power-on, or if
  the clock is read within `laserDuration` of it, up to whole turns of the counter.
-/
import ProjectTank.CannonTiming

namespace TankFirmware

open ModularClock

/-! ## Endless runs -/

/-- The tank before iteration `n`. -/
def Tank.before (t : Tank) (is : ℕ → Iteration) (n : ℕ) : Tank := t.run ((List.range n).map is)

theorem Tank.before_succ (t : Tank) (is : ℕ → Iteration) (n : ℕ) :
    t.before is (n + 1) = (t.before is n).iterate (is n) := by
  rw [before, List.range_succ, List.map_append, List.map_singleton, Tank.run_concat, before]

/-- The clock does not run backwards, from the real time `t₀` on. -/
def ClockRuns (t₀ : ℕ) (is : ℕ → Iteration) : Prop :=
  t₀ ≤ (is 0).now ∧ ∀ n, (is n).now ≤ (is n).nowAccept ∧ (is n).nowAccept ≤ (is (n + 1)).now

theorem ClockRuns.start_le {t₀ : ℕ} {is : ℕ → Iteration} (h : ClockRuns t₀ is) (n : ℕ) :
    t₀ ≤ (is n).now := by
  induction n with
  | zero => exact h.1
  | succ n ih => exact ih.trans ((h.2 n).1.trans (h.2 n).2)

theorem ClockRuns.accept_le {t₀ : ℕ} {is : ℕ → Iteration} (h : ClockRuns t₀ is) {n m : ℕ}
    (hlt : n < m) : (is n).nowAccept ≤ (is m).now := by
  induction m, hlt using Nat.le_induction with
  | base => exact (h.2 n).2
  | succ m _ ih => exact ih.trans ((h.2 m).1.trans (h.2 m).2)

/-- Iteration `n` accepts a shot. -/
def ShotAt (t : Tank) (is : ℕ → Iteration) (n : ℕ) : Prop :=
  shotAccepted (t.before is n).globals (is n) = true

/-- The laser is on at the end of iteration `n`. -/
def LaserOnAt (t : Tank) (is : ℕ → Iteration) (n : ℕ) : Prop :=
  (t.before is (n + 1)).board.level .laserPin = HIGH

instance (t : Tank) (is : ℕ → Iteration) (n : ℕ) : Decidable (ShotAt t is n) :=
  inferInstanceAs (Decidable (_ = _))

instance (t : Tank) (is : ℕ → Iteration) (n : ℕ) : Decidable (LaserOnAt t is n) :=
  inferInstanceAs (Decidable (_ = _))

theorem laserOnAt_iff_since (t : Tank) (is : ℕ → Iteration) (n : ℕ) :
    LaserOnAt t is n ↔
      (tryFire (receiveIfAvailable (t.before is n).globals (is n)).1 (is n)).firing = true ∧
        sinceLastFired (receiveIfAvailable (t.before is n).globals (is n)).1 (is n).now <
          laserDuration := by
  have hlaser : (Pin.laserPin, laserDuration) ∈
      [(Pin.laserPin, laserDuration), (Pin.buzzerPin, buzzDuration)] := by simp
  rw [LaserOnAt, Tank.before_succ]
  exact (level_eq_high_iff _ _ hlaser).2

/-- The shot of iteration `n` is seen in some iteration, up to the one that accepts the next
shot. -/
def ShotSeen (t : Tank) (is : ℕ → Iteration) (n : ℕ) : Prop :=
  ∃ m, n ≤ m ∧ (∀ k, n < k → k < m → ¬ ShotAt t is k) ∧ LaserOnAt t is m

/-- The line of the iteration asks for a shot. -/
def Iteration.RequestsShot (i : Iteration) : Prop := lastAssigned .fireCannon i.events = some 1

/-! ## The cannon's variables -/

/-- The cannon fired last at real time `instant`. -/
structure AfterShot (instant : ℕ) (g : Globals) : Prop where
  idle : g.fireCannon ≠ 1
  ready : g.readyFire = false
  firing : g.firing = true
  lastFired : g.lastFired = millis instant

theorem AfterShot.of_shot {g : Globals} {i : Iteration} (hshot : shotAccepted g i = true) :
    AfterShot i.nowAccept (loop g i).1 := by
  have hidle := fireCannon_tryFire (receiveIfAvailable g i).1 i
  have hloop : (loop g i).1 = tryFire (receiveIfAvailable g i).1 i := rfl
  rw [hloop]
  rw [tryFire_of_shot hshot] at hidle ⊢
  exact ⟨hidle, rfl, rfl, rfl⟩

namespace AfterShot

variable {instant : ℕ} {g : Globals}

/-- The next shot needs a request and the reload time, on the counter. -/
theorem shotAccepted_iff (h : AfterShot instant g) {i : Iteration} (hle : instant ≤ i.now) :
    shotAccepted g i = true ↔
      i.RequestsShot ∧ reloadDuration < (i.now - instant) % 2 ^ 32 := by
  simp only [shotAccepted, Bool.and_eq_true, Bool.or_eq_true, decide_eq_true_eq,
    (cannon_receiveIfAvailable g i).2.1, h.ready, sinceLastFired_of_eq h.lastFired hle,
    Bool.false_eq_true, false_or, fireCannon_receive_iff h.idle, Iteration.RequestsShot]

/-- Without a shot the variables stay. -/
theorem loop (h : AfterShot instant g) {i : Iteration} (hshot : ¬ shotAccepted g i = true) :
    AfterShot instant (TankFirmware.loop g i).1 := by
  obtain ⟨hlf, hrf, hfi⟩ := tryFire_of_no_shot (Bool.eq_false_iff.mpr hshot)
  exact ⟨fireCannon_tryFire _ i, hrf.trans h.ready, hfi.trans h.firing, hlf.trans h.lastFired⟩

end AfterShot

/-- The cannon is ready exactly before the first request, and then `lastFired` is the time of
power-on. -/
structure FreshCannon (t₀ : ℕ) (g : Globals) (requested : Prop) : Prop where
  idle : g.fireCannon ≠ 1
  ready : g.readyFire = true ↔ ¬ requested
  lastFired : g.readyFire = true → g.lastFired = millis t₀

theorem FreshCannon.loop {t₀ : ℕ} {g : Globals} {requested : Prop}
    (h : FreshCannon t₀ g requested) (i : Iteration) :
    FreshCannon t₀ (TankFirmware.loop g i).1 (requested ∨ i.RequestsShot) := by
  have hidle := fireCannon_tryFire (receiveIfAvailable g i).1 i
  have hloop : (TankFirmware.loop g i).1 = tryFire (receiveIfAvailable g i).1 i := rfl
  rw [hloop]
  cases hshot : shotAccepted g i with
  | true =>
      have hrequest : i.RequestsShot := requested_of_shotAccepted h.idle hshot
      rw [tryFire_of_shot hshot] at hidle ⊢
      exact ⟨hidle, by simp [hrequest], fun hready => absurd hready Bool.false_ne_true⟩
  | false =>
      obtain ⟨hlf, hrf, -⟩ := tryFire_of_no_shot hshot
      -- while the cannon is ready, a request is a shot
      have hno (hready : g.readyFire = true) : ¬ i.RequestsShot := by
        intro hrequest
        have hfc := (fireCannon_receive_iff h.idle i).mpr hrequest
        simp [shotAccepted, hfc, (cannon_receiveIfAvailable g i).2.1, hready] at hshot
      refine ⟨hidle, ?_, fun hready => hlf.trans (h.lastFired (hrf ▸ hready))⟩
      rw [hrf, not_or]
      exact ⟨fun hready => ⟨h.ready.mp hready, hno hready⟩, fun hnone => h.ready.mpr hnone.1⟩

/-- A shot with a small difference is one of a cannon that is ready. -/
theorem readyFire_of_shot {g : Globals} {i : Iteration} (hshot : shotAccepted g i = true)
    (hsince : sinceLastFired (receiveIfAvailable g i).1 i.now < laserDuration) :
    g.readyFire = true := by
  have hdur : laserDuration ≤ reloadDuration := by decide
  simp only [shotAccepted, Bool.and_eq_true, Bool.or_eq_true, decide_eq_true_eq,
    (cannon_receiveIfAvailable g i).2.1] at hshot
  exact hshot.2.resolve_right (by omega)

theorem FreshCannon.before (t₀ : ℕ) (board : Board) (is : ℕ → Iteration) (n : ℕ) :
    FreshCannon t₀ ((Tank.boot t₀ board).before is n).globals (∃ k < n, (is k).RequestsShot) := by
  induction n with
  | zero => exact ⟨Int.zero_ne_one, by simp [Tank.before, Tank.boot], fun _ => rfl⟩
  | succ n ih =>
      have hsame : (∃ k < n + 1, (is k).RequestsShot) ↔
          (∃ k < n, (is k).RequestsShot) ∨ (is n).RequestsShot := by
        simp only [Nat.lt_succ_iff_lt_or_eq, or_and_right, exists_or, exists_eq_left]
      have h := ih.loop (is n)
      rw [← hsame] at h
      rw [Tank.before_succ]
      exact h

/-! ## When a shot is seen -/

variable {t₀ : ℕ} {board : Board} {is : ℕ → Iteration}

/-- Until the next shot the variables are those of the last one. -/
theorem AfterShot.before {t : Tank} {n m : ℕ} (hshot : ShotAt t is n) (hlt : n < m)
    (hnone : ∀ k, n < k → k < m → ¬ ShotAt t is k) :
    AfterShot (is n).nowAccept (t.before is m).globals := by
  induction m, hlt using Nat.le_induction with
  | base =>
      rw [Nat.succ_eq_add_one, Tank.before_succ]
      exact AfterShot.of_shot hshot
  | succ m hle ih =>
      rw [Tank.before_succ]
      exact (ih fun k hk hkm => hnone k hk (by omega)).loop (hnone m hle (by omega))

/-- At the end of a later iteration, up to the next shot, the laser shows the time since the
shot. -/
theorem laserOnAt_iff (hclock : ClockRuns t₀ is) {t : Tank} {n m : ℕ} (hshot : ShotAt t is n)
    (hlt : n < m) (hnone : ∀ k, n < k → k < m → ¬ ShotAt t is k) :
    LaserOnAt t is m ↔ ((is m).now - (is n).nowAccept) % 2 ^ 32 < laserDuration := by
  have hafter := AfterShot.before hshot hlt hnone
  have hle := hclock.accept_le hlt
  rw [laserOnAt_iff_since, sinceLastFired_of_eq hafter.lastFired hle]
  apply and_iff_right
  by_cases hm : ShotAt t is m
  · exact (AfterShot.of_shot hm).firing
  · exact (tryFire_of_no_shot (Bool.eq_false_iff.mpr hm)).2.2.trans hafter.firing

/-- There is no other shot in between, if each request comes within the reload time, on the
counter. -/
theorem no_shot_between_iff (hclock : ClockRuns t₀ is) {t : Tank} {n : ℕ} (hshot : ShotAt t is n)
    (m : ℕ) :
    (∀ k, n < k → k < m → ¬ ShotAt t is k) ↔
      ∀ k, n < k → k < m → (is k).RequestsShot →
        ((is k).now - (is n).nowAccept) % 2 ^ 32 ≤ reloadDuration := by
  have hnext {k : ℕ} (hk : n < k) (hnone : ∀ j, n < j → j < k → ¬ ShotAt t is j) :
      ShotAt t is k ↔ (is k).RequestsShot ∧
        reloadDuration < ((is k).now - (is n).nowAccept) % 2 ^ 32 :=
    (AfterShot.before hshot hk hnone).shotAccepted_iff (hclock.accept_le hk)
  constructor
  · intro hnone k hk hkm hrequest
    by_contra hreload
    exact hnone k hk hkm ((hnext hk fun j hj hjk => hnone j hj (by omega)).mpr
      ⟨hrequest, by omega⟩)
  · intro hreload k
    -- the first shot after `n` would be one whose request comes late
    induction k using Nat.strong_induction_on with
    | _ k ih =>
        intro hk hkm hshotk
        obtain ⟨hrequest, hlate⟩ := (hnext hk fun j hj hjk => ih j hjk hj (by omega)).mp hshotk
        have := hreload k hk hkm hrequest
        omega

/-- At the end of its own iteration a shot is seen only if it is the first, right after
power-on. -/
theorem laserOnAt_self_iff (hclock : ClockRuns t₀ is) {n : ℕ}
    (hshot : ShotAt (Tank.boot t₀ board) is n) :
    LaserOnAt (Tank.boot t₀ board) is n ↔
      (∀ k < n, ¬ (is k).RequestsShot) ∧ ((is n).now - t₀) % 2 ^ 32 < laserDuration := by
  have hfresh := FreshCannon.before t₀ board is n
  have hle := hclock.start_le n
  have hready := hfresh.ready
  simp only [not_exists, not_and] at hready
  rw [laserOnAt_iff_since]
  constructor
  · rintro ⟨-, hlt⟩
    have hr := readyFire_of_shot hshot hlt
    exact ⟨hready.mp hr, sinceLastFired_of_eq (hfresh.lastFired hr) hle ▸ hlt⟩
  · rintro ⟨hnone, hlt⟩
    refine ⟨(AfterShot.of_shot hshot).firing, ?_⟩
    rw [sinceLastFired_of_eq (hfresh.lastFired (hready.mpr hnone)) hle]
    exact hlt

/-- The shot of iteration `n` can be seen: it is the first one, less than `laserDuration` after
power-on, or some later iteration reads the clock less than `laserDuration` after it, with
no request between that comes after the reload time.  All times are those of the counter, up
to whole turns. -/
def SeenInTime (t₀ : ℕ) (is : ℕ → Iteration) (n : ℕ) : Prop :=
  ((∀ k < n, ¬ (is k).RequestsShot) ∧ ((is n).now - t₀) % 2 ^ 32 < laserDuration) ∨
    ∃ m, n < m ∧ ((is m).now - (is n).nowAccept) % 2 ^ 32 < laserDuration ∧
      ∀ k, n < k → k < m → (is k).RequestsShot →
        ((is k).now - (is n).nowAccept) % 2 ^ 32 ≤ reloadDuration

/-- **A shot is seen exactly if the loop comes round in time.**  In every endless run over a
clock that does not run backwards, for every accepted shot: the laser is on at the end of
some iteration from this shot to the next if and only if the shot is the first one, less
than `laserDuration` after power-on, or a later iteration, before any that accepts another
shot, reads the clock less than `laserDuration` after it. -/
theorem shot_seen_iff (t₀ : ℕ) (board : Board) (is : ℕ → Iteration) (hclock : ClockRuns t₀ is)
    (n : ℕ) (hshot : ShotAt (Tank.boot t₀ board) is n) :
    ShotSeen (Tank.boot t₀ board) is n ↔ SeenInTime t₀ is n := by
  constructor
  · rintro ⟨m, hle, hnone, hlaser⟩
    rcases hle.eq_or_lt with rfl | hlt
    · exact Or.inl ((laserOnAt_self_iff hclock hshot).mp hlaser)
    · exact Or.inr ⟨m, hlt, (laserOnAt_iff hclock hshot hlt hnone).mp hlaser,
        (no_shot_between_iff hclock hshot m).mp hnone⟩
  · rintro (hfirst | ⟨m, hlt, htime, hreload⟩)
    · exact ⟨n, le_rfl, fun k hk hkn => by omega, (laserOnAt_self_iff hclock hshot).mpr hfirst⟩
    · have hnone := (no_shot_between_iff hclock hshot m).mpr hreload
      exact ⟨m, hlt.le, hnone, (laserOnAt_iff hclock hshot hlt hnone).mpr htime⟩

/-- A shot every second, and iterations of 50 milliseconds. -/
def quickLoop (n : ℕ) : Iteration :=
  { received := if n % 20 = 0 then some "FC:1".toList else none
    now := 1000 + 50 * n
    nowAccept := 1000 + 50 * n }

/-- The first shot is seen in the iteration after it. -/
theorem shot_seen_in_quick_loop :
    ShotAt (Tank.boot 0 {}) quickLoop 0 ∧ ShotSeen (Tank.boot 0 {}) quickLoop 0 := by
  have hclock : ClockRuns 0 quickLoop :=
    ⟨Nat.zero_le _, fun n => ⟨le_rfl, by simp only [quickLoop]; omega⟩⟩
  have hshot : ShotAt (Tank.boot 0 {}) quickLoop 0 := by decide
  refine ⟨hshot, (shot_seen_iff 0 {} quickLoop hclock 0 hshot).mpr (Or.inr ⟨1, ?_, ?_, ?_⟩)⟩
  · decide
  · decide
  · intro k hk hk1
    omega

/-- A shot every second, and iterations of one second each, as long as `pulseIn` waits for an
echo that does not come. -/
def slowLoop (n : ℕ) : Iteration :=
  { received := some "FC:1".toList, now := 1000 * (n + 1), nowAccept := 1000 * (n + 1) }

/-- **A shot that is not seen.**  Every iteration accepts a shot, and none of the first two
shows the first. -/
theorem shot_not_seen :
    ¬ ∀ (t₀ : ℕ) (board : Board) (is : ℕ → Iteration), ClockRuns t₀ is →
      ∀ n, ShotAt (Tank.boot t₀ board) is n → ShotSeen (Tank.boot t₀ board) is n := by
  intro hall
  have hclock : ClockRuns 0 slowLoop :=
    ⟨Nat.zero_le _, fun n => ⟨le_rfl, by simp only [slowLoop]; omega⟩⟩
  obtain ⟨m, -, hnone, hlaser⟩ := hall 0 {} slowLoop hclock 0 (by decide)
  match m with
  | 0 => exact absurd hlaser (by decide)
  | 1 => exact absurd hlaser (by decide)
  | m + 2 => exact hnone 1 (by omega) (by omega) (by decide)

end TankFirmware
