/-
# Shots, laser and buzzer over time

`checkAndFireCannon` decides on shots and pulses with differences of a wrapping
32-bit clock.  The shots of a run are collected in `shotLog`, with the iteration each
was accepted in, and `CannonState` ties the flags and `lastFired` to the last of them.

* Accepted shots are more than `reloadDuration` apart in real time, and each belongs
  to a fire request received in its own iteration (`reload_time_respected`).
* The pulses are right exactly as long as no clock reading falls into the first
  `buzzDuration` milliseconds of a later turn of the counter after the last shot
  (`pulses_follow_shots_iff`): `firing` is cleared only by the next fire request, so
  after one full turn the difference looks like that of a fresh shot.
-/
import ProjectTank.MotorDrive

namespace TankFirmware

open ModularClock

/-! ## Accepted shots -/

/-- Whether `checkAndFireCannon` accepts a shot in the iteration `i` from the globals
`g` before it: the block `if (readyFire)` is executed. -/
def shotAccepted (g : Globals) (i : Iteration) : Bool :=
  let g := (receiveIfAvailable g i).1
  g.fireCannon = 1 && (g.readyFire || reloadDuration < sinceLastFired g i.now)

/-- The shots accepted in a run: the number of the iteration and the iteration itself,
whose `nowAccept` is the instant stored in `lastFired`. -/
def shotLog (t : Tank) : ℕ → List Iteration → List (ℕ × Iteration)
  | _, [] => []
  | n, i :: is =>
      (if shotAccepted t.globals i then [(n, i)] else []) ++ shotLog (t.iterate i) (n + 1) is

theorem shotLog_concat (t : Tank) (n : ℕ) (is : List Iteration) (i : Iteration) :
    shotLog t n (is ++ [i]) =
      shotLog t n is ++ if shotAccepted (t.run is).globals i then [(n + is.length, i)] else [] := by
  induction is generalizing t n with
  | nil => simp [shotLog]
  | cons j is ih =>
      rw [List.cons_append, shotLog, ih, shotLog, List.append_assoc]
      have hlen : n + 1 + is.length = n + (j :: is).length := by
        simp only [List.length_cons]
        omega
      rw [hlen]
      rfl

/-- What the block that decides on a shot does: a shot, a request that is dropped, or
nothing. -/
theorem tryFire_cases (g : Globals) (i : Iteration) :
    (g.fireCannon = 1 ∧ (g.readyFire = true ∨ reloadDuration < sinceLastFired g i.now) ∧
        tryFire g i = { g with
          readyFire := false, firing := true, lastFired := millis i.nowAccept, fireCannon := 0 }) ∨
      (g.fireCannon = 1 ∧ g.readyFire = false ∧ sinceLastFired g i.now ≤ reloadDuration ∧
        tryFire g i = { g with fireCannon := 0 }) ∨
      (g.fireCannon ≠ 1 ∧ tryFire g i = g) := by
  unfold tryFire
  by_cases hfc : g.fireCannon = 1
  · by_cases hdif : reloadDuration < sinceLastFired g i.now
    · exact Or.inl ⟨hfc, Or.inr hdif, by simp [hfc, hdif]⟩
    · by_cases hready : g.readyFire = true
      · exact Or.inl ⟨hfc, Or.inl hready, by simp [hfc, hdif, hready]⟩
      · exact Or.inr (Or.inl ⟨hfc, by simpa using hready, by omega, by simp [hfc, hdif, hready]⟩)
  · exact Or.inr (Or.inr ⟨hfc, by simp [hfc]⟩)

/-- The receive block leaves the cannon's own variables alone. -/
theorem cannon_receiveIfAvailable (g : Globals) (i : Iteration) :
    (receiveIfAvailable g i).1.lastFired = g.lastFired ∧
      (receiveIfAvailable g i).1.readyFire = g.readyFire ∧
      (receiveIfAvailable g i).1.firing = g.firing := by
  unfold receiveIfAvailable
  cases i.received with
  | none => exact ⟨rfl, rfl, rfl⟩
  | some line =>
      simp only [receive]
      split
      · have h := sameRest_parseCommand g (Arduino.trim line)
        exact ⟨h.lastFired, h.readyFire, h.firing⟩
      · exact ⟨rfl, rfl, rfl⟩

/-- The difference is the time since the instant that `lastFired` shows, modulo a turn of the
counter. -/
theorem sinceLastFired_of_eq {g : Globals} {i : Iteration} {instant : ℕ}
    (hlastFired : g.lastFired = millis instant) (hle : instant ≤ i.now) :
    sinceLastFired (receiveIfAvailable g i).1 i.now = (i.now - instant) % 2 ^ 32 := by
  rw [sinceLastFired, (cannon_receiveIfAvailable g i).1, hlastFired]
  exact toNat_reading_sub hle

/-- `fireCannon` is set by the line of the iteration only. -/
theorem fireCannon_receive_iff {g : Globals} (hidle : g.fireCannon ≠ 1) (i : Iteration) :
    (receiveIfAvailable g i).1.fireCannon = 1 ↔ lastAssigned .fireCannon i.events = some 1 := by
  have hget : (receiveIfAvailable g i).1.fireCannon =
      (lastAssigned .fireCannon i.events).getD g.fireCannon :=
    get_receiveIfAvailable g i .fireCannon
  rw [hget]
  cases lastAssigned .fireCannon i.events with
  | none => simp [hidle]
  | some v => simp

/-- A shot sets the cannon's variables. -/
theorem tryFire_of_shot {g : Globals} {i : Iteration} (h : shotAccepted g i = true) :
    tryFire (receiveIfAvailable g i).1 i = { (receiveIfAvailable g i).1 with
      readyFire := false, firing := true, lastFired := millis i.nowAccept, fireCannon := 0 } := by
  simp only [shotAccepted, Bool.and_eq_true, Bool.or_eq_true, decide_eq_true_eq] at h
  rcases tryFire_cases (receiveIfAvailable g i).1 i with
    ⟨-, -, heq⟩ | ⟨-, hready, hdif, -⟩ | ⟨hfc, -⟩
  · exact heq
  · rcases h.2 with hr | hlt
    · exact absurd (hready.symm.trans hr) Bool.false_ne_true
    · omega
  · exact absurd h.1 hfc

/-- Without a shot the cannon's variables stay. -/
theorem tryFire_of_no_shot {g : Globals} {i : Iteration} (h : shotAccepted g i = false) :
    (tryFire (receiveIfAvailable g i).1 i).lastFired = g.lastFired ∧
      (tryFire (receiveIfAvailable g i).1 i).readyFire = g.readyFire ∧
      (tryFire (receiveIfAvailable g i).1 i).firing = g.firing := by
  have hkeep := cannon_receiveIfAvailable g i
  rcases tryFire_cases (receiveIfAvailable g i).1 i with
    ⟨hfc, hor, -⟩ | ⟨-, -, -, heq⟩ | ⟨-, heq⟩
  · have hshot : shotAccepted g i = true := by
      simpa [shotAccepted, hfc] using hor
    exact absurd hshot (by simp [h])
  · rw [heq]
    exact hkeep
  · rw [heq]
    exact hkeep

/-- No request is left. -/
theorem fireCannon_tryFire (g : Globals) (i : Iteration) : (tryFire g i).fireCannon ≠ 1 := by
  rcases tryFire_cases g i with ⟨-, -, heq⟩ | ⟨-, -, -, heq⟩ | ⟨hfc, heq⟩
  · rw [heq]
    exact Int.zero_ne_one
  · rw [heq]
    exact Int.zero_ne_one
  · rwa [heq]

/-! ## Time -/

/-- The clock does not run backwards: from real time `t` on, each iteration reads it at
`now`, and again at `nowAccept` before the next iteration. -/
def Timed (t : ℕ) : List Iteration → Prop
  | [] => True
  | i :: is => t ≤ i.now ∧ i.now ≤ i.nowAccept ∧ Timed i.nowAccept is

instance Timed.decidable (t : ℕ) : (is : List Iteration) → Decidable (Timed t is)
  | [] => inferInstanceAs (Decidable True)
  | i :: is =>
      have := Timed.decidable i.nowAccept is
      inferInstanceAs (Decidable (_ ∧ _ ∧ _))

/-- The real time at the end of a run. -/
def endTime (t : ℕ) (is : List Iteration) : ℕ := (is.getLast?.map Iteration.nowAccept).getD t

theorem timed_append {t : ℕ} {is is' : List Iteration} :
    Timed t (is ++ is') ↔ Timed t is ∧ Timed (endTime t is) is' := by
  induction is generalizing t with
  | nil => simp [Timed, endTime]
  | cons i is ih =>
      have hend : endTime t (i :: is) = endTime i.nowAccept is := by
        rw [endTime, endTime, List.getLast?_cons]
        cases is.getLast? <;> rfl
      simp only [List.cons_append, Timed, ih, hend, and_assoc]

/-! ## The invariant -/

/-- The cannon's variables after the shots `log`, at real time `clock`. -/
structure CannonState (log : List (ℕ × Iteration)) (clock : ℕ) (g : Globals) : Prop where
  idle : g.fireCannon ≠ 1
  ready : log = [] → g.readyFire = true ∧ g.firing = false
  fired : ∀ shot, log.getLast? = some shot →
    g.readyFire = false ∧ g.firing = true ∧ g.lastFired = millis shot.2.nowAccept ∧
      shot.2.nowAccept ≤ clock

theorem CannonState.boot (t₀ : ℕ) (board : Board) :
    CannonState [] t₀ (Tank.boot t₀ board).globals where
  idle := Int.zero_ne_one
  ready := fun _ => ⟨rfl, rfl⟩
  fired := fun _ h => absurd h (by simp)

/-- A shot after another one needs a difference above `reloadDuration`, and that much
real time has passed then, whether or not the counter has wrapped. -/
theorem CannonState.spacing {log : List (ℕ × Iteration)} {clock : ℕ} {g : Globals}
    (hc : CannonState log clock g) {i : Iteration} (hnow : clock ≤ i.now)
    (haccept : i.now ≤ i.nowAccept) (hshot : shotAccepted g i = true) {shot : ℕ × Iteration}
    (hlast : log.getLast? = some shot) :
    shot.2.nowAccept + reloadDuration < i.nowAccept := by
  obtain ⟨hready, -, hfired, hle⟩ := hc.fired shot hlast
  obtain ⟨hlf, hrf, -⟩ := cannon_receiveIfAvailable g i
  simp only [shotAccepted, Bool.and_eq_true, Bool.or_eq_true, decide_eq_true_eq, hrf, hready,
    Bool.false_eq_true, false_or] at hshot
  have hdif := hshot.2
  rw [sinceLastFired, hlf, hfired] at hdif
  have := lt_of_lt_toNat_reading_sub (hle.trans hnow) hdif
  omega

/-- **One iteration keeps the invariant.** -/
theorem CannonState.loop {log : List (ℕ × Iteration)} {clock : ℕ} {g : Globals}
    (hc : CannonState log clock g) {i : Iteration} (hnow : clock ≤ i.now)
    (haccept : i.now ≤ i.nowAccept) (n : ℕ) :
    CannonState (log ++ if shotAccepted g i then [(n, i)] else []) i.nowAccept
      (TankFirmware.loop g i).1 := by
  have hidle := fireCannon_tryFire (receiveIfAvailable g i).1 i
  have hloop : (TankFirmware.loop g i).1 = tryFire (receiveIfAvailable g i).1 i := rfl
  rw [hloop]
  cases hshot : shotAccepted g i with
  | true =>
      rw [tryFire_of_shot hshot] at hidle ⊢
      refine ⟨hidle, by simp, fun shot hlast => ?_⟩
      obtain rfl : (n, i) = shot := by simpa using hlast
      exact ⟨rfl, rfl, rfl, le_rfl⟩
  | false =>
      obtain ⟨hlf, hrf, hfi⟩ := tryFire_of_no_shot hshot
      rw [if_neg Bool.false_ne_true, List.append_nil]
      refine ⟨hidle, fun hnil => ?_, fun shot hlast => ?_⟩
      · exact ⟨hrf.trans (hc.ready hnil).1, hfi.trans (hc.ready hnil).2⟩
      · obtain ⟨h1, h2, h3, h4⟩ := hc.fired shot hlast
        exact ⟨hrf.trans h1, hfi.trans h2, hlf.trans h3, by omega⟩

/-- The invariant holds after every run. -/
theorem CannonState.run (t₀ : ℕ) (board : Board) {is : List Iteration} (htime : Timed t₀ is) :
    CannonState (shotLog (Tank.boot t₀ board) 0 is) (endTime t₀ is)
      ((Tank.boot t₀ board).run is).globals := by
  induction is using List.reverseRecOn with
  | nil => exact CannonState.boot t₀ board
  | append_singleton is i ih =>
      obtain ⟨hbefore, hnow, haccept, -⟩ := timed_append.mp htime
      have hend : endTime t₀ (is ++ [i]) = i.nowAccept := by simp [endTime]
      rw [shotLog_concat, Tank.run_concat, hend]
      exact (ih hbefore).loop hnow haccept _

/-! ## Reload time -/

/-- Two shots in order: a later iteration, and more than `reloadDuration` later. -/
def Reloaded (shot shot' : ℕ × Iteration) : Prop :=
  shot.1 < shot'.1 ∧ shot.2.nowAccept + reloadDuration < shot'.2.nowAccept

/-- In an ordered log every shot is the last one or comes before it. -/
theorem reloaded_last {log : List (ℕ × Iteration)} (hlog : log.Pairwise Reloaded)
    {last : ℕ × Iteration} (hlast : log.getLast? = some last) :
    ∀ shot ∈ log, shot = last ∨ Reloaded shot last := by
  obtain ⟨init, rfl⟩ := List.getLast?_eq_some_iff.mp hlast
  rw [List.pairwise_append] at hlog
  intro shot hmem
  rcases List.mem_append.mp hmem with h | h
  · exact Or.inr (hlog.2.2 shot h last (List.mem_singleton.mpr rfl))
  · exact Or.inl (List.mem_singleton.mp h)

/-- A shot is accepted only in an iteration whose own line requests it, because
`fireCannon` is never `1` before. -/
theorem requested_of_shotAccepted {g : Globals} {i : Iteration} (hidle : g.fireCannon ≠ 1)
    (h : shotAccepted g i = true) : lastAssigned .fireCannon i.events = some 1 := by
  simp only [shotAccepted, Bool.and_eq_true, decide_eq_true_eq] at h
  exact (fireCannon_receive_iff hidle i).mp h.1

/-- The log of a run: in order, and every entry at its place with its own request. -/
structure ShotsRespectReload (is : List Iteration) (log : List (ℕ × Iteration)) : Prop where
  ordered : log.Pairwise Reloaded
  requested : ∀ shot ∈ log, is[shot.1]? = some shot.2 ∧
    lastAssigned .fireCannon shot.2.events = some 1

/-- The entries of a log keep their places when the run goes on. -/
theorem ShotsRespectReload.skip {is : List Iteration} {log : List (ℕ × Iteration)}
    (h : ShotsRespectReload is log) (i : Iteration) : ShotsRespectReload (is ++ [i]) log where
  ordered := h.ordered
  requested := by
    intro shot hmem
    obtain ⟨hget, hrequest⟩ := h.requested shot hmem
    have hlt : shot.1 < is.length := (List.getElem?_eq_some_iff.mp hget).1
    exact ⟨by rw [List.getElem?_append_left hlt, hget], hrequest⟩

/-- A further shot, more than `reloadDuration` after the last one and with its own request. -/
theorem ShotsRespectReload.shot {is : List Iteration} {log : List (ℕ × Iteration)}
    (h : ShotsRespectReload is log) {i : Iteration}
    (hspace : ∀ last, log.getLast? = some last →
      last.2.nowAccept + reloadDuration < i.nowAccept)
    (hrequest : lastAssigned .fireCannon i.events = some 1) :
    ShotsRespectReload (is ++ [i]) (log ++ [(is.length, i)]) where
  ordered := by
    rw [List.pairwise_append]
    refine ⟨h.ordered, List.pairwise_singleton _ _, ?_⟩
    intro shot hmem shot' hmem'
    obtain rfl : shot' = (is.length, i) := List.mem_singleton.mp hmem'
    refine ⟨(List.getElem?_eq_some_iff.mp (h.requested shot hmem).1).1, ?_⟩
    obtain ⟨last, hlast⟩ := Option.ne_none_iff_exists'.mp
      (mt List.getLast?_eq_none_iff.mp (List.ne_nil_of_mem hmem))
    have hnext := hspace last hlast
    rcases reloaded_last h.ordered hlast shot hmem with rfl | hrel
    · exact hnext
    · have := hrel.2
      show shot.2.nowAccept + reloadDuration < i.nowAccept
      omega
  requested := by
    intro shot hmem
    rcases List.mem_append.mp hmem with hmem | hmem
    · exact (h.skip i).requested shot hmem
    · obtain rfl : shot = (is.length, i) := List.mem_singleton.mp hmem
      exact ⟨by simp, hrequest⟩

theorem ShotsRespectReload.run (t₀ : ℕ) (board : Board) {is : List Iteration}
    (htime : Timed t₀ is) : ShotsRespectReload is (shotLog (Tank.boot t₀ board) 0 is) := by
  induction is using List.reverseRecOn with
  | nil => exact ⟨List.Pairwise.nil, by simp [shotLog]⟩
  | append_singleton is i ih =>
      obtain ⟨hbefore, hnow, haccept, -⟩ := timed_append.mp htime
      have hc := CannonState.run t₀ board hbefore
      rw [shotLog_concat, Nat.zero_add]
      by_cases hshot : shotAccepted ((Tank.boot t₀ board).run is).globals i = true
      · rw [if_pos hshot]
        exact (ih hbefore).shot (fun last hlast => hc.spacing hnow haccept hshot hlast)
          (requested_of_shotAccepted hc.idle hshot)
      · rw [if_neg hshot, List.append_nil]
        exact (ih hbefore).skip i

/-- **The reload time is respected.**  In every run over a clock that does not run
backwards, wraps of the counter included: any two accepted shots are more than
`reloadDuration` apart in real time, and the last one is what `lastFired` shows; every
shot belongs to a fire request received in its own iteration, different shots to
different iterations; and no iteration leaves `fireCannon` at `1`. -/
theorem reload_time_respected (t₀ : ℕ) (board : Board) (is : List Iteration)
    (htime : Timed t₀ is) :
    let tank := Tank.boot t₀ board
    let shots := shotLog tank 0 is
    shots.Pairwise (fun shot shot' => shot.1 < shot'.1 ∧
        shot.2.nowAccept + reloadDuration < shot'.2.nowAccept) ∧
      (∀ shot, shots.getLast? = some shot →
        (tank.run is).globals.lastFired = millis shot.2.nowAccept) ∧
      (∀ shot ∈ shots, is[shot.1]? = some shot.2 ∧
        lastAssigned .fireCannon shot.2.events = some 1) ∧
      ∀ before after, is = before ++ after → (tank.run before).globals.fireCannon ≠ 1 := by
  intro tank shots
  have hshots := ShotsRespectReload.run t₀ board htime
  refine ⟨hshots.ordered, fun shot hlast => ?_, hshots.requested, ?_⟩
  · exact ((CannonState.run t₀ board htime).fired shot hlast).2.2.1
  · rintro before after rfl
    exact (CannonState.run t₀ board (timed_append.mp htime).1).idle

/-- Two requests just over 500 ms apart, the counter wrapping in between: both shots are
accepted. -/
theorem reload_time_respected_across_wrap :
    let is : List Iteration :=
      [{ received := some "FC:1".toList, now := 2 ^ 32 - 10, nowAccept := 2 ^ 32 - 5 },
        { received := some "FC:1".toList, now := 2 ^ 32 + 496, nowAccept := 2 ^ 32 + 497 }]
    let shots := shotLog (Tank.boot 0 {}) 0 is
    shots.map Prod.fst = [0, 1] ∧ shots.Pairwise (fun shot shot' => shot.1 < shot'.1 ∧
      shot.2.nowAccept + reloadDuration < shot'.2.nowAccept) := by
  intro is shots
  exact ⟨by decide, (reload_time_respected 0 {} is (by decide)).1⟩

/-! ## Laser and buzzer -/

/-- At the end of an iteration the two outputs are what `checkAndFireCannon` wrote:
`firing` as the shot left it, the difference as it was before. -/
theorem level_iterate (t : Tank) (i : Iteration) :
    let g := (receiveIfAvailable t.globals i).1
    ((t.iterate i).board.level .laserPin =
        ((tryFire g i).firing && decide (sinceLastFired g i.now < laserDuration))) ∧
      ((t.iterate i).board.level .buzzerPin =
        ((tryFire g i).firing && decide (sinceLastFired g i.now < buzzDuration))) := by
  intro g
  simp only [Tank.iterate, loop, Board.performAll_append]
  generalize Board.performAll _ (updateMotors _ _) = b
  show ((((b.performAll (checkAndFireCannon g i).2).performAll triggerPulse).performAll
      _).level .laserPin = _) ∧ ((((b.performAll (checkAndFireCannon g i).2).performAll
      triggerPulse).performAll _).level .buzzerPin = _)
  by_cases hfiring : (tryFire g i).firing = true
  · simp [checkAndFireCannon, hfiring, triggerPulse, Board.performAll, Board.perform,
      Action.serialPrintln]
  · simp [checkAndFireCannon, hfiring, triggerPulse, Board.performAll, Board.perform,
      Action.serialPrintln]

/-- The instants of the shots accepted in a run. -/
def shotInstants (t : Tank) (is : List Iteration) : List ℕ :=
  (shotLog t 0 is).map fun shot => shot.2.nowAccept

/-- What the outputs should mean at the end of the iteration `i` after the run `before`:
an output is on only when a shot was accepted in `i`, or less than the output's duration
before the clock reading of `i`. -/
def PulseFollowsShot (t : Tank) (before : List Iteration) (i : Iteration) : Prop :=
  ∀ out ∈ [(Pin.laserPin, laserDuration), (Pin.buzzerPin, buzzDuration)],
    (t.run (before ++ [i])).board.level out.1 = HIGH →
      shotAccepted (t.run before).globals i = true ∨
        ∃ instant ∈ shotInstants t before, instant ≤ i.now ∧ i.now < instant + out.2

/-- The clock reading of `i` falls into the first `buzzDuration` milliseconds of a later
turn of the counter after the last shot accepted in `before`. -/
def WrapsIntoPulse (t : Tank) (before : List Iteration) (i : Iteration) : Prop :=
  ∃ instant, (shotInstants t before).getLast? = some instant ∧
    2 ^ 32 ≤ i.now - instant ∧ (i.now - instant) % 2 ^ 32 < buzzDuration

/-- The two outputs with a duration of at most `buzzDuration`. -/
theorem level_eq_high_iff (t : Tank) (i : Iteration) {out : Pin × ℕ}
    (hout : out ∈ [(Pin.laserPin, laserDuration), (Pin.buzzerPin, buzzDuration)]) :
    out.2 ≤ buzzDuration ∧
      ((t.iterate i).board.level out.1 = HIGH ↔
        (tryFire (receiveIfAvailable t.globals i).1 i).firing = true ∧
          sinceLastFired (receiveIfAvailable t.globals i).1 i.now < out.2) := by
  obtain ⟨hlaser, hbuzzer⟩ := level_iterate t i
  rcases List.mem_cons.mp hout with rfl | hout
  · exact ⟨by decide, by rw [hlaser, Bool.and_eq_true, decide_eq_true_eq]⟩
  · obtain rfl := List.mem_singleton.mp hout
    exact ⟨le_rfl, by rw [hbuzzer, Bool.and_eq_true, decide_eq_true_eq]⟩

/-- Before the first shot nothing is on. -/
theorem pulseFollowsShot_of_no_shot {t₀ : ℕ} {board : Board} {before : List Iteration}
    (htime : Timed t₀ before) (hnil : shotLog (Tank.boot t₀ board) 0 before = [])
    (i : Iteration) : PulseFollowsShot (Tank.boot t₀ board) before i := by
  intro out hout hhigh
  cases hshot : shotAccepted ((Tank.boot t₀ board).run before).globals i with
  | true => exact Or.inl rfl
  | false =>
      rw [Tank.run_concat, (level_eq_high_iff _ i hout).2, (tryFire_of_no_shot hshot).2.2,
        ((CannonState.run t₀ board htime).ready hnil).2] at hhigh
      exact absurd hhigh.1 (by decide)

/-- What the last shot has left for the next iteration: it was at `instant`, the globals
show that the cannon has fired, and the clock difference is the time since then, modulo a
turn of the counter. -/
structure LastShot (t : Tank) (before : List Iteration) (i : Iteration) (instant : ℕ) : Prop where
  instants : (shotInstants t before).getLast? = some instant
  latest : ∀ earlier ∈ shotInstants t before, earlier ≤ instant
  le : instant ≤ i.now
  readyFire : (t.run before).globals.readyFire = false
  firing : (t.run before).globals.firing = true
  since : sinceLastFired (receiveIfAvailable (t.run before).globals i).1 i.now =
    (i.now - instant) % 2 ^ 32

theorem lastShot_of_getLast? {t₀ : ℕ} {board : Board} {before : List Iteration} {i : Iteration}
    (htime : Timed t₀ (before ++ [i])) {last : ℕ × Iteration}
    (hlast : (shotLog (Tank.boot t₀ board) 0 before).getLast? = some last) :
    LastShot (Tank.boot t₀ board) before i last.2.nowAccept := by
  obtain ⟨hbefore, hnow, -, -⟩ := timed_append.mp htime
  obtain ⟨hready, hfiring, hlastFired, hle⟩ :=
    (CannonState.run t₀ board hbefore).fired last hlast
  have hordered := (ShotsRespectReload.run t₀ board hbefore).ordered
  have hTnow : last.2.nowAccept ≤ i.now := hle.trans hnow
  refine ⟨?_, ?_, hTnow, hready, hfiring, ?_⟩
  · rw [shotInstants, List.getLast?_map, hlast]
    rfl
  · intro earlier hearlier
    obtain ⟨shot, hshot, rfl⟩ := List.mem_map.mp hearlier
    rcases reloaded_last hordered hlast shot hshot with rfl | hrel
    · exact le_rfl
    · have := hrel.2
      omega
  · exact sinceLastFired_of_eq hlastFired hTnow

/-- In the first milliseconds of a later turn the pulse comes back without a shot. -/
theorem LastShot.not_pulse_of_wraps {t : Tank} {before : List Iteration} {i : Iteration}
    {instant : ℕ} (hl : LastShot t before i instant) (hturn : 2 ^ 32 ≤ i.now - instant)
    (hmod : (i.now - instant) % 2 ^ 32 < buzzDuration) : ¬ PulseFollowsShot t before i := by
  intro hpulse
  have hbuzzer : (Pin.buzzerPin, buzzDuration) ∈
      [(Pin.laserPin, laserDuration), (Pin.buzzerPin, buzzDuration)] := by simp
  -- within the pulse no shot can be accepted, so `firing` keeps the buzzer on
  have hshot : shotAccepted (t.run before).globals i = false := by
    have hbuzz : buzzDuration ≤ reloadDuration := by decide
    simp only [shotAccepted, (cannon_receiveIfAvailable _ i).2.1, hl.readyFire, hl.since,
      Bool.false_or, Bool.and_eq_false_iff, decide_eq_false_iff_not]
    exact Or.inr (by omega)
  have hhigh : (t.run (before ++ [i])).board.level .buzzerPin = HIGH := by
    rw [Tank.run_concat, (level_eq_high_iff _ i hbuzzer).2, (tryFire_of_no_shot hshot).2.2, hl.since]
    exact ⟨hl.firing, hmod⟩
  rcases hpulse _ hbuzzer hhigh with h | ⟨earlier, hmem, -, hlt⟩
  · rw [hshot] at h
    exact Bool.false_ne_true h
  · -- every shot is at or before the last one, a whole turn ago
    have hlatest := hl.latest earlier hmem
    have hbuzz : buzzDuration < 2 ^ 32 := by decide
    simp only at hlt
    omega

/-- Elsewhere an output that is on follows the last shot closely. -/
theorem LastShot.pulse_of_not_wraps {t : Tank} {before : List Iteration} {i : Iteration}
    {instant : ℕ} (hl : LastShot t before i instant)
    (hwrap : 2 ^ 32 ≤ i.now - instant → ¬ (i.now - instant) % 2 ^ 32 < buzzDuration) :
    PulseFollowsShot t before i := by
  intro out hout hhigh
  obtain ⟨hdur, hiff⟩ := level_eq_high_iff (t.run before) i hout
  rw [Tank.run_concat, hiff, hl.since, ← toNat_reading_sub hl.le] at hhigh
  rcases (toNat_reading_sub_lt_iff hl.le).mp hhigh.2 with hlt | ⟨hturn, hmod⟩
  · exact Or.inr ⟨instant, List.mem_of_getLast? hl.instants, hl.le, by omega⟩
  · exact absurd (lt_of_lt_of_le hmod (by omega)) (hwrap hturn)

/-- **The outputs of one iteration are right exactly when its clock reading does not
wrap into a pulse.** -/
theorem pulseFollowsShot_iff {t₀ : ℕ} {board : Board} {before : List Iteration} {i : Iteration}
    (htime : Timed t₀ (before ++ [i])) :
    PulseFollowsShot (Tank.boot t₀ board) before i ↔
      ¬ WrapsIntoPulse (Tank.boot t₀ board) before i := by
  cases hlast : (shotLog (Tank.boot t₀ board) 0 before).getLast? with
  | none =>
      have hnil := List.getLast?_eq_none_iff.mp hlast
      apply iff_of_true (pulseFollowsShot_of_no_shot (timed_append.mp htime).1 hnil i)
      rintro ⟨instant, hinstant, -⟩
      simp [shotInstants, hnil] at hinstant
  | some last =>
      have hl := lastShot_of_getLast? htime hlast
      constructor
      · rintro hpulse ⟨instant, hinstant, hturn, hmod⟩
        obtain rfl := Option.some.inj (hl.instants.symm.trans hinstant)
        exact hl.not_pulse_of_wraps hturn hmod hpulse
      · intro hwrap
        exact hl.pulse_of_not_wraps fun hturn hmod => hwrap ⟨_, hl.instants, hturn, hmod⟩

/-- **Laser and buzzer are on only after a shot, exactly in the runs that never read the
clock in the first `buzzDuration` milliseconds of a later turn after the last shot.** -/
theorem pulses_follow_shots_iff (t₀ : ℕ) (board : Board) (is : List Iteration)
    (htime : Timed t₀ is) :
    (∀ before i after, is = before ++ i :: after →
        PulseFollowsShot (Tank.boot t₀ board) before i) ↔
      ∀ before i after, is = before ++ i :: after →
        ¬ WrapsIntoPulse (Tank.boot t₀ board) before i := by
  have hstep : ∀ before i after, is = before ++ i :: after →
      (PulseFollowsShot (Tank.boot t₀ board) before i ↔
        ¬ WrapsIntoPulse (Tank.boot t₀ board) before i) := by
    rintro before i after rfl
    apply pulseFollowsShot_iff
    rw [← List.singleton_append, ← List.append_assoc] at htime
    exact (timed_append.mp htime).1
  constructor
  · exact fun h before i after heq => (hstep before i after heq).mp (h before i after heq)
  · exact fun h before i after heq => (hstep before i after heq).mpr (h before i after heq)

/-- An ordinary run: a shot, a look inside the pulse, a look after it. -/
theorem pulses_follow_shots_after_one_shot :
    let is : List Iteration :=
      [{ received := some "FC:1".toList, now := 1000, nowAccept := 1001 },
        { now := 1050, nowAccept := 1050 }, { now := 2000, nowAccept := 2000 }]
    ∀ before i after, is = before ++ i :: after → PulseFollowsShot (Tank.boot 0 {}) before i := by
  intro is
  refine (pulses_follow_shots_iff 0 {} is (by decide)).mpr ?_
  rintro before i after heq ⟨instant, -, hturn, -⟩
  have hmem : i ∈ is := heq ▸ by simp
  have hnow : i.now ≤ 2000 := by
    simp only [is, List.mem_cons, List.not_mem_nil, or_false] at hmem
    rcases hmem with rfl | rfl | rfl <;> decide
  have hbig : 2000 < 2 ^ 32 := by decide
  omega

/-- **A pulse without a shot.**  One shot at time `0`, then nothing is received for one
full turn of the counter: at `2 ^ 32` milliseconds the laser is on again. -/
theorem laser_on_after_full_turn :
    ¬ ∀ (t₀ : ℕ) (board : Board) (is : List Iteration), Timed t₀ is →
      ∀ before i after, is = before ++ i :: after →
        PulseFollowsShot (Tank.boot t₀ board) before i := by
  intro hall
  have h := hall 0 {} [{ received := some "FC:1".toList }, { now := 2 ^ 32, nowAccept := 2 ^ 32 }]
    (by decide) [{ received := some "FC:1".toList }] { now := 2 ^ 32, nowAccept := 2 ^ 32 } [] rfl
    (.laserPin, laserDuration) (by simp) (by decide)
  rcases h with h | ⟨instant, hmem, -, hlt⟩
  · exact absurd h (by decide)
  · have hzero : instant ∈ [0] := hmem
    obtain rfl := List.mem_singleton.mp hzero
    exact absurd hlt (by decide)

end TankFirmware
