/-
# The pace of the distance reports (`peter/ultrasonic/tank.ino`)

`loop` prints the distance when `millis() - last_distance_time` has come to
`distance_interval`, and stores the clock afterwards.  The stored time is a `long`, the
clock an `unsigned long` that wraps after 49 days; the difference is taken in
`unsigned long`, so neither the change of sign at `2 ^ 31` nor the wrap at `2 ^ 32` can be
seen in it (`report_eq`).

A run is a list of turns with the real times at which they read the clock.  As long as
the turns are less than `2 ^ 31` ms apart, the difference is the real time since the last
report (`Tracks.due_iff`), and the reports keep their pace (`reports_keep_pace`).
-/
import ProjectTank.CarFirmware
import ProjectTank.ModularClock

open DecimalText CarFirmware ModularClock

namespace ReportPace

/-! ## The types of the source -/

/-- The value of a `long` of 32 bits, converted from `unsigned long`. -/
def toLong (x : BitVec 32) : ℤ := x.toInt

/-- A `long` or an `int`, converted to `unsigned long`. -/
def toUnsignedLong (n : ℤ) : BitVec 32 := BitVec.ofInt 32 n

@[simp] theorem toUnsignedLong_toLong (x : BitVec 32) : toUnsignedLong (toLong x) = x :=
  BitVec.ofInt_toInt

/-- `millis() - last_distance_time >= distance_interval`, with the conversions that C makes. -/
def intervalOver (millis : BitVec 32) (lastDistanceTime : ℤ) : Bool :=
  toUnsignedLong distanceInterval ≤ millis - toUnsignedLong lastDistanceTime

theorem intervalOver_toLong {millis x : BitVec 32} :
    intervalOver millis (toLong x) = true ↔ distanceInterval ≤ (millis - x).toNat := by
  rw [intervalOver, toUnsignedLong_toLong, decide_eq_true_eq, BitVec.le_def]
  rfl

/-- The line of a report. -/
def distLine (distance : ℤ) : Text := "Dist:".toList ++ intText distance ++ ['\r', '\n']

theorem append_distLine (printed : Text) (distance : ℤ) :
    printed ++ distLine distance =
      printed ++ "Dist:".toList ++ intText distance ++ ['\r', '\n'] := by
  delta distLine
  simp only [List.append_assoc]

/-- **The bits of the stored `long`** are all that a report depends on. -/
theorem report_eq (tank : Tank) (e : Surroundings) :
    tank.report e =
      if intervalOver e.now (toLong tank.lastDistanceTime) then
        { tank with
          printed := tank.printed ++ distLine e.distance
          lastDistanceTime := toUnsignedLong (toLong e.later) }
      else tank := by
  by_cases h : distanceInterval ≤ (e.now - tank.lastDistanceTime).toNat
  · rw [Tank.report, if_pos h, if_pos (intervalOver_toLong.mpr h), toUnsignedLong_toLong,
      append_distLine]
  · rw [Tank.report, if_neg h, if_neg fun hover => h (intervalOver_toLong.mp hover)]

/-! ## Runs -/

/-- An iteration of `loop`: the byte that it finds, the real time when it reads the clock, the
distance that it would report, and the real time at its end, when it reads the clock again if it
has reported. -/
structure Turn where
  incoming : Option UInt8 := none
  now : ℕ
  distance : ℤ := 0
  later : ℕ
  deriving DecidableEq

/-- What the board sees of these. -/
def Turn.surroundings (turn : Turn) : Surroundings where
  now := reading 32 turn.now
  distance := turn.distance
  later := reading 32 turn.later

/-- One iteration. -/
def iterate (tank : Tank) (turn : Turn) : Tank := tank.loop turn.incoming turn.surroundings

/-- The board after `setup`, which prints three lines. -/
def setup : Tank where
  printed :=
    "Combined Control Ready on ESP32 (Final Pin Config).".toList ++ ['\r', '\n'] ++
      "DC Motors: W/A/S/D/X".toList ++ ['\r', '\n'] ++
      "Stepper: 'j' (Left), 'k' (Right) - Steps: ".toList ++ intText stepsToTake ++ ['\r', '\n']

/-- The board after these iterations. -/
def run (turns : List Turn) : Tank := turns.foldl iterate setup

/-- Whether an iteration prints a report. -/
def due (tank : Tank) (turn : Turn) : Bool :=
  intervalOver turn.surroundings.now (toLong tank.lastDistanceTime)

/-- The iterations that print a report. -/
def reports (tank : Tank) : List Turn → List Turn
  | [] => []
  | turn :: turns =>
      (if due tank turn then [turn] else []) ++ reports (iterate tank turn) turns

theorem run_snoc (turns : List Turn) (turn : Turn) :
    run (turns ++ [turn]) = iterate (run turns) turn := by
  rw [run, List.foldl_append]
  rfl

theorem reports_append (tank : Tank) (turns turns' : List Turn) :
    reports tank (turns ++ turns') = reports tank turns ++ reports (turns.foldl iterate tank) turns' := by
  induction turns generalizing tank with
  | nil => rfl
  | cons turn turns ih => rw [List.cons_append, reports, ih, reports, List.append_assoc, List.foldl_cons]

theorem reports_snoc (turns : List Turn) (turn : Turn) :
    reports setup (turns ++ [turn]) =
      reports setup turns ++ if due (run turns) turn then [turn] else [] := by
  rw [reports_append, reports, reports, List.append_nil]
  rfl

/-- The first two parts of `loop` leave the reports alone. -/
theorem drive_keeps (tank : Tank) (incoming : Option UInt8) :
    (tank.drive incoming).lastDistanceTime = tank.lastDistanceTime ∧
      (tank.drive incoming).printed = tank.printed := by
  cases incoming with
  | none => exact ⟨rfl, rfl⟩
  | some b => exact ⟨rfl, rfl⟩

theorem iterate_of_due {tank : Tank} {turn : Turn} (h : due tank turn = true) :
    (iterate tank turn).lastDistanceTime = reading 32 turn.later ∧
      (iterate tank turn).printed = tank.printed ++ distLine turn.distance := by
  obtain ⟨htime, hprinted⟩ := drive_keeps tank turn.incoming
  rw [due, ← htime] at h
  rw [iterate, Tank.loop, report_eq, if_pos h, toUnsignedLong_toLong, hprinted]
  exact ⟨rfl, rfl⟩

theorem iterate_of_not_due {tank : Tank} {turn : Turn} (h : ¬ due tank turn = true) :
    (iterate tank turn).lastDistanceTime = tank.lastDistanceTime ∧
      (iterate tank turn).printed = tank.printed := by
  have hkeeps := drive_keeps tank turn.incoming
  rw [due, ← hkeeps.1] at h
  rw [iterate, Tank.loop, report_eq, if_neg h]
  exact hkeeps

/-! ## Real time -/

/-- The real time at the end of a run; it begins at `0`. -/
def endTime (turns : List Turn) : ℕ := (turns.getLast?.map Turn.later).getD 0

@[simp] theorem endTime_snoc (turns : List Turn) (turn : Turn) :
    endTime (turns ++ [turn]) = turn.later := by
  simp [endTime]

/-- The real time of the clock reading stored after the last report, `0` before the first. -/
def stored (turns : List Turn) : ℕ := endTime (reports setup turns)

/-- The clock does not go back, and a turn reads it less than `2 ^ 31` ms after the one before;
the first turn comes before the counter has wrapped. -/
structure Paced (turns : List Turn) : Prop where
  first : ∀ turn ∈ turns.head?, turn.now < 2 ^ 32
  forward : ∀ turn ∈ turns, turn.now ≤ turn.later
  chain : turns.IsChain fun turn next => turn.later ≤ next.now ∧ next.now < turn.now + 2 ^ 31

theorem Paced.left {turns turns' : List Turn} (h : Paced (turns ++ turns')) : Paced turns where
  first := by
    intro turn hturn
    refine h.first turn ?_
    rw [List.head?_append, Option.mem_def.mp hturn]
    rfl
  forward := fun turn hturn => h.forward turn (List.mem_append_left _ hturn)
  chain := h.chain.left_of_append

/-- A turn begins after the end of what was before it. -/
theorem Paced.endTime_le {turns : List Turn} {turn : Turn} (h : Paced (turns ++ [turn])) :
    endTime turns ≤ turn.now := by
  cases hlast : turns.getLast? with
  | none =>
      rw [endTime, hlast]
      exact Nat.zero_le _
  | some last =>
      rw [endTime, hlast]
      exact ((List.isChain_append.mp h.chain).2.2 last hlast turn rfl).1

/-! ## The invariant -/

/-- The board and the real time after these turns. -/
structure Tracks (turns : List Turn) : Prop where
  bits : (run turns).lastDistanceTime = reading 32 (stored turns)
  le : stored turns ≤ endTime turns
  recent : ∀ last ∈ turns.getLast?, last.now < stored turns + distanceInterval

/-- Less than a turn of the counter has passed since the last report. -/
theorem Tracks.elapsed {turns : List Turn} {turn : Turn} (ht : Tracks turns)
    (h : Paced (turns ++ [turn])) : turn.now < stored turns + 2 ^ 32 := by
  cases hlast : turns.getLast? with
  | none =>
      obtain rfl := List.getLast?_eq_none_iff.mp hlast
      have hfirst : turn.now < 2 ^ 32 := h.first turn (by simp)
      exact hfirst.trans_le (Nat.le_add_left _ _)
  | some last =>
      have hgap := ((List.isChain_append.mp h.chain).2.2 last hlast turn rfl).2
      have hrecent := ht.recent last hlast
      simp only [distanceInterval] at hrecent
      omega

/-- **The difference is real time**: a report is due exactly when the interval is over. -/
theorem Tracks.due_iff {turns : List Turn} {turn : Turn} (ht : Tracks turns)
    (h : Paced (turns ++ [turn])) :
    due (run turns) turn = true ↔ stored turns + distanceInterval ≤ turn.now := by
  have hle : stored turns ≤ turn.now := ht.le.trans h.endTime_le
  rw [due, intervalOver_toLong, ht.bits]
  show distanceInterval ≤ (reading 32 turn.now - reading 32 (stored turns)).toNat ↔ _
  rw [toNat_reading_sub_of_lt hle (ht.elapsed h)]
  omega

theorem stored_of_due {turns : List Turn} {turn : Turn} (h : due (run turns) turn = true) :
    stored (turns ++ [turn]) = turn.later := by
  rw [stored, reports_snoc, if_pos h, endTime_snoc]

theorem stored_of_not_due {turns : List Turn} {turn : Turn} (h : ¬ due (run turns) turn = true) :
    stored (turns ++ [turn]) = stored turns := by
  rw [stored, reports_snoc, if_neg h, List.append_nil, stored]

/-- **One turn keeps the invariant.** -/
theorem Tracks.snoc {turns : List Turn} {turn : Turn} (ht : Tracks turns)
    (h : Paced (turns ++ [turn])) : Tracks (turns ++ [turn]) := by
  have hforward : turn.now ≤ turn.later := h.forward turn (by simp)
  have hbegin : endTime turns ≤ turn.now := h.endTime_le
  by_cases hdue : due (run turns) turn = true
  · have hstored : stored (turns ++ [turn]) = turn.later := stored_of_due hdue
    constructor
    · rw [run_snoc, (iterate_of_due hdue).1, hstored]
    · rw [hstored, endTime_snoc]
    · intro last hlast
      obtain rfl : turn = last := by simpa using hlast
      have hpos : 0 < distanceInterval := by decide
      omega
  · have hstored : stored (turns ++ [turn]) = stored turns := stored_of_not_due hdue
    constructor
    · rw [run_snoc, (iterate_of_not_due hdue).1, hstored, ht.bits]
    · rw [hstored, endTime_snoc]
      exact ht.le.trans (hbegin.trans hforward)
    · intro last hlast
      obtain rfl : turn = last := by simpa using hlast
      rw [hstored]
      exact Nat.lt_of_not_le fun hle => hdue ((ht.due_iff h).mpr hle)

/-- The invariant holds after every paced run. -/
theorem Paced.tracks {turns : List Turn} (h : Paced turns) : Tracks turns := by
  induction turns using List.reverseRecOn with
  | nil => exact ⟨rfl, Nat.le_refl 0, by simp⟩
  | append_singleton turns turn ih => exact (ih h.left).snoc h

/-! ## The reports -/

/-- What is printed is the reports. -/
theorem printed_run (turns : List Turn) :
    (run turns).printed =
      setup.printed ++ (reports setup turns).flatMap fun r => distLine r.distance := by
  induction turns using List.reverseRecOn with
  | nil => exact (List.append_nil _).symm
  | append_singleton turns turn ih =>
      rw [run_snoc, reports_snoc]
      by_cases hdue : due (run turns) turn = true
      · rw [(iterate_of_due hdue).2, ih, if_pos hdue, List.flatMap_append, List.flatMap_singleton,
          List.append_assoc]
      · rw [(iterate_of_not_due hdue).2, ih, if_neg hdue, List.append_nil]

/-- Reports are an interval apart, from the end of one to the beginning of the next. -/
theorem Paced.apart {turns : List Turn} (h : Paced turns) :
    (reports setup turns).Pairwise (fun r r' => r.later + distanceInterval ≤ r'.now) ∧
      ∀ r ∈ reports setup turns, r.later ≤ stored turns := by
  induction turns using List.reverseRecOn with
  | nil => exact ⟨List.Pairwise.nil, by simp [reports]⟩
  | append_singleton turns turn ih =>
      obtain ⟨hapart, hlast⟩ := ih h.left
      by_cases hdue : due (run turns) turn = true
      · have hover := (h.left.tracks.due_iff h).mp hdue
        have hforward : turn.now ≤ turn.later := h.forward turn (by simp)
        rw [stored_of_due hdue, reports_snoc, if_pos hdue, List.pairwise_append]
        refine ⟨⟨hapart, List.pairwise_singleton _ _, ?_⟩, ?_⟩
        · intro r hr r' hr'
          obtain rfl := List.mem_singleton.mp hr'
          exact (Nat.add_le_add_right (hlast r hr) _).trans hover
        · intro r hr
          rcases List.mem_append.mp hr with hr | hr
          · have := hlast r hr
            omega
          · rw [List.mem_singleton.mp hr]
      · rw [stored_of_not_due hdue, reports_snoc, if_neg hdue, List.append_nil]
        exact ⟨hapart, hlast⟩

/-- Once an interval has passed since any moment of a run, a report has been printed after it. -/
theorem Paced.report_within {before between : List Turn} {turn : Turn}
    (h : Paced (before ++ between ++ [turn])) (hlong : endTime before + distanceInterval ≤ turn.now) :
    reports (run before) (between ++ [turn]) ≠ [] := by
  intro hnone
  have hall : reports setup (before ++ between ++ [turn]) = reports setup before := by
    rw [List.append_assoc, reports_append]
    show _ ++ reports (run before) (between ++ [turn]) = _
    rw [hnone, List.append_nil]
  have hstored : stored (before ++ between ++ [turn]) = stored before := by
    rw [stored, hall, stored]
  have hle := h.left.left.tracks.le
  have hrecent := h.tracks.recent turn (by simp)
  omega

/-- **Distance reports keep their pace** over every paced run, however often the clock has
wrapped: an iteration prints one exactly when the interval is over, they are never less than
an interval apart, and there is one in every interval that ends with an iteration. -/
theorem reports_keep_pace {turns : List Turn} (h : Paced turns) :
    (∀ before turn after, turns = before ++ turn :: after →
        (run (before ++ [turn])).printed = (run before).printed ++
          if stored before + distanceInterval ≤ turn.now then distLine turn.distance else []) ∧
      (run turns).printed =
        setup.printed ++ ((reports setup turns).flatMap fun r => distLine r.distance) ∧
      (reports setup turns).Pairwise (fun r r' => r.later + distanceInterval ≤ r'.now) ∧
      ∀ before between turn after, turns = before ++ between ++ turn :: after →
        endTime before + distanceInterval ≤ turn.now →
        reports (run before) (between ++ [turn]) ≠ [] := by
  refine ⟨?_, printed_run turns, h.apart.1, ?_⟩
  · rintro before turn after rfl
    rw [List.append_cons] at h
    have hdue := h.left.left.tracks.due_iff h.left
    rw [run_snoc]
    by_cases hover : stored before + distanceInterval ≤ turn.now
    · rw [if_pos hover, (iterate_of_due (hdue.mpr hover)).2]
    · rw [if_neg hover, List.append_nil, (iterate_of_not_due fun hd => hover (hdue.mp hd)).2]
  · rintro before between turn after rfl hlong
    rw [List.append_cons] at h
    exact h.left.report_within hlong

/-- A run over the change of sign and over the wrap, which falls into a report. -/
def acrossTheWrap : List Turn :=
  [{ now := 2 ^ 31 - 1, later := 2 ^ 31 + 20 }, { now := 2 ^ 32 - 10, later := 2 ^ 32 + 15 },
    { now := 2 ^ 32 + 50, later := 2 ^ 32 + 50 }, { now := 2 ^ 32 + 115, later := 2 ^ 32 + 140 }]

theorem acrossTheWrap_keeps_pace :
    (reports setup acrossTheWrap).map Turn.now = [2 ^ 31 - 1, 2 ^ 32 - 10, 2 ^ 32 + 115] ∧
      (reports setup acrossTheWrap).Pairwise (fun r r' => r.later + distanceInterval ≤ r'.now) :=
  ⟨by decide +kernel, (reports_keep_pace ⟨by decide, by decide, by decide⟩).2.2.1⟩

end ReportPace
