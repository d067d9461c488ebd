/-
# A time-out of the distance sensor (`espWorkProject_fixed.ino`, `web_fixed.py`)

`pulseIn` returns an `unsigned long`, `0` for a time-out, which `readDistance` stores in a
`long`.  The reader knows a line `Dist:ERROR` for a time-out, but the firmware prints a number
for every duration, and the number for a time-out is `0`.

* `reported_iff`: `/get_distance` shows a duration truthfully exactly when it is positive and fits
  a `long`;
* `timeout_shown_as_distance`: what it shows of a time-out.
-/
import ProjectTank.SerialReader

open ProgramText DecimalText TankFirmware SerialReader

namespace SensorTimeout

/-- `long duration = pulseIn(echoPin, HIGH);`. -/
def echoOf (duration : BitVec 32) : ℤ := duration.toInt

/-- The line that `loop` prints for the duration. -/
def distLine (duration : BitVec 32) : FirmwareLine :=
  .dist (readDistance { echo := echoOf duration })

/-- `/get_distance`: the status and the body. -/
def getDistance (t : Telemetry) : ℕ × List UInt8 := (200, encodeUtf8 t.ultrasonicDistance)

/-- The answer of `/get_distance` after the line for a duration has been read: `N/A` exactly for a
time-out, and the distance otherwise. -/
def Reported (u : UnicodeTables) (t : Telemetry) (duration : BitVec 32) : Prop :=
  let answer := (getDistance (t.readLine u (distLine duration).bytes)).2
  (answer = encodeUtf8 "N/A".toList ↔ duration = 0) ∧
    (duration ≠ 0 → answer = encodeUtf8 (natText (duration.toNat / 29 / 2)))

theorem getDistance_readLine (u : UnicodeTables) (t : Telemetry) (duration : BitVec 32) :
    (getDistance (t.readLine u (distLine duration).bytes)).2 =
      encodeUtf8 (intText (microsecondsToCentimeters duration.toInt)) := by
  rw [Telemetry.readLine, updateOf_bytes u (distLine duration) trivial]
  rfl

theorem eq_of_encodeUtf8_eq {s t : Text} (hs : s.all isAscii = true) (ht : t.all isAscii = true)
    (h : encodeUtf8 s = encodeUtf8 t) : s = t := by
  rw [← ofBytes_encodeUtf8 hs, h, ofBytes_encodeUtf8 ht]

/-- No distance is shown as `N/A`. -/
theorem encodeUtf8_intText_ne (n : ℤ) : encodeUtf8 (intText n) ≠ encodeUtf8 "N/A".toList := by
  intro h
  have htext := eq_of_encodeUtf8_eq (Python.intText_ascii n) (by decide) h
  exact not_mem_intText (c := 'N') (by decide) (by decide) n (htext ▸ by decide)

/-- Below `2 ^ 31` the `long` is the duration. -/
theorem microsecondsToCentimeters_natCast (d : ℕ) :
    microsecondsToCentimeters d = (d / 29 / 2 : ℕ) := rfl

/-- From `2 ^ 31` on the `long` is negative, and so is the distance, or zero. -/
theorem microsecondsToCentimeters_nonpos {d : ℤ} (hd : d < 0) :
    microsecondsToCentimeters d ≤ 0 := by
  obtain ⟨n, rfl⟩ := Int.exists_eq_neg_ofNat hd.le
  have hneg : microsecondsToCentimeters (-(n : ℤ)) = -((n / 29 / 2 : ℕ) : ℤ) := by
    rw [microsecondsToCentimeters, Int.neg_tdiv, Int.neg_tdiv]
    rfl
  omega

/-- **When a duration is shown truthfully.** -/
theorem reported_iff (u : UnicodeTables) (t : Telemetry) (duration : BitVec 32) :
    Reported u t duration ↔ 0 < duration.toNat ∧ duration.toNat < 2 ^ 31 := by
  simp only [Reported, getDistance_readLine]
  have hne := encodeUtf8_intText_ne (microsecondsToCentimeters duration.toInt)
  have hzero : duration = 0 ↔ duration.toNat = 0 := by
    rw [← BitVec.toNat_inj]
    rfl
  rw [iff_false_left hne, hzero]
  constructor
  · rintro ⟨hpos, hshown⟩
    refine ⟨Nat.pos_of_ne_zero hpos, ?_⟩
    by_contra hbig
    have htext := eq_of_encodeUtf8_eq (Python.intText_ascii _)
      (Python.intText_ascii (duration.toNat / 29 / 2 : ℕ)) (hshown (mt hzero.mp hpos))
    have hequal := intText_injective htext
    have hneg : duration.toInt < 0 := by
      rw [BitVec.toInt_eq_toNat_cond]
      have := duration.isLt
      split_ifs <;> omega
    have hnonpos := microsecondsToCentimeters_nonpos hneg
    omega
  · rintro ⟨hpos, hlt⟩
    have hint : duration.toInt = duration.toNat := by
      rw [BitVec.toInt_eq_toNat_cond, if_pos (by omega)]
    refine ⟨by omega, fun _ => ?_⟩
    rw [hint, microsecondsToCentimeters_natCast]
    rfl

/-- A time-out is shown as the distance `0`. -/
theorem timeout_shown_as_distance : ¬ ∀ duration, Reported .bare {} duration := by
  intro h
  have hanswer := (h 0).1.mpr rfl
  revert hanswer
  decide +kernel

end SensorTimeout
