/-
# Line noise (`read_serial_data_thread` in `Guy/peter/web_fixed.py`)

`readline` may return any bytes.  The page shows the speeds on bars from -255 to 255 and the
distance as a number, but the reader stores whatever `int` accepts, and any text after `Dist:`.

* `good_next_iff`: when a line keeps the telemetry well formed;
* `telemetry_wellFormed_iff`: when the telemetry stays well formed through a run;
* `noise_reaches_telemetry`: a line that stores a speed that no motor has.
-/
import ProjectTank.SerialReader
import ProjectTank.Transition

open ProgramText DecimalText SerialReader

namespace LineNoise

/-! ## Well-formed telemetry -/

/-- A PWM value with a direction. -/
def IsSpeed (v : ℤ) : Prop := -255 ≤ v ∧ v ≤ 255

instance (v : ℤ) : Decidable (IsSpeed v) := inferInstanceAs (Decidable (_ ∧ _))

/-- The text of a decimal integer. -/
def IsDecimal (s : Text) : Prop :=
  let digits := if s.head? = some '-' then s.tail else s
  digits ≠ [] ∧ digits.all Char.isDigit = true

instance (s : Text) : Decidable (IsDecimal s) := inferInstanceAs (Decidable (_ ∧ _))

/-- The bytes of a line that the firmware may print. -/
def WellFormed (raw : List UInt8) : Prop :=
  ∃ l : FirmwareLine, raw = l.bytes ∧
    match l with
    | .m1 speed => IsSpeed speed
    | .m2 speed => IsSpeed speed
    | .dist _ => True

/-- The reader: the globals, and with what and on which globals it last worked. -/
structure Reader where
  now : Telemetry := {}
  last : Option (Telemetry × List UInt8) := none

/-- `readline` has returned a line. -/
def Reader.next (u : UnicodeTables) (x : Reader) (raw : List UInt8) : Reader where
  now := x.now.readLine u raw
  last := some (x.now, raw)

def machine (u : UnicodeTables) : Machine Reader (List UInt8) where
  init := {}
  step x raw := some (x.next u raw)

/-- What the page can show as a distance. -/
def IsDistance (s : Text) : Prop := s = "N/A".toList ∨ IsDecimal s

/-- The telemetry is well formed, and the last line has changed a speed only if it was well
formed. -/
structure Good (x : Reader) : Prop where
  distance : IsDistance x.now.ultrasonicDistance
  m1 : IsSpeed x.now.motorM1Speed
  m2 : IsSpeed x.now.motorM2Speed
  kept : ∀ before raw, x.last = some (before, raw) → ¬ WellFormed raw →
    x.now.motorM1Speed = before.motorM1Speed ∧ x.now.motorM2Speed = before.motorM2Speed

/-! ## The lines that are taken and should not be -/

/-- Text after `Dist:` that is neither a number nor one of the two marks. -/
def StoresText (u : UnicodeTables) (raw : List UInt8) : Prop :=
  ∃ y, Carries u raw "Dist:".toList y ∧ y ≠ "ERROR".toList ∧ y ≠ "N/A".toList ∧ ¬ IsDecimal y

/-- A number after a name that differs from the speed so far. -/
def StoresSpeed (u : UnicodeTables) (raw : List UInt8) (name : Text) (speed : ℤ) : Prop :=
  ∃ y v, Carries u raw name y ∧ Python.int u y = some v ∧ v ≠ speed

/-- A line that the reader should ignore and does not. -/
def Misread (u : UnicodeTables) (x : Reader) (raw : List UInt8) : Prop :=
  StoresText u raw ∨ (¬ WellFormed raw ∧
    (StoresSpeed u raw "M1:".toList x.now.motorM1Speed ∨
      StoresSpeed u raw "M2:".toList x.now.motorM2Speed))

section

variable {u : UnicodeTables} {raw : List UInt8}

/-- What a well-formed line stores. -/
theorem WellFormed.isSpeed (h : WellFormed raw) {v : ℤ}
    (hv : updateOf u raw = some (.m1 v) ∨ updateOf u raw = some (.m2 v)) : IsSpeed v := by
  obtain ⟨l, rfl, hl⟩ := h
  have hfits : ∀ {speed : ℤ}, IsSpeed speed → FitsInt32 speed := fun h => by
    unfold IsSpeed at h
    unfold FitsInt32
    omega
  cases l with
  | m1 speed =>
      rw [updateOf_bytes u (.m1 speed) (hfits hl)] at hv
      rcases hv with hv | hv <;> cases hv
      exact hl
  | m2 speed =>
      rw [updateOf_bytes u (.m2 speed) (hfits hl)] at hv
      rcases hv with hv | hv <;> cases hv
      exact hl
  | dist distance =>
      rw [updateOf_bytes u (.dist distance) trivial] at hv
      rcases hv with hv | hv <;> cases hv

theorem storesText_iff :
    StoresText u raw ↔ ∃ d, updateOf u raw = some (.distance d) ∧ ¬ IsDistance d := by
  constructor
  · rintro ⟨y, hy, herror, hmark, hdecimal⟩
    refine ⟨y, updateOf_eq_distance_iff.mpr ⟨y, hy, (if_neg herror).symm⟩, ?_⟩
    exact fun hd => hd.elim hmark hdecimal
  · rintro ⟨d, hd, hbad⟩
    obtain ⟨y, hy, rfl⟩ := updateOf_eq_distance_iff.mp hd
    split_ifs at hbad with herror
    · exact absurd (Or.inl rfl) hbad
    · exact ⟨y, hy, herror, fun hmark => hbad (Or.inl hmark), fun h => hbad (Or.inr h)⟩

theorem storesSpeed_iff {name : Text} {store : ℤ → Update} (hstore : ∀ {v : ℤ},
    updateOf u raw = some (store v) ↔ ∃ y, Carries u raw name y ∧ Python.int u y = some v)
    {speed : ℤ} :
    StoresSpeed u raw name speed ↔ ∃ v, updateOf u raw = some (store v) ∧ v ≠ speed := by
  constructor
  · rintro ⟨y, v, hy, hv, hne⟩
    exact ⟨v, hstore.mpr ⟨y, hy, hv⟩, hne⟩
  · rintro ⟨v, hv, hne⟩
    obtain ⟨y, hy, hv⟩ := hstore.mp hv
    exact ⟨y, v, hy, hv, hne⟩

/-! ## One line -/

variable {x : Reader}

/-- What the telemetry after a line must be like. -/
theorem good_next_iff_of_now {t : Telemetry} (hnow : x.now.readLine u raw = t) :
    Good (x.next u raw) ↔ IsDistance t.ultrasonicDistance ∧ IsSpeed t.motorM1Speed ∧
      IsSpeed t.motorM2Speed ∧ (¬ WellFormed raw →
        t.motorM1Speed = x.now.motorM1Speed ∧ t.motorM2Speed = x.now.motorM2Speed) := by
  subst hnow
  constructor
  · intro hgood
    exact ⟨hgood.distance, hgood.m1, hgood.m2, hgood.kept x.now raw rfl⟩
  · rintro ⟨hdist, hm1, hm2, hkept⟩
    refine ⟨hdist, hm1, hm2, ?_⟩
    rintro before _ ⟨⟩ hraw
    exact hkept hraw

/-- A speed that a line stores is in the range, if a line that is not well formed must store the
speed that is there. -/
theorem isSpeed_of_kept {v speed : ℤ} (hspeed : IsSpeed speed)
    (hv : updateOf u raw = some (.m1 v) ∨ updateOf u raw = some (.m2 v))
    (hkept : ¬ WellFormed raw → v = speed) : IsSpeed v := by
  by_cases hraw : WellFormed raw
  · exact hraw.isSpeed hv
  · exact hkept hraw ▸ hspeed

/-- A line that stores nothing keeps the telemetry well formed. -/
theorem Good.next_of_eq_none (h : Good x) (hnone : updateOf u raw = none) :
    Good (x.next u raw) := by
  have hnow : x.now.readLine u raw = x.now := by rw [Telemetry.readLine, hnone]
  exact (good_next_iff_of_now hnow).mpr ⟨h.distance, h.m1, h.m2, fun _ => ⟨rfl, rfl⟩⟩

/-- A line that stores a distance. -/
theorem Good.next_distance_iff (h : Good x) {d : Text} (hd : updateOf u raw = some (.distance d)) :
    Good (x.next u raw) ↔ IsDistance d := by
  have hnow : x.now.readLine u raw = { x.now with ultrasonicDistance := d } := by
    rw [Telemetry.readLine, hd]
    rfl
  rw [good_next_iff_of_now hnow]
  constructor
  · intro hgood
    exact hgood.1
  · intro hdist
    exact ⟨hdist, h.m1, h.m2, fun _ => ⟨rfl, rfl⟩⟩

/-- A line that stores the speed of motor 1: if it is not well formed, it must store the speed
that is there. -/
theorem Good.next_m1_iff (h : Good x) {v : ℤ} (hv : updateOf u raw = some (.m1 v)) :
    Good (x.next u raw) ↔ (¬ WellFormed raw → v = x.now.motorM1Speed) := by
  have hnow : x.now.readLine u raw = { x.now with motorM1Speed := v } := by
    rw [Telemetry.readLine, hv]
    rfl
  rw [good_next_iff_of_now hnow]
  constructor
  · rintro ⟨-, -, -, hkept⟩ hraw
    exact (hkept hraw).1
  · intro hkept
    exact ⟨h.distance, isSpeed_of_kept h.m1 (Or.inl hv) hkept, h.m2,
      fun hraw => ⟨hkept hraw, rfl⟩⟩

/-- A line that stores the speed of motor 2. -/
theorem Good.next_m2_iff (h : Good x) {v : ℤ} (hv : updateOf u raw = some (.m2 v)) :
    Good (x.next u raw) ↔ (¬ WellFormed raw → v = x.now.motorM2Speed) := by
  have hnow : x.now.readLine u raw = { x.now with motorM2Speed := v } := by
    rw [Telemetry.readLine, hv]
    rfl
  rw [good_next_iff_of_now hnow]
  constructor
  · rintro ⟨-, -, -, hkept⟩ hraw
    exact (hkept hraw).2
  · intro hkept
    exact ⟨h.distance, h.m1, isSpeed_of_kept h.m2 (Or.inr hv) hkept,
      fun hraw => ⟨rfl, hkept hraw⟩⟩

/-- **When a line keeps the telemetry well formed.** -/
theorem good_next_iff (h : Good x) (raw : List UInt8) :
    Good (x.next u raw) ↔ ¬ Misread u x raw := by
  rw [Misread, storesText_iff, storesSpeed_iff updateOf_eq_m1_iff,
    storesSpeed_iff updateOf_eq_m2_iff]
  cases hupdate : updateOf u raw with
  | none => simp [h.next_of_eq_none hupdate]
  | some update =>
      cases update with
      | distance d => simp [h.next_distance_iff hupdate]
      | m1 v => simp [h.next_m1_iff hupdate]
      | m2 v => simp [h.next_m2_iff hupdate]

end

/-! ## Runs -/

/-- **When the telemetry stays well formed**: exactly as long as no line is misread. -/
theorem telemetry_wellFormed_iff (u : UnicodeTables) (raws : List (List UInt8)) :
    (machine u).Throughout Good raws ↔ (machine u).Avoids (Misread u) raws := by
  refine @Machine.throughout_iff_avoids _ _ (machine u) (fun _ => True) _ _ trivial ?_
    (fun _ _ _ _ _ => trivial) ?_ raws
  -- the globals start with `N/A` and motors at rest
  · have hstill : IsSpeed 0 := by decide
    exact ⟨Or.inl rfl, hstill, hstill, fun _ _ hlast => by cases hlast⟩
  · rintro x raw _ - hx ⟨⟩
    exact good_next_iff hx raw

/-- A line that stores a speed that no motor has. -/
theorem noise_reaches_telemetry :
    ¬ ∀ raws, (machine .bare).Throughout Good raws := by
  intro h
  have hgood := h [encodeUtf8 "M1:999\r\n".toList] _ (List.prefix_refl _) _ rfl
  have hspeed := hgood.m1
  revert hspeed
  decide +kernel

end LineNoise
