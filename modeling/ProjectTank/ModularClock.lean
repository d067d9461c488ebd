/-
# A free-running clock read through a fixed number of bits

A counter of width `w` that shows the real time `t` modulo `2 ^ w`, as the
tick counters of embedded boards do.  Programs subtract two readings in modular
arithmetic; `toNat_reading_sub` says what that difference is in terms of real
time, and the lemmas after it are the comparisons programs make with it:

* within one turn the difference is the elapsed time (`toNat_reading_sub_of_lt`);
* a difference above a bound is always real (`lt_of_lt_toNat_reading_sub`);
* a difference below a bound is real only when less than one full turn of the
  counter has passed (`toNat_reading_sub_lt_iff`).

Nothing here refers to a particular program.
-/
import Mathlib.Data.BitVec
import Mathlib.Tactic.Ring

namespace ModularClock

variable {w : ℕ}

/-- What a `w`-bit counter shows at real time `t`. -/
def reading (w t : ℕ) : BitVec w := BitVec.ofNat w t

@[simp] theorem toNat_reading (t : ℕ) : (reading w t).toNat = t % 2 ^ w :=
  BitVec.toNat_ofNat t w

/-- The modular difference of two readings is the elapsed time modulo a full turn. -/
theorem toNat_reading_sub {s t : ℕ} (h : s ≤ t) :
    (reading w t - reading w s).toNat = (t - s) % 2 ^ w := by
  obtain ⟨d, rfl⟩ := Nat.exists_eq_add_of_le h
  have hadd : reading w (s + d) = reading w s + reading w d := by
    apply BitVec.eq_of_toNat_eq
    simp [reading, BitVec.toNat_ofNat, BitVec.toNat_add, Nat.add_mod]
  rw [hadd, BitVec.add_comm, BitVec.add_sub_cancel, toNat_reading, Nat.add_sub_cancel_left]

/-- Within one turn the modular difference is the elapsed time. -/
theorem toNat_reading_sub_of_lt {s t : ℕ} (h : s ≤ t) (hturn : t < s + 2 ^ w) :
    (reading w t - reading w s).toNat = t - s := by
  rw [toNat_reading_sub h]
  exact Nat.mod_eq_of_lt (by omega)

/-- A modular difference never exceeds the elapsed time. -/
theorem toNat_reading_sub_le {s t : ℕ} (h : s ≤ t) :
    (reading w t - reading w s).toNat ≤ t - s := by
  rw [toNat_reading_sub h]
  exact Nat.mod_le _ _

/-- A modular difference above a bound means that more real time than the bound
has passed, however often the counter has wrapped. -/
theorem lt_of_lt_toNat_reading_sub {s t d : ℕ} (h : s ≤ t)
    (hd : d < (reading w t - reading w s).toNat) : s + d < t := by
  have := toNat_reading_sub_le (w := w) h
  omega

/-- A modular difference below `d` means that less than `d` has really passed,
except when a full turn of the counter or more has gone by. -/
theorem toNat_reading_sub_lt_iff {s t d : ℕ} (h : s ≤ t) :
    (reading w t - reading w s).toNat < d ↔
      t - s < d ∨ 2 ^ w ≤ t - s ∧ (t - s) % 2 ^ w < d := by
  rw [toNat_reading_sub h]
  constructor
  · intro hmod
    by_cases hturn : 2 ^ w ≤ t - s
    · exact Or.inr ⟨hturn, hmod⟩
    · rw [Nat.mod_eq_of_lt (by omega)] at hmod
      exact Or.inl hmod
  · rintro (hlt | ⟨_, hmod⟩)
    · exact lt_of_le_of_lt (Nat.mod_le _ _) hlt
    · exact hmod

end ModularClock
