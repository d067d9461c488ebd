/-
# Interval timers behind named handles

A program starts intervals and keeps their numbers in variables, the handles; what an
interval does when it fires is fixed when it is started.  An interval that no handle
stores any more can never be cleared, so what matters is that handles and live intervals
agree.

* `Tidy`: every live interval is stored in a handle, and every stored number is live;
* `Tidy.clear`, `Tidy.store`: the two ways to change a handle keep this;
* `Tidy.quiet_iff`: no interval is live if and only if nothing fires behind a handle.

Nothing here refers to a particular program.
-/
import Mathlib.Logic.Function.Basic
import Mathlib.Tactic.Common

namespace IntervalTimers

/-- The handles, with the number that each stores, and the live intervals, with what each
does. -/
structure Timers (η δ : Type*) where
  handle : η → Option ℕ := fun _ => none
  live : ℕ → Option δ := fun _ => none
  nextId : ℕ := 1

variable {η δ : Type*}

namespace Timers

/-- What the interval behind a handle does when it fires. -/
def fires (t : Timers η δ) (h : η) : Option δ := (t.handle h).bind t.live

section Operations

variable [DecidableEq η]

/-- `clearInterval(id)`. -/
def clearInterval (t : Timers η δ) (id : ℕ) : Timers η δ :=
  { t with live := Function.update t.live id none }

/-- `h = setInterval(...)`. -/
def store (t : Timers η δ) (h : η) (d : δ) : Timers η δ where
  handle := Function.update t.handle h (some t.nextId)
  live := Function.update t.live t.nextId (some d)
  nextId := t.nextId + 1

/-- `if (h !== null) { clearInterval(h); h = null; }`. -/
def clear (t : Timers η δ) (h : η) : Timers η δ :=
  match t.handle h with
  | none => t
  | some id => { t.clearInterval id with handle := Function.update t.handle h none }

/-- `if (h !== null) clearInterval(h); h = setInterval(...)`. -/
def replace (t : Timers η δ) (h : η) (d : δ) : Timers η δ :=
  match t.handle h with
  | none => t.store h d
  | some id => (t.clearInterval id).store h d

theorem replace_eq (t : Timers η δ) (h : η) (d : δ) : t.replace h d = (t.clear h).store h d := by
  unfold replace clear
  cases t.handle h with
  | none => rfl
  | some id => simp [store, clearInterval]

theorem handle_clear (t : Timers η δ) (h : η) :
    (t.clear h).handle = Function.update t.handle h none := by
  unfold clear
  cases hh : t.handle h with
  | none => exact (Function.update_eq_self_iff.mpr hh.symm).symm
  | some id => rfl

end Operations

end Timers

open Timers

/-! ## Handles and live intervals agree -/

/-- Every live interval is stored in a handle; what a handle stores is live, has been handed
out, and is stored in no other handle. -/
structure Tidy (t : Timers η δ) : Prop where
  stored : ∀ id d, t.live id = some d → ∃ h, t.handle h = some id
  isLive : ∀ h id, t.handle h = some id → t.live id ≠ none
  lt_nextId : ∀ h id, t.handle h = some id → id < t.nextId
  unique : ∀ h h' id, t.handle h = some id → t.handle h' = some id → h = h'

theorem tidy_init : Tidy ({} : Timers η δ) :=
  ⟨fun _ _ h => absurd h (by simp), fun _ _ h => absurd h (by simp),
    fun _ _ h => absurd h (by simp), fun _ _ _ h => absurd h (by simp)⟩

namespace Tidy

variable {t : Timers η δ} (ht : Tidy t)
include ht

/-- A handle is empty exactly when nothing fires behind it. -/
theorem handle_eq_none_iff (h : η) : t.handle h = none ↔ t.fires h = none := by
  unfold fires
  cases hh : t.handle h with
  | none => simp
  | some id => simpa using ht.isLive h id hh

/-- **No interval is live if and only if nothing fires behind a handle.** -/
theorem quiet_iff : (∀ id, t.live id = none) ↔ ∀ h, t.fires h = none := by
  constructor
  · intro hnone h
    exact Option.bind_eq_none_iff.mpr fun id _ => hnone id
  · intro hnone id
    cases hlive : t.live id with
    | none => rfl
    | some d =>
        obtain ⟨h, hh⟩ := ht.stored id d hlive
        have hfires := hnone h
        rw [fires, hh, Option.bind_some, hlive] at hfires
        exact hfires

variable [DecidableEq η]

/-- Clearing a handle silences it and leaves the others alone. -/
theorem fires_clear (h h' : η) : (t.clear h).fires h' = if h' = h then none else t.fires h' := by
  rw [fires, handle_clear]
  by_cases heq : h' = h
  · rw [if_pos heq, heq, Function.update_self]
    rfl
  · rw [if_neg heq, Function.update_of_ne heq, fires]
    refine Option.bind_congr fun id hid => ?_
    unfold clear
    cases hh : t.handle h with
    | none => rfl
    | some id' =>
        have hne : id ≠ id' := by
          rintro rfl
          exact heq (ht.unique h' h id hid hh)
        exact Function.update_of_ne hne _ _

/-- A new interval fires behind its handle and leaves the others alone. -/
theorem fires_store (h : η) (d : δ) (h' : η) :
    (t.store h d).fires h' = if h' = h then some d else t.fires h' := by
  by_cases heq : h' = h
  · simp [fires, store, heq]
  · rw [if_neg heq]
    simp only [fires, store, Function.update_of_ne heq]
    refine Option.bind_congr fun id hid => ?_
    exact Function.update_of_ne (Nat.ne_of_lt (ht.lt_nextId h' id hid)) _ _

theorem clear (h : η) : Tidy (t.clear h) := by
  cases hh : t.handle h with
  | none =>
      have hsame : t.clear h = t := by rw [Timers.clear, hh]
      exact hsame.symm ▸ ht
  | some id =>
      have hclear : t.clear h = { t.clearInterval id with handle := Function.update t.handle h none } := by
        rw [Timers.clear, hh]
      rw [hclear]
      -- a handle that stores a number afterwards is another one, with another number
      have hother : ∀ h' id', Function.update t.handle h none h' = some id' →
          t.handle h' = some id' ∧ id' ≠ id := by
        intro h' id' hid'
        have hne : h' ≠ h := by
          rintro rfl
          simp at hid'
        rw [Function.update_of_ne hne] at hid'
        refine ⟨hid', ?_⟩
        rintro rfl
        exact hne (ht.unique h' h id' hid' hh)
      refine ⟨fun id' d hlive => ?_, fun h' id' hid' => ?_, fun h' id' hid' => ?_,
        fun h' h'' id' hid' hid'' => ?_⟩
      · have hne : id' ≠ id := by
          rintro rfl
          simp [clearInterval] at hlive
        obtain ⟨h', hh'⟩ := ht.stored id' d (by simpa [clearInterval, hne] using hlive)
        refine ⟨h', (Function.update_of_ne ?_ _ _).trans hh'⟩
        rintro rfl
        exact hne (Option.some.inj (hh'.symm.trans hh))
      · obtain ⟨hstored, hne⟩ := hother h' id' hid'
        simpa [clearInterval, hne] using ht.isLive h' id' hstored
      · exact ht.lt_nextId h' id' (hother h' id' hid').1
      · exact ht.unique h' h'' id' (hother h' id' hid').1 (hother h'' id' hid'').1

/-- A new interval may be stored in an empty handle. -/
theorem store {h : η} (hempty : t.handle h = none) (d : δ) : Tidy (t.store h d) := by
  have hcases : ∀ h' id, (t.store h d).handle h' = some id →
      (h' = h ∧ id = t.nextId) ∨ (h' ≠ h ∧ t.handle h' = some id) := by
    intro h' id hid
    by_cases heq : h' = h
    · subst heq
      exact Or.inl ⟨rfl, by simpa [Timers.store, eq_comm] using hid⟩
    · exact Or.inr ⟨heq, by simpa [Timers.store, heq] using hid⟩
  refine ⟨fun id d' hlive => ?_, fun h' id hid => ?_, fun h' id hid => ?_,
    fun h' h'' id hid hid' => ?_⟩
  · by_cases heq : id = t.nextId
    · exact ⟨h, by simp [Timers.store, heq]⟩
    · obtain ⟨h', hh'⟩ := ht.stored id d' (by simpa [Timers.store, heq] using hlive)
      refine ⟨h', (Function.update_of_ne ?_ _ _).trans hh'⟩
      rintro rfl
      rw [hempty] at hh'
      cases hh'
  · rcases hcases h' id hid with ⟨-, rfl⟩ | ⟨-, hstored⟩
    · simp [Timers.store]
    · have hne : id ≠ t.nextId := Nat.ne_of_lt (ht.lt_nextId h' id hstored)
      simpa [Timers.store, hne] using ht.isLive h' id hstored
  · rcases hcases h' id hid with ⟨-, rfl⟩ | ⟨-, hstored⟩
    · exact Nat.lt_succ_self _
    · exact Nat.lt_succ_of_lt (ht.lt_nextId h' id hstored)
  · rcases hcases h' id hid with ⟨rfl, rfl⟩ | ⟨-, hstored⟩
    · rcases hcases h'' _ hid' with ⟨rfl, -⟩ | ⟨-, hstored'⟩
      · rfl
      · exact absurd (ht.lt_nextId h'' _ hstored') (Nat.lt_irrefl _)
    · rcases hcases h'' id hid' with ⟨-, rfl⟩ | ⟨-, hstored'⟩
      · exact absurd (ht.lt_nextId h' _ hstored) (Nat.lt_irrefl _)
      · exact ht.unique h' h'' id hstored hstored'

theorem replace (h : η) (d : δ) : Tidy (t.replace h d) := by
  rw [replace_eq]
  refine (ht.clear h).store ?_ d
  rw [handle_clear, Function.update_self]

theorem fires_replace (h : η) (d : δ) (h' : η) :
    (t.replace h d).fires h' = if h' = h then some d else t.fires h' := by
  rw [replace_eq, (ht.clear h).fires_store, ht.fires_clear]
  split_ifs <;> rfl

end Tidy

end IntervalTimers
