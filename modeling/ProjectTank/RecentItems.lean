/-
# The most recent of the items that came

A store of items that come one after the other, of which the oldest are given up from time to time.
What is kept is always an end of what came (`Recent.isSuffix`); how much it is depends on when the
store is trimmed (`Recent.Within.push`, `Recent.Within.trim`).

Nothing here refers to a particular program.
-/
import Mathlib.Data.List.Infix

/-- What came, and the end of it that is kept. -/
structure Recent (α : Type*) where
  came : List α
  kept : List α
  isSuffix : kept <:+ came

namespace Recent

variable {α : Type*}

def empty : Recent α := ⟨[], [], List.suffix_rfl⟩

/-- One more item comes and is kept. -/
def push (r : Recent α) (a : α) : Recent α where
  came := r.came ++ [a]
  kept := r.kept ++ [a]
  isSuffix := by
    obtain ⟨before, hbefore⟩ := r.isSuffix
    exact ⟨before, by rw [← List.append_assoc, hbefore]⟩

/-- All but so many are given up, the oldest first. -/
def trim (r : Recent α) (size : ℕ) : Recent α where
  came := r.came
  kept := r.kept.drop (r.kept.length - size)
  isSuffix := (List.drop_suffix _ _).trans r.isSuffix

/-- What is left of the kept items is no more than the size. -/
theorem length_trim (r : Recent α) (size : ℕ) :
    (r.trim size).kept.length = min size r.kept.length := by
  show (r.kept.drop (r.kept.length - size)).length = _
  rw [List.length_drop]
  omega

/-- At least `size` are kept, if so many came, and at most `limit`. -/
structure Within (r : Recent α) (size limit : ℕ) : Prop where
  enough : min size r.came.length ≤ r.kept.length
  bounded : r.kept.length ≤ limit

theorem Within.empty (size : ℕ) : (empty : Recent α).Within size 0 :=
  ⟨Nat.min_le_right _ _, le_rfl⟩

theorem Within.mono {r : Recent α} {size limit limit' : ℕ} (h : r.Within size limit)
    (hle : limit ≤ limit') : r.Within size limit' :=
  ⟨h.enough, h.bounded.trans hle⟩

/-- One more item may be one too many. -/
theorem Within.push {r : Recent α} {size limit : ℕ} (h : r.Within size limit) (a : α) :
    (r.push a).Within size (limit + 1) := by
  obtain ⟨henough, hbounded⟩ := h
  constructor
  · show min size (r.came ++ [a]).length ≤ (r.kept ++ [a]).length
    rw [List.length_append, List.length_append, List.length_singleton]
    omega
  · show (r.kept ++ [a]).length ≤ limit + 1
    rw [List.length_append, List.length_singleton]
    omega

/-- To trim brings the number back to the size. -/
theorem Within.trim {r : Recent α} {size limit : ℕ} (h : r.Within size limit) :
    (r.trim size).Within size size := by
  constructor
  · have henough := h.enough
    rw [length_trim]
    show min size r.came.length ≤ _
    omega
  · rw [length_trim]
    exact Nat.min_le_left _ _

end Recent
