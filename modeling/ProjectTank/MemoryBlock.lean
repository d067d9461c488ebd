/-
# Blocks of memory (`malloc`, `realloc`, `memcpy`)

A block has a size, and holds what has been written to it from its beginning; what lies behind that
is not determined.  A copy that does not fit the block is undefined (`none`), so that a program that
copies is in bounds exactly if it is defined.

* `Block.copy_eq_some_iff`: a copy is in bounds exactly if it fits, and what it leaves;
* `Block.take_contents_of_copy`: what has been copied is read back.
-/
import Mathlib.Data.List.Basic

/-- A block of memory. -/
structure Block (α : Type*) where
  size : ℕ
  contents : List α
  fits : contents.length ≤ size

namespace Block

variable {α : Type*}

/-! ## The operations -/

/-- `malloc(size)`. -/
def malloc (size : ℕ) : Block α := ⟨size, [], Nat.zero_le size⟩

/-- `calloc(size, 1)`, where `zero` is the item of zero bits. -/
def calloc (zero : α) (size : ℕ) : Block α :=
  ⟨size, List.replicate size zero, Nat.le_of_eq List.length_replicate⟩

/-- `realloc(b, size)`. -/
def realloc (b : Block α) (size : ℕ) : Block α :=
  ⟨size, b.contents.take size, List.length_take_le size b.contents⟩

/-- The block behind a copy that fits. -/
def overwrite (b : Block α) (xs : List α) (h : xs.length ≤ b.size) : Block α :=
  ⟨b.size, xs ++ b.contents.drop xs.length, by
    have hfits := b.fits
    rw [List.length_append, List.length_drop]
    omega⟩

/-- `memcpy(b, xs, length of xs)`. -/
def copy (b : Block α) (xs : List α) : Option (Block α) :=
  if h : xs.length ≤ b.size then some (b.overwrite xs h) else none

/-! ## What they leave -/

@[simp] theorem size_malloc (size : ℕ) : (malloc size : Block α).size = size := rfl

@[simp] theorem size_calloc (zero : α) (size : ℕ) : (calloc zero size).size = size := rfl

@[simp] theorem size_realloc (b : Block α) (size : ℕ) : (b.realloc size).size = size := rfl

@[simp] theorem size_overwrite (b : Block α) (xs : List α) (h : xs.length ≤ b.size) :
    (b.overwrite xs h).size = b.size := rfl

/-- The rest of a block is what it was. -/
theorem contents_overwrite (b : Block α) (xs : List α) (h : xs.length ≤ b.size) :
    (b.overwrite xs h).contents = xs ++ b.contents.drop xs.length := rfl

theorem copy_of_le {b : Block α} {xs : List α} (h : xs.length ≤ b.size) :
    b.copy xs = some (b.overwrite xs h) := dif_pos h

/-- A copy goes wrong exactly when it does not fit. -/
theorem copy_eq_none_iff {b : Block α} {xs : List α} : b.copy xs = none ↔ b.size < xs.length := by
  unfold copy
  split
  · rename_i h
    exact iff_of_false (Option.some_ne_none _) (Nat.not_lt.mpr h)
  · rename_i h
    exact iff_of_true rfl (Nat.not_le.mp h)

/-- A copy is in bounds exactly if it fits. -/
theorem copy_eq_some_iff {b b' : Block α} {xs : List α} :
    b.copy xs = some b' ↔ ∃ h : xs.length ≤ b.size, b' = b.overwrite xs h := by
  constructor
  · intro h
    have hfits : xs.length ≤ b.size := by
      by_contra hlong
      rw [copy_eq_none_iff.mpr (Nat.not_le.mp hlong)] at h
      cases h
    rw [copy_of_le hfits, Option.some.injEq] at h
    exact ⟨hfits, h.symm⟩
  · rintro ⟨h, rfl⟩
    exact copy_of_le h

/-- What has been copied is read back. -/
theorem take_contents_of_copy {b b' : Block α} {xs : List α} (h : b.copy xs = some b') :
    b'.contents.take xs.length = xs := by
  obtain ⟨hfits, rfl⟩ := copy_eq_some_iff.mp h
  rw [contents_overwrite, List.take_left]

end Block
