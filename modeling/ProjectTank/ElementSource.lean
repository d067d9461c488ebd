/-
# Reading from a source, element by element

A reader that asks a source for one element at a time cannot tell how the source keeps its
elements: it behaves as on the plain list of what is left.

* `takeLine_eq`: one line of limited length;
* `takeLines_eq`: lines up to one that ends the block.

Nothing here refers to a particular program.
-/
import Mathlib.Data.List.Basic
import Mathlib.Data.Option.Basic
import Mathlib.Tactic.Common

/-- Something that elements are read from, and what is left in it. -/
structure ElementSource (σ α : Type*) where
  next : σ → Option (α × σ)
  rest : σ → List α
  rest_of_none : ∀ {s}, next s = none → rest s = []
  rest_of_some : ∀ {s a s'}, next s = some (a, s') → rest s = a :: rest s'

namespace ElementSource

variable {σ α : Type*}

/-- The first element of a list. -/
def uncons : List α → Option (α × List α)
  | [] => none
  | a :: as => some (a, as)

/-- A list, read from its front. -/
def ofList (α : Type*) : ElementSource (List α) α where
  next := uncons
  rest := id
  rest_of_none := by
    intro s h
    cases s with
    | nil => rfl
    | cons a as => cases h
  rest_of_some := by
    intro s a s' h
    cases s with
    | nil => cases h
    | cons b bs =>
        obtain ⟨rfl, rfl⟩ := Prod.mk.inj (Option.some.inj h)
        rfl

variable (src : ElementSource σ α) (stop : α → Bool)

/-- The elements up to and with one that stops, at most so many; `none` if the source ends. -/
def takeLine : ℕ → σ → Option (List α × σ)
  | 0, s => some ([], s)
  | n + 1, s =>
      match src.next s with
      | none => none
      | some (a, s') =>
          if stop a then some ([a], s') else (takeLine n s').map fun p => (a :: p.1, p.2)

theorem length_takeLine {n : ℕ} {s s' : σ} {line : List α}
    (h : src.takeLine stop n s = some (line, s')) :
    src.rest s = line ++ src.rest s' ∧ (0 < n → line ≠ []) := by
  induction n generalizing s line s' with
  | zero =>
      obtain ⟨rfl, rfl⟩ := Prod.mk.inj (Option.some.inj h)
      exact ⟨rfl, fun hn => absurd hn (Nat.lt_irrefl 0)⟩
  | succ n ih =>
      rw [takeLine] at h
      split at h
      · cases h
      · next a t hnext =>
        have hrest := src.rest_of_some hnext
        split at h
        · obtain ⟨rfl, rfl⟩ := Prod.mk.inj (Option.some.inj h)
          exact ⟨hrest, fun _ => List.cons_ne_nil _ _⟩
        · obtain ⟨⟨tail, u⟩, htail, heq⟩ := Option.map_eq_some_iff.mp h
          obtain ⟨rfl, rfl⟩ := Prod.mk.inj heq
          refine ⟨?_, fun _ => List.cons_ne_nil _ _⟩
          rw [hrest, (ih htail).1]
          rfl

/-- **A line from a source is a line from what is left in it.** -/
theorem takeLine_eq (n : ℕ) (s : σ) :
    (src.takeLine stop n s).map (fun p => (p.1, src.rest p.2)) =
      (ofList α).takeLine stop n (src.rest s) := by
  induction n generalizing s with
  | zero => rfl
  | succ n ih =>
      rw [takeLine, takeLine]
      cases hnext : src.next s with
      | none => rw [src.rest_of_none hnext]; rfl
      | some p =>
          obtain ⟨a, s'⟩ := p
          rw [src.rest_of_some hnext]
          show Option.map _ (if stop a then _ else _) = if stop a then _ else _
          split
          · rfl
          · show Option.map _ (Option.map _ _) = Option.map _ ((ofList α).takeLine stop n _)
            rw [← ih s', Option.map_map, Option.map_map]
            rfl

/-- Lines, up to and with one that ends the block; `none` if the source ends before. -/
def takeLines (ends : List α → Bool) (n : ℕ) (s : σ) : Option (List (List α)) :=
  match _hline : src.takeLine stop (n + 1) s with
  | none => none
  | some (line, s') =>
      if ends line then some [line] else (takeLines ends n s').map (line :: ·)
termination_by (src.rest s).length
decreasing_by
  have hline := src.length_takeLine stop _hline
  rw [hline.1, List.length_append]
  have hpos := List.length_pos_iff.mpr (hline.2 n.succ_pos)
  omega

/-- One line, and then the others. -/
theorem takeLines_step (ends : List α → Bool) (n : ℕ) (s : σ) : src.takeLines stop ends n s =
    (src.takeLine stop (n + 1) s).bind fun p =>
      if ends p.1 then some [p.1] else (src.takeLines stop ends n p.2).map (p.1 :: ·) := by
  rw [takeLines]
  split
  · next h => rw [h]; rfl
  · next h => rw [h]; rfl

/-- **Lines from a source are lines from what is left in it.** -/
theorem takeLines_eq (ends : List α → Bool) (n : ℕ) (s : σ) :
    src.takeLines stop ends n s = (ofList α).takeLines stop ends n (src.rest s) := by
  induction hlength : (src.rest s).length using Nat.strongRecOn generalizing s with
  | _ k ih =>
    rw [takeLines_step, takeLines_step, ← src.takeLine_eq]
    cases hline : src.takeLine stop (n + 1) s with
    | none => rfl
    | some p =>
        obtain ⟨line, s'⟩ := p
        have hrest := src.length_takeLine stop hline
        have hpos := List.length_pos_iff.mpr (hrest.2 n.succ_pos)
        have hshort : (src.rest s').length < k := by
          rw [← hlength, hrest.1, List.length_append]
          omega
        show (if ends line then _ else _) = if ends line then _ else _
        rw [ih _ hshort s' rfl]

end ElementSource
