/-
# Looking for a word without going back

A matcher that keeps how many letters of a word it has just seen: the next letter takes it
one further, any other letter takes it back to the beginning, and the letter that did so is
not looked at again.  Such a matcher may miss an occurrence, but what it reports is one.

* `firstHit` is the place where it reports;
* `suffix_of_firstHit`: the word ends there;
* `firstHit_append`: the scan of a longer text;
* `firstHit_append_word`: behind letters that are not in the word, the word is found.

Nothing here refers to a particular program.
-/
import Mathlib.Data.List.Basic
import Mathlib.Data.List.Infix
import Mathlib.Tactic.Common

namespace NaiveMatch

variable {α : Type*} [DecidableEq α] (w : List α)

/-- The letters matched after one more letter. -/
def advance (k : ℕ) (c : α) : ℕ := if w[k]? = some c then k + 1 else 0

/-- How many letters are read, `k` letters being matched before, until the whole word is. -/
def firstHit : ℕ → List α → Option ℕ
  | _, [] => none
  | k, c :: s =>
      if advance w k c = w.length then some 1 else (firstHit (advance w k c) s).map (· + 1)

/-- The letters matched are the last ones read. -/
theorem take_advance {k : ℕ} (c : α) : w.take (advance w k c) <:+ w.take k ++ [c] := by
  unfold advance
  split
  · next h =>
    obtain ⟨hlt, hc⟩ := List.getElem?_eq_some_iff.mp h
    rw [← hc, List.take_append_getElem hlt]
  · rw [List.take_zero]
    exact List.nil_suffix

/-- A letter that is not in the word takes the matcher back to the beginning. -/
theorem advance_of_not_mem {c : α} (hc : c ∉ w) (k : ℕ) : advance w k c = 0 := by
  apply if_neg
  intro h
  exact hc (List.mem_of_getElem? h)

/-! ## Where the matcher reports -/

theorem firstHit_le {k n : ℕ} {s : List α} (h : firstHit w k s = some n) :
    0 < n ∧ n ≤ s.length := by
  induction s generalizing k n with
  | nil => cases h
  | cons c s ih =>
      rw [firstHit] at h
      split at h
      · obtain rfl := Option.some.inj h
        exact ⟨Nat.one_pos, by simp⟩
      · obtain ⟨m, hm, rfl⟩ := Option.map_eq_some_iff.mp h
        have hle := (ih hm).2
        simp only [List.length_cons]
        omega

/-- **What is reported is an occurrence**: the word ends where the matcher reports. -/
theorem suffix_of_firstHit {k n : ℕ} {s : List α} (h : firstHit w k s = some n) :
    w <:+ w.take k ++ s.take n := by
  induction s generalizing k n with
  | nil => cases h
  | cons c s ih =>
      have hlast := take_advance w (k := k) c
      rw [firstHit] at h
      split at h
      · next hwhole =>
        obtain rfl := Option.some.inj h
        rwa [hwhole, List.take_length] at hlast
      · obtain ⟨m, hm, rfl⟩ := Option.map_eq_some_iff.mp h
        have hrest := ih hm
        -- what was matched before the rest is the end of what was read
        obtain ⟨t, ht⟩ := hlast
        refine hrest.trans ⟨t, ?_⟩
        rw [List.take_succ_cons, ← List.append_assoc, ht, List.append_assoc]
        rfl

/-- A text without the word is passed over in silence. -/
theorem firstHit_eq_none {s : List α} (h : ¬ w <:+: s) : firstHit w 0 s = none := by
  rw [Option.eq_none_iff_forall_ne_some]
  intro n hn
  have hsuffix := suffix_of_firstHit w hn
  rw [List.take_zero, List.nil_append] at hsuffix
  exact h (hsuffix.isInfix.trans (List.take_prefix n s).isInfix)

/-- The scan of a longer text goes on where the first part left off. -/
theorem firstHit_append (k : ℕ) (s t : List α) : firstHit w k (s ++ t) =
    (firstHit w k s).or ((firstHit w (s.foldl (advance w) k) t).map (· + s.length)) := by
  induction s generalizing k with
  | nil =>
      simp only [List.nil_append, firstHit, List.foldl_nil, List.length_nil, Option.none_or,
        Nat.add_zero]
      exact Option.map_id'.symm
  | cons c s ih =>
      rw [List.cons_append, firstHit, firstHit, List.foldl_cons]
      split
      · rfl
      · rw [ih (advance w k c)]
        cases firstHit w (advance w k c) s with
        | some n => rfl
        | none =>
            simp only [Option.none_or, Option.map_map, Option.map_none, List.length_cons]
            congr 1

theorem firstHit_append_of_some {k n : ℕ} {s : List α} (h : firstHit w k s = some n)
    (t : List α) : firstHit w k (s ++ t) = some n := by
  rw [firstHit_append, h, Option.some_or]

/-- From `k` matched letters on, the rest of the word is matched letter by letter. -/
theorem firstHit_drop {k : ℕ} (hk : k < w.length) :
    firstHit w k (w.drop k) = some (w.length - k) := by
  induction hd : w.length - k generalizing k with
  | zero => omega
  | succ d ih =>
      have hnext : advance w k w[k] = k + 1 := if_pos (List.getElem?_eq_getElem hk)
      rw [List.drop_eq_getElem_cons hk, firstHit, hnext]
      by_cases hlast : k + 1 = w.length
      · rw [if_pos hlast]
        congr 1
        omega
      · rw [if_neg hlast, ih (by omega) (by omega)]
        rfl

/-- Letters that are not in the word leave the matcher at the beginning, without a report. -/
theorem firstHit_of_not_mem (hw : w ≠ []) {t : List α} (ht : ∀ c ∈ t, c ∉ w) (k : ℕ) :
    firstHit w k t = none := by
  induction t generalizing k with
  | nil => rfl
  | cons c t ih =>
      have hzero : advance w k c = 0 := advance_of_not_mem w (ht c List.mem_cons_self) k
      have hpos : 0 < w.length := List.length_pos_iff.mpr hw
      rw [firstHit, hzero, if_neg hpos.ne, ih fun c' hc' => ht c' (List.mem_cons_of_mem _ hc')]
      rfl

theorem foldl_advance_of_not_mem {t : List α} (hne : t ≠ []) (ht : ∀ c ∈ t, c ∉ w) (k : ℕ) :
    t.foldl (advance w) k = 0 := by
  obtain ⟨init, c, rfl⟩ := (List.eq_nil_or_concat t).resolve_left hne
  rw [List.concat_eq_append] at ht ⊢
  rw [List.foldl_concat]
  exact advance_of_not_mem w (ht c (by simp)) _

/-- **Behind letters that are not in the word, the word is found**, unless the matcher has
reported before. -/
theorem firstHit_append_word {k : ℕ} {s t : List α} (hw : w ≠ []) (hne : t ≠ [])
    (ht : ∀ c ∈ t, c ∉ w) : firstHit w k (s ++ (t ++ w)) =
      (firstHit w k s).or (some (s.length + (t.length + w.length))) := by
  have hword := firstHit_drop w (List.length_pos_iff.mpr hw)
  rw [List.drop_zero, Nat.sub_zero] at hword
  rw [firstHit_append, firstHit_append, firstHit_of_not_mem w hw ht,
    foldl_advance_of_not_mem w hne ht, hword]
  show (firstHit w k s).or (some (w.length + t.length + s.length)) = _
  rw [show w.length + t.length + s.length = s.length + (t.length + w.length) by omega]

end NaiveMatch
