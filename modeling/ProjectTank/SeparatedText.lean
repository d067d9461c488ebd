/-
# Cutting and splitting sequences at a separator

Line protocols are read by looking for a separator from the left.  `cut a s`
is the pair of parts before and after the first `a`.  The lemmas relate the three
forms in which programs express that search:

* `cut_eq_map_idxOf?`: an index search followed by two substrings;
* `splitOn_eq_cons_of_cut`: one round of a loop that splits a whole text
  (`List.splitOn`);
* `cut_append`: reading back what a writer joined with the separator.

Nothing here refers to a particular program.
-/
import Mathlib.Data.List.Basic
import Mathlib.Tactic.Common

namespace SeparatedText

variable {α : Type*} [DecidableEq α]

/-- The parts of `s` before and after the first `a`, or `none` when `a` does not
occur. -/
def cut (a : α) : List α → Option (List α × List α)
  | [] => none
  | b :: s => if b = a then some ([], s) else (cut a s).map fun p => (b :: p.1, p.2)

@[simp] theorem cut_nil (a : α) : cut a [] = none := rfl

/-- Cutting undoes a join whose left part is free of the separator. -/
theorem cut_append {a : α} {p : List α} (hp : a ∉ p) (q : List α) :
    cut a (p ++ a :: q) = some (p, q) := by
  induction p with
  | nil => simp [cut]
  | cons b p ih =>
      rw [List.mem_cons, not_or] at hp
      rw [List.cons_append, cut, if_neg (Ne.symm hp.1), ih hp.2]
      rfl

/-- A cut fails exactly on the sequences without the separator. -/
theorem cut_eq_none_iff {a : α} {s : List α} : cut a s = none ↔ a ∉ s := by
  induction s with
  | nil => simp
  | cons b s ih =>
      rw [cut, List.mem_cons, not_or]
      by_cases hb : b = a
      · simp [hb]
      · simp [hb, ih, Ne.symm hb]

/-- The two parts of a cut, joined with the separator, are the whole; the left part
is free of the separator. -/
theorem eq_append_of_cut {a : α} {s p q : List α} (h : cut a s = some (p, q)) :
    s = p ++ a :: q ∧ a ∉ p := by
  induction s generalizing p with
  | nil => simp at h
  | cons b s ih =>
      rw [cut] at h
      by_cases hb : b = a
      · rw [if_pos hb, Option.some.injEq, Prod.mk.injEq] at h
        obtain ⟨rfl, rfl⟩ := h
        simp [hb]
      · rw [if_neg hb, Option.map_eq_some_iff] at h
        obtain ⟨⟨p', q'⟩, hcut, heq⟩ := h
        rw [Prod.mk.injEq] at heq
        obtain ⟨rfl, rfl⟩ := heq
        obtain ⟨hs, hp⟩ := ih hcut
        exact ⟨by rw [hs, List.cons_append], by simp [hp, Ne.symm hb]⟩

/-- A cut is an index search followed by taking the two substrings around the
index. -/
theorem cut_eq_map_idxOf? (a : α) (s : List α) :
    cut a s = (s.idxOf? a).map fun k => (s.take k, s.drop (k + 1)) := by
  induction s with
  | nil => rfl
  | cons b s ih =>
      rw [cut, List.idxOf?_cons]
      by_cases hb : b = a
      · simp [hb]
      · rw [if_neg hb, ih, if_neg (by simpa using hb), Option.map_map, Option.map_map]
        rfl

/-- Without the separator, a split has one piece. -/
theorem splitOn_eq_singleton_of_cut {a : α} {s : List α} (h : cut a s = none) :
    s.splitOn a = [s] :=
  List.splitOn_eq_singleton (cut_eq_none_iff.mp h)

/-- One round of splitting: the first piece is what stands before the cut. -/
theorem splitOn_eq_cons_of_cut {a : α} {s p q : List α} (h : cut a s = some (p, q)) :
    s.splitOn a = p :: q.splitOn a := by
  obtain ⟨rfl, hp⟩ := eq_append_of_cut h
  exact List.splitOn_append_cons_self_of_not_mem hp q

/-- A split has one piece more than there are separators. -/
theorem length_splitOn (a : α) (s : List α) : (s.splitOn a).length = s.count a + 1 := by
  induction s with
  | nil => rfl
  | cons b s ih =>
      rw [List.splitOn_cons_eq_if_modifyHead]
      by_cases hb : b = a
      · simp [hb, ih]
      · simp [hb, ih, List.count_cons_of_ne hb]

/-- Every element but the separators is in a piece. -/
theorem exists_mem_splitOn {a c : α} (hne : c ≠ a) {s : List α} (h : c ∈ s) :
    ∃ p ∈ s.splitOn a, c ∈ p := by
  induction s with
  | nil => cases h
  | cons b s ih =>
      rw [List.splitOn_cons_eq_if_modifyHead]
      obtain ⟨p, ps, hps⟩ := List.exists_cons_of_ne_nil (List.splitOn_ne_nil a s)
      rw [hps] at ih ⊢
      by_cases hb : b = a
      · have hc : c ∈ s := (List.mem_cons.mp h).resolve_left fun hcb => hne (hcb.trans hb)
        simpa [hb] using ih hc
      · rcases List.mem_cons.mp h with rfl | hc
        · simp [hb]
        · obtain ⟨q, hq, hcq⟩ := ih hc
          rcases List.mem_cons.mp hq with rfl | hq
          · simp [hb, hcq]
          · simpa [hb] using Or.inr ⟨q, hq, hcq⟩

/-- What is behind the last separator is the last piece. -/
theorem splitOn_append_cons {a : α} (s : List α) {t : List α} (ht : a ∉ t) :
    (s ++ a :: t).splitOn a = s.splitOn a ++ [t] := by
  induction s with
  | nil =>
      have hnil : a ∉ ([] : List α) := List.not_mem_nil
      rw [List.splitOn_append_cons_self_of_not_mem hnil, List.splitOn_eq_singleton ht]
      rfl
  | cons b s ih =>
      rw [List.cons_append, List.splitOn_cons_eq_if_modifyHead, List.splitOn_cons_eq_if_modifyHead, ih]
      by_cases hb : b = a
      · simp [hb]
      · cases hsplit : s.splitOn a with
        | nil => exact absurd hsplit (List.splitOn_ne_nil a s)
        | cons p ps => simp [hb]

/-- The last piece of a split ends as the whole does. -/
theorem exists_splitOn_eq_snoc {a : α} {s t : List α} (ht : t <:+ s) (ha : a ∉ t) :
    ∃ front p, s.splitOn a = front ++ [p] ∧ t <:+ p := by
  induction s with
  | nil => exact ⟨[], [], rfl, ht⟩
  | cons b s ih =>
      rcases List.suffix_cons_iff.mp ht with rfl | hs
      · exact ⟨[], _, List.splitOn_eq_singleton ha, List.suffix_rfl⟩
      · obtain ⟨front, p, hsplit, hp⟩ := ih hs
        rw [List.splitOn_cons_eq_if_modifyHead, hsplit]
        by_cases hb : b = a
        · exact ⟨[] :: front, p, by simp [hb], hp⟩
        · cases front with
          | nil => exact ⟨[], b :: p, by simp [hb], hp.trans (List.suffix_cons b p)⟩
          | cons q front => exact ⟨(b :: q) :: front, p, by simp [hb], hp⟩

/-- The pieces consist of elements of the whole. -/
theorem mem_of_mem_splitOn {a c : α} {s p : List α} (hp : p ∈ s.splitOn a) (hc : c ∈ p) : c ∈ s := by
  induction s generalizing p with
  | nil =>
      obtain rfl := List.mem_singleton.mp hp
      exact hc
  | cons b s ih =>
      rw [List.splitOn_cons_eq_if_modifyHead] at hp
      obtain ⟨q, qs, hqs⟩ := List.exists_cons_of_ne_nil (List.splitOn_ne_nil a s)
      rw [hqs] at ih hp
      have htail : ∀ {r}, r ∈ q :: qs → c ∈ r → c ∈ b :: s :=
        fun hr hcr => List.mem_cons_of_mem b (ih hr hcr)
      by_cases hb : b = a
      · rw [if_pos (beq_iff_eq.mpr hb)] at hp
        rcases List.mem_cons.mp hp with rfl | hp
        · cases hc
        · exact htail hp hc
      · rw [if_neg (by simpa using hb), List.modifyHead_cons] at hp
        rcases List.mem_cons.mp hp with rfl | hp
        · rcases List.mem_cons.mp hc with rfl | hc
          · exact List.mem_cons_self
          · exact htail List.mem_cons_self hc
        · exact htail (List.mem_cons_of_mem q hp) hc

/-- **Terminated pieces can be told apart**: a text in which every piece is followed by the
terminator, and contains it nowhere else, has only one such reading. -/
theorem eq_of_flatMap_terminated {a : α} {ps qs : List (List α)} (hp : ∀ p ∈ ps, a ∉ p)
    (hq : ∀ q ∈ qs, a ∉ q) (h : ps.flatMap (· ++ [a]) = qs.flatMap (· ++ [a])) : ps = qs := by
  induction ps generalizing qs with
  | nil =>
      cases qs with
      | nil => rfl
      | cons q qs => simp at h
  | cons p ps ih =>
      cases qs with
      | nil => simp at h
      | cons q qs =>
          -- cutting both sides at the first terminator splits off the first pieces
          simp only [List.flatMap_cons, List.append_assoc, List.singleton_append] at h
          have hcut := congrArg (cut a) h
          rw [cut_append (hp p List.mem_cons_self), cut_append (hq q List.mem_cons_self),
            Option.some.injEq, Prod.mk.injEq] at hcut
          rw [hcut.1, ih (fun p' hp' => hp p' (List.mem_cons_of_mem p hp'))
            (fun q' hq' => hq q' (List.mem_cons_of_mem q hq')) hcut.2]

end SeparatedText
