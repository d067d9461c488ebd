/-
# Thinning out a stream

Three ways a program takes less than everything from a stream of items.

* `everyNth` takes the last item of each group of `n`: how many there are (`length_everyNth`), and what
  one more item adds (`everyNth_snoc`);
* `spaced` takes an item if it is far enough from the item taken last (`isChain_spaced`);
* `held` does not leave items out, but replaces the faulty ones by the sound one before.

Nothing here refers to a particular program.
-/
import Mathlib.Algebra.Order.Group.Nat
import Mathlib.Data.List.Basic
import Mathlib.Data.List.Chain
import Mathlib.Data.List.Induction
import Mathlib.Data.Nat.Init

namespace StreamSampling

variable {α β : Type*}

/-! ## Every nth item -/

/-- The items at the places `n`, `2 * n` and so on, counted from one. -/
def everyNth (n : ℕ) (xs : List α) : List α :=
  (xs.zipIdx.filter fun x => (x.2 + 1) % n = 0).map Prod.fst

/-- The last item is kept if its number is a multiple. -/
theorem everyNth_snoc (n : ℕ) (xs : List α) (x : α) :
    everyNth n (xs ++ [x]) = everyNth n xs ++ if (xs.length + 1) % n = 0 then [x] else [] := by
  unfold everyNth
  rw [List.zipIdx_append, List.filter_append, List.map_append, List.zipIdx_singleton]
  congr 1
  rw [Nat.zero_add, List.filter_singleton]
  by_cases h : (xs.length + 1) % n = 0
  · rw [if_pos h]
    simp [h]
  · rw [if_neg h]
    simp [h]

theorem everyNth_sublist (n : ℕ) (xs : List α) : (everyNth n xs).Sublist xs := by
  have h := (List.filter_sublist (p := fun x : α × ℕ => (x.2 + 1) % n = 0) (l := xs.zipIdx)).map
    Prod.fst
  rwa [List.zipIdx_map_fst] at h

/-- One item is taken from each group. -/
theorem length_everyNth (n : ℕ) (xs : List α) : (everyNth n xs).length = xs.length / n := by
  induction xs using List.reverseRecOn with
  | nil => exact (Nat.zero_div n).symm
  | append_singleton xs x ih =>
      rw [everyNth_snoc, List.length_append, ih, List.length_append, List.length_singleton,
        Nat.succ_div]
      congr 1
      by_cases h : (xs.length + 1) % n = 0
      · rw [if_pos h, if_pos (Nat.dvd_of_mod_eq_zero h)]
        rfl
      · rw [if_neg h, if_neg fun hdvd => h (Nat.mod_eq_zero_of_dvd hdvd)]
        rfl

/-- One group of equal items. -/
theorem everyNth_replicate {n : ℕ} (hn : 0 < n) (x : α) : everyNth n (List.replicate n x) = [x] := by
  rw [List.eq_replicate_iff.mpr ⟨length_everyNth n _, fun y hy =>
    List.eq_of_mem_replicate ((everyNth_sublist n _).subset hy)⟩, List.length_replicate,
    Nat.div_self hn]
  rfl

/-- The count of a program that starts again after each item that it takes. -/
theorem count_succ {n k : ℕ} (hn : 0 < n) :
    (if (k % n) + 1 < n then k % n + 1 else 0) = (k + 1) % n ∧
    (k % n + 1 < n ↔ (k + 1) % n ≠ 0) := by
  have hlt := Nat.mod_lt k hn
  have hsplit := Nat.mod_add_div k n
  by_cases h : k % n + 1 < n
  · have hmod : (k + 1) % n = k % n + 1 := by
      rw [← Nat.mod_eq_of_lt h, Nat.add_mod (k % n), Nat.mod_mod, ← Nat.add_mod]
    rw [if_pos h, hmod]
    exact ⟨rfl, iff_of_true h (Nat.succ_ne_zero _)⟩
  · have hmod : (k + 1) % n = 0 := by
      have hall : k + 1 = n * (k / n + 1) := by
        rw [Nat.mul_add, Nat.mul_one]
        omega
      rw [hall]
      exact Nat.mul_mod_right n _
    rw [if_neg h, hmod]
    exact ⟨rfl, iff_of_false h fun hne => hne rfl⟩

/-! ## Items far from the one before -/

variable (far : β → α → Bool) (key : α → β)

/-- The items that are far from the one taken last. -/
def spaced : β → List α → List α
  | _, [] => []
  | last, x :: xs => if far last x then x :: spaced (key x) xs else spaced last xs

/-- The key of the item taken last. -/
def lastKey (last : β) (xs : List α) : β :=
  xs.foldl (fun b x => if far b x then key x else b) last

/-- The last item is kept if it is far from the last one kept. -/
theorem spaced_snoc (last : β) (xs : List α) (x : α) :
    spaced far key last (xs ++ [x]) =
      spaced far key last xs ++ if far (lastKey far key last xs) x then [x] else [] := by
  induction xs generalizing last with
  | nil =>
      change (if far last x then x :: [] else []) = [] ++ _
      rfl
  | cons y xs ih =>
      rw [List.cons_append, spaced, spaced, ih, ih]
      unfold lastKey
      rw [List.foldl_cons]
      by_cases h : far last y = true
      · simp only [if_pos h, List.cons_append]
      · simp only [if_neg h]

/-- Then it is the one the next item is compared with. -/
theorem lastKey_snoc (last : β) (xs : List α) (x : α) :
    lastKey far key last (xs ++ [x]) =
      if far (lastKey far key last xs) x then key x else lastKey far key last xs := by
  unfold lastKey
  rw [List.foldl_append, List.foldl_cons, List.foldl_nil]

/-- Each item taken is far from the one taken before it. -/
theorem isChain_spaced (last : β) (xs : List α) :
    (spaced far key last xs).IsChain (fun x y => far (key x) y = true) ∧
    ∀ x ∈ (spaced far key last xs).head?, far last x = true := by
  induction xs generalizing last with
  | nil => exact ⟨List.IsChain.nil, fun x hx => by cases hx⟩
  | cons x xs ih =>
      rw [spaced]
      by_cases h : far last x = true
      · rw [if_pos h]
        obtain ⟨hchain, hhead⟩ := ih (key x)
        refine ⟨List.isChain_cons.mpr ⟨hhead, hchain⟩, ?_⟩
        intro y hy
        cases hy
        exact h
      · rw [if_neg h]
        exact ih last

/-! ## Holding the last sound item -/

/-- Each item as `replace` makes it from the one before. -/
def held (replace : α → α → α) : α → List α → List α
  | _, [] => []
  | last, x :: xs => replace last x :: held replace (replace last x) xs

variable (replace : α → α → α)

/-- The last item is replaced by what has been made of the items before it. -/
theorem held_snoc (last : α) (xs : List α) (x : α) :
    held replace last (xs ++ [x]) =
      held replace last xs ++ [replace (xs.foldl replace last) x] := by
  induction xs generalizing last with
  | nil => rfl
  | cons y xs ih => rw [List.cons_append, held, held, ih, List.cons_append, List.foldl_cons]

@[simp] theorem length_held (last : α) (xs : List α) :
    (held replace last xs).length = xs.length := by
  induction xs generalizing last with
  | nil => rfl
  | cons x xs ih => rw [held, List.length_cons, List.length_cons, ih]

/-- Without faulty items nothing is replaced. -/
theorem held_eq_self {last : α} {xs : List α} (h : ∀ b, ∀ x ∈ xs, replace b x = x) :
    held replace last xs = xs := by
  induction xs generalizing last with
  | nil => rfl
  | cons x xs ih =>
      rw [held, h last x List.mem_cons_self, ih fun b y hy => h b y (List.mem_cons_of_mem x hy)]

end StreamSampling
