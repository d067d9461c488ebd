/-
# Reading parts from the front of a stream

A parser takes a value off the front of its input and returns the rest, or fails.  Two
facts come with every parser: it does not lengthen the input, and what it has read does not
depend on what follows.  The second one decides how a truncated stream is read: a parser
that reads whole parts back finds nothing in the beginning of a part.

* `Parser.andThen`: parsers compose, with their two facts;
* `line_append`, `lines_append`: a line and a block of lines, read back;
* `readAll_flatMap`: a stream of whole parts is read back exactly;
* `readAll_of_prefix`: a truncated one gives the parts that are whole in it.

Nothing here refers to a particular program.
-/
import Mathlib.Data.List.Basic
import Mathlib.Tactic.Common

namespace FramedStream

variable {α β γ : Type*}

/-! ## Parsers -/

/-- A function that takes a value off the front of a list. -/
structure Parser (α β : Type*) where
  run : List α → Option (β × List α)
  bounded : ∀ {s x r}, run s = some (x, r) → r.length ≤ s.length
  stable : ∀ {s x r}, run s = some (x, r) → ∀ t, run (s ++ t) = some (x, r ++ t)

namespace Parser

/-- Read a value, then read on as that value says. -/
def andThen (p : Parser α β) (q : β → Parser α γ) : Parser α γ where
  run s := (p.run s).bind fun y => (q y.1).run y.2
  bounded h := by
    obtain ⟨⟨y, s'⟩, hp, hq⟩ := Option.bind_eq_some_iff.mp h
    exact Nat.le_trans ((q y).bounded hq) (p.bounded hp)
  stable h t := by
    obtain ⟨⟨y, s'⟩, hp, hq⟩ := Option.bind_eq_some_iff.mp h
    rw [p.stable hp t]
    exact (q y).stable hq t

/-- Read nothing: the value is already known, or there is none. -/
def ofOption (o : Option β) : Parser α β where
  run s := o.map fun x => (x, s)
  bounded h := by
    obtain ⟨x, -, hx⟩ := Option.map_eq_some_iff.mp h
    rw [Prod.mk.injEq] at hx
    exact Nat.le_of_eq (congrArg List.length hx.2.symm)
  stable h t := by
    obtain ⟨x, rfl, hx⟩ := Option.map_eq_some_iff.mp h
    rw [Prod.mk.injEq] at hx
    rw [Option.map_some, hx.1, hx.2]

/-- Exactly `n` elements. -/
def takeExactly (n : ℕ) : Parser α (List α) where
  run s := if n ≤ s.length then some (s.take n, s.drop n) else none
  bounded h := by
    obtain ⟨-, hs⟩ := Option.ite_none_right_eq_some.mp h
    rw [Option.some.injEq, Prod.mk.injEq] at hs
    rw [← hs.2, List.length_drop]
    exact Nat.sub_le _ _
  stable {s x r} h t := by
    obtain ⟨hn, hs⟩ := Option.ite_none_right_eq_some.mp h
    rw [Option.some.injEq, Prod.mk.injEq] at hs
    rw [if_pos (by rw [List.length_append]; omega), List.take_append_of_le_length hn,
      List.drop_append_of_le_length hn, hs.1, hs.2]

/-- The given elements and no others. -/
def literal [DecidableEq α] (w : List α) : Parser α Unit where
  run s := if w.isPrefixOf s then some ((), s.drop w.length) else none
  bounded h := by
    obtain ⟨-, hs⟩ := Option.ite_none_right_eq_some.mp h
    rw [Option.some.injEq, Prod.mk.injEq] at hs
    rw [← hs.2, List.length_drop]
    exact Nat.sub_le _ _
  stable {s x r} h t := by
    obtain ⟨hw, hs⟩ := Option.ite_none_right_eq_some.mp h
    rw [Option.some.injEq, Prod.mk.injEq] at hs
    have hpre : w <+: s := List.isPrefixOf_iff_prefix.mp hw
    rw [if_pos (List.isPrefixOf_iff_prefix.mpr (hpre.trans (List.prefix_append s t))),
      List.drop_append_of_le_length hpre.length_le, hs.2]

theorem andThen_run (p : Parser α β) (q : β → Parser α γ) {s r : List α} {y : β}
    (h : p.run s = some (y, r)) : (p.andThen q).run s = (q y).run r := by
  show ((p.run s).bind fun y => (q y.1).run y.2) = (q y).run r
  rw [h]
  rfl

theorem takeExactly_append (w t : List α) :
    (takeExactly w.length).run (w ++ t) = some (w, t) := by
  show (if w.length ≤ (w ++ t).length then _ else none) = _
  rw [if_pos (by rw [List.length_append]; omega), List.take_left, List.drop_left]

theorem literal_append [DecidableEq α] (w t : List α) :
    (literal w).run (w ++ t) = some ((), t) := by
  show (if w.isPrefixOf (w ++ t) = true then _ else none) = _
  rw [if_pos (List.isPrefixOf_iff_prefix.mpr (List.prefix_append w t)), List.drop_left]

/-- A parser that always takes something. -/
def Shrinks (p : Parser α β) : Prop := ∀ {s x r}, p.run s = some (x, r) → r.length < s.length

theorem Shrinks.andThen {p : Parser α β} (hp : p.Shrinks) (q : β → Parser α γ) :
    (p.andThen q).Shrinks := by
  intro s x r h
  obtain ⟨⟨y, s'⟩, hy, hq⟩ := Option.bind_eq_some_iff.mp h
  exact Nat.lt_of_le_of_lt ((q y).bounded hq) (hp hy)

end Parser

/-! ## Lines -/

section Lines

variable [DecidableEq α] (a b : α)

/-- The elements before the first `a` followed by `b`. -/
def lineRun : List α → Option (List α × List α)
  | x :: y :: rest =>
      if x = a ∧ y = b then some ([], rest)
      else (lineRun (y :: rest)).map fun p => (x :: p.1, p.2)
  | _ => none

/-- The lines before the first empty one; `line` is what has been read of the current one. -/
def linesRun (line : List α) : List α → Option (List (List α) × List α)
  | x :: y :: rest =>
      if x = a ∧ y = b then
        if line = [] then some ([], rest)
        else (linesRun [] rest).map fun p => (line :: p.1, p.2)
      else linesRun (line ++ [x]) (y :: rest)
  | _ => none

theorem length_lt_of_lineRun {s l r : List α} (h : lineRun a b s = some (l, r)) :
    r.length < s.length := by
  fun_induction lineRun a b s generalizing l r with
  | case1 x y rest hxy =>
      rw [Option.some.injEq, Prod.mk.injEq] at h
      rw [← h.2, List.length_cons, List.length_cons]
      omega
  | case2 x y rest hxy ih =>
      obtain ⟨⟨l', r'⟩, hrun, heq⟩ := Option.map_eq_some_iff.mp h
      obtain ⟨rfl, rfl⟩ := Prod.mk.inj heq
      rw [List.length_cons]
      exact Nat.lt_succ_of_lt (ih hrun)
  | case3 s hs => cases h

theorem lineRun_stable {s l r : List α} (h : lineRun a b s = some (l, r)) (t : List α) :
    lineRun a b (s ++ t) = some (l, r ++ t) := by
  fun_induction lineRun a b s generalizing l r with
  | case1 x y rest hxy =>
      rw [Option.some.injEq, Prod.mk.injEq] at h
      rw [List.cons_append, List.cons_append, lineRun, if_pos hxy, h.1, h.2]
  | case2 x y rest hxy ih =>
      obtain ⟨⟨l', r'⟩, hrun, heq⟩ := Option.map_eq_some_iff.mp h
      obtain ⟨rfl, rfl⟩ := Prod.mk.inj heq
      have hlong := ih hrun
      rw [List.cons_append] at hlong
      rw [List.cons_append, List.cons_append, lineRun, if_neg hxy, hlong, Option.map_some]
  | case3 s hs => cases h

theorem length_le_of_linesRun {line s r : List α} {ls : List (List α)}
    (h : linesRun a b line s = some (ls, r)) : r.length ≤ s.length := by
  fun_induction linesRun a b line s generalizing ls r with
  | case1 x y rest hxy =>
      rw [Option.some.injEq, Prod.mk.injEq] at h
      rw [← h.2, List.length_cons, List.length_cons]
      omega
  | case2 line x y rest hxy hline ih =>
      obtain ⟨⟨ls', r'⟩, hrun, heq⟩ := Option.map_eq_some_iff.mp h
      obtain ⟨rfl, rfl⟩ := Prod.mk.inj heq
      have := ih hrun
      rw [List.length_cons, List.length_cons]
      exact Nat.le_trans this (Nat.le_add_right _ 2)
  | case3 line x y rest hxy ih =>
      rw [List.length_cons]
      exact Nat.le_succ_of_le (ih h)
  | case4 line s hs => cases h

theorem linesRun_stable {line s r : List α} {ls : List (List α)}
    (h : linesRun a b line s = some (ls, r)) (t : List α) :
    linesRun a b line (s ++ t) = some (ls, r ++ t) := by
  fun_induction linesRun a b line s generalizing ls r with
  | case1 x y rest hxy =>
      rw [Option.some.injEq, Prod.mk.injEq] at h
      rw [List.cons_append, List.cons_append, linesRun, if_pos hxy, if_pos rfl, h.1, h.2]
  | case2 line x y rest hxy hline ih =>
      obtain ⟨⟨ls', r'⟩, hrun, heq⟩ := Option.map_eq_some_iff.mp h
      obtain ⟨rfl, rfl⟩ := Prod.mk.inj heq
      rw [List.cons_append, List.cons_append, linesRun, if_pos hxy, if_neg hline, ih hrun,
        Option.map_some]
  | case3 line x y rest hxy ih =>
      rw [List.cons_append, List.cons_append, linesRun, if_neg hxy]
      exact ih h
  | case4 line s hs => cases h

/-- A line, up to its end `a`, `b`. -/
def line : Parser α (List α) where
  run := lineRun a b
  bounded h := Nat.le_of_lt (length_lt_of_lineRun a b h)
  stable h t := lineRun_stable a b h t

/-- Lines, up to an empty one. -/
def lines : Parser α (List (List α)) where
  run := linesRun a b []
  bounded h := length_le_of_linesRun a b h
  stable h t := linesRun_stable a b h t

theorem line_shrinks : (line a b).Shrinks := fun h => length_lt_of_lineRun a b h

/-- **A line is read back**, when the first half of its end is not in it. -/
theorem line_append {l : List α} (hl : a ∉ l) (t : List α) :
    (line a b).run (l ++ a :: b :: t) = some (l, t) := by
  show lineRun a b (l ++ a :: b :: t) = some (l, t)
  induction l with
  | nil => exact if_pos ⟨rfl, rfl⟩
  | cons x l ih =>
      rw [List.mem_cons, not_or] at hl
      obtain ⟨y, rest, hrest⟩ := List.exists_cons_of_ne_nil (l := l ++ a :: b :: t) (by simp)
      have htail := ih hl.2
      rw [hrest] at htail
      rw [List.cons_append, hrest, lineRun, if_neg (fun hx => hl.1 hx.1.symm), htail,
        Option.map_some]

/-- The elements of a line are collected. -/
theorem linesRun_collect {line l : List α} (hl : a ∉ l) (t : List α) :
    linesRun a b line (l ++ a :: b :: t) = linesRun a b (line ++ l) (a :: b :: t) := by
  induction l generalizing line with
  | nil => rw [List.nil_append, List.append_nil]
  | cons x l ih =>
      rw [List.mem_cons, not_or] at hl
      obtain ⟨y, rest, hrest⟩ := List.exists_cons_of_ne_nil (l := l ++ a :: b :: t) (by simp)
      have htail := @ih (line ++ [x]) hl.2
      rw [hrest, List.append_assoc, List.singleton_append] at htail
      rw [List.cons_append, hrest, linesRun, if_neg (fun hx => hl.1 hx.1.symm), htail]

/-- **A block of lines is read back**: none of them empty, an empty line at the end. -/
theorem lines_append {ls : List (List α)} (hls : ∀ l ∈ ls, l ≠ [] ∧ a ∉ l) (t : List α) :
    (lines a b).run (ls.flatMap (· ++ [a, b]) ++ a :: b :: t) = some (ls, t) := by
  show linesRun a b [] _ = _
  induction ls with
  | nil => exact (if_pos ⟨rfl, rfl⟩).trans (if_pos rfl)
  | cons l ls ih =>
      obtain ⟨hne, hl⟩ := hls l List.mem_cons_self
      have htail := ih fun l' hl' => hls l' (List.mem_cons_of_mem l hl')
      rw [List.flatMap_cons, List.append_assoc, List.append_assoc, List.cons_append,
        List.cons_append, List.nil_append, linesRun_collect a b hl, List.nil_append, linesRun,
        if_pos ⟨rfl, rfl⟩, if_neg hne, htail, Option.map_some]

end Lines

/-! ## Streams -/

/-- A parser for the parts of a stream. -/
structure Reader (α β : Type*) where
  part : Parser α β
  shrinks : part.Shrinks

namespace Reader

variable (R : Reader α β)

/-- At most `n` parts. -/
def readUpTo : ℕ → List α → List β
  | 0, _ => []
  | n + 1, s =>
      match R.part.run s with
      | none => []
      | some (x, r) => x :: readUpTo n r

/-- All the parts at the front of the input. -/
def readAll (s : List α) : List β := R.readUpTo s.length s

variable {R}

/-- A stream has no more parts than elements. -/
theorem readUpTo_eq_readAll {n : ℕ} {s : List α} (h : s.length ≤ n) :
    R.readUpTo n s = R.readAll s := by
  have hstep : ∀ m n : ℕ, ∀ s : List α, s.length ≤ m → s.length ≤ n →
      R.readUpTo m s = R.readUpTo n s := by
    intro m
    induction m with
    | zero =>
        intro n s hm _
        obtain rfl : s = [] := List.length_eq_zero_iff.mp (Nat.le_zero.mp hm)
        cases n with
        | zero => rfl
        | succ n =>
            cases hrun : R.part.run [] with
            | none => simp only [readUpTo, hrun]
            | some y => exact absurd (R.shrinks hrun) (Nat.not_lt_zero _)
    | succ m ih =>
        intro n s hm hn
        cases hrun : R.part.run s with
        | none =>
            cases n with
            | zero => simp only [readUpTo, hrun]
            | succ n => simp only [readUpTo, hrun]
        | some y =>
            have hlt := R.shrinks hrun
            cases n with
            | zero => omega
            | succ n =>
                simp only [readUpTo, hrun]
                rw [ih n y.2 (by omega) (by omega)]
  exact hstep n s.length s h (Nat.le_refl _)

theorem readAll_eq_nil {s : List α} (h : R.part.run s = none) : R.readAll s = [] := by
  rw [readAll]
  cases s.length with
  | zero => rfl
  | succ n => simp only [readUpTo, h]

theorem readAll_eq_cons {s r : List α} {x : β} (h : R.part.run s = some (x, r)) :
    R.readAll s = x :: R.readAll r := by
  have hlt := R.shrinks h
  obtain ⟨n, hn⟩ := Nat.exists_eq_succ_of_ne_zero (Nat.ne_of_gt (Nat.zero_lt_of_lt hlt))
  rw [readAll, hn]
  simp only [readUpTo, h]
  rw [readUpTo_eq_readAll (by omega)]

variable (R) in
/-- `R` reads back what `enc` writes. -/
def Reads (enc : β → List α) : Prop := ∀ x t, R.part.run (enc x ++ t) = some (x, t)

variable {enc : β → List α}

/-- **A stream of whole parts is read back.** -/
theorem readAll_flatMap (h : R.Reads enc) (xs : List β) : R.readAll (xs.flatMap enc) = xs := by
  induction xs with
  | nil =>
      rw [List.flatMap_nil, readAll, List.length_nil, readUpTo]
  | cons x xs ih => rw [List.flatMap_cons, readAll_eq_cons (h x _), ih]

/-- Nothing is read from the beginning of a part: reading does not depend on what follows,
and the whole part would leave nothing. -/
theorem run_eq_none_of_append (h : R.Reads enc) {x : β} {s t : List α} (ht : t ≠ [])
    (hs : s ++ t = enc x) : R.part.run s = none := by
  cases hrun : R.part.run s with
  | none => rfl
  | some y =>
      have hlong := R.part.stable hrun t
      have hwhole := h x []
      rw [List.append_nil, ← hs, hlong, Option.some.injEq, Prod.mk.injEq] at hwhole
      exact absurd (List.append_eq_nil_iff.mp hwhole.2).2 ht

/-- **A truncated stream gives the parts that are whole in it**: what is left over is a proper
beginning of the next part, and nothing is read from it. -/
theorem readAll_of_prefix (h : R.Reads enc) {xs : List β} {s : List α}
    (hs : s <+: xs.flatMap enc) :
    ∃ ys zs left, xs = ys ++ zs ∧ s = ys.flatMap enc ++ left ∧ R.readAll s = ys ∧
      (left = [] ∨ ∃ z ∈ zs.head?, left <+: enc z ∧ left ≠ enc z) := by
  induction xs generalizing s with
  | nil =>
      obtain rfl : s = [] := List.prefix_nil.mp hs
      exact ⟨[], [], [], rfl, rfl, rfl, Or.inl rfl⟩
  | cons x xs ih =>
      rw [List.flatMap_cons] at hs
      obtain ⟨t, ht⟩ := hs
      rcases List.append_eq_append_iff.mp ht with ⟨as, hx, -⟩ | ⟨s', rfl, hs'⟩
      · -- the stream ends in the first part, or right after it
        by_cases has : as = []
        · rw [has, List.append_nil] at hx
          refine ⟨[x], xs, [], rfl, by simp [hx], ?_, Or.inl rfl⟩
          have hrun := h x []
          rw [List.append_nil, hx] at hrun
          rw [readAll_eq_cons hrun]
          exact congrArg (List.cons x) (readAll_flatMap h [])
        · refine ⟨[], x :: xs, s, rfl, rfl,
            readAll_eq_nil (run_eq_none_of_append h has hx.symm), Or.inr ⟨x, rfl, ?_, ?_⟩⟩
          · exact hx ▸ List.prefix_append s as
          · rintro rfl
            exact has (List.append_cancel_left (hx.symm.trans (List.append_nil _).symm))
      · obtain ⟨ys, zs, left, rfl, rfl, hall, hleft⟩ := ih ⟨t, hs'.symm⟩
        refine ⟨x :: ys, zs, left, rfl, ?_, ?_, hleft⟩
        · rw [List.flatMap_cons, List.append_assoc]
        · rw [readAll_eq_cons (h x _), hall]

end Reader

end FramedStream
