/-
# Labelled machines and the runs of a machine

A general account of partial deterministic machines driven by labels: a step
takes a state and a label and either yields the next state or is not enabled.
Every source of nondeterminism (which thread moves, when a message arrives, what
the user does) is a label, so a run is a list of labels.

* `Machine.run` executes a list of labels;
* `Machine.ReachesUnder C` is reachability through steps that all meet a
  condition `C` on the state before the step and on the label;
* `ReachesUnder.invariant` is the induction rule that all safety results use;
* `throughout_iff_avoids` turns a step lemma "the property survives unless the step is
  bad" into "the property holds through a run iff the run has no bad step";
* `Machine.Trace` is an endless run.

Nothing here refers to a particular program.
-/
import Mathlib.Data.List.Induction
import Mathlib.Data.Nat.Find
import Mathlib.Data.Nat.Init
import Mathlib.Data.Option.Basic
import Mathlib.Logic.Basic
import Mathlib.Order.Basic

/-- A partial deterministic machine: an initial state, and a step function that
is `none` where a label is not enabled. -/
structure Machine (σ ℓ : Type*) where
  init : σ
  step : σ → ℓ → Option σ

namespace Machine

variable {σ ℓ : Type*} (m : Machine σ ℓ)

/-! ## Executing labels -/

/-- Run the labels from left to right; `none` as soon as one is not enabled. -/
def run : σ → List ℓ → Option σ
  | s, [] => some s
  | s, l :: ls => (m.step s l).bind fun s' => run s' ls

@[simp] theorem run_nil (s : σ) : m.run s [] = some s := rfl

theorem run_cons (s : σ) (l : ℓ) (ls : List ℓ) :
    m.run s (l :: ls) = (m.step s l).bind fun s' => m.run s' ls := rfl

/-- A run over a concatenation is a run over the first part and then the second. -/
theorem run_append (s : σ) (ls ls' : List ℓ) :
    m.run s (ls ++ ls') = (m.run s ls).bind fun s' => m.run s' ls' := by
  induction ls generalizing s with
  | nil => rfl
  | cons l ls ih =>
      rw [List.cons_append, run_cons, run_cons]
      cases m.step s l with
      | none => rfl
      | some s' => exact ih s'

/-- Runs compose. -/
theorem run_trans {s s' s'' : σ} {ls ls' : List ℓ} (h : m.run s ls = some s')
    (h' : m.run s' ls' = some s'') : m.run s (ls ++ ls') = some s'' := by
  rw [run_append, h]
  exact h'

/-! ## Reachability under a condition on the steps -/

/-- The states reached from the initial state by steps that each meet `C`, a
condition on the state before the step and on the label. -/
inductive ReachesUnder (C : σ → ℓ → Prop) : σ → Prop
  | init : ReachesUnder C m.init
  | step {s s' : σ} {l : ℓ} :
      ReachesUnder C s → C s l → m.step s l = some s' → ReachesUnder C s'

/-- The states reached by any run at all. -/
def Reachable (s : σ) : Prop := m.ReachesUnder (fun _ _ => True) s

/-- Run the labels as long as each step meets `C`. -/
def runUnder (C : σ → ℓ → Prop) [∀ s l, Decidable (C s l)] : σ → List ℓ → Option σ
  | s, [] => some s
  | s, l :: ls => if C s l then (m.step s l).bind fun s' => runUnder C s' ls else none

variable {m}

/-- A run that is checked step by step stays among the states reached under `C`. -/
theorem ReachesUnder.runUnder {C : σ → ℓ → Prop} [∀ s l, Decidable (C s l)] {s s' : σ}
    {ls : List ℓ} (hs : m.ReachesUnder C s) (h : m.runUnder C s ls = some s') :
    m.ReachesUnder C s' := by
  induction ls generalizing s with
  | nil => exact Option.some.inj h ▸ hs
  | cons l ls ih =>
      rw [Machine.runUnder] at h
      split at h
      · next hC =>
        obtain ⟨t, ht, hrest⟩ := Option.bind_eq_some_iff.mp h
        exact ih (.step hs hC ht) hrest
      · exact absurd h (by simp)

/-- **Invariant rule.**  A predicate that holds initially and is preserved by every
step that meets `C` holds wherever such steps lead. -/
theorem ReachesUnder.invariant {C : σ → ℓ → Prop} {I : σ → Prop} (hinit : I m.init)
    (hstep : ∀ s l s', I s → C s l → m.step s l = some s' → I s') {s : σ}
    (h : m.ReachesUnder C s) : I s := by
  induction h with
  | init => exact hinit
  | step _ hC hs ih => exact hstep _ _ _ ih hC hs

/-- A weaker condition reaches at least as far. -/
theorem ReachesUnder.mono {C D : σ → ℓ → Prop} (hCD : ∀ s l, C s l → D s l) {s : σ}
    (h : m.ReachesUnder C s) : m.ReachesUnder D s := by
  induction h with
  | init => exact .init
  | step _ hC hs ih => exact .step ih (hCD _ _ hC) hs

/-- Whatever is reached under a condition is reachable. -/
theorem ReachesUnder.reachable {C : σ → ℓ → Prop} {s : σ} (h : m.ReachesUnder C s) :
    m.Reachable s :=
  h.mono fun _ _ _ => trivial

/-- The invariant rule for unrestricted runs. -/
theorem Reachable.invariant {I : σ → Prop} (hinit : I m.init)
    (hstep : ∀ s l s', I s → m.step s l = some s' → I s') {s : σ} (h : m.Reachable s) :
    I s :=
  ReachesUnder.invariant hinit (fun s l s' hI _ hs => hstep s l s' hI hs) h

/-- A run whose labels all meet `C` preserves what each such step preserves. -/
theorem run_invariant {I : σ → Prop} {C : ℓ → Prop}
    (hstep : ∀ s l s', I s → C l → m.step s l = some s' → I s') {s s' : σ} {ls : List ℓ}
    (hC : ∀ l ∈ ls, C l) (hI : I s) (h : m.run s ls = some s') : I s' := by
  induction ls generalizing s with
  | nil => exact Option.some.inj h ▸ hI
  | cons l ls ih =>
      rw [run_cons, Option.bind_eq_some_iff] at h
      obtain ⟨t, ht, hrest⟩ := h
      exact ih (fun l' hl' => hC l' (List.mem_cons_of_mem l hl'))
        (hstep s l t hI (hC l List.mem_cons_self) ht) hrest

/-- A run from a reachable state stays among the reachable states. -/
theorem Reachable.run {s s' : σ} {ls : List ℓ} (hs : m.Reachable s)
    (h : m.run s ls = some s') : m.Reachable s' :=
  run_invariant (C := fun _ => True) (fun _ _ _ hr _ ht => ReachesUnder.step hr trivial ht)
    (fun _ _ => trivial) hs h

/-- What a run from the initial state ends in is reachable. -/
theorem reachable_of_run {s : σ} {ls : List ℓ} (h : m.run m.init ls = some s) :
    m.Reachable s :=
  Reachable.run ReachesUnder.init h

/-! ## Properties of all states of a run -/

variable (m) in
/-- `P` holds of the initial state and after every step of a run over `ls`, as far as its
labels are enabled. -/
def Throughout (P : σ → Prop) (ls : List ℓ) : Prop :=
  ∀ done, done <+: ls → ∀ s, m.run m.init done = some s → P s

variable (m) in
/-- No step of a run over `ls` is one of those in `B`. -/
def Avoids (B : σ → ℓ → Prop) (ls : List ℓ) : Prop :=
  ∀ before l after, ls = before ++ l :: after →
    ∀ s s', m.run m.init before = some s → m.step s l = some s' → ¬ B s l

/-- A run over a list with one more label at its end. -/
theorem run_concat_eq_some_iff {s s' : σ} {ls : List ℓ} {l : ℓ} :
    m.run s (ls ++ [l]) = some s' ↔ ∃ t, m.run s ls = some t ∧ m.step t l = some s' := by
  rw [run_append, Option.bind_eq_some_iff]
  simp only [run_cons, run_nil, Option.bind_fun_some]

/-- **When a property holds through a run.**  If, where it holds, it survives exactly the
steps outside `B`, it holds through a run if and only if the run has no step in `B`. -/
theorem throughout_iff_avoids {I P : σ → Prop} {B : σ → ℓ → Prop} (hI : I m.init)
    (hP : P m.init) (hkeep : ∀ s l s', I s → m.step s l = some s' → I s')
    (hstep : ∀ s l s', I s → P s → m.step s l = some s' → (P s' ↔ ¬ B s l)) (ls : List ℓ) :
    m.Throughout P ls ↔ m.Avoids B ls := by
  have hreach : ∀ ks s, m.run m.init ks = some s → I s := fun ks s hrun =>
    Reachable.invariant hI hkeep (reachable_of_run hrun)
  constructor
  · intro h before l after heq s s' hrun hs
    have hbefore : P s := h before ⟨l :: after, heq.symm⟩ s hrun
    have hafter : P s' := h (before ++ [l]) ⟨after, by rw [heq]; simp⟩ s'
      (run_concat_eq_some_iff.mpr ⟨s, hrun, hs⟩)
    exact (hstep s l s' (hreach before s hrun) hbefore hs).mp hafter
  · intro h done hdone
    induction done using List.reverseRecOn with
    | nil =>
        intro s hrun
        exact Option.some.inj hrun ▸ hP
    | append_singleton done l ih =>
        intro s' hrun
        obtain ⟨s, hbefore, hs⟩ := run_concat_eq_some_iff.mp hrun
        obtain ⟨after, heq⟩ := hdone
        have hsplit : ls = done ++ l :: after := by rw [← heq]; simp
        have hPs : P s := ih ⟨l :: after, hsplit.symm⟩ s hbefore
        exact (hstep s l s' (hreach done s hbefore) hPs hs).mpr
          (h done l after hsplit s s' hbefore hs)

/-! ## Endless runs -/

variable (m) in
/-- An endless run from a state: at moment `n` the state is `state n`, and `label n` is taken
there. -/
structure Trace (s : σ) where
  state : ℕ → σ
  label : ℕ → ℓ
  start : state 0 = s
  next : ∀ n, m.step (state n) (label n) = some (state (n + 1))

/-- One step, and then an endless run. -/
def Trace.cons {s s' : σ} (l : ℓ) (hs : m.step s l = some s') (t : m.Trace s') : m.Trace s where
  state
    | 0 => s
    | n + 1 => t.state n
  label
    | 0 => l
    | n + 1 => t.label n
  start := rfl
  next
    | 0 => hs.trans (congrArg some t.start.symm)
    | n + 1 => t.next n

/-- What holds at a moment and survives every label up to a later one holds there. -/
theorem Trace.stays {s : σ} (t : m.Trace s) {P : σ → Prop} {n k : ℕ} (hle : n ≤ k) (hn : P (t.state n))
    (hstep : ∀ j, n ≤ j → j < k → P (t.state j) → P (t.state (j + 1))) : P (t.state k) := by
  induction k, hle using Nat.le_induction with
  | base => exact hn
  | succ k hnk ih =>
      exact hstep k hnk (Nat.lt_succ_self k)
        (ih fun j hj hjk => hstep j hj (Nat.lt_succ_of_lt hjk))

/-- What holds at a moment and no longer at a later one is given up at a first moment
between the two. -/
theorem Trace.exists_first_change {s : σ} (t : m.Trace s) {P : σ → Prop} {n k : ℕ}
    (hle : n ≤ k) (hn : P (t.state n)) (hk : ¬ P (t.state k)) :
    ∃ j, n ≤ j ∧ j < k ∧ (∀ i, n ≤ i → i ≤ j → P (t.state i)) ∧ ¬ P (t.state (j + 1)) := by
  classical
  have hex : ∃ j, n ≤ j ∧ ¬ P (t.state j) := ⟨k, hle, hk⟩
  obtain ⟨hfirst, hnot⟩ := Nat.find_spec hex
  have hne : n ≠ Nat.find hex := by
    intro heq
    rw [← heq] at hnot
    exact hnot hn
  obtain ⟨j, hj⟩ : ∃ j, Nat.find hex = j + 1 := ⟨Nat.find hex - 1, by omega⟩
  refine ⟨j, by omega, ?_, fun i hni hij => ?_, hj ▸ hnot⟩
  · have hmin := Nat.find_min' hex ⟨hle, hk⟩
    omega
  · by_contra hPi
    exact Nat.find_min hex (by omega) ⟨hni, hPi⟩

end Machine
