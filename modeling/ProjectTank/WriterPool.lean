/-
# Writers that share one output under a lock

A pool of writers, each started with its own data, each running the same program:
first it prepares (any number of private steps, at the end of which it knows the
buffer it will write, or gives up), then it waits for the lock, writes its buffer
to the common output one item at a time, and releases the lock.  The lock may
also be taken by a party that writes nothing (`Holder.other`), and a writer may
fail before its first item (`Move.raise`).

The results, for every interleaving:

* `Sound.step`: the output is the concatenation of the completed buffers, in
  the order of completion, and then the part the present holder has written;
* `Carries`: what is written by a writer is what its program prepared for its data;
* `Ordered.step`: when writers are only started while none is still ahead of the
  lock, buffers are completed in the order in which the writers were started;
* `exists_completion`: a writer that waits for a free lock can be run to the end.

Nothing here refers to a particular program.
-/
import Mathlib.Data.List.Nodup
import Mathlib.Tactic.Common
import ProjectTank.Transition

namespace WriterPool

/-- Where a writer stands with respect to the lock. -/
inductive Stage (α : Type*)
  | preparing
  | waiting (buf : List α)
  | writing (sent rest : List α)
  | finished
  deriving DecidableEq

/-- A writer that has not taken the lock yet and may still take it. -/
def Stage.ahead {α : Type*} : Stage α → Bool
  | .preparing => true
  | .waiting _ => true
  | .writing _ _ => false
  | .finished => false

theorem Stage.ne_writing_of_ahead {α : Type*} {st : Stage α} (h : st.ahead = true)
    {sent rest : List α} : st ≠ .writing sent rest := by
  rintro rfl
  exact Bool.false_ne_true h

theorem Stage.ne_finished_of_ahead {α : Type*} {st : Stage α} (h : st.ahead = true) :
    st ≠ .finished := by
  rintro rfl
  exact Bool.false_ne_true h

/-- The buffer a writer that waits or writes is going to complete. -/
def Stage.buffer? {α : Type*} : Stage α → Option (List α)
  | .preparing => none
  | .waiting buf => some buf
  | .writing sent rest => some (sent ++ rest)
  | .finished => none

/-- A writer: the data its program works on, and its stage. -/
structure Writer (τ α : Type*) where
  data : τ
  stage : Stage α
  deriving DecidableEq

/-- Who has the lock. -/
inductive Holder
  | writer (i : ℕ)
  | other
  deriving DecidableEq

/-- The pool.  `log` records the completed buffers with their writers. -/
structure Pool (τ α : Type*) where
  writers : List (Writer τ α) := []
  holder : Option Holder := none
  log : List (ℕ × List α) := []
  out : List α := []

/-- The outcome of one private step of a preparing writer. -/
inductive Prep (τ α : Type*)
  | work (d : τ)
  | ready (d : τ) (buf : List α)
  | quit (d : τ)

/-- The data after a private step. -/
def Prep.data {τ α : Type*} : Prep τ α → τ
  | .work d => d
  | .ready d _ => d
  | .quit d => d

/-- The program all writers of a pool run. -/
structure Program (τ α : Type*) where
  prepare : τ → Prep τ α
  finish : τ → τ
  fail : τ → τ

/-- The moves of a pool: a writer is started, a writer takes its next step, a writer
fails, the other party takes or gives back the lock. -/
inductive Move (τ : Type*)
  | spawn (d : τ)
  | advance (i : ℕ)
  | raise (i : ℕ)
  | other

variable {τ α : Type*}

namespace Pool

/-- Replace writer `i`. -/
def setWriter (p : Pool τ α) (i : ℕ) (w : Writer τ α) : Pool τ α :=
  { p with writers := p.writers.set i w }

@[simp] theorem setWriter_holder (p : Pool τ α) (i : ℕ) (w : Writer τ α) :
    (p.setWriter i w).holder = p.holder := rfl

@[simp] theorem setWriter_log (p : Pool τ α) (i : ℕ) (w : Writer τ α) :
    (p.setWriter i w).log = p.log := rfl

@[simp] theorem setWriter_out (p : Pool τ α) (i : ℕ) (w : Writer τ α) :
    (p.setWriter i w).out = p.out := rfl

@[simp] theorem length_setWriter (p : Pool τ α) (i : ℕ) (w : Writer τ α) :
    (p.setWriter i w).writers.length = p.writers.length :=
  List.length_set

theorem getElem?_setWriter {p : Pool τ α} {i : ℕ} {w : Writer τ α}
    (h : p.writers[i]? = some w) (w' : Writer τ α) (j : ℕ) :
    (p.setWriter i w').writers[j]? = if j = i then some w' else p.writers[j]? := by
  have hi : i < p.writers.length := (List.getElem?_eq_some_iff.mp h).1
  rw [setWriter, List.getElem?_set]
  by_cases hj : j = i
  · simp [hj, hi]
  · simp [hj, Ne.symm hj]

/-- Start a writer. -/
def spawn (p : Pool τ α) (d : τ) : Pool τ α :=
  { p with writers := p.writers ++ [⟨d, .preparing⟩] }

theorem getElem?_spawn (p : Pool τ α) (d : τ) (j : ℕ) :
    (p.spawn d).writers[j]? =
      if j = p.writers.length then some ⟨d, .preparing⟩ else p.writers[j]? := by
  rw [spawn, List.getElem?_append]
  by_cases hlt : j < p.writers.length
  · rw [if_pos hlt, if_neg (by omega)]
  · rw [if_neg hlt]
    by_cases heq : j = p.writers.length
    · simp [heq]
    · rw [if_neg heq, List.getElem?_eq_none (by simp; omega), List.getElem?_eq_none (by omega)]

/-- The completed buffers, in the order of completion. -/
def completed (p : Pool τ α) : List α := (p.log.map Prod.snd).flatten

end Pool

/-! ## The moves -/

/-- The next step of writer `i`. -/
def advance (prog : Program τ α) (p : Pool τ α) (i : ℕ) : Option (Pool τ α) :=
  match p.writers[i]? with
  | none => none
  | some ⟨d, .preparing⟩ =>
      match prog.prepare d with
      | .work d' => some (p.setWriter i ⟨d', .preparing⟩)
      | .ready d' buf => some (p.setWriter i ⟨d', .waiting buf⟩)
      | .quit d' => some (p.setWriter i ⟨d', .finished⟩)
  | some ⟨d, .waiting buf⟩ =>
      if p.holder = none then
        some { p.setWriter i ⟨d, .writing [] buf⟩ with holder := some (.writer i) }
      else none
  | some ⟨d, .writing sent (a :: rest)⟩ =>
      some { p.setWriter i ⟨d, .writing (sent ++ [a]) rest⟩ with out := p.out ++ [a] }
  | some ⟨d, .writing sent []⟩ =>
      some { p.setWriter i ⟨prog.finish d, .finished⟩ with
        holder := none, log := p.log ++ [(i, sent)] }
  | some ⟨_, .finished⟩ => none

/-- Writer `i` gives up before its first item: an error while it prepares, or a write that
is refused as a whole, when the writer takes the lock or after that; the lock is free again
then. -/
def raise (prog : Program τ α) (p : Pool τ α) (i : ℕ) : Option (Pool τ α) :=
  match p.writers[i]? with
  | some ⟨d, .preparing⟩ => some (p.setWriter i ⟨prog.fail d, .finished⟩)
  | some ⟨d, .waiting _⟩ =>
      if p.holder = none then some (p.setWriter i ⟨prog.fail d, .finished⟩) else none
  | some ⟨d, .writing [] (_ :: _)⟩ =>
      some { p.setWriter i ⟨prog.fail d, .finished⟩ with holder := none }
  | _ => none

/-- The other party takes the lock when it is free and gives it back when it has it. -/
def other (p : Pool τ α) : Option (Pool τ α) :=
  match p.holder with
  | none => some { p with holder := some .other }
  | some .other => some { p with holder := none }
  | some (.writer _) => none

/-- One move of the pool. -/
def step (prog : Program τ α) (p : Pool τ α) : Move τ → Option (Pool τ α)
  | .spawn d => some (p.spawn d)
  | .advance i => advance prog p i
  | .raise i => raise prog p i
  | .other => other p

/-- The pool as a machine, empty at first. -/
def machine (prog : Program τ α) : Machine (Pool τ α) (Move τ) where
  init := {}
  step := step prog

/-- Everything a move can do, one constructor for each way. -/
inductive Step (prog : Program τ α) (p : Pool τ α) : Move τ → Pool τ α → Prop
  | spawn (d : τ) : Step prog p (.spawn d) (p.spawn d)
  | work {i : ℕ} {d d' : τ} (hw : p.writers[i]? = some ⟨d, .preparing⟩)
      (hp : prog.prepare d = .work d') :
      Step prog p (.advance i) (p.setWriter i ⟨d', .preparing⟩)
  | ready {i : ℕ} {d d' : τ} {buf : List α} (hw : p.writers[i]? = some ⟨d, .preparing⟩)
      (hp : prog.prepare d = .ready d' buf) :
      Step prog p (.advance i) (p.setWriter i ⟨d', .waiting buf⟩)
  | quit {i : ℕ} {d d' : τ} (hw : p.writers[i]? = some ⟨d, .preparing⟩)
      (hp : prog.prepare d = .quit d') :
      Step prog p (.advance i) (p.setWriter i ⟨d', .finished⟩)
  | acquire {i : ℕ} {d : τ} {buf : List α} (hw : p.writers[i]? = some ⟨d, .waiting buf⟩)
      (hfree : p.holder = none) :
      Step prog p (.advance i)
        { p.setWriter i ⟨d, .writing [] buf⟩ with holder := some (.writer i) }
  | put {i : ℕ} {d : τ} {sent rest : List α} {a : α}
      (hw : p.writers[i]? = some ⟨d, .writing sent (a :: rest)⟩) :
      Step prog p (.advance i)
        { p.setWriter i ⟨d, .writing (sent ++ [a]) rest⟩ with out := p.out ++ [a] }
  | release {i : ℕ} {d : τ} {sent : List α}
      (hw : p.writers[i]? = some ⟨d, .writing sent []⟩) :
      Step prog p (.advance i)
        { p.setWriter i ⟨prog.finish d, .finished⟩ with
          holder := none, log := p.log ++ [(i, sent)] }
  | refuse {i : ℕ} {d : τ} {st : Stage α} (hw : p.writers[i]? = some ⟨d, st⟩)
      (hahead : st.ahead = true) :
      Step prog p (.raise i) (p.setWriter i ⟨prog.fail d, .finished⟩)
  | abort {i : ℕ} {d : τ} {rest : List α} (hw : p.writers[i]? = some ⟨d, .writing [] rest⟩) :
      Step prog p (.raise i) { p.setWriter i ⟨prog.fail d, .finished⟩ with holder := none }
  | lockOther (hfree : p.holder = none) :
      Step prog p .other { p with holder := some .other }
  | unlockOther (hheld : p.holder = some .other) :
      Step prog p .other { p with holder := none }

/-- **Inversion of a move.** -/
theorem Step.of_eq_some {prog : Program τ α} {p p' : Pool τ α} {mv : Move τ}
    (h : step prog p mv = some p') : Step prog p mv p' := by
  cases mv with
  | spawn d => exact Option.some.inj h ▸ .spawn d
  | advance i =>
      simp only [step, advance] at h
      split at h
      · exact absurd h (by simp)
      · next d hw =>
        split at h
        · next hp => exact Option.some.inj h ▸ .work hw hp
        · next hp => exact Option.some.inj h ▸ .ready hw hp
        · next hp => exact Option.some.inj h ▸ .quit hw hp
      · next hw =>
        split at h
        · next hfree => exact Option.some.inj h ▸ .acquire hw hfree
        · exact absurd h (by simp)
      · next hw => exact Option.some.inj h ▸ .put hw
      · next hw => exact Option.some.inj h ▸ .release hw
      · exact absurd h (by simp)
  | raise i =>
      simp only [step, raise] at h
      split at h
      · next hw => exact Option.some.inj h ▸ .refuse hw rfl
      · next hw =>
        split at h
        · exact Option.some.inj h ▸ .refuse hw rfl
        · exact absurd h (by simp)
      · next hw => exact Option.some.inj h ▸ .abort hw
      · exact absurd h (by simp)
  | other =>
      simp only [step, other] at h
      split at h
      · next hfree => exact Option.some.inj h ▸ .lockOther hfree
      · next hheld => exact Option.some.inj h ▸ .unlockOther hheld
      · exact absurd h (by simp)

/-- A move adds nothing to the output, or the next item of a writer. -/
theorem Step.out_cases {prog : Program τ α} {p p' : Pool τ α} {mv : Move τ}
    (h : Step prog p mv p') : p'.out = p.out ∨ ∃ (i : ℕ) (d : τ) (sent : List α) (a : α)
      (rest : List α), mv = .advance i ∧ p.writers[i]? = some ⟨d, .writing sent (a :: rest)⟩ ∧
        p'.out = p.out ++ [a] := by
  cases h with
  | put hw => exact Or.inr ⟨_, _, _, _, _, rfl, hw, rfl⟩
  | _ => exact Or.inl rfl

/-- A move never takes back what has been written. -/
theorem Step.out_append {prog : Program τ α} {p p' : Pool τ α} {mv : Move τ}
    (h : Step prog p mv p') : ∃ added, p'.out = p.out ++ added := by
  rcases h.out_cases with hsame | ⟨i, d, sent, a, rest, -, -, hout⟩
  · exact ⟨[], by rw [hsame, List.append_nil]⟩
  · exact ⟨[a], hout⟩

/-! ## The lock keeps buffers apart -/

/-- The lock invariant: exactly the holder is inside its write, the output consists of
the completed buffers and what the holder has written, and a writer completes once. -/
structure Sound (p : Pool τ α) : Prop where
  holds : ∀ (i : ℕ) d sent rest, p.writers[i]? = some ⟨d, .writing sent rest⟩ →
    p.holder = some (.writer i)
  inside : ∀ i, p.holder = some (.writer i) →
    ∃ d sent rest, p.writers[i]? = some ⟨d, .writing sent rest⟩
  idle : (∀ i, p.holder ≠ some (.writer i)) → p.out = p.completed
  busy : ∀ (i : ℕ) d sent rest, p.writers[i]? = some ⟨d, .writing sent rest⟩ →
    p.out = p.completed ++ sent
  logged : ∀ i ∈ p.log.map Prod.fst, ∃ d, p.writers[i]? = some ⟨d, .finished⟩
  nodup : (p.log.map Prod.fst).Nodup

theorem Sound.empty : Sound ({} : Pool τ α) where
  holds := by simp
  inside := by simp
  idle := fun _ => rfl
  busy := by simp
  logged := by simp
  nodup := List.nodup_nil

/-- A writer that has not finished is not in the log. -/
theorem Sound.not_mem_log {p : Pool τ α} (hs : Sound p) {i : ℕ} {d : τ} {st : Stage α}
    (hw : p.writers[i]? = some ⟨d, st⟩) (hst : st ≠ .finished) : i ∉ p.log.map Prod.fst := by
  intro hmem
  obtain ⟨d', hd'⟩ := hs.logged i hmem
  rw [hw, Option.some.injEq, Writer.mk.injEq] at hd'
  exact hst hd'.2

/-- The log keeps pointing at finished writers when a writer outside it is replaced. -/
theorem Sound.logged_setWriter {p : Pool τ α} (hs : Sound p) {i : ℕ} {d : τ} {st : Stage α}
    (hw : p.writers[i]? = some ⟨d, st⟩) (hst : st ≠ .finished) (w' : Writer τ α) :
    ∀ j ∈ p.log.map Prod.fst, ∃ d, (p.setWriter i w').writers[j]? = some ⟨d, .finished⟩ := by
  intro j hj
  obtain ⟨d', hd'⟩ := hs.logged j hj
  refine ⟨d', ?_⟩
  rw [Pool.getElem?_setWriter hw, if_neg ?_, hd']
  rintro rfl
  exact hs.not_mem_log hw hst hj

/-- A writer may be replaced while it is outside its write, before and after. -/
theorem Sound.setWriter {p : Pool τ α} (hs : Sound p) {i : ℕ} {d : τ} {st : Stage α}
    (hw : p.writers[i]? = some ⟨d, st⟩) (hout : ∀ sent rest, st ≠ .writing sent rest)
    (hfin : st ≠ .finished) {w' : Writer τ α} (hout' : ∀ sent rest, w'.stage ≠ .writing sent rest) :
    Sound (p.setWriter i w') := by
  have hback : ∀ (j : ℕ) d' sent rest, (p.setWriter i w').writers[j]? = some ⟨d', .writing sent rest⟩ →
      p.writers[j]? = some ⟨d', .writing sent rest⟩ := by
    intro j d' sent rest hj
    rw [Pool.getElem?_setWriter hw] at hj
    by_cases hji : j = i
    · rw [if_pos hji, Option.some.injEq] at hj
      exact absurd (by rw [hj]) (hout' sent rest)
    · rwa [if_neg hji] at hj
  refine ⟨fun j d' sent rest hj => hs.holds j d' sent rest (hback j d' sent rest hj), ?_, hs.idle,
    fun j d' sent rest hj => hs.busy j d' sent rest (hback j d' sent rest hj),
    hs.logged_setWriter hw hfin w', hs.nodup⟩
  intro j hj
  obtain ⟨d', sent, rest, hk⟩ := hs.inside j hj
  refine ⟨d', sent, rest, ?_⟩
  rw [Pool.getElem?_setWriter hw, if_neg ?_, hk]
  rintro rfl
  rw [hw, Option.some.injEq, Writer.mk.injEq] at hk
  exact hout sent rest hk.2

theorem Sound.spawn {p : Pool τ α} (hs : Sound p) (d : τ) : Sound (p.spawn d) := by
  have hold : ∀ (j : ℕ) w, p.writers[j]? = some w → (p.spawn d).writers[j]? = some w := by
    intro j w hj
    have hlt : j < p.writers.length := (List.getElem?_eq_some_iff.mp hj).1
    rw [Pool.getElem?_spawn, if_neg (by omega), hj]
  have hback : ∀ (j : ℕ) d' sent rest, (p.spawn d).writers[j]? = some ⟨d', .writing sent rest⟩ →
      p.writers[j]? = some ⟨d', .writing sent rest⟩ := by
    intro j d' sent rest hj
    rw [Pool.getElem?_spawn] at hj
    by_cases hlen : j = p.writers.length
    · simp [hlen] at hj
    · rwa [if_neg hlen] at hj
  refine ⟨fun j d' sent rest hj => hs.holds j d' sent rest (hback j d' sent rest hj), ?_, hs.idle,
    fun j d' sent rest hj => hs.busy j d' sent rest (hback j d' sent rest hj), ?_, hs.nodup⟩
  · intro j hj
    obtain ⟨d', sent, rest, hk⟩ := hs.inside j hj
    exact ⟨d', sent, rest, hold j _ hk⟩
  · intro j hj
    obtain ⟨d', hd'⟩ := hs.logged j hj
    exact ⟨d', hold j _ hd'⟩

/-- When nobody else is inside its write, a writer that is put inside is the only one. -/
theorem Pool.writing_setWriter {p : Pool τ α} {i : ℕ} {w : Writer τ α} (hw : p.writers[i]? = some w)
    (d : τ) (sent rest : List α)
    (hothers : ∀ j d' sent' rest', p.writers[j]? = some ⟨d', .writing sent' rest'⟩ → j = i) (j : ℕ)
    (d' : τ) (sent' rest' : List α)
    (hj : (p.setWriter i ⟨d, .writing sent rest⟩).writers[j]? = some ⟨d', .writing sent' rest'⟩) :
    j = i ∧ sent' = sent := by
  rw [Pool.getElem?_setWriter hw] at hj
  by_cases hji : j = i
  · rw [if_pos hji, Option.some.injEq, Writer.mk.injEq, Stage.writing.injEq] at hj
    exact ⟨hji, hj.2.1.symm⟩
  · rw [if_neg hji] at hj
    exact absurd (hothers j d' sent' rest' hj) hji

/-- A waiting writer may take the free lock. -/
theorem Sound.acquire {p : Pool τ α} (hs : Sound p) {i : ℕ} {d : τ} {buf : List α}
    (hw : p.writers[i]? = some ⟨d, .waiting buf⟩) (hfree : p.holder = none) :
    Sound { p.setWriter i ⟨d, .writing [] buf⟩ with holder := some (.writer i) } := by
  have hget := Pool.getElem?_setWriter hw ⟨d, .writing [] buf⟩
  -- the lock was free, so nobody else is inside its write
  have honly := Pool.writing_setWriter hw d [] buf fun j d' sent rest hj => by
    have hheld := hs.holds j d' sent rest hj
    rw [hfree] at hheld
    cases hheld
  refine ⟨fun j d' sent rest hj => ?_, fun j hj => ?_, fun hno => absurd rfl (hno i),
    fun j d' sent rest hj => ?_, hs.logged_setWriter hw (by simp) _, hs.nodup⟩
  · rw [(honly j d' sent rest hj).1]
  · obtain rfl : i = j := by simpa using hj
    exact ⟨d, [], buf, by simpa using hget i⟩
  · rw [(honly j d' sent rest hj).2, List.append_nil]
    exact hs.idle (by simp [hfree])

/-- The holder may put its next item. -/
theorem Sound.put {p : Pool τ α} (hs : Sound p) {i : ℕ} {d : τ} {sent rest : List α} {a : α}
    (hw : p.writers[i]? = some ⟨d, .writing sent (a :: rest)⟩) :
    Sound { p.setWriter i ⟨d, .writing (sent ++ [a]) rest⟩ with out := p.out ++ [a] } := by
  have hget := Pool.getElem?_setWriter hw ⟨d, .writing (sent ++ [a]) rest⟩
  have hheld := hs.holds i d sent (a :: rest) hw
  have honly := Pool.writing_setWriter hw d (sent ++ [a]) rest fun j d' sent' rest' hj => by
    have hother := hs.holds j d' sent' rest' hj
    rw [hheld] at hother
    simpa using hother.symm
  refine ⟨fun j d' sent' rest' hj => ?_, fun j hj => ?_, fun hno => absurd hheld (hno i),
    fun j d' sent' rest' hj => ?_, hs.logged_setWriter hw (by simp) _, hs.nodup⟩
  · rw [(honly j d' sent' rest' hj).1]
    exact hheld
  · have hji : j = i := by
      change p.holder = some (.writer j) at hj
      rw [hheld] at hj
      simpa using hj.symm
    exact ⟨d, sent ++ [a], rest, by simpa [hji] using hget i⟩
  · rw [(honly j d' sent' rest' hj).2]
    change p.out ++ [a] = p.completed ++ (sent ++ [a])
    rw [hs.busy i d sent (a :: rest) hw, List.append_assoc]

/-- Once the holder has finished nobody is inside a write. -/
theorem Sound.not_writing_of_leave {p : Pool τ α} (hs : Sound p) {i : ℕ} {d : τ}
    {sent rest : List α} (hw : p.writers[i]? = some ⟨d, .writing sent rest⟩) (d' : τ) (j : ℕ)
    (d'' : τ) (sent' rest' : List α) :
    (p.setWriter i ⟨d', .finished⟩).writers[j]? ≠ some ⟨d'', .writing sent' rest'⟩ := by
  intro hj
  rw [Pool.getElem?_setWriter hw] at hj
  by_cases hji : j = i
  · simp [hji] at hj
  · rw [if_neg hji] at hj
    have hheld := hs.holds j d'' sent' rest' hj
    rw [hs.holds i d sent rest hw] at hheld
    exact hji (by simpa using hheld.symm)

/-- The holder that has put its last item may release the lock. -/
theorem Sound.release {p : Pool τ α} (hs : Sound p) {i : ℕ} {d : τ} {sent : List α}
    (hw : p.writers[i]? = some ⟨d, .writing sent []⟩) (d' : τ) :
    Sound { p.setWriter i ⟨d', .finished⟩ with holder := none, log := p.log ++ [(i, sent)] } := by
  have hnew := hs.not_mem_log hw (by simp)
  have hnone := hs.not_writing_of_leave hw d'
  refine ⟨fun j d'' sent' rest' hj => absurd hj (hnone j d'' sent' rest'),
    fun j hj => absurd hj (by simp), fun _ => ?_,
    fun j d'' sent' rest' hj => absurd hj (hnone j d'' sent' rest'), fun j hj => ?_, ?_⟩
  · change p.out = ((p.log ++ [(i, sent)]).map Prod.snd).flatten
    rw [hs.busy i d sent [] hw]
    simp [Pool.completed]
  · rw [List.map_append, List.mem_append] at hj
    rcases hj with hj | hj
    · exact hs.logged_setWriter hw (by simp) _ j hj
    · obtain rfl : j = i := by simpa using hj
      exact ⟨d', by simpa using Pool.getElem?_setWriter hw ⟨d', .finished⟩ j⟩
  · change ((p.log ++ [(i, sent)]).map Prod.fst).Nodup
    rw [List.map_append, List.nodup_append]
    refine ⟨hs.nodup, by simp, ?_⟩
    rintro x hx y hy rfl
    obtain rfl : x = i := by simpa using hy
    exact hnew hx

/-- The holder that has put nothing may give up. -/
theorem Sound.abort {p : Pool τ α} (hs : Sound p) {i : ℕ} {d : τ} {rest : List α}
    (hw : p.writers[i]? = some ⟨d, .writing [] rest⟩) (d' : τ) :
    Sound { p.setWriter i ⟨d', .finished⟩ with holder := none } := by
  have hnone := hs.not_writing_of_leave hw d'
  refine ⟨fun j d'' sent' rest' hj => absurd hj (hnone j d'' sent' rest'),
    fun j hj => absurd hj (by simp), fun _ => ?_,
    fun j d'' sent' rest' hj => absurd hj (hnone j d'' sent' rest'),
    hs.logged_setWriter hw (by simp) _, hs.nodup⟩
  exact (hs.busy i d [] rest hw).trans (List.append_nil _)

/-- The other party may take the free lock and give it back. -/
theorem Sound.setOther {p : Pool τ α} (hs : Sound p) {h h' : Option Holder}
    (hh : p.holder = h) (hno : ∀ i, h ≠ some (.writer i)) (hno' : ∀ i, h' ≠ some (.writer i)) :
    Sound { p with holder := h' } := by
  have hnone : ∀ (j : ℕ) d sent rest, p.writers[j]? ≠ some ⟨d, .writing sent rest⟩ := by
    intro j d sent rest hj
    exact hno j (hh ▸ hs.holds j d sent rest hj)
  exact ⟨fun j d sent rest hj => absurd hj (hnone j d sent rest),
    fun j hj => absurd hj (hno' j), fun _ => hs.idle fun i => hh ▸ hno i,
    fun j d sent rest hj => absurd hj (hnone j d sent rest), hs.logged, hs.nodup⟩

/-- **Every move keeps the lock invariant.** -/
theorem Sound.step {prog : Program τ α} {p p' : Pool τ α} {mv : Move τ} (hs : Sound p)
    (h : Step prog p mv p') : Sound p' := by
  cases h with
  | spawn d => exact hs.spawn d
  | work hw _ => exact hs.setWriter hw (by simp) (by simp) (by simp)
  | ready hw _ => exact hs.setWriter hw (by simp) (by simp) (by simp)
  | quit hw _ => exact hs.setWriter hw (by simp) (by simp) (by simp)
  | refuse hw hahead =>
      exact hs.setWriter hw (fun _ _ => Stage.ne_writing_of_ahead hahead)
        (Stage.ne_finished_of_ahead hahead) (by simp)
  | abort hw => exact hs.abort hw _
  | acquire hw hfree => exact hs.acquire hw hfree
  | put hw => exact hs.put hw
  | release hw => exact hs.release hw _
  | lockOther hfree => exact hs.setOther hfree (by simp) (by simp)
  | unlockOther hheld => exact hs.setOther hheld (by simp) (by simp)

/-! ## What is written is what was prepared -/

/-- A program whose buffers stand in the relation `B` to the data of their writers. -/
structure Program.Writes (prog : Program τ α) (B : τ → List α → Prop) : Prop where
  ready : ∀ d d' buf, prog.prepare d = .ready d' buf → B d' buf
  finish : ∀ d buf, B d buf → B (prog.finish d) buf

/-- Every buffer in a pool, pending or completed, stands in the relation `B` to the data
of its writer. -/
structure Carries (B : τ → List α → Prop) (p : Pool τ α) : Prop where
  staged : ∀ (i : ℕ) d st buf, p.writers[i]? = some ⟨d, st⟩ → st.buffer? = some buf → B d buf
  logged : ∀ (i : ℕ) buf, (i, buf) ∈ p.log → ∃ d, p.writers[i]? = some ⟨d, .finished⟩ ∧ B d buf

theorem Carries.empty (B : τ → List α → Prop) : Carries B ({} : Pool τ α) where
  staged := by simp
  logged := by simp

/-- An unfinished writer may be replaced by one whose buffer is right. -/
theorem Carries.setWriter {B : τ → List α → Prop} {p : Pool τ α} (hc : Carries B p)
    (hs : Sound p) {i : ℕ} {d : τ} {st : Stage α} (hw : p.writers[i]? = some ⟨d, st⟩)
    (hst : st ≠ .finished) {w' : Writer τ α}
    (hB : ∀ buf, w'.stage.buffer? = some buf → B w'.data buf) :
    Carries B (p.setWriter i w') where
  staged := by
    intro j d' st' buf hj hbuf
    rw [Pool.getElem?_setWriter hw] at hj
    by_cases hji : j = i
    · rw [if_pos hji, Option.some.injEq] at hj
      subst hj
      exact hB buf hbuf
    · rw [if_neg hji] at hj
      exact hc.staged j d' st' buf hj hbuf
  logged := by
    intro j buf hj
    obtain ⟨d', hd', hBd⟩ := hc.logged j buf hj
    refine ⟨d', ?_, hBd⟩
    rw [Pool.getElem?_setWriter hw, if_neg ?_, hd']
    rintro rfl
    exact hs.not_mem_log hw hst (List.mem_map_of_mem hj)

theorem Carries.spawn {B : τ → List α → Prop} {p : Pool τ α} (hc : Carries B p) (d : τ) :
    Carries B (p.spawn d) where
  staged := by
    intro j d' st buf hj hbuf
    rw [Pool.getElem?_spawn] at hj
    by_cases hlen : j = p.writers.length
    · rw [if_pos hlen, Option.some.injEq, Writer.mk.injEq] at hj
      rw [← hj.2] at hbuf
      exact absurd hbuf (by simp [Stage.buffer?])
    · rw [if_neg hlen] at hj
      exact hc.staged j d' st buf hj hbuf
  logged := by
    intro j buf hj
    obtain ⟨d', hd', hBd⟩ := hc.logged j buf hj
    have hlt : j < p.writers.length := (List.getElem?_eq_some_iff.mp hd').1
    exact ⟨d', by rw [Pool.getElem?_spawn, if_neg (by omega), hd'], hBd⟩

/-- What a writer has put in full is logged with it. -/
theorem Carries.release {B : τ → List α → Prop} {p : Pool τ α} (hc : Carries B p) (hs : Sound p)
    {i : ℕ} {d d' : τ} {sent : List α} (hw : p.writers[i]? = some ⟨d, .writing sent []⟩)
    (hB : B d' sent) :
    Carries B { p.setWriter i ⟨d', .finished⟩ with
      holder := none, log := p.log ++ [(i, sent)] } := by
  have hset : Carries B (p.setWriter i ⟨d', .finished⟩) :=
    hc.setWriter hs hw (by simp) (by simp [Stage.buffer?])
  refine ⟨hset.staged, ?_⟩
  intro j buf hj
  rcases List.mem_append.mp hj with hj | hj
  · exact hset.logged j buf hj
  · obtain ⟨rfl, rfl⟩ : j = i ∧ buf = sent := by simpa using hj
    exact ⟨d', by simpa using Pool.getElem?_setWriter hw ⟨d', .finished⟩ j, hB⟩

/-- **Every move keeps the buffers right.** -/
theorem Carries.step {B : τ → List α → Prop} {prog : Program τ α} (hprog : prog.Writes B)
    {p p' : Pool τ α} {mv : Move τ} (hc : Carries B p) (hs : Sound p)
    (h : Step prog p mv p') : Carries B p' := by
  cases h with
  | spawn d => exact hc.spawn d
  | work hw _ => exact hc.setWriter hs hw (by simp) (by simp [Stage.buffer?])
  | ready hw hp =>
      apply hc.setWriter hs hw (by simp)
      intro buf hbuf
      obtain rfl := Option.some.inj hbuf
      exact hprog.ready _ _ _ hp
  | quit hw _ => exact hc.setWriter hs hw (by simp) (by simp [Stage.buffer?])
  | refuse hw hahead =>
      exact hc.setWriter hs hw (Stage.ne_finished_of_ahead hahead) (by simp [Stage.buffer?])
  | @abort i d rest hw =>
      have hset : Carries B (p.setWriter i ⟨prog.fail d, .finished⟩) :=
        hc.setWriter hs hw (by simp) (by simp [Stage.buffer?])
      exact ⟨hset.staged, hset.logged⟩
  | @acquire i d buf hw _ =>
      have hset : Carries B (p.setWriter i ⟨d, .writing [] buf⟩) :=
        hc.setWriter hs hw (by simp) fun buf' hbuf =>
          hc.staged i d _ buf' hw (by simpa [Stage.buffer?] using hbuf)
      exact ⟨hset.staged, hset.logged⟩
  | @put i d sent rest a hw =>
      have hset : Carries B (p.setWriter i ⟨d, .writing (sent ++ [a]) rest⟩) :=
        hc.setWriter hs hw (by simp) fun buf' hbuf =>
          hc.staged i d _ buf' hw (by simpa [Stage.buffer?] using hbuf)
      exact ⟨hset.staged, hset.logged⟩
  | @release i d sent hw =>
      have hBd := hc.staged i d _ sent hw (by simp [Stage.buffer?])
      exact hc.release hs hw (hprog.finish d sent hBd)
  | lockOther _ => exact ⟨hc.staged, hc.logged⟩
  | unlockOther _ => exact ⟨hc.staged, hc.logged⟩

/-! ## What all writers' data have in common -/

/-- A program that keeps a property of the data it works on. -/
structure Program.Keeps (prog : Program τ α) (P : τ → Prop) : Prop where
  prepare : ∀ d, P d → P (prog.prepare d).data
  finish : ∀ d, P d → P (prog.finish d)
  fail : ∀ d, P d → P (prog.fail d)

/-- Every writer's data have the property `P`. -/
def Each (P : τ → Prop) (p : Pool τ α) : Prop := ∀ w ∈ p.writers, P w.data

theorem Each.setWriter {P : τ → Prop} {p : Pool τ α} (he : Each P p) (i : ℕ) (w' : Writer τ α)
    (hw' : P w'.data) : Each P (p.setWriter i w') := by
  intro w hw
  rcases List.mem_or_eq_of_mem_set hw with hmem | rfl
  · exact he w hmem
  · exact hw'

/-- **Every move keeps the property**, if writers are started with it. -/
theorem Each.step {P : τ → Prop} {prog : Program τ α} (hprog : prog.Keeps P) {p p' : Pool τ α}
    {mv : Move τ} (he : Each P p) (h : Step prog p mv p') (hspawn : ∀ d, mv = .spawn d → P d) :
    Each P p' := by
  have hdata : ∀ {i : ℕ} {d : τ} {st : Stage α}, p.writers[i]? = some ⟨d, st⟩ → P d :=
    fun hw => he _ (List.mem_of_getElem? hw)
  have hprep : ∀ {i : ℕ} {d : τ} {r : Prep τ α}, p.writers[i]? = some ⟨d, .preparing⟩ →
      prog.prepare d = r → P r.data := by
    intro i d r hw hr
    exact hr ▸ hprog.prepare d (hdata hw)
  cases h with
  | spawn d =>
      intro w hw
      rcases List.mem_append.mp hw with hmem | hmem
      · exact he w hmem
      · rw [List.mem_singleton.mp hmem]
        exact hspawn d rfl
  | work hw hp => exact he.setWriter _ _ (hprep hw hp)
  | ready hw hp => exact he.setWriter _ _ (hprep hw hp)
  | quit hw hp => exact he.setWriter _ _ (hprep hw hp)
  | @acquire i d buf hw _ => exact he.setWriter i ⟨d, .writing [] buf⟩ (hdata hw)
  | @put i d sent rest a hw => exact he.setWriter i ⟨d, .writing (sent ++ [a]) rest⟩ (hdata hw)
  | @release i d sent hw =>
      exact he.setWriter i ⟨prog.finish d, .finished⟩ (hprog.finish _ (hdata hw))
  | refuse hw _ => exact he.setWriter _ _ (hprog.fail _ (hdata hw))
  | @abort i d rest hw =>
      exact he.setWriter i ⟨prog.fail d, .finished⟩ (hprog.fail _ (hdata hw))
  | lockOther _ => exact he
  | unlockOther _ => exact he

/-! ## Runs of the pool -/

theorem Sound.of_reachable {prog : Program τ α} {p : Pool τ α}
    (hp : (machine prog).Reachable p) : Sound p :=
  hp.invariant Sound.empty fun _ _ _ hs h => hs.step (Step.of_eq_some h)

theorem Carries.of_reachable {B : τ → List α → Prop} {prog : Program τ α} (hprog : prog.Writes B)
    {p : Pool τ α} (hp : (machine prog).Reachable p) : Carries B p := by
  have hstep : ∀ (q : Pool τ α) mv q', Sound q ∧ Carries B q →
      (machine prog).step q mv = some q' → Sound q' ∧ Carries B q' := by
    rintro q mv q' ⟨hs, hc⟩ h
    exact ⟨hs.step (Step.of_eq_some h), hc.step hprog hs (Step.of_eq_some h)⟩
  have hinit : Sound (machine prog).init ∧ Carries B (machine prog).init :=
    ⟨Sound.empty, Carries.empty B⟩
  exact (Machine.Reachable.invariant (I := fun q => Sound q ∧ Carries B q) hinit hstep hp).2

/-! ## Order of completion -/

/-- Completion follows the order of starting: at most the writer started last is still
ahead of the lock, and everything completed was started before the present holder. -/
structure Ordered (p : Pool τ α) : Prop where
  ahead_last : ∀ (i : ℕ) d st, p.writers[i]? = some ⟨d, st⟩ → st.ahead = true →
    i + 1 = p.writers.length
  before_holder : ∀ i, p.holder = some (.writer i) → ∀ j ∈ p.log.map Prod.fst, j < i
  sorted : (p.log.map Prod.fst).Pairwise (· < ·)

theorem Ordered.empty : Ordered ({} : Pool τ α) where
  ahead_last := by simp
  before_holder := by simp
  sorted := List.Pairwise.nil

/-- A writer may be replaced when it does not get ahead of the lock by that. -/
theorem Ordered.setWriter {p : Pool τ α} (ho : Ordered p) {i : ℕ} {d : τ} {st : Stage α}
    (hw : p.writers[i]? = some ⟨d, st⟩) {w' : Writer τ α}
    (hahead : w'.stage.ahead = true → st.ahead = true) : Ordered (p.setWriter i w') where
  ahead_last := by
    intro j d' st' hj hst
    rw [Pool.getElem?_setWriter hw] at hj
    rw [Pool.length_setWriter]
    by_cases hji : j = i
    · rw [if_pos hji, Option.some.injEq] at hj
      subst hj
      exact hji ▸ ho.ahead_last i d st hw (hahead hst)
    · rw [if_neg hji] at hj
      exact ho.ahead_last j d' st' hj hst
  before_holder := ho.before_holder
  sorted := ho.sorted

/-- A writer may be started while none is ahead of the lock. -/
theorem Ordered.spawn {p : Pool τ α} (ho : Ordered p)
    (hnone : ∀ w ∈ p.writers, w.stage.ahead = false) (d : τ) : Ordered (p.spawn d) := by
  refine ⟨?_, ho.before_holder, ho.sorted⟩
  intro j d' st hj hst
  rw [Pool.getElem?_spawn] at hj
  by_cases hlen : j = p.writers.length
  · simp [Pool.spawn, hlen]
  · rw [if_neg hlen] at hj
    have hno := hnone _ (List.mem_of_getElem? hj)
    exact absurd hst (by simp [hno])

/-- The writer that takes the lock is the last one. -/
theorem Ordered.acquire {p : Pool τ α} (ho : Ordered p) (hs : Sound p) {i : ℕ} {d : τ}
    {buf : List α} (hw : p.writers[i]? = some ⟨d, .waiting buf⟩) :
    Ordered { p.setWriter i ⟨d, .writing [] buf⟩ with holder := some (.writer i) } := by
  have hset : Ordered (p.setWriter i ⟨d, .writing [] buf⟩) :=
    ho.setWriter hw fun h => absurd h (by simp [Stage.ahead])
  refine ⟨hset.ahead_last, ?_, ho.sorted⟩
  intro k hk j hj
  obtain rfl : i = k := by simpa using hk
  -- a completed writer is another one
  have hlast := ho.ahead_last i d _ hw rfl
  obtain ⟨d', hd'⟩ := hs.logged j hj
  have hlt : j < p.writers.length := (List.getElem?_eq_some_iff.mp hd').1
  have hne : j ≠ i := fun hji => hs.not_mem_log hw (by simp) (hji ▸ hj)
  omega

/-- The holder was started after all that have completed. -/
theorem Ordered.release {p : Pool τ α} (ho : Ordered p) (hs : Sound p) {i : ℕ} {d : τ}
    {sent : List α} (hw : p.writers[i]? = some ⟨d, .writing sent []⟩) (d' : τ) :
    Ordered { p.setWriter i ⟨d', .finished⟩ with
      holder := none, log := p.log ++ [(i, sent)] } := by
  have hset : Ordered (p.setWriter i ⟨d', .finished⟩) :=
    ho.setWriter hw fun h => absurd h (by simp [Stage.ahead])
  have hbefore := ho.before_holder i (hs.holds i d sent [] hw)
  refine ⟨hset.ahead_last, fun k hk => absurd hk (by simp), ?_⟩
  show ((p.log ++ [(i, sent)]).map Prod.fst).Pairwise (· < ·)
  rw [List.map_append, List.pairwise_append]
  refine ⟨ho.sorted, by simp, ?_⟩
  intro j hj k hk
  obtain rfl : k = i := by simpa using hk
  exact hbefore j hj

/-- **Every move keeps the order**, provided that writers are only started while none is
ahead of the lock. -/
theorem Ordered.step {prog : Program τ α} {p p' : Pool τ α} {mv : Move τ} (ho : Ordered p)
    (hs : Sound p) (h : Step prog p mv p')
    (hspawn : ∀ d, mv = .spawn d → ∀ w ∈ p.writers, w.stage.ahead = false) : Ordered p' := by
  cases h with
  | spawn d => exact ho.spawn (hspawn d rfl) d
  | work hw _ => exact ho.setWriter hw fun _ => rfl
  | ready hw _ => exact ho.setWriter hw fun _ => rfl
  | quit hw _ => exact ho.setWriter hw fun h => absurd h (by simp [Stage.ahead])
  | refuse hw _ => exact ho.setWriter hw fun h => absurd h (by simp [Stage.ahead])
  | @abort i d rest hw =>
      have hset : Ordered (p.setWriter i ⟨prog.fail d, .finished⟩) :=
        ho.setWriter hw fun h => absurd h (by simp [Stage.ahead])
      exact ⟨hset.ahead_last, fun k hk => absurd hk (by simp), ho.sorted⟩
  | acquire hw _ => exact ho.acquire hs hw
  | @put i d sent rest a hw =>
      have hset : Ordered (p.setWriter i ⟨d, .writing (sent ++ [a]) rest⟩) :=
        ho.setWriter hw fun h => absurd h (by simp [Stage.ahead])
      exact ⟨hset.ahead_last, ho.before_holder, ho.sorted⟩
  | release hw => exact ho.release hs hw _
  | lockOther _ =>
      exact ⟨ho.ahead_last, fun k hk => absurd hk (by simp), ho.sorted⟩
  | unlockOther _ =>
      exact ⟨ho.ahead_last, fun k hk => absurd hk (by simp), ho.sorted⟩

/-! ## Running a writer to its end -/

theorem advance_of_work {prog : Program τ α} {p : Pool τ α} {i : ℕ} {d d' : τ}
    (hw : p.writers[i]? = some ⟨d, .preparing⟩) (hp : prog.prepare d = .work d') :
    advance prog p i = some (p.setWriter i ⟨d', .preparing⟩) := by
  simp [advance, hw, hp]

theorem advance_of_ready {prog : Program τ α} {p : Pool τ α} {i : ℕ} {d d' : τ} {buf : List α}
    (hw : p.writers[i]? = some ⟨d, .preparing⟩) (hp : prog.prepare d = .ready d' buf) :
    advance prog p i = some (p.setWriter i ⟨d', .waiting buf⟩) := by
  simp [advance, hw, hp]

/-- The holder can always put the rest of its buffer and release the lock. -/
theorem run_writing (prog : Program τ α) {p : Pool τ α} {i : ℕ} {d : τ} {sent rest : List α}
    (hw : p.writers[i]? = some ⟨d, .writing sent rest⟩) :
    (machine prog).run p (List.replicate (rest.length + 1) (.advance i)) =
      some { p.setWriter i ⟨prog.finish d, .finished⟩ with
        holder := none, log := p.log ++ [(i, sent ++ rest)], out := p.out ++ rest } := by
  induction rest generalizing p sent with
  | nil => simp [Machine.run_cons, machine, step, advance, hw]
  | cons a rest ih =>
      have hstep : (machine prog).step p (.advance i) =
          some { p.setWriter i ⟨d, .writing (sent ++ [a]) rest⟩ with out := p.out ++ [a] } := by
        simp [machine, step, advance, hw]
      rw [List.length_cons, List.replicate_succ, Machine.run_cons, hstep, Option.bind_some]
      refine (ih (by simpa using Pool.getElem?_setWriter hw ⟨d, .writing (sent ++ [a]) rest⟩ i)).trans ?_
      simp [Pool.setWriter]

/-- **A writer that waits for a free lock can be run to its end**: its buffer is
completed next, and nothing else changes. -/
theorem exists_completion (prog : Program τ α) {p : Pool τ α} {i : ℕ} {d : τ} {buf : List α}
    (hw : p.writers[i]? = some ⟨d, .waiting buf⟩) (hfree : p.holder = none) :
    (machine prog).run p (List.replicate (buf.length + 2) (.advance i)) =
      some { p.setWriter i ⟨prog.finish d, .finished⟩ with
        holder := none, log := p.log ++ [(i, buf)], out := p.out ++ buf } := by
  have hstep : (machine prog).step p (.advance i) =
      some { p.setWriter i ⟨d, .writing [] buf⟩ with holder := some (.writer i) } := by
    simp [machine, step, advance, hw, hfree]
  rw [List.replicate_succ, Machine.run_cons, hstep, Option.bind_some]
  refine (run_writing prog
    (by simpa using Pool.getElem?_setWriter hw ⟨d, .writing [] buf⟩ i)).trans ?_
  simp [Pool.setWriter]

end WriterPool
