/-
# Which writer has the last word

Writers that are under way together may take the lock in any order, so what stands
last in the output of a `WriterPool` depends on who is still ahead of the lock.

* `Step.origin`: where an unfinished writer comes from, one move back;
* `Pool.committed`: the output as it will be when the present holder is done; only
  taking the lock adds to it;
* `Settles.step`: if every writer ahead of the lock is of one kind, then, unless a writer
  has been dropped, the output ends the way that kind ends it as soon as none is
  ahead any more.

Nothing here refers to a particular program.
-/
import ProjectTank.WriterPool

namespace WriterPool

variable {τ α : Type*}

/-! ## Where a writer comes from -/

/-- A writer that has something left to put into the output, or may still get it. -/
def Stage.unwritten : Stage α → Bool
  | .preparing => true
  | .waiting _ => true
  | .writing _ rest => !rest.isEmpty
  | .finished => false

/-- A writer, one move back: it was no further then, and its data were the same, unless it
has taken a private step. -/
inductive Origin (prog : Program τ α) (p : Pool τ α) (j : ℕ) (d' : τ) (st' : Stage α) : Prop
  | same {st : Stage α} (hw : p.writers[j]? = some ⟨d', st⟩)
      (hahead : st'.ahead = true → st.ahead = true)
      (hunwritten : st'.unwritten = true → st.unwritten = true)
  | prepared {d : τ} (hw : p.writers[j]? = some ⟨d, .preparing⟩)
      (hdata : d' = (prog.prepare d).data)

/-- A replaced writer has the origin that its replacement gives it, the others stay. -/
theorem Origin.of_setWriter {prog : Program τ α} {p : Pool τ α} {i : ℕ} {w : Writer τ α}
    (hw : p.writers[i]? = some w) {w' : Writer τ α} {j : ℕ} {d' : τ} {st' : Stage α}
    (hj : (p.setWriter i w').writers[j]? = some ⟨d', st'⟩)
    (hi : w' = ⟨d', st'⟩ → Origin prog p i d' st') : Origin prog p j d' st' := by
  rw [Pool.getElem?_setWriter hw] at hj
  by_cases hji : j = i
  · rw [if_pos hji] at hj
    exact hji ▸ hi (Option.some.inj hj)
  · rw [if_neg hji] at hj
    exact .same hj id id

/-- **The origin of an unfinished writer**: it has just been started, or it was there. -/
theorem Step.origin {prog : Program τ α} {p p' : Pool τ α} {mv : Move τ} (h : Step prog p mv p')
    {j : ℕ} {d' : τ} {st' : Stage α} (hj : p'.writers[j]? = some ⟨d', st'⟩)
    (hst : st' ≠ .finished) : mv = .spawn d' ∨ Origin prog p j d' st' := by
  cases h with
  | spawn d =>
      rw [Pool.getElem?_spawn] at hj
      by_cases hlen : j = p.writers.length
      · rw [if_pos hlen, Option.some.injEq, Writer.mk.injEq] at hj
        exact Or.inl (hj.1 ▸ rfl)
      · rw [if_neg hlen] at hj
        exact Or.inr (.same hj id id)
  | work hw hp | ready hw hp =>
      refine Or.inr (.of_setWriter hw hj fun heq => .prepared hw ?_)
      rw [hp]
      exact (Writer.mk.inj heq).1.symm
  | quit hw _ | refuse hw _ | abort hw | release hw =>
      exact Or.inr (.of_setWriter hw hj fun heq => absurd (Writer.mk.inj heq).2.symm hst)
  | acquire hw _ =>
      refine Or.inr (.of_setWriter hw hj fun heq => ?_)
      obtain ⟨rfl, rfl⟩ := Writer.mk.inj heq
      exact .same hw (fun _ => rfl) fun _ => rfl
  | put hw =>
      refine Or.inr (.of_setWriter hw hj fun heq => ?_)
      obtain ⟨rfl, rfl⟩ := Writer.mk.inj heq
      exact .same hw id fun _ => rfl
  | lockOther _ | unlockOther _ => exact Or.inr (.same hj id id)

/-- A property of the data that the program keeps, back from a writer's origin. -/
theorem Origin.keeps {prog : Program τ α} {P : τ → Prop} (hprog : prog.Keeps P) {p : Pool τ α}
    {j : ℕ} {d' : τ} {st' : Stage α} (h : Origin prog p j d' st')
    (hP : ∀ d st, p.writers[j]? = some ⟨d, st⟩ → (st'.ahead = true → st.ahead = true) →
      (st'.unwritten = true → st.unwritten = true) → P d) : P d' := by
  cases h with
  | same hw hahead hunwritten => exact hP _ _ hw hahead hunwritten
  | prepared hw hdata =>
      rw [hdata]
      exact hprog.prepare _ (hP _ _ hw (fun _ => rfl) fun _ => rfl)

/-! ## What is committed -/

namespace Pool

/-- What has been written, and what the present holder has left to write. -/
def committed (p : Pool τ α) : List α :=
  match p.holder with
  | some (.writer i) =>
      match p.writers[i]? with
      | some ⟨_, .writing _ rest⟩ => p.out ++ rest
      | _ => p.out
  | _ => p.out

theorem committed_of_holder {p : Pool τ α} {i : ℕ} {d : τ} {sent rest : List α}
    (hheld : p.holder = some (.writer i)) (hw : p.writers[i]? = some ⟨d, .writing sent rest⟩) :
    p.committed = p.out ++ rest := by
  simp [committed, hheld, hw]

theorem committed_of_idle {p : Pool τ α} (h : ∀ i, p.holder ≠ some (.writer i)) :
    p.committed = p.out := by
  unfold committed
  split
  · next i hi => exact absurd hi (h i)
  · rfl

/-- A writer is ahead of the lock. -/
def SomeAhead (p : Pool τ α) : Prop :=
  ∃ (i : ℕ) (d : τ) (st : Stage α), p.writers[i]? = some ⟨d, st⟩ ∧ st.ahead = true

/-- A writer has finished without completing its buffer. -/
def Dropped (p : Pool τ α) : Prop :=
  ∃ (i : ℕ) (d : τ), p.writers[i]? = some ⟨d, .finished⟩ ∧ i ∉ p.log.map Prod.fst

end Pool

/-- Taking the free lock commits the buffer. -/
theorem Pool.committed_acquire {p : Pool τ α} {i : ℕ} {d : τ} {buf : List α}
    (hw : p.writers[i]? = some ⟨d, .waiting buf⟩) :
    Pool.committed { p.setWriter i ⟨d, .writing [] buf⟩ with holder := some (.writer i) } =
      p.out ++ buf := by
  have hnew : (p.setWriter i ⟨d, .writing [] buf⟩).writers[i]? = some ⟨d, .writing [] buf⟩ := by
    simpa using Pool.getElem?_setWriter hw ⟨d, .writing [] buf⟩ i
  exact Pool.committed_of_holder
    (p := { p.setWriter i ⟨d, .writing [] buf⟩ with holder := some (.writer i) }) rfl hnew

/-- Putting an item commits nothing new. -/
theorem Sound.committed_put {p : Pool τ α} (hs : Sound p) {i : ℕ} {d : τ} {sent rest : List α}
    {a : α} (hw : p.writers[i]? = some ⟨d, .writing sent (a :: rest)⟩) :
    Pool.committed { p.setWriter i ⟨d, .writing (sent ++ [a]) rest⟩ with out := p.out ++ [a] } =
      p.committed := by
  have hheld := hs.holds i d sent (a :: rest) hw
  have hnew : (p.setWriter i ⟨d, .writing (sent ++ [a]) rest⟩).writers[i]? =
      some ⟨d, .writing (sent ++ [a]) rest⟩ := by
    simpa using Pool.getElem?_setWriter hw ⟨d, .writing (sent ++ [a]) rest⟩ i
  have hcommitted := Pool.committed_of_holder
    (p := { p.setWriter i ⟨d, .writing (sent ++ [a]) rest⟩ with out := p.out ++ [a] }) hheld hnew
  rw [hcommitted, Pool.committed_of_holder hheld hw, List.append_assoc, List.singleton_append]

/-- Releasing the lock commits nothing new. -/
theorem Sound.committed_release {p : Pool τ α} (hs : Sound p) {i : ℕ} {d : τ} {sent : List α}
    (hw : p.writers[i]? = some ⟨d, .writing sent []⟩) (d' : τ) :
    Pool.committed { p.setWriter i ⟨d', .finished⟩ with
      holder := none, log := p.log ++ [(i, sent)] } = p.committed := by
  rw [Pool.committed_of_holder (hs.holds i d sent [] hw) hw, List.append_nil]
  exact Pool.committed_of_idle (by simp)

/-- The other party commits nothing. -/
theorem Pool.committed_setOther {p : Pool τ α} {h h' : Option Holder} (hh : p.holder = h)
    (hno : ∀ i, h ≠ some (.writer i)) (hno' : ∀ i, h' ≠ some (.writer i)) :
    Pool.committed { p with holder := h' } = p.committed := by
  rw [Pool.committed_of_idle (p := p) (fun i => hh ▸ hno i)]
  exact Pool.committed_of_idle hno'

/-- Who is ahead of the lock stays ahead when the holder is replaced. -/
theorem Pool.SomeAhead.setWriter {p : Pool τ α} (ha : p.SomeAhead) {i : ℕ} {d : τ}
    {sent rest : List α} (hw : p.writers[i]? = some ⟨d, .writing sent rest⟩) (w' : Writer τ α) :
    (p.setWriter i w').SomeAhead := by
  obtain ⟨k, e, st, hk, hst⟩ := ha
  have hne : k ≠ i := by
    rintro rfl
    rw [hw, Option.some.injEq, Writer.mk.injEq] at hk
    exact Stage.ne_writing_of_ahead hst hk.2.symm
  exact ⟨k, e, st, by rw [Pool.getElem?_setWriter hw, if_neg hne, hk], hst⟩

/-- A replaced writer that is ahead of the lock. -/
theorem Pool.someAhead_setWriter {p : Pool τ α} {i : ℕ} {w : Writer τ α}
    (hw : p.writers[i]? = some w) {d' : τ} {st' : Stage α} (hst : st'.ahead = true) :
    (p.setWriter i ⟨d', st'⟩).SomeAhead :=
  ⟨i, d', st', by simpa using Pool.getElem?_setWriter hw ⟨d', st'⟩ i, hst⟩

theorem Pool.someAhead_spawn (p : Pool τ α) (d : τ) : (p.spawn d).SomeAhead :=
  ⟨p.writers.length, d, .preparing, by simp [Pool.getElem?_spawn], rfl⟩

/-- A writer that ends before it has completed its buffer is dropped. -/
theorem Sound.dropped_of_setWriter {p : Pool τ α} (hs : Sound p) {i : ℕ} {d : τ} {st : Stage α}
    (hw : p.writers[i]? = some ⟨d, st⟩) (hst : st ≠ .finished) (d' : τ) :
    (p.setWriter i ⟨d', .finished⟩).Dropped :=
  ⟨i, d', by simpa using Pool.getElem?_setWriter hw ⟨d', .finished⟩ i, hs.not_mem_log hw hst⟩

/-- A dropped writer stays dropped when another one is replaced. -/
theorem Pool.Dropped.setWriter {p : Pool τ α} (hd : p.Dropped) {i : ℕ} {d : τ} {st : Stage α}
    (hw : p.writers[i]? = some ⟨d, st⟩) (hst : st ≠ .finished) (w' : Writer τ α) :
    ∃ (k : ℕ) (d' : τ), (p.setWriter i w').writers[k]? = some ⟨d', .finished⟩ ∧
      k ∉ p.log.map Prod.fst ∧ k ≠ i := by
  obtain ⟨k, d', hk, hlog⟩ := hd
  have hne : k ≠ i := by
    rintro rfl
    rw [hw, Option.some.injEq, Writer.mk.injEq] at hk
    exact hst hk.2
  exact ⟨k, d', by rw [Pool.getElem?_setWriter hw, if_neg hne, hk], hlog, hne⟩

/-! ## The last word -/

/-- Everybody ahead of the lock has data of the kind `Q`; and somebody is ahead, or the
committed output ends well, or a writer has been dropped. -/
structure Settles (Q : τ → Prop) (E : List α → Prop) (p : Pool τ α) : Prop where
  ahead : ∀ (i : ℕ) d st, p.writers[i]? = some ⟨d, st⟩ → st.ahead = true → Q d
  last : p.SomeAhead ∨ E p.committed ∨ p.Dropped

/-- A writer of the kind `Q` is started while all that are ahead are of that kind. -/
theorem Settles.of_spawn {Q : τ → Prop} {E : List α → Prop} {p : Pool τ α} {d : τ} (hd : Q d)
    (hahead : ∀ (i : ℕ) d st, p.writers[i]? = some ⟨d, st⟩ → st.ahead = true → Q d) :
    Settles Q E (p.spawn d) where
  ahead := by
    intro j d' st hj hst
    rw [Pool.getElem?_spawn] at hj
    by_cases hlen : j = p.writers.length
    · rw [if_pos hlen, Option.some.injEq, Writer.mk.injEq] at hj
      exact hj.1 ▸ hd
    · rw [if_neg hlen] at hj
      exact hahead j d' st hj hst
  last := Or.inl (p.someAhead_spawn d)

/-- **A move keeps the last word**, if writers that are started are of the kind `Q` and a
buffer of that kind makes the output end well. -/
theorem Settles.step {Q : τ → Prop} {E : List α → Prop} {B : τ → List α → Prop}
    {prog : Program τ α} (hkeeps : prog.Keeps Q)
    (hend : ∀ out d buf, Q d → B d buf → E (out ++ buf)) {p p' : Pool τ α} {mv : Move τ}
    (hl : Settles Q E p) (hs : Sound p) (hc : Carries B p) (h : Step prog p mv p')
    (hspawn : ∀ d, mv = .spawn d → Q d) : Settles Q E p' := by
  refine ⟨fun j d' st' hj hst => ?_, ?_⟩
  · rcases h.origin hj (Stage.ne_finished_of_ahead hst) with hmv | horigin
    · exact hspawn d' hmv
    · exact horigin.keeps hkeeps fun d st hw hahead _ => hl.ahead j d st hw (hahead hst)
  cases h with
  | spawn d => exact Or.inl (p.someAhead_spawn d)
  | work hw _ => exact Or.inl (Pool.someAhead_setWriter hw rfl)
  | ready hw _ => exact Or.inl (Pool.someAhead_setWriter hw rfl)
  | quit hw _ => exact Or.inr (Or.inr (hs.dropped_of_setWriter hw (by simp) _))
  | refuse hw hahead =>
      exact Or.inr (Or.inr (hs.dropped_of_setWriter hw (Stage.ne_finished_of_ahead hahead) _))
  | @abort i d rest hw =>
      exact Or.inr (Or.inr (hs.dropped_of_setWriter hw (by simp) (prog.fail d)))
  | @acquire i d buf hw _ =>
      -- the buffer that is committed now is one of the kind `Q`
      refine Or.inr (Or.inl ?_)
      rw [Pool.committed_acquire hw]
      exact hend _ d buf (hl.ahead i d _ hw rfl) (hc.staged i d _ buf hw rfl)
  | @put i d sent rest a hw =>
      rw [hs.committed_put hw]
      refine hl.last.imp (fun ha => ha.setWriter hw _) (Or.imp id fun hdrop => ?_)
      obtain ⟨k, d', hk, hlog, -⟩ := hdrop.setWriter hw (by simp) ⟨d, .writing (sent ++ [a]) rest⟩
      exact ⟨k, d', hk, hlog⟩
  | @release i d sent hw =>
      rw [hs.committed_release hw]
      refine hl.last.imp (fun ha => ha.setWriter hw _) (Or.imp id fun hdrop => ?_)
      obtain ⟨k, d', hk, hlog, hne⟩ := hdrop.setWriter hw (by simp) ⟨prog.finish d, .finished⟩
      exact ⟨k, d', hk, by simpa [hne] using hlog⟩
  | lockOther hfree =>
      rw [Pool.committed_setOther hfree (by simp) (by simp)]
      exact hl.last
  | unlockOther hheld =>
      rw [Pool.committed_setOther hheld (by simp) (by simp)]
      exact hl.last

/-- **When every writer has completed its buffer the output ends well.** -/
theorem Settles.ends {Q : τ → Prop} {E : List α → Prop} {p : Pool τ α} (hl : Settles Q E p)
    (hs : Sound p) (hdone : ∀ i < p.writers.length, i ∈ p.log.map Prod.fst) : E p.out := by
  have hfinished : ∀ (i : ℕ) d st, p.writers[i]? = some ⟨d, st⟩ → st = .finished := by
    intro i d st hw
    by_contra hst
    exact hs.not_mem_log hw hst (hdone i (List.getElem?_eq_some_iff.mp hw).1)
  have hidle : ∀ i, p.holder ≠ some (.writer i) := by
    intro i hi
    obtain ⟨d, sent, rest, hw⟩ := hs.inside i hi
    exact absurd (hfinished i d _ hw) (by simp)
  rcases hl.last with ⟨i, d, st, hw, hst⟩ | hend | ⟨i, d, hw, hlog⟩
  · exact absurd (hfinished i d st hw) (Stage.ne_finished_of_ahead hst)
  · rwa [Pool.committed_of_idle hidle] at hend
  · exact absurd (hdone i (List.getElem?_eq_some_iff.mp hw).1) hlog

end WriterPool
