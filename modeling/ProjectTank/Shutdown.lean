/-
# Shutting down while handlers are running (`main`)

`cleanup_gpio` writes the stop command to the serial port, sleeps, closes the port, and
ends the process.  It does not take `serial_lock`, and the handler threads go on while it
sleeps.

* `stop_byte_is_last`: the last byte on the port when it is closed is the stop byte, in
  every run in which no handler has another letter left to write when `cleanup_gpio`
  writes, and no request for one is accepted before the port is closed;
* `letter_after_stop`: otherwise a handler can write its letter after the stop byte.

Requests may have any path.  A signal that arrives while `cleanup_gpio` is running starts
it once more, and that call ends the process.
-/
import ProjectTank.LetterServer

open ProgramText WriterPool LetterServer CarFirmware
open TankServer (Setting Route route)

namespace Shutdown

/-- How far `cleanup_gpio` is: not called, before its write, in its sleep, after
`ser.close()`, gone. -/
inductive Phase
  | running
  | cleaning
  | sleeping
  | closed
  | exited
  deriving DecidableEq

/-- Server, serial port and board; `isOpen` is `ser.is_open`, `false` also without `ser`. -/
structure System where
  server : Pool Request UInt8 := {}
  phase : Phase := .running
  isOpen : Bool
  port : List UInt8
  board : Board := {}

/-- Everything that can happen next: a request arrives, a handler takes its next step or its
write raises, a signal arrives, `cleanup_gpio` writes, raises, closes the port or exits, the
firmware runs an iteration. -/
inductive Event
  | accept (path : Text)
  | handler (i : ℕ)
  | raise (i : ℕ)
  | signal
  | stop
  | fail
  | close
  | exit
  | loop

/-- A handler at its write, with something left to write. -/
def atWrite (server : Pool Request UInt8) (i : ℕ) : Bool :=
  match server.writers[i]? with
  | some ⟨_, .waiting _⟩ => true
  | some ⟨_, .writing _ (_ :: _)⟩ => true
  | _ => false

/-- The server's threads have moved: what they have written is on the port. -/
def System.setServer (x : System) (server : Pool Request UInt8) : System :=
  { x with
    server := server
    port := x.port ++ server.out.drop x.server.out.length }

/-- One step.  After `ser.close()` a write can only raise. -/
def step (s : Setting) (x : System) : Event → Option System
  | .accept path =>
      if x.phase = .exited then none
      else some { x with server := x.server.spawn { path := path } }
  | .handler i =>
      if x.phase = .exited ∨ (x.isOpen = false ∧ atWrite x.server i = true) then none
      else (WriterPool.step (handler s) x.server (.advance i)).map x.setServer
  | .raise i =>
      if x.phase = .exited ∨ atWrite x.server i = false then none
      else (WriterPool.step (handler s) x.server (.raise i)).map x.setServer
  | .signal =>
      match x.phase with
      | .exited => none
      -- `ser.is_open` is `False` then, so the new call has nothing to do but to exit
      | .closed => some x
      | _ => some { x with phase := .cleaning }
  | .stop =>
      if x.phase = .cleaning ∧ x.isOpen = true then
        some { x with port := x.port ++ [stopByte], phase := .sleeping }
      else none
  | .fail =>
      if (x.phase = .cleaning ∧ x.isOpen = true) ∨ x.phase = .sleeping then
        some { x with phase := .exited }
      else none
  | .close =>
      if x.phase = .sleeping then some { x with isOpen := false, phase := .closed } else none
  | .exit =>
      if x.phase = .closed ∨ (x.phase = .cleaning ∧ x.isOpen = false) then
        some { x with phase := .exited }
      else none
  | .loop => some { x with board := x.board.loop x.port }

/-- The system when the server starts: `main` has sent a stop command, if there is a port. -/
def machine (s : Setting) : Machine System Event where
  init := { isOpen := s.serialOpen, port := if s.serialOpen then [stopByte] else [] }
  step := step s

/-- Everything a step can do, one constructor for each way. -/
inductive Change (s : Setting) (x : System) : Event → System → Prop
  | accept (path : Text) :
      Change s x (.accept path) { x with server := x.server.spawn { path := path } }
  | thread {e : Event} {mv : Move Request} {server : Pool Request UInt8}
      (hmv : ∀ d, mv ≠ .spawn d) (hserver : Step (handler s) x.server mv server)
      (hclosed : x.isOpen = false → server.out = x.server.out) :
      Change s x e (x.setServer server)
  | again : Change s x .signal x
  | signal : Change s x .signal { x with phase := .cleaning }
  | stop (hopen : x.isOpen = true) :
      Change s x .stop { x with port := x.port ++ [stopByte], phase := .sleeping }
  | close (hphase : x.phase = .sleeping) :
      Change s x .close { x with isOpen := false, phase := .closed }
  | leave (e : Event) : Change s x e { x with phase := .exited }
  | loop : Change s x .loop { x with board := x.board.loop x.port }

/-- **Inversion of a step.** -/
theorem Change.of_eq_some {s : Setting} {x x' : System} {e : Event} (h : step s x e = some x') :
    Change s x e x' := by
  cases e with
  | accept path => exact Option.some.inj (Option.ite_none_left_eq_some.mp h).2 ▸ .accept path
  | handler i =>
      obtain ⟨hlive, hmap⟩ := Option.ite_none_left_eq_some.mp h
      obtain ⟨server, hserver, rfl⟩ := Option.map_eq_some_iff.mp hmap
      refine .thread (by simp) (Step.of_eq_some hserver) fun hclosed => ?_
      -- what is written is written by a handler at its write
      rcases (Step.of_eq_some hserver).out_cases with hsame | ⟨j, d, sent, a, rest, hmv, hw, -⟩
      · exact hsame
      · obtain rfl := Move.advance.inj hmv
        exact absurd (Or.inr ⟨hclosed, by simp [atWrite, hw]⟩) hlive
  | raise i =>
      obtain ⟨-, hmap⟩ := Option.ite_none_left_eq_some.mp h
      obtain ⟨server, hserver, rfl⟩ := Option.map_eq_some_iff.mp hmap
      refine .thread (by simp) (Step.of_eq_some hserver) fun _ => ?_
      rcases (Step.of_eq_some hserver).out_cases with hsame | ⟨j, d, sent, a, rest, hmv, -⟩
      · exact hsame
      · exact absurd hmv (by simp)
  | signal =>
      simp only [step] at h
      split at h
      · exact absurd h (by simp)
      · exact Option.some.inj h ▸ .again
      · exact Option.some.inj h ▸ .signal
  | stop =>
      obtain ⟨⟨-, hopen⟩, heq⟩ := Option.ite_none_right_eq_some.mp h
      exact Option.some.inj heq ▸ .stop hopen
  | fail => exact Option.some.inj (Option.ite_none_right_eq_some.mp h).2 ▸ .leave _
  | close =>
      obtain ⟨hphase, heq⟩ := Option.ite_none_right_eq_some.mp h
      exact Option.some.inj heq ▸ .close hphase
  | exit => exact Option.some.inj (Option.ite_none_right_eq_some.mp h).2 ▸ .leave _
  | loop => exact Option.some.inj h ▸ .loop

/-! ## Invariants -/

/-- What every reachable state satisfies. -/
structure Inv (s : Setting) (x : System) : Prop where
  sound : Sound x.server
  carries : Carries (LetterOf s) x.server
  follows : x.board.Follows x.port

theorem Inv.step {s : Setting} {x x' : System} {e : Event} (hi : Inv s x)
    (h : step s x e = some x') : Inv s x' := by
  cases Change.of_eq_some h with
  | accept path => exact ⟨hi.sound.spawn _, hi.carries.spawn _, hi.follows⟩
  | thread _ hserver _ =>
      exact ⟨hi.sound.step hserver, hi.carries.step (handler_writes s) hi.sound hserver,
        hi.follows.append _⟩
  | again => exact hi
  | signal => exact ⟨hi.sound, hi.carries, hi.follows⟩
  | stop _ => exact ⟨hi.sound, hi.carries, hi.follows.append _⟩
  | close _ => exact ⟨hi.sound, hi.carries, hi.follows⟩
  | leave _ => exact ⟨hi.sound, hi.carries, hi.follows⟩
  | loop => exact ⟨hi.sound, hi.carries, hi.follows.loop⟩

/-- A path that asks for a letter other than the stop command. -/
def Drives (u : UnicodeTables) (path : Text) : Prop :=
  route path = .tankCommand ∧ commandOf u path ∈ commandLetters ∧ commandOf u path ≠ stopCommand

instance (u : UnicodeTables) (path : Text) : Decidable (Drives u path) :=
  inferInstanceAs (Decidable (_ ∧ _ ∧ _))

/-- After its stop byte the port ends with a stop byte, and what is left to write are stop
bytes. -/
structure Stopped (s : Setting) (x : System) : Prop where
  last : x.phase = .sleeping ∨ (s.serialOpen = true ∧ x.isOpen = false) →
    x.port.getLast? = some stopByte
  quiet : x.phase = .sleeping → ∀ (i : ℕ) r st, x.server.writers[i]? = some ⟨r, st⟩ →
    st.unwritten = true → ¬ Drives s.unicode r.path

/-- When `cleanup_gpio` writes, no handler has a letter other than the stop command left to
write, and while it sleeps no request for one is accepted. -/
def NoLetterAfterStop (s : Setting) (x : System) : Event → Prop
  | .stop => ∀ w ∈ x.server.writers, w.stage.unwritten = true → ¬ Drives s.unicode w.data.path
  | .accept path => x.phase = .sleeping → ¬ Drives s.unicode path
  | _ => True

instance (s : Setting) (x : System) : ∀ e, Decidable (NoLetterAfterStop s x e)
  | .stop => inferInstanceAs (Decidable (∀ w ∈ x.server.writers, _))
  | .accept _ => inferInstanceAs (Decidable (_ → _))
  | .handler _ | .raise _ | .signal | .fail | .close | .exit | .loop => isTrue trivial

/-- The only letter that a path which does not drive can put on the port is the stop byte. -/
theorem eq_stopByte_of_not_drives {s : Setting} {r : Request} {sent rest : List UInt8} {b : UInt8}
    (hletter : LetterOf s r (sent ++ b :: rest)) (hstop : ¬ Drives s.unicode r.path) :
    b = stopByte := by
  obtain ⟨hroute, hmem, hbuf⟩ := hletter
  have hcommand : commandOf s.unicode r.path = stopCommand := by
    by_contra hne
    exact hstop ⟨hroute, hmem, hne⟩
  have hstopByte : encodeUtf8 stopCommand = [stopByte] := rfl
  rw [hcommand, hstopByte] at hbuf
  have hb : b ∈ [stopByte] := hbuf ▸ by simp
  exact List.mem_singleton.mp hb

/-- What a thread writes in the sleep is a stop byte, and a closed port takes nothing. -/
theorem Stopped.last_of_thread {s : Setting} {x : System} {mv : Move Request}
    {server : Pool Request UInt8} (hi : Inv s x) (hs : Stopped s x)
    (hserver : Step (handler s) x.server mv server)
    (hclosed : x.isOpen = false → server.out = x.server.out)
    (hwhen : x.phase = .sleeping ∨ (s.serialOpen = true ∧ x.isOpen = false)) :
    (x.port ++ server.out.drop x.server.out.length).getLast? = some stopByte := by
  have hlast := hs.last hwhen
  rcases hserver.out_cases with hsame | ⟨i, r, sent, b, rest, -, hw, hout⟩
  · rw [hsame, List.drop_length, List.append_nil]
    exact hlast
  · rcases hwhen with hphase | ⟨-, hopen⟩
    · have hb := eq_stopByte_of_not_drives (hi.carries.staged i r _ _ hw rfl)
        (hs.quiet hphase i r _ hw rfl)
      rw [hout, List.drop_left, hb, List.getLast?_concat]
    · rw [hclosed hopen, List.drop_length, List.append_nil]
      exact hlast

/-- A thread does not change what the handlers have left to write. -/
theorem Stopped.quiet_of_thread {s : Setting} {x : System} {mv : Move Request}
    {server : Pool Request UInt8} (hs : Stopped s x) (hmv : ∀ d, mv ≠ .spawn d)
    (hserver : Step (handler s) x.server mv server) (hphase : x.phase = .sleeping) {i : ℕ}
    {r : Request} {st : Stage UInt8} (hw : server.writers[i]? = some ⟨r, st⟩)
    (hst : st.unwritten = true) : ¬ Drives s.unicode r.path := by
  have hunfinished : st ≠ .finished := by
    rintro rfl
    exact Bool.false_ne_true hst
  rcases hserver.origin hw hunfinished with hspawn | horigin
  · exact absurd hspawn (hmv r)
  · exact horigin.keeps (keeps_path s fun path => ¬ Drives s.unicode path)
      fun d st₀ hw₀ _ hunwritten => hs.quiet hphase i d st₀ hw₀ (hunwritten hst)

theorem Stopped.step {s : Setting} {x x' : System} {e : Event} (hi : Inv s x) (hs : Stopped s x)
    (hC : NoLetterAfterStop s x e) (h : step s x e = some x') : Stopped s x' := by
  cases Change.of_eq_some h with
  | accept path =>
      refine ⟨hs.last, fun hphase i r st hw hst => ?_⟩
      rw [Pool.getElem?_spawn] at hw
      by_cases hlen : i = x.server.writers.length
      · rw [if_pos hlen, Option.some.injEq, Writer.mk.injEq] at hw
        exact hw.1 ▸ hC hphase
      · rw [if_neg hlen] at hw
        exact hs.quiet hphase i r st hw hst
  | thread hmv hserver hclosed =>
      exact ⟨hs.last_of_thread hi hserver hclosed,
        fun hphase i r st hw hst => hs.quiet_of_thread hmv hserver hphase hw hst⟩
  | again => exact hs
  | signal =>
      exact ⟨fun hwhen => hs.last (Or.inr (hwhen.resolve_left (by simp))),
        fun hphase => absurd hphase (by simp)⟩
  | stop hopen =>
      exact ⟨fun _ => List.getLast?_concat, fun _ i r st hw hst => hC _ (List.mem_of_getElem? hw) hst⟩
  | close hphase => exact ⟨fun _ => hs.last (Or.inl hphase), fun hphase => absurd hphase (by simp)⟩
  | leave _ =>
      exact ⟨fun hwhen => hs.last (Or.inr (hwhen.resolve_left (by simp))),
        fun hphase => absurd hphase (by simp)⟩
  | loop => exact ⟨hs.last, hs.quiet⟩

/-! ## Runs -/

/-- **The stop byte is the last byte on the port**, in every run in which no handler has
another letter left to write when `cleanup_gpio` writes, and no request for one is accepted
before the port is closed: once `ser.close()` has closed the port that `main` had opened,
the port ends with the stop byte, and when the car has read everything its current command
is `'X'`. -/
theorem stop_byte_is_last (s : Setting) {x : System}
    (hx : (machine s).ReachesUnder (NoLetterAfterStop s) x) (hserial : s.serialOpen = true)
    (hclosed : x.isOpen = false) :
    x.port.getLast? = some stopByte ∧
      (x.board.consumed = x.port.length → x.board.car.currentCommand = 'X') := by
  have hinit : Inv s (machine s).init ∧ Stopped s (machine s).init := by
    have hrunning : (machine s).init.phase = .running := rfl
    refine ⟨⟨Sound.empty, Carries.empty _, ⟨Nat.zero_le _, rfl⟩⟩, ?_, fun hphase => ?_⟩
    · rintro (hphase | ⟨hserial', hopen⟩)
      · exact absurd (hrunning.symm.trans hphase) (by decide)
      · exact absurd (hopen.symm.trans hserial') (by decide)
    · exact absurd (hrunning.symm.trans hphase) (by decide)
  have hboth : Inv s x ∧ Stopped s x := by
    refine hx.invariant (I := fun x => Inv s x ∧ Stopped s x) hinit ?_
    rintro y e y' ⟨hi, hs⟩ hC h
    exact ⟨hi.step h, hs.step hi hC h⟩
  obtain ⟨hi, hs⟩ := hboth
  have hlast := hs.last (Or.inr ⟨hserial, hclosed⟩)
  refine ⟨hlast, fun hread => ?_⟩
  rw [hi.follows.of_all hread]
  exact afterBytes_of_getLast? hlast

/-- The setting of the runs below, and two requests. -/
def openPort : Setting := ⟨.bare, true, []⟩
def forwards : Text := "/tank_command?cmd=W".toList
def halt : Text := "/tank_command?cmd=X".toList

/-- A drive command is done and a stop command is under way when the signal arrives; the
stop command is written in the sleep. -/
theorem stop_byte_is_last_in_sleep :
    ∃ x, (machine openPort).runUnder (NoLetterAfterStop openPort) (machine openPort).init
        ([.accept forwards] ++ List.replicate 4 (.handler 0) ++ [.accept halt, .handler 1, .signal,
          .stop, .handler 1, .handler 1, .close]) = some x ∧
      x.port = [88, 87, 88, 88] ∧ x.port.getLast? = some stopByte := by
  have hrun : ((machine openPort).runUnder (NoLetterAfterStop openPort) (machine openPort).init
      ([.accept forwards] ++ List.replicate 4 (.handler 0) ++ [.accept halt, .handler 1, .signal,
        .stop, .handler 1, .handler 1, .close])).map (fun x => (x.port, x.isOpen)) =
          some ([88, 87, 88, 88], false) := by decide
  obtain ⟨x, hx, hfacts⟩ := Option.map_eq_some_iff.mp hrun
  obtain ⟨hport, hclosed⟩ := Prod.mk.inj hfacts
  exact ⟨x, hx, hport,
    (stop_byte_is_last openPort (Machine.ReachesUnder.init.runUnder hx) rfl hclosed).1⟩

/-- **A letter follows the stop byte.**  The handler of a drive command waits for the lock
when the signal arrives, and writes in the sleep: the port is closed after `'W'`, and the
car ends with it. -/
theorem letter_after_stop :
    ¬ ∀ (s : Setting) (x : System), (machine s).Reachable x → s.serialOpen = true →
      x.isOpen = false → x.port.getLast? = some stopByte ∧
        (x.board.consumed = x.port.length → x.board.car.currentCommand = 'X') := by
  intro hall
  have hrun : ((machine openPort).run (machine openPort).init
      [.accept forwards, .handler 0, .signal, .stop, .handler 0, .handler 0, .close, .loop, .loop,
        .loop]).map (fun x => (x.port, x.isOpen, x.board.consumed, x.board.car.currentCommand)) =
          some ([88, 88, 87], false, 3, 'W') := by decide
  obtain ⟨x, hx, hfacts⟩ := Option.map_eq_some_iff.mp hrun
  simp only [Prod.mk.injEq] at hfacts
  obtain ⟨hport, hclosed, -, -⟩ := hfacts
  have hlast := (hall openPort x (Machine.reachable_of_run hx) rfl hclosed).1
  rw [hport] at hlast
  exact absurd hlast (by decide)

end Shutdown
