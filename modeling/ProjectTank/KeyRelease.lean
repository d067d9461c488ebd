/-
# Releasing the keys while handlers overtake each other (`main`)

Every key event of `main/index.html` starts a request of its own, and each request has a
thread of its own.  `serial_lock` keeps their writes apart, but it fixes no order.

* `car_stops_after_release`: once no movement key is held and every letter is written and
  read, the current command of the car is `'X'`, in every run in which the last movement
  key only comes up while no other letter is still ahead of the lock;
* `stop_overtaken`: otherwise the stop command can be written first, and the car drives on.
-/
import ProjectTank.HeldKeys

open ProgramText WriterPool LetterServer LetterPage CarFirmware
open TankServer (Setting)

namespace MainCar

/-- Page, server and board: the handlers of the requests are in the order of issue. -/
structure System where
  pressedKeys : List Text := []
  server : Pool Request UInt8 := {}
  board : Board := {}

/-- Everything that can happen next: a key event, a step of a handler, an exception of
`ser.write` in a handler, an iteration of the firmware.  The space bar also sends requests,
which write nothing to the port. -/
inductive Event
  | key (e : KeyEvent)
  | handler (i : ℕ)
  | raise (i : ℕ)
  | loop

/-- `sendMovementCommand`. -/
def sendMovementCommand (u : UnicodeTables) (server : Pool Request UInt8) (command : Text) :
    Pool Request UInt8 :=
  if toUpperCase u command ∈ commandLetters then
    server.spawn { path := tankCommandUrl u command }
  else server

/-- A handler that has not come to `send_command_to_arduino` yet. -/
def isPreparing (server : Pool Request UInt8) (i : ℕ) : Bool :=
  match server.writers[i]? with
  | some ⟨_, .preparing⟩ => true
  | _ => false

/-- One step. -/
def step (s : Setting) (x : System) : Event → Option System
  | .key e =>
      let heard := listener s.unicode x.pressedKeys e
      some { x with
        pressedKeys := heard.1
        server := heard.2.elim x.server (sendMovementCommand s.unicode x.server) }
  | .handler i =>
      (WriterPool.step (handler s) x.server (.advance i)).map fun server => { x with server := server }
  | .raise i =>
      -- before `send_command_to_arduino` there is nothing that could raise
      if isPreparing x.server i then none
      else (WriterPool.step (handler s) x.server (.raise i)).map fun server =>
        { x with server := server }
  | .loop => some { x with board := x.board.loop x.server.out }

/-- The system, with nothing pressed and nothing sent. -/
def machine (s : Setting) : Machine System Event where
  init := {}
  step := step s

/-- Everything a step can do, one constructor for each way. -/
inductive Change (s : Setting) (x : System) : Event → System → Prop
  | quiet {e : KeyEvent} {pressedKeys : List Text}
      (hheld : Held pressedKeys ↔ Held x.pressedKeys) :
      Change s x (.key e) { x with pressedKeys := pressedKeys }
  | send {e : KeyEvent} {pressedKeys : List Text} {command : Text}
      (hletter : toUpperCase s.unicode command ∈ commandLetters)
      (hheld : Held pressedKeys ∨
        (ReleasesLast s.unicode x.pressedKeys e ∧ command = stopCommand)) :
      Change s x (.key e)
        { x with
          pressedKeys := pressedKeys
          server := x.server.spawn { path := tankCommandUrl s.unicode command } }
  | thread {e : Event} {mv : Move Request} {server : Pool Request UInt8}
      (hmv : ∀ d, mv ≠ .spawn d) (hserver : Step (handler s) x.server mv server) :
      Change s x e { x with server := server }
  | loop : Change s x .loop { x with board := x.board.loop x.server.out }

/-- A command that the page knows is sent. -/
theorem Change.of_command {s : Setting} {x : System} {e : KeyEvent} {pressedKeys : List Text}
    {command : Text} (hletter : toUpperCase s.unicode command ∈ commandLetters)
    (hheld : Held pressedKeys ∨
      (ReleasesLast s.unicode x.pressedKeys e ∧ command = stopCommand)) :
    Change s x (.key e)
      { x with
        pressedKeys := pressedKeys
        server := sendMovementCommand s.unicode x.server command } := by
  rw [sendMovementCommand, if_pos hletter]
  exact .send hletter hheld

/-- **Inversion of a step.** -/
theorem Change.of_eq_some {s : Setting} {x x' : System} {e : Event} (h : step s x e = some x') :
    Change s x e x' := by
  cases e with
  | key e =>
      obtain rfl := Option.some.inj h
      cases hheard : listener s.unicode x.pressedKeys e with
      | mk pressedKeys command =>
          have hcases := listened s.unicode x.pressedKeys e
          rw [hheard] at hcases
          cases hcases with
          | nothing hheld => exact .quiet hheld
          | move hkey hheld => exact .of_command (toUpperCase_movementKey _ hkey) (Or.inl hheld)
          | stop hlast _ =>
              exact .of_command (stopCommand_mem_commandLetters _) (Or.inr ⟨hlast, rfl⟩)
  | handler i =>
      obtain ⟨server, hserver, rfl⟩ := Option.map_eq_some_iff.mp h
      exact .thread (by simp) (Step.of_eq_some hserver)
  | raise i =>
      obtain ⟨-, hmap⟩ := Option.ite_none_left_eq_some.mp h
      obtain ⟨server, hserver, rfl⟩ := Option.map_eq_some_iff.mp hmap
      exact .thread (by simp) (Step.of_eq_some hserver)
  | loop => exact Option.some.inj h ▸ .loop

/-! ## Invariants -/

/-- The request is for the stop command. -/
def IsStop (s : Setting) (r : Request) : Prop := commandOf s.unicode r.path = stopCommand

theorem keeps_isStop (s : Setting) : (handler s).Keeps (IsStop s) :=
  keeps_path s fun path => commandOf s.unicode path = stopCommand

/-- What every reachable state satisfies. -/
structure Inv (s : Setting) (x : System) : Prop where
  sound : Sound x.server
  carries : Carries (LetterOf s) x.server
  follows : x.board.Follows x.server.out

theorem Inv.init (s : Setting) : Inv s {} :=
  ⟨Sound.empty, Carries.empty _, ⟨Nat.le_refl _, rfl⟩⟩

theorem Inv.step {s : Setting} {x x' : System} {e : Event} (hi : Inv s x)
    (h : step s x e = some x') : Inv s x' := by
  cases Change.of_eq_some h with
  | quiet _ => exact ⟨hi.sound, hi.carries, hi.follows⟩
  | send _ _ => exact ⟨hi.sound.spawn _, hi.carries.spawn _, hi.follows⟩
  | thread _ hserver =>
      obtain ⟨added, hout⟩ := hserver.out_append
      refine ⟨hi.sound.step hserver, hi.carries.step (handler_writes s) hi.sound hserver, ?_⟩
      show x.board.Follows _
      rw [hout]
      exact hi.follows.append added
  | loop => exact ⟨hi.sound, hi.carries, hi.follows.loop⟩

/-- While no movement key is held, only stop commands are ahead of the lock, and the last
letter committed to the port is the stop command unless one is still to come. -/
def Settled (s : Setting) (x : System) : Prop :=
  ¬ Held x.pressedKeys → Settles (IsStop s) (fun out => afterBytes out = 'X') x.server

/-- The last movement key comes up only while no handler of another letter is still ahead of
the lock. -/
def StopsLast (s : Setting) (x : System) : Event → Prop
  | .key e => ReleasesLast s.unicode x.pressedKeys e →
      ∀ w ∈ x.server.writers, w.stage.ahead = true → IsStop s w.data
  | _ => True

instance (s : Setting) (r : Request) : Decidable (IsStop s r) :=
  inferInstanceAs (Decidable (commandOf s.unicode r.path = stopCommand))

instance (s : Setting) (x : System) : ∀ e, Decidable (StopsLast s x e)
  | .key _ => inferInstanceAs (Decidable (_ → _))
  | .handler _ | .raise _ | .loop => isTrue trivial

/-- A stop command leaves the firmware at `'X'`. -/
theorem afterBytes_append_stop {s : Setting} (out : List UInt8) (r : Request) (buf : List UInt8)
    (hr : IsStop s r) (hbuf : LetterOf s r buf) : afterBytes (out ++ buf) = 'X' := by
  rw [hbuf.2.2, show commandOf s.unicode r.path = stopCommand from hr]
  exact afterBytes_of_getLast? (List.getLast?_concat)

theorem Settled.step {s : Setting} {x x' : System} {e : Event} (hi : Inv s x)
    (hset : Settled s x) (hC : StopsLast s x e) (h : step s x e = some x') : Settled s x' := by
  intro hheld'
  cases Change.of_eq_some h with
  | quiet hheld => exact hset fun hx => hheld' (hheld.mpr hx)
  | send hletter hheld =>
      -- the last movement key has come up: the request is for the stop command
      rcases hheld with hheld | ⟨hlast, rfl⟩
      · exact absurd hheld hheld'
      · refine Settles.of_spawn ?_ fun i r st hw hst => hC hlast _ (List.mem_of_getElem? hw) hst
        exact (commandOf_tankCommandUrl _ _ hletter).2
  | thread hmv hserver =>
      exact (hset hheld').step (keeps_isStop s) afterBytes_append_stop hi.sound hi.carries hserver
        fun d hd => absurd hd (hmv d)
  | loop => exact hset hheld'

/-! ## Runs -/

/-- **The car stops when the keys are released**, in every run in which the last movement
key only comes up while no other letter is still ahead of the lock: once no movement key
is held, every request has had its letter written, and the firmware has read all of
them, the current command is `'X'`. -/
theorem car_stops_after_release (s : Setting) {x : System}
    (hx : (machine s).ReachesUnder (StopsLast s) x) (hheld : ¬ Held x.pressedKeys)
    (hdone : ∀ i < x.server.writers.length, i ∈ x.server.log.map Prod.fst)
    (hread : x.board.consumed = x.server.out.length) : x.board.car.currentCommand = 'X' := by
  have hempty : Settled s {} := fun _ => ⟨by simp, Or.inr (Or.inl rfl)⟩
  have hboth : Inv s x ∧ Settled s x := by
    refine hx.invariant (I := fun x => Inv s x ∧ Settled s x) ⟨Inv.init s, hempty⟩ ?_
    rintro y e y' ⟨hi, hset⟩ hC h
    exact ⟨hi.step h, Settled.step hi hset hC h⟩
  obtain ⟨hi, hset⟩ := hboth
  rw [hi.follows.of_all hread]
  exact (hset hheld).ends hi.sound hdone

/-- A handler from the first step to the release of the lock. -/
def serve (i : ℕ) : List Event := List.replicate 4 (.handler i)

/-- The setting of the runs below. -/
def openPort : Setting := ⟨.bare, true, []⟩

/-- The key w goes down and comes up, one handler after the other. -/
theorem car_stops_after_release_of_w :
    ∃ x, (machine openPort).runUnder (StopsLast openPort) (machine openPort).init
        ([.key (.keydown ['w'])] ++ serve 0 ++ [.loop, .key (.keyup ['w'])] ++ serve 1 ++ [.loop]) =
          some x ∧
      x.server.out = [87, 88] ∧ x.board.car.currentCommand = 'X' := by
  have hrun : ((machine openPort).runUnder (StopsLast openPort) (machine openPort).init
      ([.key (.keydown ['w'])] ++ serve 0 ++ [.loop, .key (.keyup ['w'])] ++ serve 1 ++ [.loop])).map
        (fun x => (x.pressedKeys, x.server.out, x.server.writers.length, x.server.log.map Prod.fst,
          x.board.consumed)) = some ([], [87, 88], 2, [0, 1], 2) := by decide
  obtain ⟨x, hx, hfacts⟩ := Option.map_eq_some_iff.mp hrun
  simp only [Prod.mk.injEq] at hfacts
  obtain ⟨hkeys, hout, hlen, hlog, hconsumed⟩ := hfacts
  refine ⟨x, hx, hout, car_stops_after_release openPort (Machine.ReachesUnder.init.runUnder hx) ?_ ?_ ?_⟩
  · rw [hkeys]
    decide
  · rw [hlen, hlog]
    decide
  · rw [hconsumed, hout]
    rfl

/-- **The stop command is overtaken.**  Both handlers are under way when w comes up, and
that of the stop command takes the lock first: everything is written and read, no key is
held, and the current command stays `'W'`. -/
theorem stop_overtaken :
    ¬ ∀ (s : Setting) (x : System), (machine s).Reachable x → ¬ Held x.pressedKeys →
      (∀ i < x.server.writers.length, i ∈ x.server.log.map Prod.fst) →
      x.board.consumed = x.server.out.length → x.board.car.currentCommand = 'X' := by
  intro hall
  have hrun : ((machine openPort).run (machine openPort).init
      ([.key (.keydown ['w']), .key (.keyup ['w'])] ++ serve 1 ++ serve 0 ++ [.loop, .loop])).map
        (fun x => (x.pressedKeys, x.server.writers.length, x.server.log.map Prod.fst,
          decide (x.board.consumed = x.server.out.length), x.board.car.currentCommand)) =
            some ([], 2, [1, 0], true, 'W') := by decide
  obtain ⟨x, hx, hfacts⟩ := Option.map_eq_some_iff.mp hrun
  simp only [Prod.mk.injEq] at hfacts
  obtain ⟨hkeys, hlen, hlog, hread, hcommand⟩ := hfacts
  have hstop := hall openPort x (Machine.reachable_of_run hx) (by rw [hkeys]; decide)
    (by rw [hlen, hlog]; decide) (of_decide_eq_true hread)
  rw [hcommand] at hstop
  exact absurd hstop (by decide)

end MainCar
