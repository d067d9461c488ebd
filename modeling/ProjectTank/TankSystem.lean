/-
# Page, server and firmware together (`Guy/peter`)

One page with its timers and its one-request guard, the server with a thread for
each request, the serial line, and the firmware, as one machine.  Every way in which
the parts can be ordered is an `Event`: a timer fires, the headers of a response
arrive, a handler thread takes its next step, the firmware runs an iteration.

* The page is `repeatedTask`, the `visibilitychange` listener and
  `cleanupManager.cleanup` of `index_fixed.html`.
* The server is the pool of `TankServer`; `cleanup_gpio` takes it from `running` over
  the sleep and `ser.close()` to `os._exit(0)`.
* `ser.write` hands over whole buffers, so the firmware finds a complete line when it
  finds anything: `loop` with a part of a line in the buffer waits in
  `readStringUntil`, that is, it is not enabled.

`Change` lists what a step can do, one constructor for each way; the results about
whole runs are by cases on it.
-/
import ProjectTank.SerialLines

open ProgramText TankFirmware TankServer CommandLink WriterPool

namespace TankSystem

/-! ## The page -/

/-- What the controls of the page stand at; the joystick values are integers of ordinary
size. -/
structure Controls where
  leftJoystickY : ℤ := 0
  leftJoystickX : ℤ := 0
  rightJoystickY : ℤ := 0
  rightJoystickX : ℤ := 0
  isFireOn : Bool := false
  isLightOn : Bool := false
  fits : FitsInt32 leftJoystickY ∧ FitsInt32 leftJoystickX ∧ FitsInt32 rightJoystickY ∧
    FitsInt32 rightJoystickX := by decide

/-- The six values of a command, in the place of the fields they are meant for. -/
def Controls.values (c : Controls) : Field → ℤ :=
  valuesOf c.leftJoystickY c.leftJoystickX c.rightJoystickY c.rightJoystickX
    (if c.isFireOn then 1 else 0) (if c.isLightOn then 1 else 0)

theorem Controls.fitsInt32_values (c : Controls) (f : Field) : FitsInt32 (c.values f) := by
  obtain ⟨h1, h2, h3, h4⟩ := c.fits
  have hbit : ∀ b : Bool, FitsInt32 (if b then 1 else 0) := by decide
  cases f with
  | forwardReverse => exact h1
  | leftRight => exact h2
  | upDown => exact h3
  | turretLeftRight => exact h4
  | fireCannon => exact hbit c.isFireOn
  | lightControl => exact hbit c.isLightOn

/-- The URL that `repeatedTask` requests. -/
def Controls.url (c : Controls) : Text :=
  JoystickPage.tankCommandUrl (JoystickPage.rawCommand c.leftJoystickY c.leftJoystickX
    c.rightJoystickY c.rightJoystickX (if c.isFireOn then 1 else 0) (if c.isLightOn then 1 else 0))

/-- The state of the page: `timers` are the intervals that run `repeatedTask`,
`intervals` those that `cleanupManager` knows, `pendingRequest` the number of the request
in flight. -/
structure Page where
  controls : Controls := {}
  pendingRequest : Option ℕ := none
  mainIntervalId : Option ℕ := some 1
  timers : List ℕ := [1]
  intervals : List ℕ := [1]
  nextId : ℕ := 2

/-- `visibilitychange`, the document being hidden now. -/
def Page.hide (p : Page) : Page :=
  match p.mainIntervalId with
  | some id => { p with timers := p.timers.filter (· ≠ id), mainIntervalId := none }
  | none => p

/-- `visibilitychange`, the document being visible again. -/
def Page.unhide (p : Page) : Page :=
  match p.mainIntervalId with
  | some _ => p
  | none =>
      { p with
        mainIntervalId := some p.nextId
        timers := p.timers ++ [p.nextId]
        intervals := p.intervals ++ [p.nextId]
        nextId := p.nextId + 1 }

/-- `cleanupManager.cleanup`: the intervals are cleared, the request in flight is aborted,
which ends with `pendingRequest = null`. -/
def Page.cleanup (p : Page) : Page :=
  { p with
    timers := p.timers.filter (· ∉ p.intervals)
    intervals := []
    pendingRequest := none }

/-! ## The system -/

/-- How far `cleanup_gpio` is: not called, in its sleep, after `ser.close()`, gone. -/
inductive Phase
  | running
  | closing
  | closed
  | exited
  deriving DecidableEq

/-- Page, server, and the firmware, which has taken the first `consumed` bytes from the
serial port. -/
structure System where
  page : Page := {}
  server : Pool Request UInt8 := {}
  phase : Phase := .running
  tank : Tank
  consumed : ℕ := 0

/-- What has arrived at the board and has not been read. -/
def System.rx (x : System) : List UInt8 := x.server.out.drop x.consumed

/-- Everything that can happen next. -/
inductive Event
  | control (c : Controls)
  | tick (id : ℕ)
  | arrive
  | reject
  | hide
  | unhide
  | unload
  | handler (i : ℕ)
  | raise (i : ℕ)
  | sensor
  | signal
  | close
  | exit
  | loop (i : Iteration)

/-- `repeatedTask`. -/
def System.repeatedTask (x : System) : System :=
  match x.page.pendingRequest with
  | some _ => x
  | none =>
      { x with
        page := { x.page with pendingRequest := some x.server.writers.length }
        server := x.server.spawn { path := x.page.controls.url } }

/-- The headers of the response to request `i` have been sent. -/
def System.answered (x : System) (i : ℕ) : Bool :=
  match x.server.writers[i]? with
  | some w => w.data.responses ≠ []
  | none => false

/-- A step of the server's threads. -/
def System.serverMove (s : Setting) (x : System) (mv : Move Request) : Option System :=
  (WriterPool.step (handler s) x.server mv).map fun server => { x with server := server }

/-- A handler that waits for `serial_lock`. -/
def System.isWaiting (x : System) (i : ℕ) : Bool :=
  match x.server.writers[i]? with
  | some ⟨_, .waiting _⟩ => true
  | _ => false

/-- The firmware runs an iteration, on what `Serial` has for it. -/
def System.iterate (x : System) (i : Iteration) : Option System :=
  if x.rx = [] then some { x with tank := x.tank.iterate { i with received := none } }
  else if 10 ∈ x.rx then
    let r := Arduino.readStringUntil 10 x.rx
    some { x with
      tank := x.tank.iterate { i with received := some r.1 }
      consumed := x.server.out.length - r.2.length }
  else none

/-- One step.  After `ser.close()` a write raises at once; after `os._exit(0)` no thread
of the server moves. -/
def step (s : Setting) (x : System) : Event → Option System
  | .control c => some { x with page := { x.page with controls := c } }
  | .tick id => if id ∈ x.page.timers then some x.repeatedTask else none
  | .arrive =>
      match x.page.pendingRequest with
      | some i =>
          if x.answered i then some { x with page := { x.page with pendingRequest := none } }
          else none
      | none => none
  | .reject =>
      if x.page.pendingRequest = none then none
      else some { x with page := { x.page with pendingRequest := none } }
  | .hide => some { x with page := x.page.hide }
  | .unhide => some { x with page := x.page.unhide }
  | .unload => some { x with page := x.page.cleanup }
  | .handler i =>
      if x.phase = .exited ∨ (x.phase = .closed ∧ x.isWaiting i = true) then none
      else x.serverMove s (.advance i)
  | .raise i => if x.phase = .exited then none else x.serverMove s (.raise i)
  | .sensor => if x.phase = .exited then none else x.serverMove s .other
  | .signal => if x.phase = .running then some { x with phase := .closing } else none
  | .close => if x.phase = .closing then some { x with phase := .closed } else none
  | .exit => if x.phase = .closed then some { x with phase := .exited } else none
  | .loop i => x.iterate i

/-- The whole system, from the power-on of the board at real time `t₀`. -/
def machine (s : Setting) (t₀ : ℕ) (board : Board) : Machine System Event where
  init := { tank := Tank.boot t₀ board }
  step := step s

/-! ## What a step can do -/

/-- The move of the server's threads that an event stands for. -/
def Event.move : Event → Option (Move Request)
  | .handler i => some (.advance i)
  | .raise i => some (.raise i)
  | .sensor => some .other
  | _ => none

/-- Everything a step can do, one constructor for each way. -/
inductive Change (s : Setting) (x : System) : Event → System → Prop
  | control (c : Controls) : Change s x (.control c) { x with page := { x.page with controls := c } }
  | wait (id : ℕ) (hpending : x.page.pendingRequest ≠ none) : Change s x (.tick id) x
  | issue {id : ℕ} (htimer : id ∈ x.page.timers) (hpending : x.page.pendingRequest = none) :
      Change s x (.tick id)
        { x with
          page := { x.page with pendingRequest := some x.server.writers.length }
          server := x.server.spawn { path := x.page.controls.url } }
  | settle {e : Event} (he : e = .arrive ∨ e = .reject) :
      Change s x e { x with page := { x.page with pendingRequest := none } }
  | hide : Change s x .hide { x with page := x.page.hide }
  | unhide : Change s x .unhide { x with page := x.page.unhide }
  | unload : Change s x .unload { x with page := x.page.cleanup }
  | thread {e : Event} {mv : Move Request} {server : Pool Request UInt8} (he : e.move = some mv)
      (hlive : x.phase ≠ .exited) (hserver : Step (handler s) x.server mv server) :
      Change s x e { x with server := server }
  | signal (hphase : x.phase = .running) : Change s x .signal { x with phase := .closing }
  | close (hphase : x.phase = .closing) : Change s x .close { x with phase := .closed }
  | exit (hphase : x.phase = .closed) : Change s x .exit { x with phase := .exited }
  | idle (i : Iteration) (hrx : x.rx = []) :
      Change s x (.loop i) { x with tank := x.tank.iterate { i with received := none } }
  | read (i : Iteration) {line rest : List UInt8}
      (hcut : SeparatedText.cut 10 x.rx = some (line, rest)) :
      Change s x (.loop i)
        { x with
          tank := x.tank.iterate { i with received := some (ofBytes line) }
          consumed := x.server.out.length - rest.length }

/-- A move of the threads is one of the pool. -/
theorem Change.of_serverMove {s : Setting} {x x' : System} {e : Event} {mv : Move Request}
    (he : e.move = some mv) (hlive : x.phase ≠ .exited) (h : x.serverMove s mv = some x') :
    Change s x e x' := by
  obtain ⟨server, hserver, rfl⟩ := Option.map_eq_some_iff.mp h
  exact .thread he hlive (Step.of_eq_some hserver)

/-- **Inversion of a step.** -/
theorem Change.of_eq_some {s : Setting} {x x' : System} {e : Event} (h : step s x e = some x') :
    Change s x e x' := by
  cases e with
  | control c => exact Option.some.inj h ▸ .control c
  | tick id =>
      obtain ⟨htimer, heq⟩ := Option.ite_none_right_eq_some.mp h
      obtain rfl := Option.some.inj heq
      unfold System.repeatedTask
      cases hp : x.page.pendingRequest with
      | some i => exact .wait id (by simp [hp])
      | none => exact .issue htimer hp
  | arrive =>
      simp only [step] at h
      split at h
      · exact Option.some.inj (Option.ite_none_right_eq_some.mp h).2 ▸ .settle (.inl rfl)
      · exact absurd h (by simp)
  | reject => exact Option.some.inj (Option.ite_none_left_eq_some.mp h).2 ▸ .settle (.inr rfl)
  | hide => exact Option.some.inj h ▸ .hide
  | unhide => exact Option.some.inj h ▸ .unhide
  | unload => exact Option.some.inj h ▸ .unload
  | handler i =>
      obtain ⟨hlive, hmove⟩ := Option.ite_none_left_eq_some.mp h
      exact .of_serverMove rfl (fun hphase => hlive (.inl hphase)) hmove
  | raise i =>
      obtain ⟨hlive, hmove⟩ := Option.ite_none_left_eq_some.mp h
      exact .of_serverMove rfl hlive hmove
  | sensor =>
      obtain ⟨hlive, hmove⟩ := Option.ite_none_left_eq_some.mp h
      exact .of_serverMove rfl hlive hmove
  | signal =>
      obtain ⟨hphase, heq⟩ := Option.ite_none_right_eq_some.mp h
      exact Option.some.inj heq ▸ .signal hphase
  | close =>
      obtain ⟨hphase, heq⟩ := Option.ite_none_right_eq_some.mp h
      exact Option.some.inj heq ▸ .close hphase
  | exit =>
      obtain ⟨hphase, heq⟩ := Option.ite_none_right_eq_some.mp h
      exact Option.some.inj heq ▸ .exit hphase
  | loop i =>
      simp only [step, System.iterate] at h
      split at h
      · next hrx => exact Option.some.inj h ▸ .idle i hrx
      · obtain ⟨hmem, heq⟩ := Option.ite_none_right_eq_some.mp h
        obtain ⟨⟨line, rest⟩, hcut⟩ := Option.ne_none_iff_exists'.mp
          fun hnone => SeparatedText.cut_eq_none_iff.mp hnone hmem
        have hread : Arduino.readStringUntil 10 x.rx = (ofBytes line, rest) := by
          rw [Arduino.readStringUntil, hcut]
        rw [hread] at heq
        exact Option.some.inj heq ▸ .read i hcut

theorem Event.move_ne_spawn {e : Event} {mv : Move Request} (h : e.move = some mv) (d : Request) :
    mv ≠ .spawn d := by
  rintro rfl
  cases e <;> simp [Event.move] at h

/-- **What a step does to the server**: nothing, or a move of the pool, which starts a
handler only for a request that the page issues. -/
theorem Change.server {s : Setting} {x x' : System} {e : Event} (h : Change s x e x') :
    x'.server = x.server ∨
      ∃ mv, Step (handler s) x.server mv x'.server ∧
        ∀ d, mv = .spawn d → d = { path := x.page.controls.url } ∧
          x.page.pendingRequest = none ∧ ∃ id, e = .tick id := by
  cases h with
  | issue _ hpending =>
      exact Or.inr ⟨_, Step.spawn _, fun d hd => ⟨(Move.spawn.inj hd).symm, hpending, _, rfl⟩⟩
  | thread he _ hserver =>
      exact Or.inr ⟨_, hserver, fun d hd => absurd hd (Event.move_ne_spawn he d)⟩
  | _ => exact Or.inl rfl

end TankSystem
