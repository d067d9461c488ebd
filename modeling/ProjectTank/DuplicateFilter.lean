/-
# Releasing the keys with a filter for duplicates (`peter/ultrasonic`)

`sendMovementCommand` of this page drops a command that is equal to `lastCommand`, and
`lastCommand` is set when a response arrives.  While a command is in flight the filter
therefore compares with the command before it.  Here requests are handled and answered
in the order in which they are sent, and none fails.

* `tank_stops_after_release`: once no movement key is held, nothing is in flight and
  everything is read, the current command of the tank is `'X'`, in every run in which the
  last movement key does not come up while `lastCommand` is `'X'` and the command in
  flight is another one;
* `stop_masked`: otherwise the stop command is dropped, and the tank drives on.
-/
import ProjectTank.HeldKeys

open ProgramText LetterServer LetterPage CarFirmware
open TankServer (Setting)

namespace UltrasonicTank

/-- The state of the page. -/
structure Page where
  pressedKeys : List Text := []
  lastCommand : Text := stopCommand

/-- Page, network, serial line and board: `requests` are the commands whose requests have not
been handled, `responses` those whose responses have not arrived, with `response.ok`. -/
structure System where
  page : Page := {}
  requests : List Text := []
  responses : List (Text × Bool) := []
  wire : List UInt8 := []
  tank : Tank := {}

/-- Everything that can happen next.  Keys other than w, a, s, d are not looked at: they
send requests of other kinds. -/
inductive Event
  | key (e : KeyEvent)
  | handle
  | respond
  | loop (e : Surroundings)

/-- `sendMovementCommand`. -/
def sendMovementCommand (u : UnicodeTables) (x : System) (command : Text) : System :=
  if toUpperCase u command ∉ commandLetters then x
  else if toUpperCase u command = x.page.lastCommand then x
  else { x with requests := x.requests ++ [command] }

/-- The server handles the oldest request. -/
def System.handle (s : Setting) (x : System) : Option System :=
  match x.requests with
  | [] => none
  | command :: requests =>
      let served := serve s { path := tankCommandUrl s.unicode command }
      some { x with
        requests := requests
        wire := x.wire ++ served.1
        responses := x.responses ++ [(command, served.2.responses.all responseOk)] }

/-- The oldest response arrives. -/
def System.respond (u : UnicodeTables) (x : System) : Option System :=
  match x.responses with
  | [] => none
  | (command, ok) :: responses =>
      some { x with
        responses := responses
        page := if ok then { x.page with lastCommand := toUpperCase u command } else x.page }

/-- The firmware runs an iteration. -/
def System.iterate (x : System) (e : Surroundings) : System :=
  match x.wire with
  | [] => { x with tank := x.tank.loop none e }
  | b :: wire => { x with tank := x.tank.loop (some b) e, wire := wire }

/-- One step. -/
def step (s : Setting) (x : System) : Event → Option System
  | .key e =>
      if e.key s.unicode ∈ movementKeys then
        let heard := listener s.unicode x.page.pressedKeys e
        let x' := { x with page := { x.page with pressedKeys := heard.1 } }
        some (heard.2.elim x' (sendMovementCommand s.unicode x'))
      else none
  | .handle => x.handle s
  | .respond => x.respond s.unicode
  | .loop e => some (x.iterate e)

/-- The system, with nothing pressed and nothing sent. -/
def machine (s : Setting) : Machine System Event where
  init := {}
  step := step s

/-- The letters in flight, in the order in which they were sent. -/
def System.inFlight (u : UnicodeTables) (x : System) : List Text :=
  x.responses.map (fun r => toUpperCase u r.1) ++ x.requests.map (toUpperCase u)

/-- The letter sent last. -/
def System.lastSent (u : UnicodeTables) (x : System) : Text :=
  (x.inFlight u).getLastD x.page.lastCommand

/-- Nothing is in flight, and the tank has read everything. -/
def System.Drained (x : System) : Prop := x.requests = [] ∧ x.responses = [] ∧ x.wire = []

instance (x : System) : Decidable x.Drained :=
  inferInstanceAs (Decidable (_ ∧ _ ∧ _))

/-- Everything a step can do, one constructor for each way. -/
inductive Change (s : Setting) (x : System) : Event → System → Prop
  | quiet {e : KeyEvent} {pressedKeys : List Text}
      (hheld : Held pressedKeys ↔ Held x.page.pressedKeys) :
      Change s x (.key e) { x with page := { x.page with pressedKeys := pressedKeys } }
  | drop {e : KeyEvent} {pressedKeys : List Text} {command : Text}
      (hheld : Held pressedKeys ∨
        (ReleasesLast s.unicode x.page.pressedKeys e ∧ command = stopCommand))
      (hsame : toUpperCase s.unicode command = x.page.lastCommand) :
      Change s x (.key e) { x with page := { x.page with pressedKeys := pressedKeys } }
  | send {e : KeyEvent} {pressedKeys : List Text} {command : Text}
      (hletter : toUpperCase s.unicode command ∈ commandLetters)
      (hheld : Held pressedKeys ∨
        (ReleasesLast s.unicode x.page.pressedKeys e ∧ command = stopCommand)) :
      Change s x (.key e)
        { x with
          page := { x.page with pressedKeys := pressedKeys }
          requests := x.requests ++ [command] }
  | handle {command : Text} {requests : List Text} (hrequests : x.requests = command :: requests) :
      Change s x .handle
        { x with
          requests := requests
          wire := x.wire ++ (serve s { path := tankCommandUrl s.unicode command }).1
          responses := x.responses ++ [(command,
            (serve s { path := tankCommandUrl s.unicode command }).2.responses.all responseOk)] }
  | respond {command : Text} {ok : Bool} {responses : List (Text × Bool)}
      (hresponses : x.responses = (command, ok) :: responses) :
      Change s x .respond
        { x with
          responses := responses
          page := if ok then { x.page with lastCommand := toUpperCase s.unicode command }
            else x.page }
  | idle (e : Surroundings) (hwire : x.wire = []) :
      Change s x (.loop e) { x with tank := x.tank.loop none e }
  | read (e : Surroundings) {b : UInt8} {wire : List UInt8} (hwire : x.wire = b :: wire) :
      Change s x (.loop e) { x with tank := x.tank.loop (some b) e, wire := wire }

/-- A command that the page knows is dropped or sent. -/
theorem Change.of_command {s : Setting} {x : System} {e : KeyEvent} {pressedKeys : List Text}
    {command : Text} (hletter : toUpperCase s.unicode command ∈ commandLetters)
    (hheld : Held pressedKeys ∨
      (ReleasesLast s.unicode x.page.pressedKeys e ∧ command = stopCommand)) :
    Change s x (.key e) (sendMovementCommand s.unicode
      { x with page := { x.page with pressedKeys := pressedKeys } } command) := by
  rw [sendMovementCommand, if_neg (not_not.mpr hletter)]
  by_cases hsame : toUpperCase s.unicode command = x.page.lastCommand
  · rw [if_pos hsame]
    exact .drop hheld hsame
  · rw [if_neg hsame]
    exact .send hletter hheld

/-- **Inversion of a step.** -/
theorem Change.of_eq_some {s : Setting} {x x' : System} {e : Event} (h : step s x e = some x') :
    Change s x e x' := by
  cases e with
  | key e =>
      obtain ⟨-, heq⟩ := Option.ite_none_right_eq_some.mp h
      obtain rfl := Option.some.inj heq
      cases hheard : listener s.unicode x.page.pressedKeys e with
      | mk pressedKeys command =>
          have hcases := listened s.unicode x.page.pressedKeys e
          rw [hheard] at hcases
          cases hcases with
          | nothing hheld => exact .quiet hheld
          | move hkey hheld => exact .of_command (toUpperCase_movementKey _ hkey) (Or.inl hheld)
          | stop hlast _ =>
              exact .of_command (stopCommand_mem_commandLetters _) (Or.inr ⟨hlast, rfl⟩)
  | handle =>
      simp only [step, System.handle] at h
      split at h
      · exact absurd h (by simp)
      · next hrequests => exact Option.some.inj h ▸ .handle hrequests
  | respond =>
      simp only [step, System.respond] at h
      split at h
      · exact absurd h (by simp)
      · next hresponses => exact Option.some.inj h ▸ .respond hresponses
  | loop e =>
      obtain rfl := Option.some.inj h
      unfold System.iterate
      split
      · next hwire => exact .idle e hwire
      · next hwire => exact .read e hwire

/-! ## Invariants -/

/-- What every reachable state satisfies.  `inStep`: once the tank has read everything, its
current command is the letter answered last. -/
structure Inv (s : Setting) (x : System) : Prop where
  letters : ∀ command ∈ x.requests, toUpperCase s.unicode command ∈ commandLetters
  accepted : ∀ r ∈ x.responses, r.2 = true
  inStep : s.serialOpen = true →
    (x.responses.map fun r => toUpperCase s.unicode r.1).getLastD x.page.lastCommand =
      [x.wire.foldl receive x.tank.currentCommand]
  closed : s.serialOpen = false → x.wire = [] ∧ x.tank.currentCommand = 'X'

theorem Inv.init (s : Setting) : Inv s {} := ⟨by simp, by simp, fun _ => rfl, fun _ => ⟨rfl, rfl⟩⟩

/-- What the server does with a request of the page. -/
theorem serve_tankCommandUrl {s : Setting} {command : Text}
    (hletter : toUpperCase s.unicode command ∈ commandLetters) :
    serve s { path := tankCommandUrl s.unicode command } =
      (if s.serialOpen = false then [] else encodeUtf8 (toUpperCase s.unicode command),
        { path := tankCommandUrl s.unicode command, responses := [.headers 200] }) := by
  obtain ⟨hroute, hcommand⟩ := commandOf_tankCommandUrl s.unicode s.unicode hletter
  have hserve := serve_of_letter (s := s) (r := { path := tankCommandUrl s.unicode command })
    hroute (by rwa [hcommand])
  rw [hserve, hcommand]
  rfl

theorem Inv.step {s : Setting} {x x' : System} {e : Event} (hi : Inv s x)
    (h : step s x e = some x') : Inv s x' := by
  cases Change.of_eq_some h with
  | quiet _ => exact ⟨hi.letters, hi.accepted, hi.inStep, hi.closed⟩
  | drop _ _ => exact ⟨hi.letters, hi.accepted, hi.inStep, hi.closed⟩
  | send hletter _ =>
      have hletters := List.forall_mem_append.mpr
        ⟨hi.letters, List.forall_mem_singleton.mpr hletter⟩
      exact ⟨hletters, hi.accepted, hi.inStep, hi.closed⟩
  | @handle command requests hrequests =>
      have hletter := hi.letters command (by simp [hrequests])
      rw [serve_tankCommandUrl hletter]
      refine ⟨fun c hc => hi.letters c (by simp [hrequests, hc]), ?_, ?_, ?_⟩
      · exact List.forall_mem_append.mpr ⟨hi.accepted, List.forall_mem_singleton.mpr rfl⟩
      · -- the letter joins the responses and the wire at their ends
        intro hopen
        obtain ⟨b, hb, hreceive⟩ := encodeUtf8_letter hletter
        simp only [hopen, Bool.true_eq_false, if_false, hb, List.map_append, List.map_cons,
          List.map_nil, List.getLastD_concat, List.foldl_append, List.foldl_cons, List.foldl_nil]
        exact hreceive _
      · intro hclosed
        obtain ⟨hwire, hcommand⟩ := hi.closed hclosed
        exact ⟨by simp [hclosed, hwire], hcommand⟩
  | @respond command ok responses hresponses =>
      obtain rfl : ok = true := hi.accepted (command, ok) (by simp [hresponses])
      refine ⟨hi.letters, fun r hr => hi.accepted r (by simp [hresponses, hr]), ?_, hi.closed⟩
      intro hopen
      have hinStep := hi.inStep hopen
      rwa [hresponses, List.map_cons, List.getLastD_cons] at hinStep
  | idle e hwire => exact ⟨hi.letters, hi.accepted, by simpa using hi.inStep, by simpa using hi.closed⟩
  | read e hwire =>
      refine ⟨hi.letters, hi.accepted, fun hopen => ?_, fun hclosed => ?_⟩
      · have hinStep := hi.inStep hopen
        rw [hwire] at hinStep
        simpa using hinStep
      · exact absurd (hi.closed hclosed).1 (by simp [hwire])

/-- While no movement key is held, the letter sent last is the stop command. -/
def Settled (s : Setting) (x : System) : Prop :=
  ¬ Held x.page.pressedKeys → x.lastSent s.unicode = stopCommand

/-- The last movement key does not come up while `lastCommand` is the stop command and the
letter sent last, still in flight, is another one. -/
def StopNotMasked (s : Setting) (x : System) : Event → Prop
  | .key e => ReleasesLast s.unicode x.page.pressedKeys e → x.page.lastCommand = stopCommand →
      x.lastSent s.unicode = stopCommand
  | _ => True

instance (s : Setting) (x : System) : ∀ e, Decidable (StopNotMasked s x e)
  | .key _ => inferInstanceAs (Decidable (_ → _ → _))
  | .handle | .respond | .loop _ => isTrue trivial

theorem Settled.step {s : Setting} {x x' : System} {e : Event} (hi : Inv s x)
    (hset : Settled s x) (hC : StopNotMasked s x e) (h : step s x e = some x') :
    Settled s x' := by
  intro hheld'
  cases Change.of_eq_some h with
  | quiet hheld => exact hset fun hx => hheld' (hheld.mpr hx)
  | drop hheld hsame =>
      -- the dropped command is the stop command, which was sent last then
      rcases hheld with hheld | ⟨hlast, rfl⟩
      · exact absurd hheld hheld'
      · exact hC hlast hsame.symm
  | @send e pressedKeys command hletter hheld =>
      rcases hheld with hheld | ⟨hlast, rfl⟩
      · exact absurd hheld hheld'
      · simp only [System.lastSent, System.inFlight, List.map_append, List.map_cons, List.map_nil,
          ← List.append_assoc, List.getLastD_concat]
        exact toUpperCase_stopCommand _
  | handle hrequests =>
      have hsent := hset hheld'
      -- the request becomes a response, in the same place
      simp only [System.lastSent, System.inFlight, hrequests] at hsent ⊢
      simpa using hsent
  | @respond command ok responses hresponses =>
      obtain rfl : ok = true := hi.accepted (command, ok) (by simp [hresponses])
      have hsent := hset hheld'
      simp only [System.lastSent, System.inFlight, hresponses, List.map_cons, List.cons_append,
        List.getLastD_cons] at hsent
      exact hsent
  | idle e hwire => exact hset hheld'
  | read e hwire => exact hset hheld'

/-! ## Runs -/

/-- **The tank stops when the keys are released**, in every run in which the last movement
key does not come up while `lastCommand` is `'X'` and the letter sent last, still in
flight, is another one: once no movement key is held, nothing is in flight, and
everything is read, the current command is `'X'`. -/
theorem tank_stops_after_release (s : Setting) {x : System}
    (hx : (machine s).ReachesUnder (StopNotMasked s) x) (hheld : ¬ Held x.page.pressedKeys)
    (hdrained : x.Drained) : x.tank.currentCommand = 'X' := by
  obtain ⟨hrequests, hresponses, hwire⟩ := hdrained
  have hboth : Inv s x ∧ Settled s x := by
    refine hx.invariant (I := fun x => Inv s x ∧ Settled s x) ⟨Inv.init s, fun _ => rfl⟩ ?_
    rintro y e y' ⟨hi, hset⟩ hC h
    exact ⟨hi.step h, Settled.step hi hset hC h⟩
  obtain ⟨hi, hset⟩ := hboth
  cases hserial : s.serialOpen with
  | false => exact (hi.closed hserial).2
  | true =>
      have hsent := hset hheld
      have hinStep := hi.inStep hserial
      simp only [System.lastSent, System.inFlight, hresponses, hrequests, List.map_nil,
        List.append_nil, List.getLastD_nil] at hsent
      simp only [hresponses, hwire, List.map_nil, List.getLastD_nil, List.foldl_nil, hsent] at hinStep
      exact (List.cons.inj hinStep).1.symm

/-- The setting of the runs below. -/
def openPort : Setting := ⟨.bare, true, []⟩

/-- A request is handled and answered, and its letter read. -/
def roundTrip : List Event := [.handle, .respond, .loop {}]

/-- The key w goes down, the response arrives, the key comes up. -/
theorem tank_stops_after_release_of_w :
    ∃ x, (machine openPort).runUnder (StopNotMasked openPort) (machine openPort).init
        ([.key (.keydown ['w'])] ++ roundTrip ++ [.key (.keyup ['w'])] ++ roundTrip) = some x ∧
      x.page.lastCommand = stopCommand ∧ x.tank.currentCommand = 'X' := by
  have hrun : ((machine openPort).runUnder (StopNotMasked openPort) (machine openPort).init
      ([.key (.keydown ['w'])] ++ roundTrip ++ [.key (.keyup ['w'])] ++ roundTrip)).map
        (fun x => (x.page.pressedKeys, x.page.lastCommand, decide x.Drained)) =
          some ([], stopCommand, true) := by decide
  obtain ⟨x, hx, hfacts⟩ := Option.map_eq_some_iff.mp hrun
  simp only [Prod.mk.injEq] at hfacts
  obtain ⟨hkeys, hlast, hdrained⟩ := hfacts
  refine ⟨x, hx, hlast, tank_stops_after_release openPort (Machine.ReachesUnder.init.runUnder hx) ?_
    (of_decide_eq_true hdrained)⟩
  rw [hkeys]
  decide

/-- **The stop command is masked.**  The key w comes up before the response to its letter
has arrived: `lastCommand` is still `'X'`, nothing is sent, and the tank drives on. -/
theorem stop_masked :
    ¬ ∀ (s : Setting) (x : System), (machine s).Reachable x → ¬ Held x.page.pressedKeys →
      x.Drained → x.tank.currentCommand = 'X' := by
  intro hall
  have hrun : ((machine openPort).run (machine openPort).init
      ([.key (.keydown ['w']), .key (.keyup ['w'])] ++ roundTrip)).map
        (fun x => (x.page.pressedKeys, decide x.Drained, x.tank.currentCommand)) =
          some ([], true, 'W') := by decide
  obtain ⟨x, hx, hfacts⟩ := Option.map_eq_some_iff.mp hrun
  simp only [Prod.mk.injEq] at hfacts
  obtain ⟨hkeys, hdrained, hcommand⟩ := hfacts
  have hstop := hall openPort x (Machine.reachable_of_run hx) (by rw [hkeys]; decide)
    (of_decide_eq_true hdrained)
  rw [hcommand] at hstop
  exact absurd hstop (by decide)

end UltrasonicTank
