/-
# The car does what the held keys say (`main`, requests in order)

When the requests of `main/index.html` are handled in the order in which they are sent,
the letter that the car ends up with is decided at the page: it is the one that
everything under way leads to (`System.eventual`).  Handling a request and reading a byte
do not change it; a key event makes it the letter of a held key, or `'X'`.

* `listener_some`, `listener_none`: what a key event sends, and what it leaves held;
* `Inv.step`: the eventual letter matches the held keys (`MatchesKeys`);
* `levels_execute`: each letter of a movement key has its four levels at the motor pins;
* `drive_matches_held_keys`: once everything sent is consumed, the car does too.
-/
import ProjectTank.HeldKeys

open ProgramText LetterServer LetterPage CarFirmware
open TankServer (Setting)

namespace OrderedCar

/-! ## Page, server and car -/

/-- `requests` are the paths that have been sent and not handled, oldest first; `wire` is
what has been written and not read. -/
structure System where
  pressedKeys : List Text := []
  requests : List Text := []
  wire : List UInt8 := []
  car : Car := {}

/-- A key event, the server handles the oldest request, the firmware runs an iteration.
The space bar also sends requests, which write nothing to the port. -/
inductive Event
  | key (e : KeyEvent)
  | handle
  | loop

/-- `sendMovementCommand`: the path of the request, if there is one. -/
def sendMovementCommand (u : UnicodeTables) (command : Text) : List Text :=
  if toUpperCase u command ∈ commandLetters then [tankCommandUrl u command] else []

/-- The bytes that the server writes for a path. -/
def bytesOf (s : Setting) (path : Text) : List UInt8 := (serve s { path := path }).1

/-- One step. -/
def step (s : Setting) (x : System) : Event → Option System
  | .key e =>
      let heard := listener s.unicode x.pressedKeys e
      some { x with
        pressedKeys := heard.1
        requests := x.requests ++ heard.2.elim [] (sendMovementCommand s.unicode) }
  | .handle =>
      match x.requests with
      | [] => none
      | path :: requests =>
          some { x with requests := requests, wire := x.wire ++ bytesOf s path }
  | .loop =>
      match x.wire with
      | [] => some { x with car := x.car.loop none }
      | b :: wire => some { x with car := x.car.loop (some b), wire := wire }

/-- Nothing is held, nothing is sent, and the car stands. -/
def machine (s : Setting) : Machine System Event where
  init := {}
  step := step s

/-! ## What a key event does to the held movement keys -/

/-- **What is sent is the letter of a held key, or the stop command when none is held.** -/
theorem listener_some {u : UnicodeTables} {pressedKeys pressedKeys' : List Text} {e : KeyEvent}
    {command : Text} (h : listener u pressedKeys e = (pressedKeys', some command)) :
    (command ∈ pressedKeys' ∧ command ∈ movementKeys) ∨
      (command = stopCommand ∧ ¬ Held pressedKeys') := by
  cases e with
  | keydown eventKey =>
      rw [listener, keydown] at h
      split_ifs at h with hpressed hmove
      · exact absurd (congrArg Prod.snd h) (by simp)
      · obtain ⟨rfl, hcommand⟩ := Prod.mk.inj h
        obtain rfl := Option.some.inj hcommand
        exact Or.inl ⟨by simp, hmove⟩
      · exact absurd (congrArg Prod.snd h) (by simp)
  | keyup eventKey =>
      simp only [listener, keyup] at h
      split_ifs at h with hmove
      · obtain ⟨rfl, hcommand⟩ := Prod.mk.inj h
        obtain rfl := Option.some.inj hcommand
        cases hremaining : (pressedKeys.filter (· ≠ toLowerCase u eventKey)).filter
            (· ∈ movementKeys) with
        | nil =>
            refine Or.inr ⟨rfl, ?_⟩
            rintro ⟨k, hk, hkmove⟩
            have hmem : k ∈ (pressedKeys.filter (· ≠ toLowerCase u eventKey)).filter
                (· ∈ movementKeys) :=
              List.mem_filter.mpr ⟨hk, by simpa using hkmove⟩
            rw [hremaining] at hmem
            exact absurd hmem List.not_mem_nil
        | cons nextCommandKey rest =>
            have hmem : nextCommandKey ∈ (pressedKeys.filter (· ≠ toLowerCase u eventKey)).filter
                (· ∈ movementKeys) := by
              rw [hremaining]
              exact List.mem_cons_self
            obtain ⟨hpressed, hkey⟩ := List.mem_filter.mp hmem
            exact Or.inl ⟨hpressed, of_decide_eq_true hkey⟩
      · exact absurd (congrArg Prod.snd h) (by simp)

/-- When nothing is sent, the same movement keys are held as before. -/
theorem listener_none {u : UnicodeTables} {pressedKeys pressedKeys' : List Text} {e : KeyEvent}
    (h : listener u pressedKeys e = (pressedKeys', none)) {k : Text} (hk : k ∈ movementKeys) :
    k ∈ pressedKeys' ↔ k ∈ pressedKeys := by
  cases e with
  | keydown eventKey =>
      rw [listener, keydown] at h
      split_ifs at h with hpressed hmove
      · obtain ⟨rfl, -⟩ := Prod.mk.inj h
        exact Iff.rfl
      · exact absurd (congrArg Prod.snd h) (by simp)
      · obtain ⟨rfl, -⟩ := Prod.mk.inj h
        have hne : k ≠ toLowerCase u eventKey := by
          rintro rfl
          exact hmove hk
        simp [hne]
  | keyup eventKey =>
      simp only [listener, keyup] at h
      split_ifs at h with hmove
      · exact absurd (congrArg Prod.snd h) (by simp)
      · obtain ⟨rfl, -⟩ := Prod.mk.inj h
        have hne : k ≠ toLowerCase u eventKey := by
          rintro rfl
          exact hmove hk
        simp [hne]

/-! ## What everything under way leads to -/

/-- The current command of the car once everything that is under way has arrived. -/
def System.eventual (s : Setting) (x : System) : Char :=
  (x.wire ++ x.requests.flatMap (bytesOf s)).foldl receive x.car.currentCommand

/-- Handling a request and reading a byte change nothing about it. -/
theorem eventual_handle {s : Setting} {x x' : System} (h : step s x .handle = some x') :
    x'.eventual s = x.eventual s ∧ x'.pressedKeys = x.pressedKeys := by
  simp only [step] at h
  cases hrequests : x.requests with
  | nil => simp [hrequests] at h
  | cons path requests =>
      rw [hrequests] at h
      obtain rfl := Option.some.inj h
      simp [System.eventual, hrequests]

theorem eventual_loop {s : Setting} {x x' : System} (h : step s x .loop = some x') :
    x'.eventual s = x.eventual s ∧ x'.pressedKeys = x.pressedKeys := by
  simp only [step] at h
  cases hwire : x.wire with
  | nil =>
      rw [hwire] at h
      obtain rfl := Option.some.inj h
      simp [System.eventual, hwire]
  | cons b wire =>
      rw [hwire] at h
      obtain rfl := Option.some.inj h
      simp [System.eventual, hwire]

/-- A command that is sent becomes the eventual letter. -/
theorem eventual_append {s : Setting} (hopen : s.serialOpen = true) (x : System)
    (pressedKeys : List Text) {command : Text}
    (hletter : toUpperCase s.unicode command ∈ commandLetters) :
    [System.eventual s { x with
      pressedKeys := pressedKeys
      requests := x.requests ++ sendMovementCommand s.unicode command }] =
        toUpperCase s.unicode command := by
  obtain ⟨hroute, hcommand⟩ := commandOf_tankCommandUrl s.unicode s.unicode hletter
  have hbytes : bytesOf s (tankCommandUrl s.unicode command) =
      encodeUtf8 (toUpperCase s.unicode command) := by
    rw [bytesOf, serve_of_letter hroute (by rw [hcommand]; exact hletter), hcommand]
    simp [hopen]
  obtain ⟨b, hb, hreceive⟩ := encodeUtf8_letter hletter
  rw [sendMovementCommand, if_pos hletter, System.eventual]
  simp only [List.flatMap_append, List.flatMap_singleton, hbytes, hb, ← List.append_assoc,
    List.foldl_append, List.foldl_cons, List.foldl_nil]
  exact (hreceive _).symm

/-! ## The invariant -/

/-- The letter matches the held keys: `'X'` when no movement key is held, otherwise the
letter of one of them. -/
def MatchesKeys (u : UnicodeTables) (pressedKeys : List Text) (letter : Char) : Prop :=
  (¬ Held pressedKeys ∧ letter = 'X') ∨
    ∃ key ∈ pressedKeys, key ∈ movementKeys ∧ toUpperCase u key = [letter]

/-- What every reachable state satisfies. -/
structure Inv (s : Setting) (x : System) : Prop where
  eventual : MatchesKeys s.unicode x.pressedKeys (x.eventual s)
  pins : x.car.pins = execute x.car.currentCommand

/-- A key event that sends nothing keeps the match. -/
theorem MatchesKeys.of_none {u : UnicodeTables} {pressedKeys pressedKeys' : List Text}
    {e : KeyEvent} {letter : Char} (h : MatchesKeys u pressedKeys letter)
    (hnone : listener u pressedKeys e = (pressedKeys', none)) :
    MatchesKeys u pressedKeys' letter := by
  rcases h with ⟨hheld, hletter⟩ | ⟨key, hkey, hmove, hletter⟩
  · refine Or.inl ⟨?_, hletter⟩
    rintro ⟨k, hk, hkmove⟩
    exact hheld ⟨k, (listener_none hnone hkmove).mp hk, hkmove⟩
  · exact Or.inr ⟨key, (listener_none hnone hmove).mpr hkey, hmove, hletter⟩

/-- After a key event that sends a command the match is the one of that command. -/
theorem matchesKeys_of_some {s : Setting} (hopen : s.serialOpen = true) (x : System)
    {pressedKeys pressedKeys' : List Text} {e : KeyEvent} {command : Text}
    (hsome : listener s.unicode pressedKeys e = (pressedKeys', some command)) :
    MatchesKeys s.unicode pressedKeys'
      (System.eventual s { x with
        pressedKeys := pressedKeys'
        requests := x.requests ++ sendMovementCommand s.unicode command }) := by
  rcases listener_some hsome with ⟨hmem, hmove⟩ | ⟨rfl, hheld⟩
  · exact Or.inr ⟨command, hmem, hmove,
      (eventual_append hopen x pressedKeys' (toUpperCase_movementKey _ hmove)).symm⟩
  · refine Or.inl ⟨hheld, ?_⟩
    have hstop := eventual_append hopen x pressedKeys' (stopCommand_mem_commandLetters s.unicode)
    rw [toUpperCase_stopCommand] at hstop
    exact (List.cons.inj hstop).1

theorem Inv.step {s : Setting} (hopen : s.serialOpen = true) {x x' : System} {e : Event}
    (hi : Inv s x) (h : step s x e = some x') : Inv s x' := by
  cases e with
  | key e =>
      obtain rfl := Option.some.inj h
      cases hheard : listener s.unicode x.pressedKeys e with
      | mk pressedKeys command =>
          refine ⟨?_, hi.pins⟩
          cases command with
          | none =>
              simp only [Option.elim_none, List.append_nil]
              exact hi.eventual.of_none hheard
          | some command =>
              simp only [Option.elim_some]
              exact matchesKeys_of_some hopen x hheard
  | handle =>
      obtain ⟨heventual, hkeys⟩ := eventual_handle h
      refine ⟨by rw [heventual, hkeys]; exact hi.eventual, ?_⟩
      simp only [OrderedCar.step] at h
      cases hrequests : x.requests with
      | nil => simp [hrequests] at h
      | cons path requests =>
          rw [hrequests] at h
          exact Option.some.inj h ▸ hi.pins
  | loop =>
      obtain ⟨heventual, hkeys⟩ := eventual_loop h
      refine ⟨by rw [heventual, hkeys]; exact hi.eventual, ?_⟩
      simp only [OrderedCar.step] at h
      cases hwire : x.wire with
      | nil =>
          rw [hwire] at h
          exact Option.some.inj h ▸ rfl
      | cons b wire =>
          rw [hwire] at h
          exact Option.some.inj h ▸ rfl

/-! ## The pins -/

/-- The levels of the four motor pins. -/
def levels (pins : Pins) : List Bool := [pins .in1Pin, pins .in2Pin, pins .in3Pin, pins .in4Pin]

/-- The letter of a movement key is one of four, and each has its levels. -/
theorem levels_execute {u : UnicodeTables} {key : Text} (hmove : key ∈ movementKeys) {letter : Char}
    (hupper : toUpperCase u key = [letter]) :
    (letter = 'W' ∧ levels (execute letter) = [true, false, true, false]) ∨
    (letter = 'S' ∧ levels (execute letter) = [false, true, false, true]) ∨
    (letter = 'A' ∧ levels (execute letter) = [false, true, true, false]) ∨
    (letter = 'D' ∧ levels (execute letter) = [true, false, false, true]) := by
  have hcases : key = "w".toList ∨ key = "a".toList ∨ key = "s".toList ∨ key = "d".toList := by
    simpa [movementKeys] using hmove
  have hletter {c : Char} (hkey : toUpperCase u key = [c]) : letter = c :=
    (List.cons.inj (hupper.symm.trans hkey)).1
  rcases hcases with rfl | rfl | rfl | rfl
  · obtain rfl := hletter (c := 'W') rfl
    exact Or.inl ⟨rfl, rfl⟩
  · obtain rfl := hletter (c := 'A') rfl
    exact Or.inr (Or.inr (Or.inl ⟨rfl, rfl⟩))
  · obtain rfl := hletter (c := 'S') rfl
    exact Or.inr (Or.inl ⟨rfl, rfl⟩)
  · obtain rfl := hletter (c := 'D') rfl
    exact Or.inr (Or.inr (Or.inr ⟨rfl, rfl⟩))

/-! ## Runs -/

/-- **The drive state matches the held keys.**  With the serial port open, in every run
with any keys: once every request is handled and every byte is read, the car stands and
its current command is `'X'` if no movement key is held; otherwise the current command is
the letter of a movement key that is held, and the four motor pins have the levels of that
letter. -/
theorem drive_matches_held_keys (s : Setting) (hopen : s.serialOpen = true) {x : System}
    (hx : (machine s).Reachable x) (hrequests : x.requests = []) (hwire : x.wire = []) :
    (¬ Held x.pressedKeys → x.car.currentCommand = 'X' ∧ ∀ pin, x.car.pins pin = false) ∧
      (Held x.pressedKeys → ∃ key ∈ x.pressedKeys, key ∈ movementKeys ∧
        toUpperCase s.unicode key = [x.car.currentCommand] ∧
        ((x.car.currentCommand = 'W' ∧ levels x.car.pins = [true, false, true, false]) ∨
          (x.car.currentCommand = 'S' ∧ levels x.car.pins = [false, true, false, true]) ∨
          (x.car.currentCommand = 'A' ∧ levels x.car.pins = [false, true, true, false]) ∨
          (x.car.currentCommand = 'D' ∧ levels x.car.pins = [true, false, false, true]))) := by
  have hinit : Inv s {} := by
    refine ⟨Or.inl ⟨?_, rfl⟩, rfl⟩
    rintro ⟨k, hk, -⟩
    exact absurd hk List.not_mem_nil
  have hi : Inv s x := hx.invariant (I := Inv s) hinit fun _ _ _ hi h => hi.step hopen h
  have hletter : x.eventual s = x.car.currentCommand := by
    simp [System.eventual, hrequests, hwire]
  have hmatches := hi.eventual
  rw [hletter] at hmatches
  rcases hmatches with ⟨hheld, hX⟩ | ⟨key, hkey, hmove, hupper⟩
  · refine ⟨fun _ => ⟨hX, fun pin => ?_⟩, fun h => absurd h hheld⟩
    rw [hi.pins, hX]
    rfl
  · refine ⟨fun h => absurd ⟨key, hkey, hmove⟩ h, fun _ => ⟨key, hkey, hmove, hupper, ?_⟩⟩
    rw [hi.pins]
    exact levels_execute hmove hupper

/-- The setting of the run below. -/
def openPort : Setting := ⟨.bare, true, []⟩

/-- The keys w and a overlap, with a repeated keydown and an upper-case key value; after
everything is read the car follows the key that is left. -/
theorem drive_matches_overlapping_keys :
    ∃ x, (machine openPort).run (machine openPort).init
        [.key (.keydown ['w']), .key (.keydown ['w']), .key (.keydown ['A']),
          .key (.keydown "Shift".toList), .key (.keyup ['W']), .handle, .handle, .handle,
          .loop, .loop, .loop] = some x ∧
      ∃ key ∈ x.pressedKeys, key ∈ movementKeys ∧
        toUpperCase openPort.unicode key = [x.car.currentCommand] ∧
        x.car.currentCommand = 'A' ∧ levels x.car.pins = [false, true, true, false] := by
  have hrun : ((machine openPort).run (machine openPort).init
      [.key (.keydown ['w']), .key (.keydown ['w']), .key (.keydown ['A']),
        .key (.keydown "Shift".toList), .key (.keyup ['W']), .handle, .handle, .handle,
        .loop, .loop, .loop]).map
      (fun x => (x.requests, x.wire, decide (Held x.pressedKeys), x.car.currentCommand)) =
        some ([], [], true, 'A') := by decide
  obtain ⟨x, hx, hfacts⟩ := Option.map_eq_some_iff.mp hrun
  simp only [Prod.mk.injEq] at hfacts
  obtain ⟨hrequests, hwire, hheld, hletter⟩ := hfacts
  obtain ⟨key, hkey, hmove, hupper, hpins⟩ := (drive_matches_held_keys openPort rfl
    (Machine.reachable_of_run hx) hrequests hwire).2 (of_decide_eq_true hheld)
  refine ⟨x, hx, key, hkey, hmove, hupper, hletter, ?_⟩
  rw [hletter] at hpins
  simpa using hpins

end OrderedCar
