/-
# The turret timers of two pages (`peter/recent/index.html`, `peter/ultrasonic/index.html`)

On both pages the keys j and k and the second joystick turn the turret by intervals that
send a direction again and again: `turretPanInterval` for the keys,
`auxPanCommandInterval` for the joystick.  The pages differ in what stops the joystick's
interval.  On the recent page every stop goes through `stopTurretPan`, which knows only
the interval of the keys; on the ultrasonic page the joystick's own interval is cleared,
but it keeps the direction it was started with.

* `Recent.timers_stop_iff`: no interval outlives the controls if and only if no step
  releases the last control while the joystick's interval is live;
* `Ultrasonic.follows_stick_iff`: the joystick's interval sends the side of the stick if and
  only if the stick never jumps from one side to the other while the interval is live.
-/
import ProjectTank.IntervalTimers
import ProjectTank.ProgramText
import ProjectTank.Transition

open ProgramText IntervalTimers

namespace TurretPage

/-! ## What the pages share -/

/-- A side, which is also what an interval sends. -/
inductive Direction
  | L
  | R
  deriving DecidableEq, Repr

/-- What `sendTurretCommand` requests; `T` is the stop. -/
inductive TurretCommand
  | L
  | R
  | T
  deriving DecidableEq, Repr

def Direction.command : Direction → TurretCommand
  | .L => .L
  | .R => .R

theorem Direction.command_injective : Function.Injective Direction.command := by
  intro d d' h
  cases d <;> cases d' <;> first | rfl | cases h

/-- The variables that store intervals. -/
inductive Handle
  | turretPanInterval
  | auxPanCommandInterval
  deriving DecidableEq, Repr

/-- `turretKeys`. -/
def turretKeys : List Text := ["j".toList, "k".toList]

/-- `AUX_PAN_THRESHOLD`. -/
def AUX_PAN_THRESHOLD : ℚ := 50

/-- The direction for a clamped `dx`.  It is `NaN`, here `none`, when the event has no
usable coordinate, and then both comparisons fail. -/
def direction : Option ℚ → Option Direction
  | none => none
  | some dx =>
      if dx < -AUX_PAN_THRESHOLD then some .L
      else if AUX_PAN_THRESHOLD < dx then some .R
      else none

/-- What the handlers read and write, the position of the last event of the second joystick, and
everything that `sendTurretCommand` has requested. -/
structure Page where
  isDraggingAux : Bool := false
  pressedKeys : List Text := []
  timers : Timers Handle Direction := {}
  position : Option ℚ := none
  sent : List TurretCommand := []

/-- `sendTurretCommand`. -/
def Page.sendTurretCommand (p : Page) (c : TurretCommand) : Page := { p with sent := p.sent ++ [c] }

/-- `startTurretPan`, the same on both pages. -/
def Page.startTurretPan (p : Page) (d : Direction) : Page :=
  { p.sendTurretCommand d.command with timers := p.timers.replace .turretPanInterval d }

/-- `clearInterval(auxPanCommandInterval); auxPanCommandInterval = null;` if it is not. -/
def Page.clearAuxPan (p : Page) : Page :=
  { p with timers := p.timers.clear .auxPanCommandInterval }

/-- The part of `handleJoystickAuxMove` for a position with a direction. -/
def Page.startAuxPan (p : Page) (d : Direction) : Page :=
  if p.timers.handle .auxPanCommandInterval = none then
    Page.sendTurretCommand { p with timers := p.timers.store .auxPanCommandInterval d } d.command
  else p

/-- The `keydown` listener, the same on both pages, for the key in lower case. -/
def Page.keydown (p : Page) (key : Text) : Page :=
  if key ∈ p.pressedKeys then p
  else
    let p := { p with pressedKeys := p.pressedKeys ++ [key] }
    if key ∈ turretKeys then
      let p := p.clearAuxPan
      if key = "j".toList then p.startTurretPan .L
      else if key = "k".toList then p.startTurretPan .R
      else p
    else p

/-- The `keyup` listener, with the `stopTurretPan` of the page. -/
def Page.keyup (stopTurretPan : Page → Page) (p : Page) (key : Text) : Page :=
  let p := { p with pressedKeys := p.pressedKeys.filter (· ≠ key) }
  if key ∈ turretKeys then stopTurretPan p else p

/-- The handlers in which the pages differ. -/
structure Handlers where
  stopTurretPan : Page → Page
  handleJoystickAuxStart : Page → Page
  handleJoystickAuxMove : Page → Option ℚ → Page
  handleJoystickAuxEnd : Page → Page

/-- Events of the mouse, of touches and of the keyboard, and the firing of an interval.  The
joystick events carry the clamped `dx` of their position. -/
inductive Event
  | auxStart (dx : Option ℚ)
  | auxMove (dx : Option ℚ)
  | auxEnd
  | keydown (key : Text)
  | keyup (key : Text)
  | tick (id : ℕ)

/-- One step.  An interval fires while it is live. -/
def step (h : Handlers) (u : UnicodeTables) (p : Page) : Event → Option Page
  | .auxStart dx => some { h.handleJoystickAuxStart p with position := dx }
  | .auxMove dx => some { h.handleJoystickAuxMove p dx with position := dx }
  | .auxEnd => some (h.handleJoystickAuxEnd p)
  | .keydown key => some (p.keydown (toLowerCase u key))
  | .keyup key => some (p.keyup h.stopTurretPan (toLowerCase u key))
  | .tick id => (p.timers.live id).map fun d => p.sendTurretCommand d.command

def machine (h : Handlers) (u : UnicodeTables) : Machine Page Event where
  init := {}
  step := step h u

/-! ## The keys -/

/-- One of the keys j and k is held. -/
def TurretKeyHeld (pressedKeys : List Text) : Prop := ∃ key ∈ turretKeys, key ∈ pressedKeys

instance (pressedKeys : List Text) : Decidable (TurretKeyHeld pressedKeys) :=
  inferInstanceAs (Decidable (∃ key ∈ turretKeys, key ∈ pressedKeys))

theorem turretKeyHeld_append_of_mem {pressedKeys : List Text} {key : Text} (h : key ∈ turretKeys) :
    TurretKeyHeld (pressedKeys ++ [key]) :=
  ⟨key, h, List.mem_append_right _ List.mem_cons_self⟩

theorem turretKeyHeld_append_of_not_mem {pressedKeys : List Text} {key : Text}
    (h : key ∉ turretKeys) : TurretKeyHeld (pressedKeys ++ [key]) ↔ TurretKeyHeld pressedKeys := by
  constructor
  · rintro ⟨k, hk, hmem⟩
    refine ⟨k, hk, (List.mem_append.mp hmem).resolve_right fun hlast => ?_⟩
    exact h (List.mem_singleton.mp hlast ▸ hk)
  · rintro ⟨k, hk, hmem⟩
    exact ⟨k, hk, List.mem_append_left _ hmem⟩

theorem turretKeyHeld_filter_of_not_mem {pressedKeys : List Text} {key : Text}
    (h : key ∉ turretKeys) :
    TurretKeyHeld (pressedKeys.filter (· ≠ key)) ↔ TurretKeyHeld pressedKeys := by
  constructor
  · rintro ⟨k, hk, hmem⟩
    exact ⟨k, hk, (List.mem_filter.mp hmem).1⟩
  · rintro ⟨k, hk, hmem⟩
    refine ⟨k, hk, List.mem_filter.mpr ⟨hmem, ?_⟩⟩
    simpa using fun heq : k = key => h (heq ▸ hk)

/-- Everything a key that goes down can do. -/
theorem keydown_cases (p : Page) (key : Text) :
    p.keydown key = p ∨
      (key ∉ turretKeys ∧ p.keydown key = { p with pressedKeys := p.pressedKeys ++ [key] }) ∨
      (key ∈ turretKeys ∧ ∃ d, p.keydown key =
        (Page.clearAuxPan { p with pressedKeys := p.pressedKeys ++ [key] }).startTurretPan d) := by
  unfold Page.keydown
  by_cases hpressed : key ∈ p.pressedKeys
  · exact Or.inl (if_pos hpressed)
  · rw [if_neg hpressed]
    by_cases hkey : key ∈ turretKeys
    · refine Or.inr (Or.inr ⟨hkey, ?_⟩)
      rcases List.mem_pair.mp hkey with rfl | rfl
      · exact ⟨.L, rfl⟩
      · exact ⟨.R, rfl⟩
    · exact Or.inr (Or.inl ⟨hkey, if_neg hkey⟩)

/-! ## The intervals -/

theorem timers_startAuxPan_of_none {p : Page} {d : Direction}
    (h : p.timers.handle .auxPanCommandInterval = none) :
    (p.startAuxPan d).timers = p.timers.store .auxPanCommandInterval d := by
  rw [Page.startAuxPan, if_pos h]
  rfl

theorem startAuxPan_of_some {p : Page} {d : Direction}
    (h : p.timers.handle .auxPanCommandInterval ≠ none) : p.startAuxPan d = p :=
  if_neg h

theorem tidy_startAuxPan {p : Page} (h : Tidy p.timers) (d : Direction) :
    Tidy (p.startAuxPan d).timers := by
  by_cases hnone : p.timers.handle .auxPanCommandInterval = none
  · rw [timers_startAuxPan_of_none hnone]
    exact h.store hnone d
  · rwa [startAuxPan_of_some hnone]

theorem isDraggingAux_startAuxPan (p : Page) (d : Direction) :
    (p.startAuxPan d).isDraggingAux = p.isDraggingAux := by
  unfold Page.startAuxPan
  split_ifs <;> rfl

/-- A new interval of the keys, after the joystick's interval has been cleared. -/
theorem fires_clear_replace {t : Timers Handle Direction} (h : Tidy t) (d : Direction) :
    ((t.clear .auxPanCommandInterval).replace .turretPanInterval d).fires .auxPanCommandInterval =
      none := by
  rw [(h.clear _).fires_replace, if_neg (by decide), h.fires_clear, if_pos rfl]

/-- The two handles are all there are. -/
theorem quiet_iff {t : Timers Handle Direction} (h : Tidy t) :
    (∀ id, t.live id = none) ↔
      t.fires .turretPanInterval = none ∧ t.fires .auxPanCommandInterval = none := by
  rw [h.quiet_iff]
  constructor
  · intro hall
    exact ⟨hall _, hall _⟩
  · rintro ⟨hturret, haux⟩ handle
    cases handle with
    | turretPanInterval => exact hturret
    | auxPanCommandInterval => exact haux

/-! ## The recent page -/

namespace Recent

/-- `stopTurretPan`: the interval of the keys is cleared, and `T` is sent if there was one. -/
def stopTurretPan (p : Page) : Page :=
  if p.timers.handle .turretPanInterval ≠ none then
    Page.sendTurretCommand { p with timers := p.timers.clear .turretPanInterval } .T
  else p

/-- `handleJoystickAuxStart`. -/
def handleJoystickAuxStart (p : Page) : Page := stopTurretPan { p with isDraggingAux := true }

/-- `handleJoystickAuxMove`. -/
def handleJoystickAuxMove (p : Page) (dx : Option ℚ) : Page :=
  if p.isDraggingAux = false then p
  else
    match direction dx with
    | some d => p.startAuxPan d
    | none => if p.timers.handle .auxPanCommandInterval ≠ none then stopTurretPan p else p

/-- `handleJoystickAuxEnd`. -/
def handleJoystickAuxEnd (p : Page) : Page :=
  if p.isDraggingAux = false then p else stopTurretPan { p with isDraggingAux := false }

/-- The handlers of the page. -/
def handlers : Handlers where
  stopTurretPan := stopTurretPan
  handleJoystickAuxStart := handleJoystickAuxStart
  handleJoystickAuxMove := handleJoystickAuxMove
  handleJoystickAuxEnd := handleJoystickAuxEnd

/-- `stopTurretPan` changes the handle of the keys and nothing else. -/
theorem stopTurretPan_eq (p : Page) :
    (stopTurretPan p).timers = p.timers.clear .turretPanInterval ∧
      (stopTurretPan p).isDraggingAux = p.isDraggingAux ∧
      (stopTurretPan p).pressedKeys = p.pressedKeys := by
  unfold stopTurretPan
  split_ifs with hnone
  · exact ⟨rfl, rfl, rfl⟩
  · refine ⟨?_, rfl, rfl⟩
    rw [Timers.clear, not_not.mp hnone]

/-- A key that comes up leaves the joystick and its interval alone. -/
theorem keyup_view {p : Page} (h : Tidy p.timers) (key : Text) :
    (p.keyup stopTurretPan key).isDraggingAux = p.isDraggingAux ∧
      (p.keyup stopTurretPan key).pressedKeys = p.pressedKeys.filter (· ≠ key) ∧
      (p.keyup stopTurretPan key).timers.fires .auxPanCommandInterval =
        p.timers.fires .auxPanCommandInterval := by
  unfold Page.keyup
  split_ifs
  · obtain ⟨htimers, hdragging, hpressed⟩ :=
      stopTurretPan_eq { p with pressedKeys := p.pressedKeys.filter (· ≠ key) }
    refine ⟨hdragging, hpressed, ?_⟩
    rw [htimers, h.fires_clear, if_neg (by decide)]
  · exact ⟨rfl, rfl, rfl⟩

/-- Everything a move of the joystick can do. -/
theorem handleJoystickAuxMove_cases (p : Page) (dx : Option ℚ) :
    handleJoystickAuxMove p dx = p ∨
      (p.isDraggingAux = true ∧ ∃ d, handleJoystickAuxMove p dx = p.startAuxPan d) ∨
      (p.isDraggingAux = true ∧ handleJoystickAuxMove p dx = stopTurretPan p) := by
  unfold handleJoystickAuxMove
  cases hdragging : p.isDraggingAux with
  | false => exact Or.inl (if_pos rfl)
  | true =>
      rw [if_neg (by decide)]
      cases direction dx with
      | some d => exact Or.inr (Or.inl ⟨rfl, d, rfl⟩)
      | none =>
          by_cases hnone : p.timers.handle .auxPanCommandInterval ≠ none
          · exact Or.inr (Or.inr ⟨rfl, if_pos hnone⟩)
          · exact Or.inl (if_neg hnone)

/-- What is true of the page whatever happens: the interval of the keys fires only while one
of them is held. -/
structure Inv (p : Page) : Prop where
  tidy : Tidy p.timers
  turret : p.timers.fires .turretPanInterval ≠ none → TurretKeyHeld p.pressedKeys

theorem Inv.of_timers {p p' : Page} (hi : Inv p) (htimers : p'.timers = p.timers)
    (hheld : TurretKeyHeld p.pressedKeys → TurretKeyHeld p'.pressedKeys) : Inv p' :=
  ⟨htimers ▸ hi.tidy, fun h => hheld (hi.turret (htimers ▸ h))⟩

/-- `stopTurretPan` silences the keys, whatever is held. -/
theorem Inv.stopTurretPan {p : Page} (h : Tidy p.timers) : Inv (stopTurretPan p) := by
  obtain ⟨htimers, -, -⟩ := stopTurretPan_eq p
  refine ⟨htimers ▸ h.clear _, fun hfires => ?_⟩
  rw [htimers, h.fires_clear, if_pos rfl] at hfires
  exact absurd rfl hfires

theorem Inv.startAuxPan {p : Page} (hi : Inv p) (d : Direction) : Inv (p.startAuxPan d) := by
  by_cases hnone : p.timers.handle .auxPanCommandInterval = none
  · refine ⟨tidy_startAuxPan hi.tidy d, fun hfires => ?_⟩
    rw [timers_startAuxPan_of_none hnone, hi.tidy.fires_store, if_neg (by decide)] at hfires
    rw [Page.startAuxPan, if_pos hnone]
    exact hi.turret hfires
  · rwa [startAuxPan_of_some hnone]

theorem Inv.keydown {p : Page} (hi : Inv p) (key : Text) : Inv (p.keydown key) := by
  rcases keydown_cases p key with hsame | ⟨hkey, hp'⟩ | ⟨hkey, d, hp'⟩
  · rwa [hsame]
  · rw [hp']
    exact hi.of_timers rfl (turretKeyHeld_append_of_not_mem hkey).mpr
  · rw [hp']
    exact ⟨(hi.tidy.clear _).replace _ d, fun _ => turretKeyHeld_append_of_mem hkey⟩

theorem Inv.keyup {p : Page} (hi : Inv p) (key : Text) : Inv (p.keyup Recent.stopTurretPan key) := by
  unfold Page.keyup
  by_cases hkey : key ∈ turretKeys
  · rw [if_pos hkey]
    exact .stopTurretPan hi.tidy
  · rw [if_neg hkey]
    exact hi.of_timers rfl (turretKeyHeld_filter_of_not_mem hkey).mpr

theorem Inv.step {u : UnicodeTables} {p p' : Page} {e : Event} (hi : Inv p)
    (hs : step handlers u p e = some p') : Inv p' := by
  cases e with
  | auxStart dx =>
      obtain rfl := Option.some.inj hs
      exact Inv.of_timers (.stopTurretPan (p := { p with isDraggingAux := true }) hi.tidy) rfl id
  | auxMove dx =>
      obtain rfl := Option.some.inj hs
      have hmove : Inv (handleJoystickAuxMove p dx) := by
        rcases handleJoystickAuxMove_cases p dx with hp' | ⟨-, d, hp'⟩ | ⟨-, hp'⟩
        · rwa [hp']
        · rw [hp']
          exact hi.startAuxPan d
        · rw [hp']
          exact .stopTurretPan hi.tidy
      exact hmove.of_timers rfl id
  | auxEnd =>
      obtain rfl := Option.some.inj hs
      show Inv (handleJoystickAuxEnd p)
      unfold handleJoystickAuxEnd
      split_ifs
      · exact hi
      · exact .stopTurretPan (p := { p with isDraggingAux := false }) hi.tidy
  | keydown key =>
      obtain rfl := Option.some.inj hs
      exact hi.keydown _
  | keyup key =>
      obtain rfl := Option.some.inj hs
      exact hi.keyup _
  | tick id =>
      obtain ⟨d, -, rfl⟩ := Option.map_eq_some_iff.mp hs
      exact hi.of_timers rfl fun hheld => hheld

/-- When the joystick is not dragged and neither j nor k is held, no interval is live. -/
def Stopped (p : Page) : Prop :=
  p.isDraggingAux = false → ¬ TurretKeyHeld p.pressedKeys → ∀ id, p.timers.live id = none

/-- The last control is released while the joystick's interval is live: the joystick, with
neither key held, or the last of the two keys, with the joystick not dragged. -/
def ReleasesLast (u : UnicodeTables) (p : Page) : Event → Prop
  | .auxEnd => p.isDraggingAux = true ∧ ¬ TurretKeyHeld p.pressedKeys ∧
      p.timers.handle .auxPanCommandInterval ≠ none
  | .keyup key => p.isDraggingAux = false ∧
      ¬ TurretKeyHeld (p.pressedKeys.filter (· ≠ toLowerCase u key)) ∧
      p.timers.handle .auxPanCommandInterval ≠ none
  | _ => False

/-- The keys never leave an interval behind, so only the joystick's counts. -/
theorem Inv.stopped_iff {p : Page} (hi : Inv p) :
    Stopped p ↔ (p.isDraggingAux = false → ¬ TurretKeyHeld p.pressedKeys →
      p.timers.fires .auxPanCommandInterval = none) := by
  refine forall_congr' fun _ => forall_congr' fun hheld => ?_
  rw [quiet_iff hi.tidy]
  exact and_iff_right (by_contra fun hfires => hheld (hi.turret hfires))

/-- While the joystick is dragged there is nothing to stop. -/
theorem stopped_of_dragging {p : Page} (h : p.isDraggingAux = true) : Stopped p :=
  fun hnot => absurd (h.symm.trans hnot) (by simp)

theorem stopped_handleJoystickAuxMove {p : Page} (h : Stopped p) (dx : Option ℚ) :
    Stopped (handleJoystickAuxMove p dx) := by
  rcases handleJoystickAuxMove_cases p dx with hp' | ⟨hdragging, d, hp'⟩ | ⟨hdragging, hp'⟩
  · rwa [hp']
  · rw [hp']
    exact stopped_of_dragging ((isDraggingAux_startAuxPan p d).trans hdragging)
  · rw [hp']
    exact stopped_of_dragging ((stopTurretPan_eq p).2.1.trans hdragging)

theorem stopped_keydown {p : Page} (h : Stopped p) (key : Text) : Stopped (p.keydown key) := by
  rcases keydown_cases p key with hsame | ⟨hkey, hp'⟩ | ⟨hkey, d, hp'⟩
  · rwa [hsame]
  · rw [hp']
    exact fun hdragging hheld => h hdragging fun hbefore =>
      hheld ((turretKeyHeld_append_of_not_mem hkey).mpr hbefore)
  · rw [hp']
    exact fun _ hheld => absurd (turretKeyHeld_append_of_mem hkey) hheld

/-- The end of a drag silences the keys, but not the joystick. -/
theorem handleJoystickAuxEnd_view {p : Page} (h : Tidy p.timers) (hdragging : p.isDraggingAux = true) :
    (handleJoystickAuxEnd p).isDraggingAux = false ∧
      (handleJoystickAuxEnd p).pressedKeys = p.pressedKeys ∧
      (handleJoystickAuxEnd p).timers.fires .auxPanCommandInterval =
        p.timers.fires .auxPanCommandInterval := by
  have hend : handleJoystickAuxEnd p = stopTurretPan { p with isDraggingAux := false } :=
    if_neg (by simp [hdragging])
  obtain ⟨htimers, hnot, hpressed⟩ := stopTurretPan_eq { p with isDraggingAux := false }
  rw [hend, htimers, hnot, hpressed, h.fires_clear, if_neg (by decide)]
  exact ⟨rfl, rfl, rfl⟩

/-- **One step** leaves no interval behind, unless it releases the last control while the
joystick's interval is live. -/
theorem stopped_step_iff {u : UnicodeTables} {p p' : Page} {e : Event} (hi : Inv p)
    (h : Stopped p) (hs : step handlers u p e = some p') : Stopped p' ↔ ¬ ReleasesLast u p e := by
  have hi' : Inv p' := hi.step hs
  cases e with
  | auxStart dx =>
      obtain rfl := Option.some.inj hs
      exact iff_of_true
        (stopped_of_dragging (stopTurretPan_eq { p with isDraggingAux := true }).2.1) id
  | auxMove dx =>
      obtain rfl := Option.some.inj hs
      exact iff_of_true (stopped_handleJoystickAuxMove h dx) id
  | auxEnd =>
      obtain rfl := Option.some.inj hs
      cases hdragging : p.isDraggingAux with
      | false =>
          have hsame : handleJoystickAuxEnd p = p := if_pos hdragging
          refine iff_of_true ?_ (by simp [ReleasesLast, hdragging])
          show Stopped (handleJoystickAuxEnd p)
          rwa [hsame]
      | true =>
          obtain ⟨hnot, hpressed, hfires⟩ := handleJoystickAuxEnd_view hi.tidy hdragging
          rw [hi'.stopped_iff]
          show ((handleJoystickAuxEnd p).isDraggingAux = false →
            ¬ TurretKeyHeld (handleJoystickAuxEnd p).pressedKeys →
            (handleJoystickAuxEnd p).timers.fires .auxPanCommandInterval = none) ↔ _
          rw [hnot, hpressed, hfires]
          simp [ReleasesLast, hdragging, hi.tidy.handle_eq_none_iff]
  | keydown key =>
      obtain rfl := Option.some.inj hs
      exact iff_of_true (stopped_keydown h _) id
  | keyup key =>
      obtain rfl := Option.some.inj hs
      obtain ⟨hdragging, hpressed, hfires⟩ := keyup_view hi.tidy (toLowerCase u key)
      rw [hi'.stopped_iff]
      show ((p.keyup stopTurretPan (toLowerCase u key)).isDraggingAux = false →
        ¬ TurretKeyHeld (p.keyup stopTurretPan (toLowerCase u key)).pressedKeys →
        (p.keyup stopTurretPan (toLowerCase u key)).timers.fires .auxPanCommandInterval = none) ↔ _
      rw [hdragging, hpressed, hfires]
      simp [ReleasesLast, hi.tidy.handle_eq_none_iff]
  | tick id =>
      obtain ⟨d, -, rfl⟩ := Option.map_eq_some_iff.mp hs
      exact iff_of_true h fun hnot => hnot

theorem inv_init : Inv {} := ⟨tidy_init, fun h => absurd rfl h⟩

/-- **When the timers stop with the controls.**  Through a whole run of joystick events, key
events and firing intervals, no interval is live whenever the joystick is not dragged and
neither j nor k is held, if and only if no step releases the last of these controls while the
joystick's interval is live. -/
theorem timers_stop_iff (u : UnicodeTables) (es : List Event) :
    (machine handlers u).Throughout Stopped es ↔
      (machine handlers u).Avoids (ReleasesLast u) es :=
  Machine.throughout_iff_avoids (I := Inv) inv_init (fun _ _ _ => rfl)
    (fun _ _ _ hi hs => hi.step hs) (fun _ _ _ hi h hs => stopped_step_iff hi h hs) es

/-- The stick is pulled to the right and let go: the interval still sends `R`. -/
theorem timer_survives_release :
    ¬ (machine handlers .bare).Throughout Stopped [.auxStart (some 0), .auxMove (some 60), .auxEnd] := by
  intro h
  have hrun : ((machine handlers .bare).run (machine handlers .bare).init
      [.auxStart (some 0), .auxMove (some 60), .auxEnd]).map
        (fun p => (p.isDraggingAux, p.pressedKeys, p.timers.live 1)) =
          some (false, [], some .R) := by decide +kernel
  obtain ⟨p, hp, hfacts⟩ := Option.map_eq_some_iff.mp hrun
  simp only [Prod.mk.injEq] at hfacts
  obtain ⟨hdragging, hpressed, hlive⟩ := hfacts
  have hnone := h _ List.prefix_rfl p hp hdragging (by rw [hpressed]; decide) 1
  rw [hlive] at hnone
  cases hnone

end Recent

/-! ## The ultrasonic page -/

namespace Ultrasonic

/-- `stopTurretPan`. -/
def stopTurretPan (p : Page) : Page := { p with timers := p.timers.clear .turretPanInterval }

/-- `handleJoystickAuxStart`. -/
def handleJoystickAuxStart (p : Page) : Page := Page.clearAuxPan { p with isDraggingAux := true }

/-- `handleJoystickAuxMove`. -/
def handleJoystickAuxMove (p : Page) (dx : Option ℚ) : Page :=
  if p.isDraggingAux = false then p
  else
    match direction dx with
    | some d => p.startAuxPan d
    | none => p.clearAuxPan

/-- `handleJoystickAuxEnd`. -/
def handleJoystickAuxEnd (p : Page) : Page :=
  if p.isDraggingAux = false then p else Page.clearAuxPan { p with isDraggingAux := false }

/-- The handlers of the page. -/
def handlers : Handlers where
  stopTurretPan := stopTurretPan
  handleJoystickAuxStart := handleJoystickAuxStart
  handleJoystickAuxMove := handleJoystickAuxMove
  handleJoystickAuxEnd := handleJoystickAuxEnd

/-- What the joystick's interval sends, if it is live. -/
abbrev auxFires (p : Page) : Option Direction := p.timers.fires .auxPanCommandInterval

theorem auxFires_clearAuxPan {p : Page} (h : Tidy p.timers) : auxFires p.clearAuxPan = none := by
  rw [auxFires, Page.clearAuxPan, h.fires_clear, if_pos rfl]

/-- What is true of the page whatever happens: the joystick's interval is live only while the
joystick is dragged. -/
structure Inv (p : Page) : Prop where
  tidy : Tidy p.timers
  dragging : auxFires p ≠ none → p.isDraggingAux = true

/-- A page on which the joystick's interval has been cleared. -/
theorem Inv.of_cleared {p : Page} (h : Tidy p.timers) (hnone : auxFires p = none) : Inv p :=
  ⟨h, fun hfires => absurd hnone hfires⟩

/-- While the joystick's interval fires, it sends the side of the stick: this is what the next
firing does. -/
def FollowsStick (u : UnicodeTables) (p : Page) : Prop :=
  ∀ id p', p.timers.handle .auxPanCommandInterval = some id →
    step handlers u p (.tick id) = some p' →
      ∃ d, p'.sent = p.sent ++ [d.command] ∧ direction p.position = some d

/-- The stick jumps from one side to the other while the joystick's interval is live. -/
def Jumps (p : Page) : Event → Prop
  | .auxMove dx => p.timers.handle .auxPanCommandInterval ≠ none ∧
      ∃ d d', direction p.position = some d ∧ direction dx = some d' ∧ d ≠ d'
  | _ => False

/-- The property in terms of what the interval was started with. -/
theorem followsStick_iff {u : UnicodeTables} {p : Page} :
    FollowsStick u p ↔ ∀ d, auxFires p = some d → direction p.position = some d := by
  constructor
  · intro hfollows d hd
    obtain ⟨id, hid, hlive⟩ := Option.bind_eq_some_iff.mp hd
    obtain ⟨d', hsent, hposition⟩ := hfollows id _ hid (congrArg (Option.map _) hlive)
    have hd' : d.command = d'.command :=
      List.singleton_inj.mp (List.append_cancel_left hsent)
    exact Direction.command_injective hd' ▸ hposition
  · intro hfires id p' hid hs
    obtain ⟨d, hlive, rfl⟩ := Option.map_eq_some_iff.mp hs
    exact ⟨d, rfl, hfires d (Option.bind_eq_some_iff.mpr ⟨id, hid, hlive⟩)⟩

theorem followsStick_of_cleared {u : UnicodeTables} {p : Page} (hnone : auxFires p = none) :
    FollowsStick u p :=
  followsStick_iff.mpr fun d hd => absurd (hnone.symm.trans hd) (by simp)

/-- What a move does to a stick that is dragged. -/
theorem handleJoystickAuxMove_of_dragging {p : Page} (h : p.isDraggingAux = true) (dx : Option ℚ) :
    handleJoystickAuxMove p dx =
      match direction dx with
      | some d => p.startAuxPan d
      | none => p.clearAuxPan :=
  if_neg (by simp [h])

/-- What a step from `p` to `q` has to do: keep the invariant, and let the interval go on to
follow the stick unless the stick jumps. -/
def Steers (u : UnicodeTables) (p : Page) (e : Event) (q : Page) : Prop :=
  Inv q ∧ (FollowsStick u p → (FollowsStick u q ↔ ¬ Jumps p e))

theorem Steers.of_cleared {u : UnicodeTables} {p q : Page} {e : Event} (htidy : Tidy q.timers)
    (hnone : auxFires q = none) (hjump : ¬ Jumps p e) : Steers u p e q :=
  ⟨.of_cleared htidy hnone, fun _ => iff_of_true (followsStick_of_cleared hnone) hjump⟩

/-- An interval that is neither started nor cleared, under a stick that has not moved. -/
theorem Steers.of_same {u : UnicodeTables} {p q : Page} {e : Event} (hi : Inv p)
    (htidy : Tidy q.timers) (hfires : auxFires q = auxFires p)
    (hdragging : q.isDraggingAux = p.isDraggingAux) (hposition : q.position = p.position)
    (hjump : ¬ Jumps p e) : Steers u p e q := by
  refine ⟨⟨htidy, ?_⟩, fun h => iff_of_true ?_ hjump⟩
  · rw [hfires, hdragging]
    exact hi.dragging
  · rw [followsStick_iff, hfires, hposition]
    exact followsStick_iff.mp h

/-- A drag that leads beyond a threshold. -/
theorem Steers.startAuxPan {u : UnicodeTables} {p : Page} {dx : Option ℚ} {d : Direction} (hi : Inv p)
    (hdragging : p.isDraggingAux = true) (hdx : direction dx = some d) :
    Steers u p (.auxMove dx) { p.startAuxPan d with position := dx } := by
  by_cases hnone : p.timers.handle .auxPanCommandInterval = none
  · -- a new interval, in the direction of the stick
    have hfires : auxFires (p.startAuxPan d) = some d := by
      rw [auxFires, timers_startAuxPan_of_none hnone, hi.tidy.fires_store, if_pos rfl]
    refine ⟨⟨tidy_startAuxPan hi.tidy d, fun _ => (isDraggingAux_startAuxPan p d).trans hdragging⟩,
      fun _ => iff_of_true ?_ fun hjump => hjump.1 hnone⟩
    rw [followsStick_iff]
    intro d' hd'
    obtain rfl : d' = d := Option.some.inj (hd'.symm.trans hfires)
    exact hdx
  · -- the old interval goes on, with its old direction
    rw [startAuxPan_of_some hnone]
    refine ⟨⟨hi.tidy, fun _ => hdragging⟩, fun h => ?_⟩
    obtain ⟨d₀, hd₀⟩ : ∃ d₀, auxFires p = some d₀ :=
      Option.ne_none_iff_exists'.mp fun hfires =>
        hnone ((hi.tidy.handle_eq_none_iff _).mpr hfires)
    have hbefore := followsStick_iff.mp h d₀ hd₀
    rw [followsStick_iff]
    show (∀ d', auxFires p = some d' → direction dx = some d') ↔ _
    simp [Jumps, hd₀, hdx, hbefore, hnone, eq_comm]

/-- A move of the joystick. -/
theorem Steers.handleJoystickAuxMove {u : UnicodeTables} {p : Page} (hi : Inv p) (dx : Option ℚ) :
    Steers u p (.auxMove dx) { handleJoystickAuxMove p dx with position := dx } := by
  cases hdragging : p.isDraggingAux with
  | false =>
      have hnone : auxFires p = none := by
        by_contra hfires
        rw [hi.dragging hfires] at hdragging
        cases hdragging
      have hkeep : Ultrasonic.handleJoystickAuxMove p dx = p := if_pos hdragging
      rw [hkeep]
      exact .of_cleared hi.tidy hnone fun hjump =>
        hjump.1 ((hi.tidy.handle_eq_none_iff _).mpr hnone)
  | true =>
      rw [handleJoystickAuxMove_of_dragging hdragging]
      cases hdx : direction dx with
      | none =>
          refine .of_cleared (hi.tidy.clear _) (auxFires_clearAuxPan hi.tidy) ?_
          rintro ⟨-, d, d', -, hd', -⟩
          rw [hdx] at hd'
          cases hd'
      | some d => exact .startAuxPan hi hdragging hdx

/-- **One step**: the invariant holds after it, and the interval goes on to follow the stick
unless the stick jumps while it is live. -/
theorem Inv.step {u : UnicodeTables} {p p' : Page} {e : Event} (hi : Inv p)
    (hs : step handlers u p e = some p') : Steers u p e p' := by
  cases e with
  | auxStart dx =>
      obtain rfl := Option.some.inj hs
      exact .of_cleared (hi.tidy.clear _)
        (auxFires_clearAuxPan (p := { p with isDraggingAux := true }) hi.tidy) id
  | auxMove dx =>
      obtain rfl := Option.some.inj hs
      exact .handleJoystickAuxMove hi dx
  | auxEnd =>
      obtain rfl := Option.some.inj hs
      show Steers u p .auxEnd (handleJoystickAuxEnd p)
      unfold handleJoystickAuxEnd
      split_ifs
      · exact .of_same hi hi.tidy rfl rfl rfl id
      · exact .of_cleared (hi.tidy.clear _)
          (auxFires_clearAuxPan (p := { p with isDraggingAux := false }) hi.tidy) id
  | keydown key =>
      obtain rfl := Option.some.inj hs
      rcases keydown_cases p (toLowerCase u key) with hp' | ⟨-, hp'⟩ | ⟨-, d, hp'⟩
      · rw [hp']
        exact .of_same hi hi.tidy rfl rfl rfl id
      · rw [hp']
        exact .of_same hi hi.tidy rfl rfl rfl id
      · rw [hp']
        exact .of_cleared ((hi.tidy.clear _).replace _ d) (fires_clear_replace hi.tidy d) id
  | keyup key =>
      obtain rfl := Option.some.inj hs
      show Steers u p (.keyup key) (p.keyup stopTurretPan (toLowerCase u key))
      unfold Page.keyup
      split_ifs
      · refine .of_same hi (hi.tidy.clear _) ?_ rfl rfl id
        exact (hi.tidy.fires_clear _ _).trans (if_neg (by decide))
      · exact .of_same hi hi.tidy rfl rfl rfl id
  | tick id =>
      obtain ⟨d, -, rfl⟩ := Option.map_eq_some_iff.mp hs
      exact .of_same hi hi.tidy rfl rfl rfl fun hjump => hjump

theorem inv_init : Inv {} := .of_cleared tidy_init rfl

/-- **When the turret turns the way the stick points.**  Through a whole run of joystick
events, key events and firing intervals, whatever the interval of the joystick sends is the
side of the last position, if and only if the stick never jumps from one side to the other
while that interval is live. -/
theorem follows_stick_iff (u : UnicodeTables) (es : List Event) :
    (machine handlers u).Throughout (FollowsStick u) es ↔ (machine handlers u).Avoids Jumps es :=
  Machine.throughout_iff_avoids (I := Inv) inv_init (followsStick_of_cleared rfl)
    (fun _ _ _ hi hs => (hi.step hs).1) (fun _ _ _ hi h hs => (hi.step hs).2 h) es

/-- The stick jumps from the left to the right: the interval goes on to send `L`. -/
theorem interval_keeps_direction :
    ¬ (machine handlers .bare).Throughout (FollowsStick .bare)
      [.auxStart (some 0), .auxMove (some (-60)), .auxMove (some 60)] := by
  intro h
  have hrun : ((machine handlers .bare).run (machine handlers .bare).init
      [.auxStart (some 0), .auxMove (some (-60)), .auxMove (some 60)]).map
        (fun p => (p.timers.handle .auxPanCommandInterval, p.timers.live 1, direction p.position)) =
          some (some 1, some .L, some .R) := by decide +kernel
  obtain ⟨p, hp, hfacts⟩ := Option.map_eq_some_iff.mp hrun
  simp only [Prod.mk.injEq] at hfacts
  obtain ⟨hhandle, hlive, hright⟩ := hfacts
  obtain ⟨d, hsent, hposition⟩ := h _ List.prefix_rfl p hp 1 _ hhandle (congrArg (Option.map _) hlive)
  have hd : Direction.L.command = d.command := List.singleton_inj.mp (List.append_cancel_left hsent)
  obtain rfl : d = .R := Option.some.inj (hposition.symm.trans hright)
  cases hd

end Ultrasonic

end TurretPage
