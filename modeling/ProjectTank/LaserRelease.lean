/-
# Letting go of the laser (`main/index.html` and `main/web.py`)

Three inputs switch one laser: the FIRE button by mouse and touch and the space bar,
which share the flag `isFireOn`, and the left mouse button over the video image, which
does not look at it.  The listeners for the mouse are bound to the elements, so a button
that goes down over one of them and comes up somewhere else is not heard.

Requests are handled in the order in which they are sent, and succeed.

* `Covered`: something is held down whose release will switch the laser off;
* `Inv.step`: while the last request is `/laser_on` something covers it, in every run in
  which no mouse button comes up unheard while it alone does;
* `laser_off_when_released`: then the laser is off once everything is released;
* `laser_on_after_release`: otherwise it can stay on.
-/
import ProjectTank.HeldKeys

open ProgramText
open LetterPage (KeyEvent)

namespace MainLaser

/-! ## The listeners -/

/-- The two requests. -/
inductive LaserRequest
  | laserOn
  | laserOff
  deriving DecidableEq, Repr

/-- Where the pointer is when a mouse button goes down or comes up. -/
inductive Place
  | fire
  | video
  | elsewhere
  deriving DecidableEq, Repr

structure Page where
  pressedKeys : List Text := []
  isFireOn : Bool := false
  deriving DecidableEq

/-- The space bar. -/
def space : Text := [' ']

/-- `handleAction` of the FIRE button: the page afterwards, and what is sent. -/
def Page.handleAction (p : Page) : Page × List LaserRequest :=
  if p.isFireOn = false then ({ p with isFireOn := true }, [.laserOn]) else (p, [])

/-- `handleStop` of the FIRE button. -/
def Page.handleStop (p : Page) : Page × List LaserRequest :=
  if p.isFireOn then ({ p with isFireOn := false }, [.laserOff]) else (p, [])

/-- The `keydown` listener, as far as the laser goes. -/
def Page.keydown (p : Page) (key : Text) : Page × List LaserRequest :=
  if key ∈ p.pressedKeys then (p, [])
  else
    let p := { p with pressedKeys := p.pressedKeys ++ [key] }
    if key = space then
      if p.isFireOn = false then ({ p with isFireOn := true }, [.laserOn]) else (p, [])
    else (p, [])

/-- The `keyup` listener, as far as the laser goes. -/
def Page.keyup (p : Page) (key : Text) : Page × List LaserRequest :=
  let p := { p with pressedKeys := p.pressedKeys.filter (· ≠ key) }
  if key = space then
    if p.isFireOn then ({ p with isFireOn := false }, [.laserOff]) else (p, [])
  else (p, [])

/-- The listeners for `mousedown`: on FIRE for every button, on the video for the left
one, which has the number `0`. -/
def Page.mousedown (p : Page) (button : ℕ) (place : Place) : Page × List LaserRequest :=
  match place with
  | .fire => p.handleAction
  | .video => (p, if button = 0 then [.laserOn] else [])
  | .elsewhere => (p, [])

/-- The listeners for `mouseup`. -/
def Page.mouseup (p : Page) (button : ℕ) (place : Place) : Page × List LaserRequest :=
  match place with
  | .fire => p.handleStop
  | .video => (p, if button = 0 then [.laserOff] else [])
  | .elsewhere => (p, [])

/-! ## The system -/

/-- The mouse buttons that are down with the place where each went down, the touches on FIRE,
the page, the requests that are sent and not handled, those that are handled, the laser. -/
structure System where
  buttons : List (ℕ × Place) := []
  touches : ℕ := 0
  page : Page := {}
  requests : List LaserRequest := []
  handled : List LaserRequest := []
  laser : Bool := false

/-- Everything that can happen next.  A touch event on FIRE may be about several fingers at
once; a touch that begins on FIRE also ends there. -/
inductive Event
  | mousedown (button : ℕ) (place : Place)
  | mouseup (button : ℕ) (place : Place)
  | touchstart (fingers : ℕ)
  | touchend (fingers : ℕ)
  | touchcancel (fingers : ℕ)
  | key (e : KeyEvent)
  | handle

/-- The page has reacted to an event. -/
def System.react (x : System) (r : Page × List LaserRequest) : System :=
  { x with page := r.1, requests := x.requests ++ r.2 }

/-- A mouse button comes up. -/
def System.lift (x : System) (button : ℕ) : System :=
  { x with buttons := x.buttons.filter fun p => p.1 ≠ button }

/-- Touches on FIRE end. -/
def System.endTouches (x : System) (fingers : ℕ) : Option System :=
  if 0 < fingers ∧ fingers ≤ x.touches then
    some (System.react { x with touches := x.touches - fingers } x.page.handleStop)
  else none

/-- One step.  A button goes down when it is up and comes up when it is down. -/
def step (u : UnicodeTables) (x : System) : Event → Option System
  | .mousedown button place =>
      if button ∈ x.buttons.map Prod.fst then none
      else some (System.react { x with buttons := (button, place) :: x.buttons }
        (x.page.mousedown button place))
  | .mouseup button place =>
      if button ∈ x.buttons.map Prod.fst then
        some ((x.lift button).react (x.page.mouseup button place))
      else none
  | .touchstart fingers =>
      if 0 < fingers then
        some (System.react { x with touches := x.touches + fingers } x.page.handleAction)
      else none
  | .touchend fingers => x.endTouches fingers
  | .touchcancel fingers => x.endTouches fingers
  | .key (.keydown key) => some (x.react (x.page.keydown (toLowerCase u key)))
  | .key (.keyup key) => some (x.react (x.page.keyup (toLowerCase u key)))
  | .handle =>
      match x.requests with
      | [] => none
      | request :: requests =>
          some { x with
            requests := requests
            handled := x.handled ++ [request]
            laser := request = .laserOn }

/-- Nothing is down, nothing is sent, the laser is off. -/
def machine (u : UnicodeTables) : Machine System Event where
  init := {}
  step := step u

/-! ## What covers the laser -/

/-- The last request of all. -/
def System.lastRequest (x : System) : Option LaserRequest := (x.handled ++ x.requests).getLast?

/-- Something is down that belongs to FIRE: a mouse button, a touch, the space bar. -/
def System.FireHeld (x : System) : Prop :=
  (∃ p ∈ x.buttons, p.2 = .fire) ∨ 0 < x.touches ∨ space ∈ x.page.pressedKeys

instance (x : System) : Decidable x.FireHeld := inferInstanceAs (Decidable (_ ∨ _))

/-- Something is down whose release over its own element switches the laser off. -/
def System.Covered (x : System) : Prop :=
  (x.page.isFireOn = true ∧ x.FireHeld) ∨ (0, Place.video) ∈ x.buttons

instance (x : System) : Decidable x.Covered := inferInstanceAs (Decidable (_ ∨ _))

/-- The laser is covered when it is to be on, and it is what the last handled request
says. -/
structure Inv (x : System) : Prop where
  covered : x.lastRequest = some .laserOn → x.Covered
  laser : x.laser = decide (x.handled.getLast? = some .laserOn)

/-- A mouse button comes up: either this sends `/laser_off`, or the last request is not
`/laser_on`, or something else that is down covers the laser. -/
def ReleasesCovered (x : System) : Event → Prop
  | .mouseup button place =>
      x.lastRequest = some .laserOn →
        (x.page.mouseup button place).2 = [.laserOff] ∨ (x.lift button).Covered
  | _ => True

instance (x : System) : ∀ e, Decidable (ReleasesCovered x e)
  | .mouseup _ _ => inferInstanceAs (Decidable (_ → _))
  | .mousedown _ _ | .touchstart _ | .touchend _ | .touchcancel _ | .key _ | .handle => isTrue trivial

/-! ## The invariant -/

theorem lastRequest_react (x : System) (r : Page × List LaserRequest) :
    (x.react r).lastRequest = (r.2.getLast?).or x.lastRequest := by
  rw [System.lastRequest, System.lastRequest, System.react, ← List.append_assoc,
    List.getLast?_append]

section Reactions

variable {x : System} (hlaser : x.laser = decide (x.handled.getLast? = some .laserOn))
include hlaser

/-- Three ways in which a reaction keeps the invariant: the laser is covered, `/laser_off`
is sent, or nothing is sent and the laser is covered if it is to be on. -/
theorem Inv.of_covered {r : Page × List LaserRequest} (h : (x.react r).Covered) :
    Inv (x.react r) :=
  ⟨fun _ => h, hlaser⟩

theorem Inv.of_off {r : Page × List LaserRequest} (h : r.2 = [.laserOff]) : Inv (x.react r) := by
  refine ⟨fun hlast => ?_, hlaser⟩
  rw [lastRequest_react, h] at hlast
  exact absurd hlast (by simp)

theorem Inv.of_quiet {r : Page × List LaserRequest} (hnone : r.2 = [])
    (h : x.lastRequest = some .laserOn → (x.react r).Covered) : Inv (x.react r) := by
  refine ⟨fun hlast => h ?_, hlaser⟩
  rwa [lastRequest_react, hnone] at hlast

/-- A listener of FIRE at the beginning of a press: the flag is set then. -/
theorem Inv.handleAction (h : x.FireHeld) : Inv (x.react x.page.handleAction) := by
  refine Inv.of_covered hlaser (Or.inl ⟨?_, ?_⟩)
  · unfold Page.handleAction System.react
    split_ifs with hfire
    · rfl
    · simpa using hfire
  · unfold Page.handleAction System.react
    split_ifs <;> exact h

/-- A listener of FIRE at the end of a press: `/laser_off` is sent unless the flag was
not set. -/
theorem Inv.handleStop
    (h : x.lastRequest = some .laserOn → x.page.isFireOn = true ∨ x.Covered) :
    Inv (x.react x.page.handleStop) := by
  unfold Page.handleStop
  split_ifs with hfire
  · exact Inv.of_off hlaser rfl
  · refine Inv.of_quiet hlaser rfl fun hlast => ?_
    have hcovered := (h hlast).resolve_left hfire
    exact hcovered

end Reactions

/-- Without the flag only the video image covers the laser. -/
theorem System.Covered.video {x : System} (h : x.Covered) (hfire : ¬ x.page.isFireOn = true) :
    (0, Place.video) ∈ x.buttons :=
  h.resolve_left fun hboth => hfire hboth.1

/-- What covers the laser still does when one more button is down. -/
theorem System.Covered.cons {x : System} (h : x.Covered) (p : ℕ × Place) :
    System.Covered { x with buttons := p :: x.buttons } := by
  rcases h with ⟨hfire, ⟨q, hq, hplace⟩ | hother⟩ | hvideo
  · exact Or.inl ⟨hfire, Or.inl ⟨q, List.mem_cons_of_mem p hq, hplace⟩⟩
  · exact Or.inl ⟨hfire, Or.inr hother⟩
  · exact Or.inr (List.mem_cons_of_mem p hvideo)

theorem Inv.mousedown {x : System} (hi : Inv x) (button : ℕ) (place : Place) :
    Inv (System.react { x with buttons := (button, place) :: x.buttons }
      (x.page.mousedown button place)) := by
  set y : System := { x with buttons := (button, place) :: x.buttons } with hy
  have hquiet : Inv (y.react (x.page, [])) :=
    Inv.of_quiet (x := y) hi.laser rfl fun hlast => (hi.covered hlast).cons _
  cases place with
  | fire => exact Inv.handleAction (x := y) hi.laser (Or.inl ⟨(button, .fire), List.mem_cons_self, rfl⟩)
  | video =>
      by_cases hbutton : button = 0
      · subst hbutton
        exact Inv.of_covered (x := y) hi.laser (Or.inr List.mem_cons_self)
      · rw [Page.mousedown, if_neg hbutton]
        exact hquiet
  | elsewhere => exact hquiet

theorem Inv.mouseup {x : System} (hi : Inv x) {button : ℕ} {place : Place}
    (hC : ReleasesCovered x (.mouseup button place)) :
    Inv ((x.lift button).react (x.page.mouseup button place)) := by
  by_cases hoff : (x.page.mouseup button place).2 = [.laserOff]
  · exact Inv.of_off (x := x.lift button) hi.laser hoff
  · -- nothing is sent, and the page stays as it is
    have hquiet : x.page.mouseup button place = (x.page, []) := by
      cases place with
      | fire =>
          simp only [Page.mouseup, Page.handleStop] at hoff ⊢
          split_ifs at hoff ⊢ with hfire
          · exact absurd rfl hoff
          · rfl
      | video =>
          simp only [Page.mouseup] at hoff ⊢
          split_ifs at hoff ⊢ with hbutton
          · exact absurd rfl hoff
          · rfl
      | elsewhere => rfl
    rw [hquiet]
    exact Inv.of_quiet (x := x.lift button) hi.laser rfl fun hlast => (hC hlast).resolve_left hoff

theorem Inv.endTouches {x x' : System} (hi : Inv x) {fingers : ℕ}
    (h : x.endTouches fingers = some x') : Inv x' := by
  obtain rfl := Option.some.inj (Option.ite_none_right_eq_some.mp h).2
  refine Inv.handleStop (x := { x with touches := x.touches - fingers }) hi.laser fun hlast => ?_
  by_cases hfire : x.page.isFireOn = true
  · exact Or.inl hfire
  · exact Or.inr (Or.inr ((hi.covered hlast).video hfire))

theorem Inv.keydown {x : System} (hi : Inv x) (key : Text) :
    Inv (x.react (x.page.keydown key)) := by
  simp only [Page.keydown]
  split_ifs with hpressed hspace hfire
  · exact Inv.of_quiet hi.laser rfl hi.covered
  · exact Inv.of_covered hi.laser (Or.inl ⟨rfl, Or.inr (Or.inr (by simp [System.react, hspace]))⟩)
  · exact Inv.of_covered hi.laser (Or.inl ⟨by simpa [System.react] using hfire,
      Or.inr (Or.inr (by simp [System.react, hspace]))⟩)
  · refine Inv.of_quiet hi.laser rfl fun hlast => ?_
    exact (hi.covered hlast).imp
      (fun h => ⟨h.1, h.2.imp id fun h => h.imp id (List.mem_append_left [key])⟩) id

theorem Inv.keyup {x : System} (hi : Inv x) (key : Text) : Inv (x.react (x.page.keyup key)) := by
  simp only [Page.keyup]
  split_ifs with hspace hfire
  · exact Inv.of_off hi.laser rfl
  · exact Inv.of_quiet hi.laser rfl fun hlast => Or.inr ((hi.covered hlast).video hfire)
  · refine Inv.of_quiet hi.laser rfl fun hlast => ?_
    have hkeep : space ∈ x.page.pressedKeys → space ∈ x.page.pressedKeys.filter (· ≠ key) :=
      fun h => List.mem_filter.mpr ⟨h, by simpa using Ne.symm hspace⟩
    exact (hi.covered hlast).imp (fun h => ⟨h.1, h.2.imp id fun h => h.imp id hkeep⟩) id

/-- **One step keeps the laser covered.** -/
theorem Inv.step {u : UnicodeTables} {x x' : System} {e : Event} (hi : Inv x)
    (hC : ReleasesCovered x e) (h : step u x e = some x') : Inv x' := by
  cases e with
  | mousedown button place =>
      obtain rfl := Option.some.inj (Option.ite_none_left_eq_some.mp h).2
      exact hi.mousedown button place
  | mouseup button place =>
      obtain rfl := Option.some.inj (Option.ite_none_right_eq_some.mp h).2
      exact hi.mouseup hC
  | touchstart fingers =>
      obtain ⟨hfingers, hx'⟩ := Option.ite_none_right_eq_some.mp h
      obtain rfl := Option.some.inj hx'
      exact Inv.handleAction (x := { x with touches := x.touches + fingers }) hi.laser
        (Or.inr (Or.inl (Nat.add_pos_right _ hfingers)))
  | touchend fingers => exact hi.endTouches h
  | touchcancel fingers => exact hi.endTouches h
  | key e =>
      cases e with
      | keydown key => exact Option.some.inj h ▸ hi.keydown _
      | keyup key => exact Option.some.inj h ▸ hi.keyup _
  | handle =>
      simp only [MainLaser.step] at h
      cases hrequests : x.requests with
      | nil => simp [hrequests] at h
      | cons request requests =>
          rw [hrequests] at h
          obtain rfl := Option.some.inj h
          refine ⟨fun hlast => hi.covered ?_, ?_⟩
          · simpa [System.lastRequest, hrequests] using hlast
          · simp

/-! ## Runs -/

/-- **The laser is off when nothing is pressed**, in every run in which no mouse button
comes up unheard while the laser is to be on and nothing else that is down covers it:
once every mouse button and touch is up, the space bar is released and all requests are
done, the last request handled is `/laser_off`, or none was ever sent, and the laser is
off. -/
theorem laser_off_when_released (u : UnicodeTables) {x : System}
    (hx : (machine u).ReachesUnder ReleasesCovered x) (hbuttons : x.buttons = [])
    (htouches : x.touches = 0) (hspace : space ∉ x.page.pressedKeys) (hdone : x.requests = []) :
    (x.handled = [] ∨ x.handled.getLast? = some .laserOff) ∧ x.laser = false := by
  have hinit : Inv {} := ⟨fun h => absurd h (by simp [System.lastRequest]), rfl⟩
  have hi : Inv x := hx.invariant (I := Inv) hinit fun _ _ _ hi hC h => hi.step hC h
  have hnot : x.handled.getLast? ≠ some .laserOn := by
    intro hlast
    have hcovered := hi.covered (by rw [System.lastRequest, hdone, List.append_nil]; exact hlast)
    simp [System.Covered, System.FireHeld, hbuttons, htouches, hspace] at hcovered
  constructor
  · cases hlast : x.handled.getLast? with
    | none => exact Or.inl (List.getLast?_eq_none_iff.mp hlast)
    | some request =>
        cases request with
        | laserOn => exact absurd hlast hnot
        | laserOff => exact Or.inr rfl
  · rw [hi.laser]
    simpa using hnot

/-- A run with all three inputs, overlapping: the left button goes down over FIRE, the space
bar and a touch join, the button comes up elsewhere; then the video image is clicked. -/
theorem laser_off_after_overlap :
    ∃ x, (machine .bare).runUnder ReleasesCovered (machine .bare).init
        [.mousedown 0 .fire, .key (.keydown space), .touchstart 1, .mouseup 0 .elsewhere,
          .touchend 1, .key (.keyup space), .mousedown 0 .video, .mouseup 0 .video,
          .handle, .handle, .handle, .handle] = some x ∧
      (x.handled = [] ∨ x.handled.getLast? = some .laserOff) ∧ x.laser = false := by
  have hrun : ((machine .bare).runUnder ReleasesCovered (machine .bare).init
      [.mousedown 0 .fire, .key (.keydown space), .touchstart 1, .mouseup 0 .elsewhere,
        .touchend 1, .key (.keyup space), .mousedown 0 .video, .mouseup 0 .video,
        .handle, .handle, .handle, .handle]).map
      (fun x => (x.buttons, x.touches, x.page.pressedKeys, x.requests)) =
        some ([], 0, [], []) := by decide
  obtain ⟨x, hx, hfacts⟩ := Option.map_eq_some_iff.mp hrun
  simp only [Prod.mk.injEq] at hfacts
  obtain ⟨hbuttons, htouches, hkeys, hdone⟩ := hfacts
  exact ⟨x, hx, laser_off_when_released .bare (Machine.ReachesUnder.init.runUnder hx) hbuttons
    htouches (by rw [hkeys]; simp) hdone⟩

/-- **A release that nobody hears.**  The left button goes down over FIRE and comes up
beside it: everything is released and done, and the laser stays on. -/
theorem laser_on_after_release :
    ((machine .bare).run (machine .bare).init
      [.mousedown 0 .fire, .mouseup 0 .elsewhere, .handle]).map
        (fun x => (x.buttons.length, x.touches, x.page.pressedKeys, x.requests.length, x.laser)) =
      some (0, 0, [], 0, true) := by
  decide

end MainLaser
