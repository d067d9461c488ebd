/-
# The fire controls (`Guy/peter/index_fixed.html`)

FIRE under the mouse, FIRE under a finger and the space bar share one flag,
`isFireOn`, and `repeatedTask` samples it every 50 ms unless a request is pending.
The flag is cleared by any release, but the release of a mouse button is heard only over
FIRE itself.

* `fire_stops_iff`: the flag is clear whenever nothing is held, through a whole run, if
  and only if no mouse button that went down on FIRE comes up elsewhere as the last thing
  held, with the flag set;
* `press_sent_iff`: in an endless run every press is sent if and only if it lasts until a
  tick that finds no request pending.
-/
import ProjectTank.AxisKeys
import ProjectTank.JoystickText

open ProgramText
open AxisKeys (Page Axis)
open LetterPage (KeyEvent)

namespace FireControls

/-! ## The page -/

/-- Where on the page a mouse button goes down or comes up. -/
inductive Place
  | fire
  | elsewhere
  deriving DecidableEq, Repr

/-- The key that fires. -/
def space : Text := " ".toList

/-- The values of a command. -/
structure Command where
  leftJoystickY : ℤ
  leftJoystickX : ℤ
  rightJoystickY : ℤ
  rightJoystickX : ℤ
  fireData : ℤ
  lightData : ℤ
  deriving DecidableEq, Repr

/-- The URL that is requested for a command. -/
def Command.url (c : Command) : Text :=
  JoystickPage.tankCommandUrl (JoystickPage.rawCommand c.leftJoystickY c.leftJoystickX
    c.rightJoystickY c.rightJoystickX c.fireData c.lightData)

/-- The command that `repeatedTask` makes of the values of the page. -/
def command (p : Page) : Command where
  leftJoystickY := p.value .leftJoystickY
  leftJoystickX := p.value .leftJoystickX
  rightJoystickY := p.value .rightJoystickY
  rightJoystickX := p.value .rightJoystickX
  fireData := if p.isFireOn then 1 else 0
  lightData := if p.isLightOn then 1 else 0

/-- The listener of FIRE for `mousedown`, which hears every button. -/
def mousedown (p : Page) : Place → Page
  | .fire => p.handleFireOn
  | .elsewhere => p

/-- The listener of FIRE for `mouseup`. -/
def mouseup (p : Page) : Place → Page
  | .fire => p.handleFireOff
  | .elsewhere => p

/-- The mouse buttons that are down, with the place where each went down, the touches that
began on FIRE, the page, whether a request is pending, and the commands requested so far. -/
structure System where
  buttons : List (ℕ × Place) := []
  touches : ℕ := 0
  page : Page := {}
  pendingRequest : Bool := false
  sent : List Command := []

/-- Everything that can happen next.  A touch event on FIRE may be about several fingers at
once; a touch that begins on FIRE also ends there. -/
inductive Event
  | mousedown (button : ℕ) (place : Place)
  | mouseup (button : ℕ) (place : Place)
  | touchstart (fingers : ℕ)
  | touchend (fingers : ℕ)
  | touchcancel (fingers : ℕ)
  | key (e : KeyEvent)
  | tick
  | complete

/-- A mouse button comes up. -/
def System.lift (x : System) (button : ℕ) : System :=
  { x with buttons := x.buttons.filter fun p => p.1 ≠ button }

/-- Touches on FIRE end. -/
def System.endTouches (x : System) (fingers : ℕ) : Option System :=
  if 0 < fingers ∧ fingers ≤ x.touches then
    some { x with touches := x.touches - fingers, page := x.page.handleFireOff }
  else none

/-- `repeatedTask`. -/
def System.repeatedTask (x : System) : System :=
  if x.pendingRequest then x
  else { x with pendingRequest := true, sent := x.sent ++ [command x.page] }

/-- One step.  A button goes down when it is up and comes up when it is down; a request
completes when it is pending. -/
def step (u : UnicodeTables) (x : System) : Event → Option System
  | .mousedown button place =>
      if button ∈ x.buttons.map Prod.fst then none
      else some { x with buttons := (button, place) :: x.buttons, page := mousedown x.page place }
  | .mouseup button place =>
      if button ∈ x.buttons.map Prod.fst then
        some { x.lift button with page := mouseup x.page place }
      else none
  | .touchstart fingers =>
      if 0 < fingers then
        some { x with touches := x.touches + fingers, page := x.page.handleFireOn }
      else none
  | .touchend fingers => x.endTouches fingers
  | .touchcancel fingers => x.endTouches fingers
  | .key e => some { x with page := x.page.handle u e }
  | .tick => some x.repeatedTask
  | .complete => if x.pendingRequest then some { x with pendingRequest := false } else none

/-- Nothing is down and nothing is requested. -/
def machine (u : UnicodeTables) : Machine System Event where
  init := {}
  step := step u

/-! ## The flag -/

theorem isFireOn_handleFireOff (p : Page) : p.handleFireOff.isFireOn = false := by
  unfold Page.handleFireOff
  split_ifs with h
  · rfl
  · simpa using h

/-- A key other than space leaves the flag alone. -/
theorem isFireOn_handleKeyDown {p : Page} {key : Text} (h : key ≠ space) :
    (p.handleKeyDown key).isFireOn = p.isFireOn := by
  simp only [Page.handleKeyDown, if_neg (show ¬ key = " ".toList from h), Page.toggleCarLight]
  split_ifs <;> rfl

theorem isFireOn_handleKeyUp {p : Page} {key : Text} (h : key ≠ space) :
    (p.handleKeyUp key).isFireOn = p.isFireOn := by
  simp only [Page.handleKeyUp, if_neg (show ¬ key = " ".toList from h)]

/-- Space clears the flag when it comes up. -/
theorem isFireOn_handleKeyUp_space (p : Page) : (p.handleKeyUp space).isFireOn = false :=
  isFireOn_handleFireOff { p with pressedKeys := p.pressedKeys.filter (· ≠ space) }

/-- A key that goes down is pressed afterwards, and so is what was pressed before. -/
theorem mem_pressedKeys_handleKeyDown {p : Page} {key k : Text} :
    k ∈ (p.handleKeyDown key).pressedKeys ↔ k ∈ p.pressedKeys ∨ k = key := by
  by_cases hpressed : key ∈ p.pressedKeys
  · have hsame : p.handleKeyDown key = p := if_pos hpressed
    rw [hsame]
    refine ⟨Or.inl, ?_⟩
    rintro (h | rfl)
    · exact h
    · exact hpressed
  · rw [(AxisKeys.handleKeyDown_of_not_mem hpressed).1, List.mem_append, List.mem_singleton]

theorem mem_pressedKeys_handleKeyUp {p : Page} {key k : Text} :
    k ∈ (p.handleKeyUp key).pressedKeys ↔ k ∈ p.pressedKeys ∧ k ≠ key := by
  rw [(AxisKeys.handleKeyUp_eq p key).1]
  simp [List.mem_filter]

/-! ## Releases -/

/-- Something is down that went down as a fire control: a mouse button on FIRE, a touch on
FIRE, the space bar. -/
def System.FireHeld (x : System) : Prop :=
  (∃ p ∈ x.buttons, p.2 = .fire) ∨ 0 < x.touches ∨ space ∈ x.page.pressedKeys

instance (x : System) : Decidable x.FireHeld := inferInstanceAs (Decidable (_ ∨ _))

/-- When no fire control is held the flag is clear, and `repeatedTask` sends `FC:0`. -/
def System.Stops (x : System) : Prop :=
  ¬ x.FireHeld → x.page.isFireOn = false ∧ (command x.page).fireData = 0

/-- A mouse button that went down on FIRE comes up elsewhere; the flag is set, and no other
fire control is held. -/
def UnheardRelease (x : System) : Event → Prop
  | .mouseup button .elsewhere =>
      x.page.isFireOn = true ∧ (button, Place.fire) ∈ x.buttons ∧ ¬ (x.lift button).FireHeld
  | _ => False

theorem System.stops_iff (x : System) : x.Stops ↔ (x.page.isFireOn = true → x.FireHeld) := by
  have hdata : x.page.isFireOn = false → (command x.page).fireData = 0 := fun h => by
    rw [command, h]
    rfl
  constructor
  · intro h hfire
    by_contra hheld
    rw [(h hheld).1] at hfire
    exact Bool.false_ne_true hfire
  · intro h hheld
    have hfire : x.page.isFireOn = false := Bool.eq_false_iff.mpr fun hfire => hheld (h hfire)
    exact ⟨hfire, hdata hfire⟩

theorem System.Stops.of_clear {x : System} (h : x.page.isFireOn = false) : x.Stops := by
  rw [stops_iff, h]
  exact fun hfire => absurd hfire Bool.false_ne_true

theorem System.Stops.of_held {x : System} (h : x.FireHeld) : x.Stops :=
  (stops_iff x).mpr fun _ => h

/-- A step that keeps the flag and takes nothing off the controls. -/
theorem System.Stops.mono {x x' : System} (h : x.Stops)
    (hfire : x'.page.isFireOn = x.page.isFireOn) (hheld : x.FireHeld → x'.FireHeld) : x'.Stops := by
  rw [stops_iff, hfire]
  exact fun hset => hheld ((stops_iff x).mp h hset)

theorem System.Stops.endTouches {x x' : System} {fingers : ℕ}
    (h : x.endTouches fingers = some x') : x'.Stops := by
  obtain rfl := Option.some.inj (Option.ite_none_right_eq_some.mp h).2
  exact .of_clear (isFireOn_handleFireOff x.page)

/-- A mouse button that comes up elsewhere. -/
theorem System.Stops.lift_iff {x : System} (h : x.Stops) (button : ℕ) :
    (x.lift button).Stops ↔ ¬ UnheardRelease x (.mouseup button .elsewhere) := by
  rw [stops_iff]
  show (x.page.isFireOn = true → (x.lift button).FireHeld) ↔ ¬ (_ ∧ _ ∧ _)
  constructor
  · rintro hheld ⟨hfire, -, hnot⟩
    exact hnot (hheld hfire)
  · intro hheard hfire
    by_contra hnot
    refine hheard ⟨hfire, ?_, hnot⟩
    -- it was held before the release, so by the button that is released
    rcases (stops_iff x).mp h hfire with ⟨⟨b, place⟩, hb, hplace⟩ | hother
    · obtain rfl : place = .fire := hplace
      have hbutton : b = button := by
        by_contra hne
        exact hnot (Or.inl ⟨(b, .fire), List.mem_filter.mpr ⟨hb, by simpa using hne⟩, rfl⟩)
      exact hbutton ▸ hb
    · exact absurd (Or.inr hother) hnot

/-- A mouse button that goes down. -/
theorem System.Stops.mousedown {x : System} (h : x.Stops) (button : ℕ) (place : Place) :
    System.Stops { x with
      page := FireControls.mousedown x.page place, buttons := (button, place) :: x.buttons } := by
  cases place with
  | fire => exact .of_held (Or.inl ⟨(button, .fire), List.mem_cons_self, rfl⟩)
  | elsewhere =>
      refine h.mono rfl fun hheld => ?_
      exact hheld.imp_left fun ⟨p, hp, hplace⟩ => ⟨p, List.mem_cons_of_mem _ hp, hplace⟩

/-- A key: space sets the flag and clears it, and another key leaves the fire controls alone. -/
theorem System.Stops.key {x : System} (h : x.Stops) (u : UnicodeTables) (e : KeyEvent) :
    System.Stops { x with page := x.page.handle u e } := by
  cases e with
  | keydown key =>
      by_cases hspace : toLowerCase u key = space
      · refine .of_held (Or.inr (Or.inr ?_))
        exact mem_pressedKeys_handleKeyDown.mpr (Or.inr hspace.symm)
      · refine h.mono (isFireOn_handleKeyDown hspace) fun hheld => ?_
        exact hheld.imp_right fun hother => hother.imp_right fun hmem =>
          mem_pressedKeys_handleKeyDown.mpr (Or.inl hmem)
  | keyup key =>
      by_cases hspace : toLowerCase u key = space
      · refine .of_clear ?_
        show (x.page.handleKeyUp (toLowerCase u key)).isFireOn = false
        rw [hspace]
        exact isFireOn_handleKeyUp_space x.page
      · refine h.mono (isFireOn_handleKeyUp hspace) fun hheld => ?_
        exact hheld.imp_right fun hother => hother.imp_right fun hmem =>
          mem_pressedKeys_handleKeyUp.mpr ⟨hmem, Ne.symm hspace⟩

/-- **One step** stops the fire with the controls, unless the release is not heard. -/
theorem System.Stops.step_iff {u : UnicodeTables} {x x' : System} {e : Event} (h : x.Stops)
    (hs : step u x e = some x') : x'.Stops ↔ ¬ UnheardRelease x e := by
  cases e with
  | mousedown button place =>
      obtain rfl := Option.some.inj (Option.ite_none_left_eq_some.mp hs).2
      exact iff_of_true (h.mousedown button place) id
  | mouseup button place =>
      obtain rfl := Option.some.inj (Option.ite_none_right_eq_some.mp hs).2
      cases place with
      | fire => exact iff_of_true (.of_clear (isFireOn_handleFireOff x.page)) id
      | elsewhere => exact h.lift_iff button
  | touchstart fingers =>
      obtain ⟨hfingers, hx'⟩ := Option.ite_none_right_eq_some.mp hs
      obtain rfl := Option.some.inj hx'
      exact iff_of_true (.of_held (Or.inr (Or.inl (Nat.add_pos_right _ hfingers)))) id
  | touchend fingers => exact iff_of_true (.endTouches hs) id
  | touchcancel fingers => exact iff_of_true (.endTouches hs) id
  | key e =>
      obtain rfl := Option.some.inj hs
      exact iff_of_true (h.key u e) id
  | tick =>
      obtain rfl := Option.some.inj hs
      refine iff_of_true ?_ id
      unfold System.repeatedTask
      split_ifs
      · exact h
      · exact h.mono rfl id
  | complete =>
      obtain rfl := Option.some.inj (Option.ite_none_right_eq_some.mp hs).2
      exact iff_of_true (h.mono rfl id) id

/-- **When the fire stops with the controls.**  Through a whole run of mouse, touch and key
events, ticks and completions, the flag is clear and `FC:0` is what is sent whenever no fire
control is held, if and only if no step releases, away from FIRE and with the flag set, a
mouse button that went down on FIRE and is the last fire control held. -/
theorem fire_stops_iff (u : UnicodeTables) (es : List Event) :
    (machine u).Throughout System.Stops es ↔ (machine u).Avoids UnheardRelease es :=
  Machine.throughout_iff_avoids (I := fun _ => True) trivial (.of_clear rfl)
    (fun _ _ _ _ _ => trivial) (fun _ _ _ _ h hs => h.step_iff hs) es

/-- A button goes down on FIRE and comes up elsewhere: the next tick sends `FC:1`. -/
theorem fire_stays_on :
    ¬ (machine .bare).Throughout System.Stops [.mousedown 0 .fire, .mouseup 0 .elsewhere] := by
  intro h
  have hrun : ((machine .bare).run (machine .bare).init
      [.mousedown 0 .fire, .mouseup 0 .elsewhere]).map
        (fun x => (decide x.FireHeld, (command x.page).fireData)) = some (false, 1) := by decide
  obtain ⟨x, hx, hfacts⟩ := Option.map_eq_some_iff.mp hrun
  simp only [Prod.mk.injEq, decide_eq_false_iff_not] at hfacts
  have hdata := (h _ List.prefix_rfl x hx hfacts.1).2
  rw [hfacts.2] at hdata
  exact absurd hdata (by decide)

/-! ## Presses and ticks -/

/-- What an event does to the requests: a tick, a completion, or nothing. -/
theorem requests_of_step {u : UnicodeTables} {x x' : System} {e : Event}
    (hs : step u x e = some x') :
    (e = .tick ∧ x' = x.repeatedTask) ∨ (e = .complete ∧ x' = { x with pendingRequest := false }) ∨
      (e ≠ .tick ∧ x'.pendingRequest = x.pendingRequest ∧ x'.sent = x.sent) := by
  cases e with
  | tick => exact Or.inl ⟨rfl, (Option.some.inj hs).symm⟩
  | complete => exact Or.inr (Or.inl ⟨rfl, (Option.some.inj (Option.ite_none_right_eq_some.mp hs).2).symm⟩)
  | mousedown button place =>
      obtain rfl := Option.some.inj (Option.ite_none_left_eq_some.mp hs).2
      exact Or.inr (Or.inr ⟨by simp, rfl, rfl⟩)
  | key e =>
      obtain rfl := Option.some.inj hs
      exact Or.inr (Or.inr ⟨by simp, rfl, rfl⟩)
  | _ =>
      obtain rfl := Option.some.inj (Option.ite_none_right_eq_some.mp hs).2
      exact Or.inr (Or.inr ⟨by simp, rfl, rfl⟩)

theorem repeatedTask_page (x : System) : x.repeatedTask.page = x.page := by
  unfold System.repeatedTask
  split_ifs <;> rfl

section Runs

variable {u : UnicodeTables} {x : System} (t : (machine u).Trace x)

/-- The flag goes from false to true. -/
def RisesAt (n : ℕ) : Prop :=
  (t.state n).page.isFireOn = false ∧ (t.state (n + 1)).page.isFireOn = true

/-- The flag goes from true to false. -/
def FallsAt (n : ℕ) : Prop :=
  (t.state n).page.isFireOn = true ∧ (t.state (n + 1)).page.isFireOn = false

/-- A tick finds no request pending. -/
def FreeTickAt (n : ℕ) : Prop := t.label n = .tick ∧ (t.state n).pendingRequest = false

/-- A command with `FC:1` is sent. -/
def SendsFireAt (n : ℕ) : Prop :=
  ∃ c, (t.state (n + 1)).sent = (t.state n).sent ++ [c] ∧ c.fireData = 1

/-- The timer goes on for ever, and requests complete. -/
structure Fair : Prop where
  ticks : ∀ n, ∃ k, n ≤ k ∧ t.label k = .tick
  completes : ∀ n, (t.state n).pendingRequest = true → ∃ k, n ≤ k ∧ t.label k = .complete

/-- The press that begins at `n` is sent before the next press begins. -/
def PressSent (n : ℕ) : Prop :=
  ∃ m, n < m ∧ SendsFireAt t m ∧ ∀ k, n < k → k < m → ¬ RisesAt t k

/-- The press that begins at `n` lasts until a tick that finds no request pending: if the flag
falls, such a tick has come before. -/
def PressLasts (n : ℕ) : Prop :=
  ∀ m, n < m → FallsAt t m → (∀ k, n < k → k < m → ¬ FallsAt t k) →
    ∃ k, n < k ∧ k < m ∧ FreeTickAt t k

variable {t}

theorem sendsFireAt_iff {n : ℕ} :
    SendsFireAt t n ↔ FreeTickAt t n ∧ (t.state n).page.isFireOn = true := by
  rcases requests_of_step (t.next n) with ⟨htick, hx'⟩ | ⟨hcomplete, hx'⟩ | ⟨htick, -, hsent⟩
  · cases hpending : (t.state n).pendingRequest with
    | true =>
        have hsame : t.state (n + 1) = t.state n := by rw [hx', System.repeatedTask, if_pos hpending]
        simp [SendsFireAt, FreeTickAt, hpending, hsame]
    | false =>
        have hsent : (t.state (n + 1)).sent = (t.state n).sent ++ [command (t.state n).page] := by
          rw [hx', System.repeatedTask, if_neg (by simp [hpending])]
        simp only [SendsFireAt, FreeTickAt, hsent, htick, hpending, and_self, true_and,
          List.append_cancel_left_eq, List.cons.injEq, and_true, exists_eq_left', command]
        cases (t.state n).page.isFireOn <;> decide
  · have hsent : (t.state (n + 1)).sent = (t.state n).sent := by rw [hx']
    simp [SendsFireAt, FreeTickAt, hsent, hcomplete]
  · simp [SendsFireAt, FreeTickAt, hsent, htick]

theorem not_fallsAt_of_tick {n : ℕ} (h : t.label n = .tick) : ¬ FallsAt t n := by
  rintro ⟨hset, hclear⟩
  have hx' : (t.state n).repeatedTask = t.state (n + 1) := by
    have hs := t.next n
    rw [h] at hs
    exact Option.some.inj hs
  rw [← hx', repeatedTask_page, hset] at hclear
  exact absurd hclear (by decide)

/-- Between its first rise and its first fall the flag is set, and while it is set it
does not rise. -/
theorem isFireOn_of_no_fall {n k : ℕ} (hle : n ≤ k) (hn : (t.state n).page.isFireOn = true)
    (hno : ∀ j, n ≤ j → j < k → ¬ FallsAt t j) : (t.state k).page.isFireOn = true := by
  refine t.stays (P := fun x => x.page.isFireOn = true) hle hn fun j hnj hjk hj => ?_
  by_contra hclear
  exact hno j hnj hjk ⟨hj, Bool.eq_false_iff.mpr hclear⟩

/-- After a moment without a request, and until the next tick, no request is pending. -/
theorem Fair.exists_freeTick_of_idle (h : Fair t) {n : ℕ}
    (hidle : (t.state n).pendingRequest = false) : ∃ k, n ≤ k ∧ FreeTickAt t k := by
  classical
  have hex := h.ticks n
  obtain ⟨hle, htick⟩ := Nat.find_spec hex
  refine ⟨Nat.find hex, hle, htick, ?_⟩
  refine t.stays (P := fun x => x.pendingRequest = false) hle hidle fun j hnj hj hfree => ?_
  rcases requests_of_step (t.next j) with ⟨hlabel, -⟩ | ⟨-, hx'⟩ | ⟨-, hpending, -⟩
  · exact absurd ⟨hnj, hlabel⟩ (Nat.find_min hex hj)
  · rw [hx']
  · rw [hpending, hfree]

/-- **Sooner or later a tick finds no request pending.** -/
theorem Fair.exists_freeTick (h : Fair t) (n : ℕ) : ∃ k, n ≤ k ∧ FreeTickAt t k := by
  cases hpending : (t.state n).pendingRequest with
  | false => exact h.exists_freeTick_of_idle hpending
  | true =>
      obtain ⟨m, hnm, hcomplete⟩ := h.completes n hpending
      have hidle : (t.state (m + 1)).pendingRequest = false := by
        rcases requests_of_step (t.next m) with ⟨hlabel, -⟩ | ⟨-, hx'⟩ | ⟨hlabel, hsame, -⟩
        · rw [hcomplete] at hlabel
          cases hlabel
        · rw [hx']
        · have hs := t.next m
          rw [hcomplete] at hs
          rw [← Option.some.inj (Option.ite_none_right_eq_some.mp hs).2]
      obtain ⟨k, hmk, hfree⟩ := h.exists_freeTick_of_idle hidle
      exact ⟨k, by omega, hfree⟩

/-- One press. -/
theorem pressSent_iff (h : Fair t) {n : ℕ} (hrise : RisesAt t n) :
    PressSent t n ↔ PressLasts t n := by
  constructor
  · rintro ⟨m, hnm, hsends, hnorise⟩ f hnf hfall hfirst
    obtain ⟨hfree, hset⟩ := sendsFireAt_iff.mp hsends
    refine ⟨m, hnm, ?_, hfree⟩
    by_contra hfm
    have hne : f ≠ m := by
      rintro rfl
      exact not_fallsAt_of_tick hfree.1 hfall
    -- the flag is clear after the fall and set at the sending tick, so it rose in between
    obtain ⟨j, hfj, hjm, hclear, hrose⟩ :=
      t.exists_first_change (P := fun x => x.page.isFireOn = false) (show f + 1 ≤ m by omega)
        hfall.2 (by simp [hset])
    exact hnorise j (by omega) hjm ⟨hclear j hfj le_rfl, by simpa using hrose⟩
  · intro hlasts
    obtain ⟨k, hnk, hfree⟩ := h.exists_freeTick (n + 1)
    -- a free tick before the first fall: the next one, or else the one that the press awaits
    obtain ⟨m, hnm, hfree, hnofall⟩ : ∃ m, n < m ∧ FreeTickAt t m ∧
        ∀ j, n < j → j < m → ¬ FallsAt t j := by
      by_cases hfalls : ∃ f, n < f ∧ FallsAt t f
      · classical
        have hfirst : ∀ j, n < j → j < Nat.find hfalls → ¬ FallsAt t j := fun j hnj hj hfall =>
          Nat.find_min hfalls hj ⟨hnj, hfall⟩
        obtain ⟨hnf, hfall⟩ := Nat.find_spec hfalls
        obtain ⟨m, hnm, hmf, hfree⟩ := hlasts _ hnf hfall hfirst
        exact ⟨m, hnm, hfree, fun j hnj hjm => hfirst j hnj (hjm.trans hmf)⟩
      · exact ⟨k, hnk, hfree, fun j hnj _ hfall => hfalls ⟨j, hnj, hfall⟩⟩
    have hset : (t.state m).page.isFireOn = true :=
      isFireOn_of_no_fall hnm hrise.2 fun j hnj hjm => hnofall j hnj hjm
    refine ⟨m, hnm, sendsFireAt_iff.mpr ⟨hfree, hset⟩, fun j hnj hjm hrises => ?_⟩
    have hj := isFireOn_of_no_fall (k := j) hnj hrise.2 fun i hni hij => hnofall i hni (by omega)
    rw [hrises.1] at hj
    exact Bool.false_ne_true hj

end Runs

/-! ## Endless idling -/

/-- Nobody touches the controls any more: ticks and completions alternate. -/
def idleState (x : System) : ℕ → System
  | 0 => x
  | 1 => x.repeatedTask
  | n + 2 => idleState { x.repeatedTask with pendingRequest := false } n

def idleLabel : ℕ → Event
  | 0 => .tick
  | 1 => .complete
  | n + 2 => idleLabel n

theorem step_idleState (u : UnicodeTables) {x : System} (hidle : x.pendingRequest = false) (n : ℕ) :
    step u (idleState x n) (idleLabel n) = some (idleState x (n + 1)) := by
  induction n using Nat.twoStepInduction generalizing x with
  | zero => rfl
  | one =>
      have hpending : x.repeatedTask.pendingRequest = true := by
        rw [System.repeatedTask, if_neg (by simp [hidle])]
      exact if_pos hpending
  | more n ih _ => exact ih rfl

/-- The endless run that goes on from a state without a request. -/
def idleTrace (u : UnicodeTables) {x : System} (hidle : x.pendingRequest = false) :
    (machine u).Trace x where
  state := idleState x
  label := idleLabel
  start := rfl
  next := step_idleState u hidle

theorem idleLabel_even (n : ℕ) : idleLabel (2 * n) = .tick ∧ idleLabel (2 * n + 1) = .complete := by
  induction n with
  | zero => exact ⟨rfl, rfl⟩
  | succ n ih => exact ih

theorem fair_idleTrace (u : UnicodeTables) {x : System} (hidle : x.pendingRequest = false) :
    Fair (idleTrace u hidle) :=
  ⟨fun n => ⟨2 * n, by omega, (idleLabel_even n).1⟩,
    fun n _ => ⟨2 * n + 1, by omega, (idleLabel_even n).2⟩⟩

/-- One more step in front is fair: a pending request is still pending after it, or
completed by it. -/
theorem Fair.cons {u : UnicodeTables} {x x' : System} {e : Event} (hs : step u x e = some x')
    {t : (machine u).Trace x'} (h : Fair t) : Fair (t.cons (m := machine u) e hs) := by
  refine ⟨fun n => ?_, fun n hpending => ?_⟩
  · obtain ⟨k, hnk, htick⟩ := h.ticks n
    exact ⟨k + 1, by omega, htick⟩
  · cases n with
    | zero =>
        have hpending : x.pendingRequest = true := hpending
        by_cases hcomplete : e = .complete
        · exact ⟨0, le_rfl, hcomplete⟩
        · have hstill : x'.pendingRequest = true := by
            rcases requests_of_step hs with ⟨-, hx'⟩ | ⟨hlabel, -⟩ | ⟨-, hsame, -⟩
            · rw [hx', System.repeatedTask, if_pos hpending, hpending]
            · exact absurd hlabel hcomplete
            · rw [hsame, hpending]
          obtain ⟨k, -, hk⟩ := h.completes 0 (by rw [t.start]; exact hstill)
          exact ⟨k + 1, Nat.zero_le _, hk⟩
    | succ n =>
        obtain ⟨k, hnk, hk⟩ := h.completes n hpending
        exact ⟨k + 1, by omega, hk⟩

theorem page_idleState (x : System) (n : ℕ) : (idleState x n).page = x.page := by
  induction n using Nat.twoStepInduction generalizing x with
  | zero => rfl
  | one => exact repeatedTask_page x
  | more n ih _ => exact (ih _).trans (repeatedTask_page x)

/-! ## All presses -/

/-- **When no press is lost.**  In an endless run in which the timer goes on and requests
complete, every press is sent before the next one begins if and only if every press lasts until
a tick that finds no request pending. -/
theorem press_sent_iff {u : UnicodeTables} {x : System} {t : (machine u).Trace x} (h : Fair t) :
    (∀ n, RisesAt t n → PressSent t n) ↔ ∀ n, RisesAt t n → PressLasts t n :=
  forall_congr' fun _ => forall_congr' fun hrise => pressSent_iff h hrise

/-- The space bar is down. -/
def pressed : System := { page := Page.handle .bare {} (.keydown space) }

/-- The space bar is up again. -/
def released : System := { page := pressed.page.handle .bare (.keyup space) }

theorem step_pressed : step .bare {} (.key (.keydown space)) = some pressed := rfl

theorem step_released : step .bare pressed (.key (.keyup space)) = some released := rfl

/-- The space bar goes down and stays down. -/
def longPress : (machine .bare).Trace (machine .bare).init :=
  .cons (.key (.keydown space)) step_pressed (idleTrace .bare rfl)

/-- The space bar goes down and comes up again before the next tick. -/
def quickPress : (machine .bare).Trace (machine .bare).init :=
  .cons (.key (.keydown space)) step_pressed
    (.cons (.key (.keyup space)) step_released (idleTrace .bare rfl))

theorem fair_longPress : Fair longPress := .cons step_pressed (fair_idleTrace .bare rfl)

theorem fair_quickPress : Fair quickPress :=
  .cons step_pressed (.cons step_released (fair_idleTrace .bare rfl))

/-- The long press is sent. -/
theorem long_press_sent : RisesAt longPress 0 ∧ ∀ n, RisesAt longPress n → PressSent longPress n := by
  refine ⟨⟨by decide, by decide⟩, (press_sent_iff fair_longPress).mpr ?_⟩
  intro n _ m hnm hfall
  obtain ⟨k, rfl⟩ : ∃ k, m = k + 1 := ⟨m - 1, by omega⟩
  -- the flag is never cleared
  have hset : (longPress.state (k + 2)).page.isFireOn = true := by
    show (idleState pressed (k + 1)).page.isFireOn = true
    rw [page_idleState]
    decide
  rw [hfall.2] at hset
  exact absurd hset Bool.false_ne_true

/-- The quick press is never sent: there is no `FC:1` at any tick. -/
theorem quick_press_lost :
    ¬ ∀ t : (machine .bare).Trace (machine .bare).init,
      Fair t → ∀ n, RisesAt t n → PressSent t n := by
  intro h
  obtain ⟨m, hm, hsends, -⟩ := h quickPress fair_quickPress 0 ⟨by decide, by decide⟩
  obtain ⟨hfree, hset⟩ := sendsFireAt_iff.mp hsends
  obtain ⟨k, rfl⟩ : ∃ k, m = k + 1 := ⟨m - 1, by omega⟩
  cases k with
  | zero => exact absurd hfree.1 (by simp [quickPress, Machine.Trace.cons])
  | succ k =>
      have hclear : (quickPress.state (k + 2)).page.isFireOn = false := by
        show (idleState released k).page.isFireOn = false
        rw [page_idleState]
        decide
      rw [hclear] at hset
      exact Bool.false_ne_true hset

end FireControls
