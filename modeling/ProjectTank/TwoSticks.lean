/-
# Two fingers on the two sticks (`Guy/peter/index_fixed.html`)

One finger starts on the main stick, one on the other.  The handlers of both sticks listen on
the document: each move is passed to both with the list of all touches, and each lift to both.

* `alone`: what a stick shows when its finger is the only one;
* `good_step_iff`: which steps keep both sticks so;
* `independent_iff`: when they are so through a run;
* `agree_of_good`: two such runs that agree on a finger agree on its stick;
* `other_finger_stops_drive`: two runs that do not.
-/
import ProjectTank.JoystickPointer
import ProjectTank.Transition

open JoystickPointer

namespace TwoSticks

/-! ## The fingers and the page -/

/-- A stick, and the finger that starts on it. -/
inductive Stick
  | main
  | aux
  deriving DecidableEq

def Stick.other : Stick → Stick
  | .main => .aux
  | .aux => .main

/-- What a finger does, with its coordinates. -/
inductive FingerEvent
  | down (position : ℝ × ℝ)
  | move (position : ℝ × ℝ)
  | lift

/-- The pair that a stick shows. -/
def values (p : Page) : Stick → ℤ × ℤ
  | .main => (p.leftJoystickX, p.leftJoystickY)
  | .aux => (p.rightJoystickX, p.rightJoystickY)

/-- The flag of a stick. -/
def dragging (p : Page) : Stick → Bool
  | .main => p.isDragging
  | .aux => p.isDraggingAux

/-- The pair for a touch at a position. -/
noncomputable def output (L : Layout) (s : Stick) (position : ℝ × ℝ) : ℤ × ℤ :=
  match s with
  | .main => stickValues L L.joystick L.maxDistance (.touch position [])
  | .aux => stickValues L L.joystickAux L.maxDistanceAux (.touch position [])

/-- The `touchstart` listener is that of the stick. -/
def touchstart (p : Page) : Stick → Page
  | .main => p.handleJoystickStart
  | .aux => p.handleJoystickAuxStart

/-- The two `touchmove` listeners of the document. -/
noncomputable def touchmove (L : Layout) (p : Page) (first : ℝ × ℝ) (others : List (ℝ × ℝ)) : Page :=
  (p.handleJoystickMove L (.touch first others)).handleJoystickAuxMove L (.touch first others)

/-- The two `touchend` listeners of the document. -/
def touchend (p : Page) : Page := p.handleJoystickEnd.handleJoystickAuxEnd

/-! ## What the listeners do to a stick -/

section Listeners

variable (L : Layout) (p : Page) (s : Stick)

/-- A finger that comes down moves neither stick. -/
theorem values_touchstart (t : Stick) : values (touchstart p t) s = values p s := by
  cases s <;> cases t <;> rfl

/-- It drags the stick that it came down on. -/
theorem dragging_touchstart (t : Stick) :
    dragging (touchstart p t) s = if t = s then true else dragging p s := by
  cases s <;> cases t <;> rfl

/-- The other touches are not looked at. -/
theorem stickValues_touch (b : Base) (clampAt : ℝ) (first : ℝ × ℝ) (others : List (ℝ × ℝ)) :
    stickValues L b clampAt (.touch first others) = stickValues L b clampAt (.touch first []) := rfl

/-- Each stick that is dragged follows the first touch, whatever finger that is. -/
theorem values_touchmove (first : ℝ × ℝ) (others : List (ℝ × ℝ)) :
    values (touchmove L p first others) s =
      if dragging p s = true then output L s first else values p s := by
  unfold touchmove Page.handleJoystickMove Page.handleJoystickAuxMove
  cases s <;> cases h : p.isDragging <;> cases h' : p.isDraggingAux <;>
    simp [values, dragging, output, h, h', stickValues_touch L _ _ first others]

theorem dragging_touchmove (first : ℝ × ℝ) (others : List (ℝ × ℝ)) :
    dragging (touchmove L p first others) s = dragging p s := by
  unfold touchmove Page.handleJoystickMove Page.handleJoystickAuxMove
  cases s <;> cases h : p.isDragging <;> cases h' : p.isDraggingAux <;> simp [dragging, h, h']

/-- The end of any touch resets every stick that is dragged. -/
theorem values_touchend :
    values (touchend p) s = if dragging p s = true then (0, 0) else values p s := by
  unfold touchend Page.handleJoystickEnd Page.handleJoystickAuxEnd
  cases s <;> cases h : p.isDragging <;> cases h' : p.isDraggingAux <;>
    simp [values, dragging, h, h']

/-- No stick is dragged after it. -/
theorem dragging_touchend : dragging (touchend p) s = false := by
  unfold touchend Page.handleJoystickEnd Page.handleJoystickAuxEnd
  cases s <;> cases h : p.isDragging <;> cases h' : p.isDraggingAux <;> simp [dragging, h, h']

end Listeners

/-! ## One finger -/

/-- The page with one finger only. -/
noncomputable def soloStep (L : Layout) (s : Stick) (p : Page) : FingerEvent → Page
  | .down _ => touchstart p s
  | .move position => touchmove L p position []
  | .lift => touchend p

/-- The page after the events of one finger, with no other finger on the screen. -/
noncomputable def solo (L : Layout) (s : Stick) (h : List FingerEvent) : Page :=
  h.foldl (soloStep L s) {}

/-- What a stick shows when its finger is the only one. -/
noncomputable def alone (L : Layout) (s : Stick) (h : List FingerEvent) : ℤ × ℤ :=
  values (solo L s h) s

section One

variable (L : Layout) (s : Stick) (h : List FingerEvent)

theorem solo_concat (e : FingerEvent) : solo L s (h ++ [e]) = soloStep L s (solo L s h) e := by
  rw [solo, List.foldl_append]
  rfl

theorem alone_down (q : ℝ × ℝ) : alone L s (h ++ [.down q]) = alone L s h := by
  rw [alone, solo_concat, soloStep, values_touchstart]
  rfl

/-- A finger alone moves its own stick to where it is. -/
theorem alone_move {q : ℝ × ℝ} (hdrag : dragging (solo L s h) s = true) :
    alone L s (h ++ [.move q]) = output L s q := by
  rw [alone, solo_concat, soloStep, values_touchmove, if_pos hdrag]

theorem alone_lift (hdrag : dragging (solo L s h) s = true) :
    alone L s (h ++ [.lift]) = (0, 0) := by
  rw [alone, solo_concat, soloStep, values_touchend, if_pos hdrag]

end One

/-! ## Both fingers -/

/-- The page, the fingers on the screen with their positions, and what each has done. -/
structure Screen where
  page : Page := {}
  fingers : Stick → Option (ℝ × ℝ) := fun _ => none
  history : Stick → List FingerEvent := fun _ => []

/-- An event of a finger, and the finger that comes first in the list of touches. -/
structure Event where
  finger : Stick
  what : FingerEvent
  first : Stick

/-- One event. -/
noncomputable def step (L : Layout) (x : Screen) (e : Event) : Option Screen :=
  let history := Function.update x.history e.finger (x.history e.finger ++ [e.what])
  match e.what, x.fingers e.finger with
  | .down position, none =>
      some { page := touchstart x.page e.finger
             fingers := Function.update x.fingers e.finger (some position)
             history := history }
  | .move position, some _ =>
      -- the handlers read `touches[0]`, whichever finger has moved
      let fingers := Function.update x.fingers e.finger (some position)
      (fingers e.first).map fun first =>
        { page := touchmove L x.page first (fingers e.first.other).toList
          fingers := fingers
          history := history }
  | .lift, some _ =>
      some { page := touchend x.page
             fingers := Function.update x.fingers e.finger none
             history := history }
  | _, _ => none

noncomputable def machine (L : Layout) : Machine Screen Event where
  init := {}
  step := step L

/-- Each stick shows what its own finger makes of it, and nothing when that finger is up. -/
structure Good (L : Layout) (x : Screen) : Prop where
  alone : ∀ s, values x.page s = alone L s (x.history s)
  up : ∀ s, x.fingers s = none → values x.page s = (0, 0)

/-- An event that a stick shows and should not, or the other way round: the first touch moves a
stick that it did not start on, or a finger moves whose drag has been ended, or a finger is
lifted while the other holds its stick. -/
def Interferes (L : Layout) (x : Screen) (e : Event) : Prop :=
  match e.what with
  | .down _ => False
  | .move position =>
      (∃ s first, Function.update x.fingers e.finger (some position) e.first = some first ∧
        dragging x.page s = true ∧ output L s first ≠
          if s = e.finger then output L s position else alone L s (x.history s)) ∨
      (dragging x.page e.finger = false ∧ output L e.finger position ≠ (0, 0))
  | .lift => alone L e.finger.other (x.history e.finger.other) ≠ (0, 0)

/-! ## The flags -/

/-- A stick is dragged only while its finger is down, and shows nothing while it is not dragged; a
finger alone always drags. -/
structure Tracked (L : Layout) (x : Screen) : Prop where
  solo : ∀ s, dragging (solo L s (x.history s)) s = (x.fingers s).isSome
  down : ∀ s, dragging x.page s = true → (x.fingers s).isSome = true
  rest : ∀ s, dragging x.page s = false → values x.page s = (0, 0)

variable {L : Layout} {x x' : Screen}

/-- **What an event does.** -/
theorem step_cases {e : Event} (hs : step L x e = some x') :
    x'.history = Function.update x.history e.finger (x.history e.finger ++ [e.what]) ∧
      ((∃ q, e.what = .down q ∧ x.fingers e.finger = none ∧
          x'.page = touchstart x.page e.finger ∧
          x'.fingers = Function.update x.fingers e.finger (some q)) ∨
        (∃ q first others, e.what = .move q ∧ (x.fingers e.finger).isSome = true ∧
          Function.update x.fingers e.finger (some q) e.first = some first ∧
          x'.page = touchmove L x.page first others ∧
          x'.fingers = Function.update x.fingers e.finger (some q)) ∨
        (e.what = .lift ∧ (x.fingers e.finger).isSome = true ∧ x'.page = touchend x.page ∧
          x'.fingers = Function.update x.fingers e.finger none)) := by
  unfold step at hs
  split at hs
  · next q hwhat hup =>
      obtain rfl := Option.some.inj hs
      exact ⟨rfl, Or.inl ⟨q, hwhat, hup, rfl, rfl⟩⟩
  · next q p hwhat hdown =>
      obtain ⟨first, hfirst, rfl⟩ := Option.map_eq_some_iff.mp hs
      exact ⟨rfl, Or.inr (Or.inl ⟨q, first, _, hwhat, by rw [hdown]; rfl, hfirst, rfl, rfl⟩)⟩
  · next p hwhat hdown =>
      obtain rfl := Option.some.inj hs
      exact ⟨rfl, Or.inr (Or.inr ⟨hwhat, by rw [hdown]; rfl, rfl, rfl⟩)⟩
  · cases hs

/-- A lift leaves nothing on either stick. -/
theorem Tracked.values_lifted (h : Tracked L x) (s : Stick) :
    values (touchend x.page) s = (0, 0) := by
  rw [values_touchend]
  split_ifs with hdrag
  · rfl
  · exact h.rest s (Bool.eq_false_iff.mpr hdrag)

/-- A stick whose finger is up is not dragged. -/
theorem Tracked.not_dragging (h : Tracked L x) {s : Stick} (hup : x.fingers s = none) :
    ¬ dragging x.page s = true := by
  intro hdrag
  have hdown := h.down s hdrag
  rw [hup] at hdown
  cases hdown

section Steps

variable {e : Event}
  (hhistory : x'.history = Function.update x.history e.finger (x.history e.finger ++ [e.what]))

include hhistory

/-- A finger comes down. -/
theorem Tracked.putDown {q : ℝ × ℝ} (h : Tracked L x) (hwhat : e.what = .down q)
    (hpage : x'.page = touchstart x.page e.finger)
    (hfingers : x'.fingers = Function.update x.fingers e.finger (some q)) : Tracked L x' := by
  constructor
  · intro s
    rw [hhistory, hfingers, Function.update_apply, Function.update_apply]
    split_ifs with hs
    · rw [hs, hwhat, solo_concat, soloStep, dragging_touchstart, if_pos rfl]
      rfl
    · exact h.solo s
  · intro s hdrag
    rw [hfingers, Function.update_apply]
    split_ifs with hs
    · rfl
    · rw [hpage, dragging_touchstart, if_neg (Ne.symm hs)] at hdrag
      exact h.down s hdrag
  · intro s hdrag
    rw [hpage, dragging_touchstart] at hdrag
    rw [hpage, values_touchstart]
    split_ifs at hdrag
    exact h.rest s hdrag

/-- A finger moves; which fingers are down and which sticks are dragged stays as it is. -/
theorem Tracked.moved {q first : ℝ × ℝ} {others : List (ℝ × ℝ)} (h : Tracked L x)
    (hwhat : e.what = .move q) (hdown : (x.fingers e.finger).isSome = true)
    (hpage : x'.page = touchmove L x.page first others)
    (hfingers : x'.fingers = Function.update x.fingers e.finger (some q)) : Tracked L x' := by
  -- the same fingers are down and the same sticks are dragged
  have hfinger : ∀ s, (x'.fingers s).isSome = (x.fingers s).isSome := by
    intro s
    rw [hfingers, Function.update_apply]
    split_ifs with hs
    · rw [hs, hdown]
      rfl
    · rfl
  have hdragging : ∀ s, dragging x'.page s = dragging x.page s := by
    intro s
    rw [hpage, dragging_touchmove]
  constructor
  · intro s
    rw [hfinger, hhistory, Function.update_apply]
    split_ifs with hs
    · rw [hs, hwhat, solo_concat, soloStep, dragging_touchmove]
      exact h.solo e.finger
    · exact h.solo s
  · intro s hdrag
    rw [hfinger]
    exact h.down s ((hdragging s).symm.trans hdrag)
  · intro s hdrag
    rw [hdragging] at hdrag
    rw [hpage, values_touchmove, hdrag, if_neg Bool.false_ne_true]
    exact h.rest s hdrag

/-- A finger is lifted; no stick is dragged any more, though the other finger may be down. -/
theorem Tracked.lifted (h : Tracked L x) (hwhat : e.what = .lift) (hpage : x'.page = touchend x.page)
    (hfingers : x'.fingers = Function.update x.fingers e.finger none) : Tracked L x' := by
  constructor
  · intro s
    rw [hhistory, hfingers, Function.update_apply, Function.update_apply]
    split_ifs with hs
    · rw [hs, hwhat, solo_concat, soloStep, dragging_touchend]
      rfl
    · exact h.solo s
  · intro s hdrag
    rw [hpage, dragging_touchend] at hdrag
    cases hdrag
  · intro s _
    rw [hpage]
    exact h.values_lifted s

/-! ## Interference -/

/-- A finger that comes down never interferes. -/
theorem Good.putDown {q : ℝ × ℝ} (hx : Good L x) (hwhat : e.what = .down q)
    (hpage : x'.page = touchstart x.page e.finger)
    (hfingers : x'.fingers = Function.update x.fingers e.finger (some q)) : Good L x' := by
  constructor
  · intro s
    rw [hpage, values_touchstart, hx.alone s, hhistory, Function.update_apply]
    split_ifs with hs
    · rw [hs, hwhat, alone_down]
    · rfl
  · intro s hnone
    rw [hfingers, Function.update_apply] at hnone
    rw [hpage, values_touchstart]
    split_ifs at hnone
    exact hx.up s hnone

/-- What a stick should show after a move. -/
theorem Tracked.alone_moved {q : ℝ × ℝ} (ht : Tracked L x) (hwhat : e.what = .move q)
    (hdown : (x.fingers e.finger).isSome = true) (s : Stick) :
    alone L s (x'.history s) =
      if s = e.finger then output L s q else alone L s (x.history s) := by
  rw [hhistory, Function.update_apply]
  split_ifs with hs
  · rw [hs, hwhat, alone_move _ _ _ ((ht.solo e.finger).trans hdown)]
  · rfl

/-- A move keeps each stick to its own finger exactly when it does not interfere. -/
theorem good_move_iff {q first : ℝ × ℝ} {others : List (ℝ × ℝ)} (ht : Tracked L x)
    (hx : Good L x) (hwhat : e.what = .move q) (hdown : (x.fingers e.finger).isSome = true)
    (hfirst : Function.update x.fingers e.finger (some q) e.first = some first)
    (hpage : x'.page = touchmove L x.page first others)
    (hfingers : x'.fingers = Function.update x.fingers e.finger (some q)) :
    Good L x' ↔ ¬ Interferes L x e := by
  -- what each stick shows, and what it should show
  have hvalues : ∀ s, values x'.page s =
      if dragging x.page s = true then output L s first else values x.page s := by
    intro s
    rw [hpage, values_touchmove]
  have halone := ht.alone_moved hhistory hwhat hdown
  simp only [Interferes, hwhat]
  constructor
  · rintro hgood (⟨s, first', hfirst', hdrag, hne⟩ | ⟨hdrag, hne⟩)
    · obtain rfl := Option.some.inj (hfirst.symm.trans hfirst')
      refine hne ?_
      rw [← halone, ← hgood.alone, hvalues, if_pos hdrag]
    · refine hne ?_
      have hshown := hgood.alone e.finger
      rwa [hvalues, halone, if_pos rfl, hdrag, if_neg Bool.false_ne_true,
        ht.rest e.finger hdrag, eq_comm] at hshown
  · intro hno
    obtain ⟨hcross, hdropped⟩ := not_or.mp hno
    have hdrag : ∀ s, dragging x.page s = true → output L s first =
        if s = e.finger then output L s q else alone L s (x.history s) := by
      intro s hdrag
      by_contra hne
      exact hcross ⟨s, first, hfirst, hdrag, hne⟩
    constructor
    · intro s
      rw [hvalues, halone]
      by_cases hd : dragging x.page s = true
      · rw [if_pos hd, hdrag s hd]
      · rw [if_neg hd]
        split_ifs with hs
        · -- the finger moves a stick that is not dragged any more
          rw [ht.rest s (Bool.eq_false_iff.mpr hd), hs]
          by_contra hne
          exact hdropped ⟨hs ▸ Bool.eq_false_iff.mpr hd, Ne.symm hne⟩
        · exact hx.alone s
    · intro s hnone
      have hup : x.fingers s = none := by
        rw [hfingers, Function.update_apply] at hnone
        split_ifs at hnone
        exact hnone
      rw [hvalues, if_neg (ht.not_dragging hup)]
      exact hx.up s hup

/-- So does a lift: what it resets must show nothing. -/
theorem good_lift_iff (ht : Tracked L x) (hwhat : e.what = .lift)
    (hdown : (x.fingers e.finger).isSome = true) (hpage : x'.page = touchend x.page) :
    Good L x' ↔ ¬ Interferes L x e := by
  have hvalues : ∀ s, values x'.page s = (0, 0) := by
    intro s
    rw [hpage]
    exact ht.values_lifted s
  have hother : e.finger.other ≠ e.finger := by cases e.finger <;> decide
  simp only [Interferes, hwhat, ne_eq, not_not]
  constructor
  · intro hgood
    have hshown := hgood.alone e.finger.other
    rwa [hvalues, hhistory, Function.update_of_ne hother, eq_comm] at hshown
  · intro hnothing
    refine ⟨fun s => ?_, fun s _ => hvalues s⟩
    rw [hvalues, hhistory, Function.update_apply]
    split_ifs with hs
    · rw [hs, hwhat, alone_lift _ _ _ ((ht.solo e.finger).trans hdown)]
    · have hs' : s = e.finger.other := by
        revert hs
        cases s <;> cases e.finger <;> decide
      rw [hs', hnothing]

end Steps

/-- **Every event** keeps the flags in step with the fingers. -/
theorem Tracked.step {e : Event} (h : Tracked L x) (hs : step L x e = some x') : Tracked L x' := by
  obtain ⟨hhistory, ⟨q, hwhat, -, hpage, hfingers⟩ |
    ⟨q, first, others, hwhat, hdown, -, hpage, hfingers⟩ |
    ⟨hwhat, -, hpage, hfingers⟩⟩ := step_cases hs
  · exact h.putDown hhistory hwhat hpage hfingers
  · exact h.moved hhistory hwhat hdown hpage hfingers
  · exact h.lifted hhistory hwhat hpage hfingers

/-- **Which steps keep both sticks to their own fingers.** -/
theorem good_step_iff {e : Event} (ht : Tracked L x) (hx : Good L x)
    (hs : step L x e = some x') : Good L x' ↔ ¬ Interferes L x e := by
  obtain ⟨hhistory, ⟨q, hwhat, -, hpage, hfingers⟩ |
    ⟨q, first, others, hwhat, hdown, hfirst, hpage, hfingers⟩ |
    ⟨hwhat, hdown, hpage, -⟩⟩ := step_cases hs
  · refine iff_of_true (hx.putDown hhistory hwhat hpage hfingers) ?_
    simp [Interferes, hwhat]
  · exact good_move_iff hhistory ht hx hwhat hdown hfirst hpage hfingers
  · exact good_lift_iff hhistory ht hwhat hdown hpage

/-! ## Runs -/

/-- **When the sticks are independent**: exactly as long as no event interferes. -/
theorem independent_iff (L : Layout) (events : List Event) :
    (machine L).Throughout (Good L) events ↔ (machine L).Avoids (Interferes L) events := by
  refine Machine.throughout_iff_avoids (I := Tracked L) ?_ ?_ (fun _ _ _ ht hs => ht.step hs)
    (fun _ _ _ ht hx hs => good_step_iff ht hx hs) events
  · refine ⟨fun s => ?_, fun s hdrag => ?_, fun s _ => ?_⟩
    · cases s <;> rfl
    · cases s <;> cases hdrag
    · cases s <;> rfl
  · refine ⟨fun s => ?_, fun s _ => ?_⟩ <;> cases s <;> rfl

/-- **Two runs**: if in both each stick is left to its own finger, the runs agree on a stick when
they agree on its finger. -/
theorem agree_of_good {s : Stick} (hx : Good L x) (hx' : Good L x')
    (h : x.history s = x'.history s) : values x.page s = values x'.page s := by
  rw [hx.alone, hx'.alone, h]

/-- The right edge of the main stick is not its middle. -/
theorem output_ne_zero : output leftEdge .main (80, 50) ≠ (0, 0) := by
  have hmove : displacement (.touch (80, 50) []) leftEdge.joystick = ((30 : ℝ) : ℂ) := by
    apply Complex.ext <;> norm_num [displacement, leftEdge, PointerEvent.position]
  have hbeyond : leftEdge.threshold < ‖displacement (.touch (80, 50) []) leftEdge.joystick‖ := by
    rw [hmove, Complex.norm_real]
    norm_num [Layout.threshold, leftEdge]
  have hmax : 0 < leftEdge.maxDistance := by norm_num [leftEdge]
  have hnonzero := scaled_ne_zero hmax hbeyond
  rw [scaled_re, scaled_im] at hnonzero
  have hnot : ¬ ZeroCoordinate (.touch (80, 50) []) := id
  have hmain : output leftEdge .main (80, 50) =
      stickValues leftEdge leftEdge.joystick leftEdge.maxDistance (.touch (80, 50) []) := rfl
  rw [hmain, stickValues_eq hmax.le hnot, if_pos hbeyond]
  exact fun h => hnonzero ⟨congrArg Prod.fst h, congrArg Prod.snd h⟩

/-- The first finger holds the main stick; in one of the runs the second is put down and lifted. -/
theorem other_finger_stops_drive : ¬ ∀ (L : Layout) (events events' : List Event) (x x' : Screen)
    (s : Stick), (machine L).run {} events = some x → (machine L).run {} events' = some x' →
      x.history s = x'.history s → values x.page s = values x'.page s := by
  intro h
  have hagree := h leftEdge
    [⟨.main, .down (50, 50), .main⟩, ⟨.main, .move (80, 50), .main⟩]
    [⟨.main, .down (50, 50), .main⟩, ⟨.main, .move (80, 50), .main⟩,
      ⟨.aux, .down (250, 50), .main⟩, ⟨.aux, .lift, .main⟩] _ _ .main rfl rfl rfl
  exact output_ne_zero hagree

end TwoSticks
