/-
# The throttle of the joystick (`peter/ultrasonic/index.html`)

`handleJoystickMove` passes the command of each position through `throttle`, which lets a
call through, drops every call for 150 ms, and keeps nothing for later.  Behind it
`sendMovementCommand` drops repeats.  Every request is answered, with an ok, before the
next event.

* `lastSent_eq`: dropping repeats does no harm, so what was sent last is the command of the
  last position that the throttle let through;
* `final_position_iff`: the final position is delivered if and only if that command is its
  own.
-/
import ProjectTank.LetterServer

open ProgramText LetterServer

namespace StickThrottle

/-! ## The page -/

/-- What `handleJoystickMove` knows of a position: the clamped offsets from the centre, and the
distance before clamping.  A position is `none` when the event has no usable coordinate and
all three are `NaN`. -/
structure Position where
  dx : ℚ
  dy : ℚ
  distance : ℚ
  deriving DecidableEq, Repr

/-- The command that `handleJoystickMove` computes.  Comparisons with `NaN` fail. -/
def moveCommand (maxDistance : ℚ) : Option Position → Text
  | none => "X".toList
  | some p =>
      let threshold := maxDistance * (2 / 10)
      if threshold < p.distance then
        if |p.dx| < |p.dy| then if p.dy < 0 then "W".toList else "S".toList
        else if 0 < p.dx then "D".toList else "A".toList
      else "X".toList

/-- The delay of `throttledSendCommand`, in milliseconds. -/
def delay : ℚ := 150

/-- What the handlers read and write, and the time of the last event.  `inThrottle` is the time
of the call that set it. -/
structure Page where
  isDragging : Bool := false
  lastCommand : Text := "X".toList
  inThrottle : Option ℚ := none
  sent : List Text := []
  now : ℚ := 0
  deriving DecidableEq

/-- `sendMovementCommand`, with the ok that comes before the next event. -/
def Page.sendMovementCommand (u : UnicodeTables) (p : Page) (command : Text) : Page :=
  if toUpperCase u command ∉ commandLetters then p
  else if toUpperCase u command = p.lastCommand then p
  else { p with sent := p.sent ++ [toUpperCase u command], lastCommand := toUpperCase u command }

/-- `throttledSendCommand`. -/
def Page.throttledSendCommand (u : UnicodeTables) (p : Page) (command : Text) : Page :=
  if p.inThrottle = none then { p.sendMovementCommand u command with inThrottle := some p.now }
  else p

/-- `handleJoystickMove`. -/
def Page.handleJoystickMove (u : UnicodeTables) (maxDistance : ℚ) (p : Page)
    (position : Option Position) : Page :=
  if p.isDragging = false then p else p.throttledSendCommand u (moveCommand maxDistance position)

/-- `handleJoystickEnd`. -/
def Page.handleJoystickEnd (u : UnicodeTables) (p : Page) : Page :=
  if p.isDragging = false then p
  else Page.sendMovementCommand u { p with isDragging := false } "X".toList

/-- Events of the joystick, a call of `sendMovementCommand` by the keyboard, the timeout that
ends the throttle, and time that passes. -/
inductive Event
  | start
  | move (position : Option Position)
  | finish
  | key (command : Text)
  | timeout
  | wait
  deriving DecidableEq

/-- One step, at a time that is not before the last event. -/
def step (u : UnicodeTables) (maxDistance : ℚ) (p : Page) : ℚ × Event → Option Page
  | (now, e) =>
      if now < p.now then none
      else
        let p := { p with now := now }
        match e with
        | .start => some { p with isDragging := true }
        | .move position => some (p.handleJoystickMove u maxDistance position)
        | .finish => some (p.handleJoystickEnd u)
        | .key command => some (p.sendMovementCommand u command)
        | .timeout =>
            match p.inThrottle with
            | some since => if since + delay ≤ now then some { p with inThrottle := none } else none
            | none => none
        | .wait => some p

/-- The page when it is loaded. -/
def machine (u : UnicodeTables) (maxDistance : ℚ) : Machine Page (ℚ × Event) where
  init := {}
  step := step u maxDistance

/-! ## What was sent last -/

/-- The movement command that was sent last; before any, the tank stands still, as after
`X`. -/
def Page.lastSent (p : Page) : Text := p.sent.getLastD "X".toList

theorem moveCommand_mem (maxDistance : ℚ) (position : Option Position) :
    moveCommand maxDistance position ∈ commandLetters := by
  have hX : "X".toList ∈ commandLetters := by decide
  cases position with
  | none => exact hX
  | some p =>
      simp only [moveCommand]
      split_ifs <;> decide

theorem toUpperCase_letter (u : UnicodeTables) {command : Text} (h : command ∈ commandLetters) :
    toUpperCase u command = command := by
  have hall : ∀ c ∈ commandLetters, c.all isAscii = true ∧ c.map Char.toUpper = c := by decide
  obtain ⟨hascii, hupper⟩ := hall command h
  rw [toUpperCase_ascii u hascii, hupper]

/-- As every request is answered, `lastCommand` is what was sent last. -/
def Answered (p : Page) : Prop := p.lastCommand = p.lastSent

/-- **Dropping repeats does no harm**: after `sendMovementCommand` the letter is what was sent
last, whether it was sent now or not. -/
theorem lastSent_sendMovementCommand (u : UnicodeTables) {p : Page} (h : Answered p)
    (command : Text) :
    Answered (p.sendMovementCommand u command) ∧
      (p.sendMovementCommand u command).lastSent =
        if toUpperCase u command ∈ commandLetters then toUpperCase u command else p.lastSent := by
  unfold Page.sendMovementCommand
  by_cases hletter : toUpperCase u command ∈ commandLetters
  · rw [if_neg (not_not.mpr hletter), if_pos hletter]
    by_cases hsame : toUpperCase u command = p.lastCommand
    · rw [if_pos hsame, hsame]
      exact ⟨h, h.symm⟩
    · rw [if_neg hsame]
      simp [Answered, Page.lastSent]
  · rw [if_pos hletter, if_neg hletter]
    exact ⟨h, rfl⟩

theorem lastSent_moveCommand (u : UnicodeTables) {p : Page} (h : Answered p) (maxDistance : ℚ)
    (position : Option Position) :
    Answered (p.sendMovementCommand u (moveCommand maxDistance position)) ∧
      (p.sendMovementCommand u (moveCommand maxDistance position)).lastSent =
        moveCommand maxDistance position := by
  have hmem := moveCommand_mem maxDistance position
  have hsent := lastSent_sendMovementCommand u h (moveCommand maxDistance position)
  rwa [toUpperCase_letter u hmem, if_pos hmem] at hsent

/-- Setting anything but the two fields of the filter changes neither. -/
theorem Answered.congr {p p' : Page} (h : Answered p) (hlast : p'.lastCommand = p.lastCommand)
    (hsent : p'.sent = p.sent) : Answered p' := by
  rw [Answered, hlast, h, Page.lastSent, Page.lastSent, hsent]

theorem Answered.step {u : UnicodeTables} {maxDistance : ℚ} {p p' : Page} {e : ℚ × Event}
    (h : Answered p) (hs : step u maxDistance p e = some p') : Answered p' := by
  obtain ⟨now, e⟩ := e
  have hnow : Answered { p with now := now } := h.congr rfl rfl
  obtain ⟨-, hs⟩ := Option.ite_none_left_eq_some.mp hs
  cases e with
  | start => exact Option.some.inj hs ▸ h.congr rfl rfl
  | move position =>
      obtain rfl := Option.some.inj hs
      unfold Page.handleJoystickMove Page.throttledSendCommand
      split_ifs
      · exact hnow
      · exact (lastSent_moveCommand u hnow maxDistance position).1.congr rfl rfl
      · exact hnow
  | finish =>
      obtain rfl := Option.some.inj hs
      unfold Page.handleJoystickEnd
      split_ifs
      · exact hnow
      · exact (lastSent_sendMovementCommand u
          (p := { p with now := now, isDragging := false }) (h.congr rfl rfl) _).1
  | key command => exact Option.some.inj hs ▸ (lastSent_sendMovementCommand u hnow command).1
  | timeout =>
      simp only at hs
      cases hthrottle : p.inThrottle with
      | none => simp [hthrottle] at hs
      | some since =>
          rw [hthrottle] at hs
          obtain rfl := Option.some.inj (Option.ite_none_right_eq_some.mp hs).2
          exact h.congr rfl rfl
  | wait => exact Option.some.inj hs ▸ hnow

theorem answered_of_reachable {u : UnicodeTables} {maxDistance : ℚ} {p : Page}
    (h : (machine u maxDistance).Reachable p) : Answered p :=
  Machine.Reachable.invariant (I := Answered) (show Answered {} from rfl)
    (fun _ _ _ ha hs => ha.step hs) h

/-! ## One drag -/

/-- What happens while the pointer is still. -/
def Still : Event → Prop
  | .timeout | .wait => True
  | .start | .move _ | .finish | .key _ => False

instance : DecidablePred Still
  | .timeout | .wait => isTrue trivial
  | .start | .move _ | .finish | .key _ => isFalse id

/-- What happens during one drag, with the keyboard at rest. -/
def InDrag : Event → Prop
  | .move _ | .timeout | .wait => True
  | .start | .finish | .key _ => False

instance : DecidablePred InDrag
  | .move _ | .timeout | .wait => isTrue trivial
  | .start | .finish | .key _ => isFalse id

theorem Still.inDrag {e : Event} (h : Still e) : InDrag e := by
  cases e with
  | timeout => trivial
  | wait => trivial
  | _ => exact absurd h id

/-- The positions that the throttle lets through, from its state before the events. -/
def throttled : Option ℚ → List (ℚ × Event) → List (Option Position)
  | _, [] => []
  | inThrottle, (now, .move position) :: es =>
      if inThrottle = none then position :: throttled (some now) es else throttled inThrottle es
  | _, (_, .timeout) :: es => throttled none es
  | inThrottle, _ :: es => throttled inThrottle es

/-- The command of the last position let through, or what was sent last before. -/
def lastThrough (maxDistance : ℚ) (p : Page) (es : List (ℚ × Event)) : Text :=
  ((throttled p.inThrottle es).getLast?.map (moveCommand maxDistance)).getD p.lastSent

theorem throttled_move (inThrottle : Option ℚ) (now : ℚ) (position : Option Position)
    (es : List (ℚ × Event)) :
    throttled inThrottle ((now, .move position) :: es) =
      if inThrottle = none then position :: throttled (some now) es
      else throttled inThrottle es := rfl

/-- While the pointer is still nothing is let through. -/
theorem throttled_still {es : List (ℚ × Event)} (h : ∀ e ∈ es, Still e.2) (inThrottle : Option ℚ) :
    throttled inThrottle es = [] := by
  induction es generalizing inThrottle with
  | nil => rfl
  | cons e es ih =>
      obtain ⟨hhead, htail⟩ := List.forall_mem_cons.mp h
      obtain ⟨now, e⟩ := e
      cases e with
      | timeout => exact ih htail none
      | wait => exact ih htail inThrottle
      | _ => exact absurd hhead id

/-- Everything that one step of a drag can do. -/
theorem step_inDrag {u : UnicodeTables} {maxDistance : ℚ} {p t : Page} {now : ℚ} {e : Event}
    (hdrag : p.isDragging = true) (he : InDrag e) (hs : step u maxDistance p (now, e) = some t) :
    (e = .wait ∧ t = { p with now := now }) ∨
      (e = .timeout ∧ t = { p with now := now, inThrottle := none }) ∨
      ∃ position, e = .move position ∧
        t = Page.throttledSendCommand u { p with now := now } (moveCommand maxDistance position) := by
  obtain ⟨-, hs⟩ := Option.ite_none_left_eq_some.mp hs
  cases e with
  | wait => exact Or.inl ⟨rfl, (Option.some.inj hs).symm⟩
  | timeout =>
      simp only at hs
      cases hthrottle : p.inThrottle with
      | none => simp [hthrottle] at hs
      | some since =>
          rw [hthrottle] at hs
          exact Or.inr (Or.inl ⟨rfl, (Option.some.inj (Option.ite_none_right_eq_some.mp hs).2).symm⟩)
  | move position =>
      refine Or.inr (Or.inr ⟨position, rfl, ?_⟩)
      rw [← Option.some.inj hs, Page.handleJoystickMove, if_neg (by simp [hdrag])]
  | _ => exact absurd he id

theorem isDragging_throttledSendCommand (u : UnicodeTables) (p : Page) (command : Text) :
    (p.throttledSendCommand u command).isDragging = p.isDragging := by
  unfold Page.throttledSendCommand Page.sendMovementCommand
  split_ifs <;> rfl

theorem isDragging_step {u : UnicodeTables} {maxDistance : ℚ} {p t : Page} {e : ℚ × Event}
    (hdrag : p.isDragging = true) (he : InDrag e.2) (hs : step u maxDistance p e = some t) :
    t.isDragging = true := by
  rcases step_inDrag hdrag he hs with ⟨-, rfl⟩ | ⟨-, rfl⟩ | ⟨position, -, rfl⟩
  · exact hdrag
  · exact hdrag
  · exact (isDragging_throttledSendCommand u _ _).trans hdrag

/-- **What was sent last** in a drag is the command of the last position that the throttle let
through. -/
theorem lastSent_eq {u : UnicodeTables} {maxDistance : ℚ} {p p' : Page} {es : List (ℚ × Event)}
    (ha : Answered p) (hdrag : p.isDragging = true) (hes : ∀ e ∈ es, InDrag e.2)
    (hrun : (machine u maxDistance).run p es = some p') :
    p'.lastSent = lastThrough maxDistance p es := by
  induction es generalizing p with
  | nil =>
      obtain rfl := Option.some.inj hrun
      rfl
  | cons e es ih =>
      obtain ⟨hhead, htail⟩ := List.forall_mem_cons.mp hes
      obtain ⟨t, hs, hrest⟩ := Option.bind_eq_some_iff.mp hrun
      have hlast := ih (ha.step hs) (isDragging_step hdrag hhead hs) htail hrest
      obtain ⟨now, e⟩ := e
      rcases step_inDrag hdrag hhead hs with ⟨rfl, rfl⟩ | ⟨rfl, rfl⟩ | ⟨position, rfl, rfl⟩
      · exact hlast
      · exact hlast
      · rw [hlast, lastThrough, lastThrough, throttled_move, Page.throttledSendCommand]
        by_cases hopen : p.inThrottle = none
        · -- the position is what was sent last
          have hnow : Answered { p with now := now } := ha.congr rfl rfl
          have hsent := (lastSent_moveCommand u hnow maxDistance position).2
          rw [if_pos hopen, if_pos hopen, List.getLast?_cons]
          show (Option.map _ (throttled (some now) es).getLast?).getD
            (Page.sendMovementCommand u { p with now := now } _).lastSent = _
          rw [hsent]
          cases (throttled (some now) es).getLast? <;> rfl
        · rw [if_neg hopen, if_neg hopen]
          rfl

/-- **When the final position is delivered.**  From any state in which the joystick is dragged,
after any moves at any times and however long the pointer is still after the final one, the
command sent last is that of the final position if and only if the final move finds the
throttle open, or the last position that was let through before it (what was sent last
before the drag, if there is none) has the same command. -/
theorem final_position_iff {u : UnicodeTables} {maxDistance : ℚ} {p q p' : Page}
    {before after : List (ℚ × Event)} {now : ℚ} {position : Option Position}
    (hp : (machine u maxDistance).Reachable p) (hdrag : p.isDragging = true)
    (hbefore : ∀ e ∈ before, InDrag e.2) (hq : (machine u maxDistance).run p before = some q)
    (hafter : ∀ e ∈ after, Still e.2)
    (hrun : (machine u maxDistance).run q ((now, .move position) :: after) = some p') :
    p'.lastSent = moveCommand maxDistance position ↔
      q.inThrottle = none ∨ lastThrough maxDistance p before = moveCommand maxDistance position := by
  have hdragq : q.isDragging = true :=
    Machine.run_invariant (I := fun p => p.isDragging = true) (C := fun e => InDrag e.2)
      (fun _ _ _ hd he hs => isDragging_step hd he hs) hbefore hdrag hq
  have hsentq := lastSent_eq (answered_of_reachable hp) hdrag hbefore hq
  have hlist : ∀ e ∈ (now, .move position) :: after, InDrag e.2 :=
    List.forall_mem_cons.mpr ⟨trivial, fun e he => (hafter e he).inDrag⟩
  have hsent := lastSent_eq (answered_of_reachable (hp.run hq)) hdragq hlist hrun
  rw [hsent, lastThrough, throttled_move, throttled_still hafter, throttled_still hafter, ← hsentq]
  by_cases hopen : q.inThrottle = none
  · simp [hopen]
  · simp [hopen]

/-- The page right after the start of a drag. -/
def dragged : Page := { isDragging := true }

theorem reachable_dragged (u : UnicodeTables) (maxDistance : ℚ) :
    (machine u maxDistance).Reachable dragged :=
  Machine.reachable_of_run (show (machine u maxDistance).run {} [(0, .start)] = some dragged from rfl)

/-- Forward, and back to the centre after the throttle has opened: `X` is sent. -/
theorem final_position_delivered :
    ∃ q p', (machine .bare 67).run dragged
        [(0, .move (some ⟨0, -67, 80⟩)), (150, .timeout)] = some q ∧
      (machine .bare 67).run q
        [(200, .move (some ⟨0, 0, 0⟩)), (350, .timeout), (360, .wait)] = some p' ∧
      p'.lastSent = moveCommand 67 (some ⟨0, 0, 0⟩) := by
  have hq : (machine .bare 67).run dragged [(0, .move (some ⟨0, -67, 80⟩)), (150, .timeout)] =
      some { isDragging := true, lastCommand := ['W'], sent := [['W']], now := 150 } := by
    decide +kernel
  have hrun : (machine .bare 67).run
      { isDragging := true, lastCommand := ['W'], sent := [['W']], now := 150 }
      [(200, .move (some ⟨0, 0, 0⟩)), (350, .timeout), (360, .wait)] =
      some { isDragging := true, sent := [['W'], ['X']], now := 360 } := by decide +kernel
  exact ⟨_, _, hq, hrun, (final_position_iff (reachable_dragged .bare 67) rfl (by decide) hq
    (by decide) hrun).mpr (Or.inl rfl)⟩

/-- Forward, and back to the centre within the delay: `W` stays the last command, also when the
pointer has been still for longer than the delay. -/
theorem final_position_lost :
    ¬ ∀ (p q p' : Page) (before after : List (ℚ × Event)) (now : ℚ) (position : Option Position),
      (machine .bare 67).Reachable p → p.isDragging = true → (∀ e ∈ before, InDrag e.2) →
        (machine .bare 67).run p before = some q → (∀ e ∈ after, Still e.2) →
          (machine .bare 67).run q ((now, .move position) :: after) = some p' →
            now + delay < p'.now → p'.lastSent = moveCommand 67 position := by
  intro h
  have hq : (machine .bare 67).run dragged [(0, .move (some ⟨0, -67, 80⟩))] =
      some { isDragging := true, lastCommand := ['W'], inThrottle := some 0, sent := [['W']] } := by
    decide +kernel
  have hrun : (machine .bare 67).run
      { isDragging := true, lastCommand := ['W'], inThrottle := some 0, sent := [['W']] }
      [(50, .move (some ⟨0, 0, 0⟩)), (150, .timeout), (300, .wait)] =
      some { isDragging := true, lastCommand := ['W'], sent := [['W']], now := 300 } := by
    decide +kernel
  have hlast := h dragged _ _ _ _ 50 (some ⟨0, 0, 0⟩) (reachable_dragged .bare 67) rfl (by decide) hq
    (by decide) hrun (by norm_num [delay])
  exact absurd hlast (by decide +kernel)

end StickThrottle
