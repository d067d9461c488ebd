/-
# The keyboard of the letter pages (`main/index.html` and `peter/ultrasonic/index.html`)

Both pages have the same `keydown` and `keyup` listeners for the keys w, a, s, d: a key
that goes down sends its letter, a key that comes up sends the letter of a key that is
still held, or the stop command when none is.  `Listened` is the inversion of a key
event: nothing to send, a letter while a movement key is held, or the stop command at
the moment the last movement key comes up.
-/
import ProjectTank.LetterServer

open ProgramText LetterServer TankServer

namespace LetterPage

/-- `movementKeys`. -/
def movementKeys : List Text := ["w".toList, "a".toList, "s".toList, "d".toList]

/-- An event of the keyboard, with the `key` property of the event. -/
inductive KeyEvent
  | keydown (key : Text)
  | keyup (key : Text)

/-- The key of an event, in lower case. -/
def KeyEvent.key (u : UnicodeTables) : KeyEvent → Text
  | .keydown key => toLowerCase u key
  | .keyup key => toLowerCase u key

/-- The `keydown` listener: the set `pressedKeys` afterwards, in the order of insertion, and
what `sendMovementCommand` is called with, if it is. -/
def keydown (pressedKeys : List Text) (key : Text) : List Text × Option Text :=
  if key ∈ pressedKeys then (pressedKeys, none)
  else (pressedKeys ++ [key], if key ∈ movementKeys then some key else none)

/-- The `keyup` listener. -/
def keyup (pressedKeys : List Text) (key : Text) : List Text × Option Text :=
  let pressedKeys := pressedKeys.filter (· ≠ key)
  let remainingMovementKeys := pressedKeys.filter (· ∈ movementKeys)
  (pressedKeys,
    if key ∈ movementKeys then some (remainingMovementKeys.headD stopCommand) else none)

/-- The two listeners. -/
def listener (u : UnicodeTables) (pressedKeys : List Text) (e : KeyEvent) :
    List Text × Option Text :=
  match e with
  | .keydown key => keydown pressedKeys (toLowerCase u key)
  | .keyup key => keyup pressedKeys (toLowerCase u key)

/-- The URL that `sendMovementCommand` fetches. -/
def tankCommandUrl (u : UnicodeTables) (command : Text) : Text :=
  "/tank_command?cmd=".toList ++ toUpperCase u command

/-! ## What a key event does -/

/-- A movement key is held. -/
def Held (pressedKeys : List Text) : Prop := ∃ key ∈ pressedKeys, key ∈ movementKeys

instance (pressedKeys : List Text) : Decidable (Held pressedKeys) :=
  inferInstanceAs (Decidable (∃ key ∈ pressedKeys, key ∈ movementKeys))

/-- A movement key comes up, and no other movement key is held. -/
def ReleasesLast (u : UnicodeTables) (pressedKeys : List Text) : KeyEvent → Prop
  | .keydown _ => False
  | .keyup key => toLowerCase u key ∈ movementKeys ∧
      ∀ k ∈ pressedKeys, k ∈ movementKeys → k = toLowerCase u key

instance (u : UnicodeTables) (pressedKeys : List Text) :
    ∀ e, Decidable (ReleasesLast u pressedKeys e)
  | .keydown _ => inferInstanceAs (Decidable False)
  | .keyup _ => inferInstanceAs (Decidable (_ ∧ _))

/-- Everything a key event can do: the keys that are pressed then, and the command to send. -/
inductive Listened (u : UnicodeTables) (pressedKeys : List Text) (e : KeyEvent) :
    List Text × Option Text → Prop
  | nothing {pressedKeys' : List Text} (hheld : Held pressedKeys' ↔ Held pressedKeys) :
      Listened u pressedKeys e (pressedKeys', none)
  | move {pressedKeys' : List Text} {key : Text} (hkey : key ∈ movementKeys)
      (hheld : Held pressedKeys') : Listened u pressedKeys e (pressedKeys', some key)
  | stop {pressedKeys' : List Text} (hlast : ReleasesLast u pressedKeys e)
      (hheld : ¬ Held pressedKeys') : Listened u pressedKeys e (pressedKeys', some stopCommand)

/-- Adding or removing another key does not change whether a movement key is held. -/
theorem held_append_of_not_mem {pressedKeys : List Text} {key : Text} (h : key ∉ movementKeys) :
    Held (pressedKeys ++ [key]) ↔ Held pressedKeys := by
  simp [Held, or_and_right, exists_or, h]

theorem held_filter_of_not_mem {pressedKeys : List Text} {key : Text} (h : key ∉ movementKeys) :
    Held (pressedKeys.filter (· ≠ key)) ↔ Held pressedKeys := by
  have hne : ∀ k ∈ movementKeys, k ≠ key := by
    rintro k hk rfl
    exact h hk
  constructor
  · rintro ⟨k, hk, hmove⟩
    exact ⟨k, (List.mem_filter.mp hk).1, hmove⟩
  · rintro ⟨k, hk, hmove⟩
    exact ⟨k, List.mem_filter.mpr ⟨hk, by simpa using hne k hmove⟩, hmove⟩

/-- **Inversion of a key event.** -/
theorem listened (u : UnicodeTables) (pressedKeys : List Text) (e : KeyEvent) :
    Listened u pressedKeys e (listener u pressedKeys e) := by
  cases e with
  | keydown eventKey =>
      rw [listener, keydown]
      by_cases hpressed : toLowerCase u eventKey ∈ pressedKeys
      · rw [if_pos hpressed]
        exact .nothing Iff.rfl
      · rw [if_neg hpressed]
        by_cases hmove : toLowerCase u eventKey ∈ movementKeys
        · rw [if_pos hmove]
          exact .move hmove ⟨_, by simp, hmove⟩
        · rw [if_neg hmove]
          exact .nothing (held_append_of_not_mem hmove)
  | keyup eventKey =>
      simp only [listener, keyup]
      by_cases hmove : toLowerCase u eventKey ∈ movementKeys
      · rw [if_pos hmove]
        cases hremaining : (pressedKeys.filter (· ≠ toLowerCase u eventKey)).filter
            (· ∈ movementKeys) with
        | nil =>
            have hnone : ∀ k ∈ pressedKeys, k ∈ movementKeys → k = toLowerCase u eventKey := by
              simpa using hremaining
            refine .stop ⟨hmove, hnone⟩ ?_
            rintro ⟨k, hk, hkmove⟩
            obtain ⟨hpressed, hne⟩ := List.mem_filter.mp hk
            exact absurd (hnone k hpressed hkmove) (by simpa using hne)
        | cons nextCommandKey rest =>
            have hmem : nextCommandKey ∈ (pressedKeys.filter (· ≠ toLowerCase u eventKey)).filter
                (· ∈ movementKeys) := by
              rw [hremaining]
              exact List.mem_cons_self
            obtain ⟨hpressed, hkey⟩ := List.mem_filter.mp hmem
            exact .move (by simpa using hkey) ⟨nextCommandKey, hpressed, by simpa using hkey⟩
      · rw [if_neg hmove]
        exact .nothing (held_filter_of_not_mem hmove)

/-! ## What the server makes of the URL -/

/-- The letter of a movement key is one of the commands, and not the stop command. -/
theorem toUpperCase_movementKey (u : UnicodeTables) {key : Text} (h : key ∈ movementKeys) :
    toUpperCase u key ∈ commandLetters := by
  have hcases : key = "w".toList ∨ key = "a".toList ∨ key = "s".toList ∨ key = "d".toList := by
    simpa [movementKeys] using h
  rcases hcases with rfl | rfl | rfl | rfl <;>
    · rw [toUpperCase_ascii u (by decide)]
      decide

theorem toUpperCase_stopCommand (u : UnicodeTables) : toUpperCase u stopCommand = stopCommand := rfl

theorem stopCommand_mem_commandLetters (u : UnicodeTables) :
    toUpperCase u stopCommand ∈ commandLetters := by
  rw [toUpperCase_stopCommand]
  decide

/-- **The server finds in the URL the letter that the page put there.** -/
theorem commandOf_tankCommandUrl (u u' : UnicodeTables) {command : Text}
    (h : toUpperCase u command ∈ commandLetters) :
    route (tankCommandUrl u command) = .tankCommand ∧
      commandOf u' (tankCommandUrl u command) = toUpperCase u command := by
  have hall : ∀ letter ∈ commandLetters,
      route ("/tank_command?cmd=".toList ++ letter) = .tankCommand ∧
        commandOf u' ("/tank_command?cmd=".toList ++ letter) = letter := by
    simp only [commandLetters, List.forall_mem_cons]
    exact ⟨⟨rfl, rfl⟩, ⟨rfl, rfl⟩, ⟨rfl, rfl⟩, ⟨rfl, rfl⟩, ⟨rfl, rfl⟩, by simp⟩
  exact hall _ h

end LetterPage
