/-
# Axes and keys (`Guy/peter/index_fixed.html`)

Eight keys move the four joystick values: each value has a key that sets it to `10` and
one that sets it to `-10`.  `handleKeyUp` clears a value unless the opposite key is still
held, and in that case leaves it as it is, also when it shows the key that came up.

* `Track.handle`: what is true of a value whatever happens: `0` when neither of its keys
  is held, the sign of the newer key when both are;
* `axes_follow_keys_iff`: a value follows the keys that are held through a whole run if
  and only if no key comes up while its opposite, pressed earlier, is still held.
-/
import ProjectTank.HeldKeys

open ProgramText
open LetterPage (KeyEvent)

namespace AxisKeys

/-! ## The listeners -/

/-- The values that the keys set. -/
inductive Axis
  | leftJoystickY
  | leftJoystickX
  | rightJoystickY
  | rightJoystickX
  deriving DecidableEq, Repr

/-- The key that sets the value to `10`. -/
def Axis.plusKey : Axis → Text
  | .leftJoystickY => "w".toList
  | .leftJoystickX => "a".toList
  | .rightJoystickY => "arrowup".toList
  | .rightJoystickX => "arrowleft".toList

/-- The key that sets the value to `-10`. -/
def Axis.minusKey : Axis → Text
  | .leftJoystickY => "s".toList
  | .leftJoystickX => "d".toList
  | .rightJoystickY => "arrowdown".toList
  | .rightJoystickX => "arrowright".toList

theorem Axis.plusKey_ne_minusKey (a : Axis) : a.plusKey ≠ a.minusKey := by
  cases a <;> decide

/-- What the listeners read and write; `pressedKeys` is in the order of insertion. -/
structure Page where
  pressedKeys : List Text := []
  value : Axis → ℤ := fun _ => 0
  isFireOn : Bool := false
  firing : ℤ := 0
  isLightOn : Bool := false

/-- `handleFireOn`. -/
def Page.handleFireOn (p : Page) : Page :=
  if p.isFireOn = false then { p with isFireOn := true, firing := 1 } else p

/-- `handleFireOff`. -/
def Page.handleFireOff (p : Page) : Page :=
  if p.isFireOn then { p with isFireOn := false, firing := 0 } else p

/-- `toggleCarLight`. -/
def Page.toggleCarLight (p : Page) : Page := { p with isLightOn := !p.isLightOn }

/-- `LIGHT_KEY`. -/
def LIGHT_KEY : Text := "l".toList

/-- What a key that goes down does to a value. -/
def Axis.press (a : Axis) (key : Text) (value : ℤ) : ℤ :=
  if key = a.plusKey then 10 else if key = a.minusKey then -10 else value

/-- What a key that comes up does to a value, with the keys that are pressed then. -/
def Axis.release (a : Axis) (pressedKeys : List Text) (key : Text) (value : ℤ) : ℤ :=
  if key = a.plusKey then if a.minusKey ∉ pressedKeys then 0 else value
  else if key = a.minusKey then if a.plusKey ∉ pressedKeys then 0 else value
  else value

/-- `handleKeyDown`. -/
def Page.handleKeyDown (p : Page) (key : Text) : Page :=
  if key ∈ p.pressedKeys then p
  else
    let p := { p with pressedKeys := p.pressedKeys ++ [key] }
    let p := if key = " ".toList then p.handleFireOn else p
    let p := if key = LIGHT_KEY then p.toggleCarLight else p
    { p with value := fun a => a.press key (p.value a) }

/-- `handleKeyUp`. -/
def Page.handleKeyUp (p : Page) (key : Text) : Page :=
  let p := { p with pressedKeys := p.pressedKeys.filter (· ≠ key) }
  let p := if key = " ".toList then p.handleFireOff else p
  { p with value := fun a => a.release p.pressedKeys key (p.value a) }

/-- The listeners, for the key of the event in lower case. -/
def Page.handle (u : UnicodeTables) (p : Page) : KeyEvent → Page
  | .keydown key => p.handleKeyDown (toLowerCase u key)
  | .keyup key => p.handleKeyUp (toLowerCase u key)

/-- The page after a sequence of key events. -/
def run (u : UnicodeTables) (es : List KeyEvent) : Page := es.foldl (Page.handle u) {}

theorem run_concat (u : UnicodeTables) (es : List KeyEvent) (e : KeyEvent) :
    run u (es ++ [e]) = (run u es).handle u e := by
  simp [run]

/-! ## What a key event does to one value -/

/-- Fire and light leave keys and values alone. -/
theorem handleKeyDown_of_not_mem {p : Page} {key : Text} (h : key ∉ p.pressedKeys) :
    (p.handleKeyDown key).pressedKeys = p.pressedKeys ++ [key] ∧
      (p.handleKeyDown key).value = fun a => a.press key (p.value a) := by
  rw [Page.handleKeyDown, if_neg h]
  simp only [Page.handleFireOn, Page.toggleCarLight]
  split_ifs <;> exact ⟨rfl, rfl⟩

theorem handleKeyUp_eq (p : Page) (key : Text) :
    (p.handleKeyUp key).pressedKeys = p.pressedKeys.filter (· ≠ key) ∧
      (p.handleKeyUp key).value = fun a =>
        a.release (p.pressedKeys.filter (· ≠ key)) key (p.value a) := by
  simp only [Page.handleKeyUp, Page.handleFireOff]
  split_ifs <;> exact ⟨rfl, rfl⟩

/-- The keys of a value that are held, in the order in which they went down. -/
def Axis.held (a : Axis) (pressedKeys : List Text) : List Text :=
  pressedKeys.filter fun k => k = a.plusKey ∨ k = a.minusKey

theorem Axis.plusKey_mem_held {a : Axis} {pressedKeys : List Text} :
    a.plusKey ∈ a.held pressedKeys ↔ a.plusKey ∈ pressedKeys := by
  simp [Axis.held]

theorem Axis.minusKey_mem_held {a : Axis} {pressedKeys : List Text} :
    a.minusKey ∈ a.held pressedKeys ↔ a.minusKey ∈ pressedKeys := by
  simp [Axis.held]

theorem Axis.held_append (a : Axis) (pressedKeys : List Text) (key : Text) :
    a.held (pressedKeys ++ [key]) =
      if key = a.plusKey ∨ key = a.minusKey then a.held pressedKeys ++ [key]
      else a.held pressedKeys := by
  rw [Axis.held, List.filter_append]
  split_ifs with h
  · rw [List.filter_cons_of_pos (by simpa using h)]
    rfl
  · rw [List.filter_cons_of_neg (by simpa using h), List.filter_nil, List.append_nil]
    rfl

theorem Axis.held_filter (a : Axis) (pressedKeys : List Text) (key : Text) :
    a.held (pressedKeys.filter (· ≠ key)) = (a.held pressedKeys).filter (· ≠ key) :=
  List.filter_comm _ _ _

/-! ## What is true of a value whatever happens -/

/-- The value, by the keys of it that are held: with one key it may be anything. -/
inductive Track (a : Axis) : List Text → ℤ → Prop
  | none : Track a [] 0
  | one {key : Text} (value : ℤ) (hkey : key = a.plusKey ∨ key = a.minusKey) : Track a [key] value
  | plusNewer : Track a [a.minusKey, a.plusKey] 10
  | minusNewer : Track a [a.plusKey, a.minusKey] (-10)

/-- The value follows the keys that are held. -/
def Axis.Follows (a : Axis) (pressedKeys : List Text) (value : ℤ) : Prop :=
  (a.plusKey ∈ pressedKeys → a.minusKey ∉ pressedKeys → value = 10) ∧
    (a.minusKey ∈ pressedKeys → a.plusKey ∉ pressedKeys → value = -10) ∧
    (a.plusKey ∉ pressedKeys → a.minusKey ∉ pressedKeys → value = 0)

theorem Axis.follows_held (a : Axis) (pressedKeys : List Text) (value : ℤ) :
    a.Follows (a.held pressedKeys) value ↔ a.Follows pressedKeys value := by
  simp only [Axis.Follows, Axis.plusKey_mem_held, Axis.minusKey_mem_held]

/-- A key of the pair comes up while the other one, pressed earlier, is still held. -/
def Axis.ReleasesNewer (u : UnicodeTables) (a : Axis) (pressedKeys : List Text) : KeyEvent → Prop
  | .keydown _ => False
  | .keyup key =>
      (toLowerCase u key = a.plusKey ∧ a.held pressedKeys = [a.minusKey, a.plusKey]) ∨
        (toLowerCase u key = a.minusKey ∧ a.held pressedKeys = [a.plusKey, a.minusKey])

/-- Only the two keys of the value are held. -/
theorem Track.key_of_mem {a : Axis} {held : List Text} {value : ℤ} (h : Track a held value)
    {key : Text} (hkey : key ∈ held) : key = a.plusKey ∨ key = a.minusKey := by
  cases h with
  | none => exact absurd hkey List.not_mem_nil
  | one value hone => rwa [List.mem_singleton.mp hkey]
  | plusNewer => simpa [or_comm] using hkey
  | minusNewer => simpa using hkey

/-- A key that goes down, seen from one value. -/
theorem Track.press {a : Axis} {held : List Text} {value : ℤ} (h : Track a held value)
    {key : Text} (hnew : key ∉ held) :
    let held' := if key = a.plusKey ∨ key = a.minusKey then held ++ [key] else held
    Track a held' (a.press key value) ∧ (a.Follows held value → a.Follows held' (a.press key value)) := by
  intro held'
  have hne := a.plusKey_ne_minusKey
  by_cases hplus : key = a.plusKey
  · subst hplus
    have hheld' : held' = held ++ [a.plusKey] := if_pos (Or.inl rfl)
    have hvalue : a.press a.plusKey value = 10 := if_pos rfl
    rw [hheld', hvalue]
    cases h with
    | none => exact ⟨.one 10 (Or.inl rfl), fun _ => by simp [Axis.Follows, hne.symm]⟩
    | one value hkey =>
        rcases hkey with rfl | rfl
        · exact absurd List.mem_cons_self hnew
        · exact ⟨.plusNewer, fun _ => by simp [Axis.Follows]⟩
    | plusNewer => exact absurd (by simp) hnew
    | minusNewer => exact absurd (by simp) hnew
  · by_cases hminus : key = a.minusKey
    · subst hminus
      have hheld' : held' = held ++ [a.minusKey] := if_pos (Or.inr rfl)
      have hvalue : a.press a.minusKey value = -10 := by
        rw [Axis.press, if_neg hplus, if_pos rfl]
      rw [hheld', hvalue]
      cases h with
      | none => exact ⟨.one (-10) (Or.inr rfl), fun _ => by simp [Axis.Follows, hne]⟩
      | one value hkey =>
          rcases hkey with rfl | rfl
          · exact ⟨.minusNewer, fun _ => by simp [Axis.Follows]⟩
          · exact absurd List.mem_cons_self hnew
      | plusNewer => exact absurd (by simp) hnew
      | minusNewer => exact absurd (by simp) hnew
    · have hheld' : held' = held := if_neg (not_or.mpr ⟨hplus, hminus⟩)
      have hvalue : a.press key value = value := by
        rw [Axis.press, if_neg hplus, if_neg hminus]
      rw [hheld', hvalue]
      exact ⟨h, id⟩

/-- A key that comes up, seen from one value: it goes wrong exactly when the newer of two
keys is released. -/
theorem Track.release {a : Axis} {held : List Text} {value : ℤ} (h : Track a held value)
    (key : Text) :
    let held' := held.filter (· ≠ key)
    let value' := a.release held' key value
    let newer := (key = a.plusKey ∧ held = [a.minusKey, a.plusKey]) ∨
      (key = a.minusKey ∧ held = [a.plusKey, a.minusKey])
    Track a held' value' ∧ (a.Follows held value → ¬ newer → a.Follows held' value') ∧
      (newer → ¬ a.Follows held' value') := by
  intro held' value' newer
  have hne := a.plusKey_ne_minusKey
  have hne' := hne.symm
  by_cases hplus : key = a.plusKey
  · subst hplus
    cases h with
    | none => simp [held', value', newer, Axis.release, Axis.Follows, Track.none]
    | one value hkey =>
        rcases hkey with rfl | rfl
        · simp [held', value', newer, Axis.release, Axis.Follows, Track.none]
        · simp [held', value', newer, Axis.release, Axis.Follows, hne, hne', Track.one]
    | plusNewer => simp [held', value', newer, Axis.release, Axis.Follows, hne, hne', Track.one]
    | minusNewer => simp [held', value', newer, Axis.release, Axis.Follows, hne, hne', Track.one]
  · by_cases hminus : key = a.minusKey
    · subst hminus
      cases h with
      | none => simp [held', value', newer, Axis.release, Axis.Follows, hne', Track.none]
      | one value hkey =>
          rcases hkey with rfl | rfl
          · simp [held', value', newer, Axis.release, Axis.Follows, hne, hne', Track.one]
          · simp [held', value', newer, Axis.release, Axis.Follows, hne', Track.none]
      | plusNewer => simp [held', value', newer, Axis.release, Axis.Follows, hne, hne', Track.one]
      | minusNewer => simp [held', value', newer, Axis.release, Axis.Follows, hne, hne', Track.one]
    · -- a key of another value
      have hkeep : held' = held := by
        refine List.filter_eq_self.mpr fun k hk => ?_
        have hother : k ≠ key := by
          rintro rfl
          exact (h.key_of_mem hk).elim hplus hminus
        simpa using hother
      have hvalue : value' = value := by
        show a.release held' key value = value
        rw [Axis.release, if_neg hplus, if_neg hminus]
      rw [hkeep, hvalue]
      exact ⟨h, fun hf _ => hf, fun hnewer => absurd hnewer (by simp [newer, hplus, hminus])⟩

/-! ## Runs -/

/-- **One key event**, for a value that is as `Track` says: it stays so, and it goes on to
follow its keys unless the newer of the two is released. -/
theorem Track.handle {a : Axis} {u : UnicodeTables} {p : Page}
    (h : Track a (a.held p.pressedKeys) (p.value a)) (e : KeyEvent) :
    Track a (a.held (p.handle u e).pressedKeys) ((p.handle u e).value a) ∧
      (a.Follows p.pressedKeys (p.value a) → ¬ a.ReleasesNewer u p.pressedKeys e →
        a.Follows (p.handle u e).pressedKeys ((p.handle u e).value a)) ∧
      (a.ReleasesNewer u p.pressedKeys e →
        ¬ a.Follows (p.handle u e).pressedKeys ((p.handle u e).value a)) := by
  rw [← a.follows_held p.pressedKeys, ← a.follows_held (p.handle u e).pressedKeys]
  cases e with
  | keydown key =>
      by_cases hpressed : toLowerCase u key ∈ p.pressedKeys
      · have hsame : p.handle u (.keydown key) = p := if_pos hpressed
        rw [hsame]
        exact ⟨h, fun hf _ => hf, fun hnewer => absurd hnewer id⟩
      · obtain ⟨hkeys, hvalue⟩ := handleKeyDown_of_not_mem hpressed
        have hnew : toLowerCase u key ∉ a.held p.pressedKeys := fun hmem =>
          hpressed (List.mem_filter.mp hmem).1
        obtain ⟨htrack, hfollows⟩ := h.press hnew
        rw [Page.handle, hkeys, hvalue, Axis.held_append]
        exact ⟨htrack, fun hf _ => hfollows hf, fun hnewer => absurd hnewer id⟩
  | keyup key =>
      obtain ⟨hkeys, hvalue⟩ := handleKeyUp_eq p (toLowerCase u key)
      have hrelease : a.release (p.pressedKeys.filter (· ≠ toLowerCase u key)) (toLowerCase u key)
          (p.value a) = a.release ((a.held p.pressedKeys).filter (· ≠ toLowerCase u key))
            (toLowerCase u key) (p.value a) := by
        simp only [Axis.release, ← Axis.held_filter, Axis.plusKey_mem_held, Axis.minusKey_mem_held]
      rw [Page.handle, hkeys, hvalue, Axis.held_filter]
      simp only [hrelease]
      exact h.release (toLowerCase u key)

theorem track_run (u : UnicodeTables) (es : List KeyEvent) (a : Axis) :
    Track a (a.held (run u es).pressedKeys) ((run u es).value a) := by
  induction es using List.reverseRecOn with
  | nil => exact .none
  | append_singleton es e ih =>
      rw [run_concat]
      exact (ih.handle e).1

/-- When neither key of a value is held, the value is `0`, in every run. -/
theorem value_of_not_held (u : UnicodeTables) (es : List KeyEvent) (a : Axis)
    (hplus : a.plusKey ∉ (run u es).pressedKeys) (hminus : a.minusKey ∉ (run u es).pressedKeys) :
    (run u es).value a = 0 := by
  have h := track_run u es a
  rw [← Axis.plusKey_mem_held] at hplus
  rw [← Axis.minusKey_mem_held] at hminus
  generalize a.held (run u es).pressedKeys = held at h hplus hminus
  generalize (run u es).value a = value at h
  cases h with
  | none => rfl
  | one value hkey =>
      rcases hkey with rfl | rfl
      · exact absurd List.mem_cons_self hplus
      · exact absurd List.mem_cons_self hminus
  | plusNewer => exact absurd (by simp) hplus
  | minusNewer => exact absurd (by simp) hplus

/-- **When the values follow the keys.**  Through a whole run of key events each value is
`10` or `-10` as the one key of it that is held says, and `0` when none is held, if and
only if in no step a key comes up while its opposite, pressed earlier, is still held. -/
theorem axes_follow_keys_iff (u : UnicodeTables) (es : List KeyEvent) :
    (∀ done, done <+: es → ∀ a : Axis, a.Follows (run u done).pressedKeys ((run u done).value a)) ↔
      ∀ before e after, es = before ++ e :: after →
        ∀ a : Axis, ¬ a.ReleasesNewer u (run u before).pressedKeys e := by
  constructor
  · intro h before e after heq a hnewer
    have hprefix : before ++ [e] <+: es := ⟨after, by rw [heq]; simp⟩
    have hafter := h _ hprefix a
    rw [run_concat] at hafter
    exact ((track_run u before a).handle e).2.2 hnewer hafter
  · intro h done hdone a
    induction done using List.reverseRecOn with
    | nil => simp [run, Axis.Follows]
    | append_singleton done e ih =>
        obtain ⟨after, heq⟩ := hdone
        have hbefore := ih ⟨e :: after, by rw [← heq]; simp⟩
        rw [run_concat]
        exact ((track_run u done a).handle e).2.1 hbefore
          (h done e after (by rw [← heq]; simp) a)

/-- The keys w and s go down, s comes up: w is held and the value stays at `-10`. -/
theorem axis_keeps_released_key :
    (run .bare [.keydown ['w'], .keydown ['s'], .keyup ['s']]).pressedKeys = [['w']] ∧
      (run .bare [.keydown ['w'], .keydown ['s'], .keyup ['s']]).value .leftJoystickY = -10 := by
  decide

end AxisKeys
