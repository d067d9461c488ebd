/-
# The reference meaning of a command

`parseCommand` walks through its argument with two indices and a sentinel.  What it
should mean takes three lines: split the text at every `;`, split each segment at its
first `:`, look the key up in a table.  The file defines that meaning and proves:

* `rounds_spec`: the loop takes one round for each segment and then stops;
* `fieldOf_eq_lookup`: the chain of comparisons is a search in the table;
* `parseCommand_reference`: the loop stops after exactly as many rounds as there are
  segments, and its effect is the reference meaning.
-/
import ProjectTank.CommandParser

open SeparatedText

namespace TankFirmware

/-! ## The reference meaning -/

/-- The keys and the fields they name. -/
def keyTable : List (Text × Field) :=
  [("FR".toList, .forwardReverse), ("LR".toList, .leftRight), ("UD".toList, .upDown),
    ("TLR".toList, .turretLeftRight), ("FC".toList, .fireCannon), ("LC".toList, .lightControl)]

/-- The field that a key names, in any case of its letters. -/
def lookupKey (key : Text) : Option Field :=
  (keyTable.find? fun entry => Arduino.equalsIgnoreCase key entry.1).map Prod.snd

/-- What a segment assigns: nothing without a colon or with an unknown key. -/
def segmentValue (segment : Text) : Option (Field × ℤ) := do
  let (key, value) ← cut ':' segment
  let f ← lookupKey key
  return (f, Arduino.toInt value)

/-- The effect of a segment. -/
def applySegment (g : Globals) (segment : Text) : Globals :=
  match segmentValue segment with
  | some (f, value) => g.assign f value
  | none => g

/-- The value a segment gives to the field `f`, if it does. -/
def segmentValueFor (f : Field) (segment : Text) : Option ℤ :=
  (segmentValue segment).bind fun p => if p.1 = f then some p.2 else none

/-! ## The loop takes one round for each segment -/

/-- From any position of the loop on, each round takes one segment of what is left: the sentinel
is set in the last of these rounds and not before, and the events are those of the segments. -/
theorem rounds_spec (s : Text) (pieces : List Text) (st : ParseState) (hrun : st.end_ ≠ -1)
    (hpieces : (s.drop st.start).splitOn ';' = pieces) :
    (∀ n < pieces.length, ((parseRound s)^[n] st).end_ ≠ -1) ∧
      ((parseRound s)^[pieces.length] st).end_ = -1 ∧
      ((parseRound s)^[pieces.length] st).events =
        st.events ++ pieces.filterMap processPart := by
  -- induction on the segments left; each round takes the first of them
  induction pieces generalizing st with
  | nil => exact absurd hpieces (List.splitOn_ne_nil _ _)
  | cons piece pieces ih =>
      have hevents : ∀ rest : List ParseEvent,
          st.events ++ (processPart piece).toList ++ rest =
            st.events ++ ((processPart piece).toList ++ rest) := fun rest => List.append_assoc ..
      by_cases hidx : Arduino.indexOf s ';' st.start = -1
      · have hcut := cut_eq_none_iff.mpr (Arduino.indexOf_eq_neg_one_iff.mp hidx)
        rw [splitOn_eq_singleton_of_cut hcut] at hpieces
        obtain ⟨rfl, rfl⟩ := List.cons.inj hpieces
        refine ⟨?_, ?_, ?_⟩
        · intro n hn
          have h0 : n = 0 := by simpa using hn
          rw [h0]
          exact hrun
        · rw [List.length_singleton, Function.iterate_one, parseRound_last hidx]
        · rw [List.length_singleton, Function.iterate_one, parseRound_last hidx]
          cases hpart : processPart (s.drop st.start) <;> simp [hpart]
      · obtain ⟨i, part, -, -, hcut, hround⟩ := parseRound_cut hidx
        rw [splitOn_eq_cons_of_cut hcut] at hpieces
        obtain ⟨rfl, hrest⟩ := List.cons.inj hpieces
        have hnext := ih (parseRound s st) (by rw [hround]; simp only; omega)
          (by rw [hround]; exact hrest)
        refine ⟨?_, hnext.2.1, ?_⟩
        · intro n hn
          cases n with
          | zero => exact hrun
          | succ n => exact hnext.1 n (by simpa using hn)
        · rw [List.length_cons, Function.iterate_succ_apply, hnext.2.2, hround, hevents]
          cases hpart : processPart part <;> simp [hpart]

/-! ## One segment -/

/-- The chain of comparisons finds what the table says. -/
theorem fieldOf_eq_lookup (key : Text) : fieldOf key = lookupKey key := by
  unfold fieldOf lookupKey keyTable
  simp only [List.find?_cons]
  split_ifs <;> simp_all

/-- `processPart` has the effect of the segment. -/
theorem handle_processPart (g : Globals) (segment : Text) :
    (processPart segment).toList.foldl Globals.handle g = applySegment g segment := by
  rw [processPart_eq, applySegment, segmentValue]
  cases hcut : cut ':' segment with
  | none => rfl
  | some kv =>
      rw [Option.map_some, fieldOf_eq_lookup]
      cases hkey : lookupKey kv.1 with
      | none => simp [hkey, Globals.handle]
      | some f => simp [hkey, Globals.handle]

/-- `processPart` assigns to `f` what the segment gives it. -/
theorem assigned_processPart (f : Field) (segment : Text) :
    (processPart segment).bind (ParseEvent.assigned f) = segmentValueFor f segment := by
  rw [processPart_eq, segmentValueFor, segmentValue]
  cases hcut : cut ':' segment with
  | none => rfl
  | some kv =>
      rw [Option.map_some, fieldOf_eq_lookup]
      cases hkey : lookupKey kv.1 with
      | none => simp [hkey, ParseEvent.assigned]
      | some f' => simp [hkey, ParseEvent.assigned]

/-! ## The whole text -/

/-- The events of some segments have the effect of these segments from left to right. -/
theorem foldl_handle_filterMap (g : Globals) (segments : List Text) :
    (segments.filterMap processPart).foldl Globals.handle g = segments.foldl applySegment g := by
  induction segments generalizing g with
  | nil => rfl
  | cons segment segments ih =>
      rw [List.foldl_cons, ← handle_processPart, ← ih, ← List.foldl_append]
      cases hpart : processPart segment <;> simp [hpart]

/-- The last assignment to a field is by the last segment that gives it a value. -/
theorem lastAssigned_parseEvents (f : Field) (s : Text) :
    lastAssigned f (parseEvents s) =
      ((s.splitOn ';').filterMap (segmentValueFor f)).getLast? := by
  rw [lastAssigned, parseEvents_eq, List.filterMap_filterMap]
  simp only [assigned_processPart]

/-- An empty segment anywhere does nothing. -/
theorem parseEvents_empty_segment (s t : Text) :
    parseEvents (s ++ ';' :: ';' :: t) = parseEvents (s ++ ';' :: t) := by
  simp only [parseEvents_eq, List.splitOn_append_cons_self, List.splitOn_cons_eq_if_modifyHead]
  simp [show processPart [] = none from rfl]

/-- A semicolon in front adds an empty segment, which does nothing. -/
theorem parseEvents_leading (s : Text) : parseEvents (';' :: s) = parseEvents s := by
  simp only [parseEvents_eq, List.splitOn_cons_eq_if_modifyHead]
  simp [show processPart [] = none from rfl]

/-- So does one at the end. -/
theorem parseEvents_trailing (s : Text) : parseEvents (s ++ [';']) = parseEvents s := by
  simp only [parseEvents_eq, List.splitOn_append_cons_self, List.splitOn_nil]
  simp [show processPart [] = none from rfl]

/-- A command means what its events mean. -/
theorem parseCommand_congr {g : Globals} {s t : Text} (h : parseEvents s = parseEvents t) :
    parseCommand g s = parseCommand g t := by
  rw [parseCommand, parseCommand, h]

/-- **`parseCommand` equals its reference meaning and terminates.**  The `while` loop
leaves after exactly as many rounds as there are segments; its effect is that of the
segments from left to right; a field ends with the value of its last segment, and empty
segments, leading and trailing semicolons change nothing.

The `String` operations are taken as documented, for every text `s`.  The core searches with
`strchr`, which stops at a NUL, so for a text with a NUL in it this is about the documented
operations and not about the core's. -/
theorem parseCommand_reference (g : Globals) (s : Text) :
    let after := fun rounds => (parseRound s)^[rounds] ParseState.initial
    let g' := (parseCommand g s).1
    (∀ n < s.count ';' + 1, (after n).end_ ≠ -1) ∧
      (after (s.count ';' + 1)).end_ = -1 ∧
      g' = (after (s.count ';' + 1)).events.foldl Globals.handle g ∧
      g' = (s.splitOn ';').foldl applySegment g ∧
      (∀ f, g'.get f =
        ((s.splitOn ';').filterMap (segmentValueFor f)).getLast?.getD (g.get f)) ∧
      g.SameRest g' ∧
      parseCommand g (';' :: s) = parseCommand g s ∧
      parseCommand g (s ++ [';']) = parseCommand g s ∧
      ∀ t, parseCommand g (s ++ ';' :: ';' :: t) = parseCommand g (s ++ ';' :: t) := by
  intro after g'
  obtain ⟨hrounds, hend, hevents⟩ := rounds_spec s (s.splitOn ';') .initial (by decide) rfl
  rw [length_splitOn] at hrounds hend hevents
  have hparse : (after (s.count ';' + 1)).events = parseEvents s := by
    rw [parseEvents_eq]
    exact hevents
  refine ⟨hrounds, hend, ?_, ?_, ?_, sameRest_parseCommand g s,
    parseCommand_congr (parseEvents_leading s), parseCommand_congr (parseEvents_trailing s),
    fun t => parseCommand_congr (parseEvents_empty_segment s t)⟩
  · rw [hparse]
    rfl
  · rw [← foldl_handle_filterMap, ← parseEvents_eq]
    rfl
  · intro f
    rw [← lastAssigned_parseEvents]
    exact get_parseCommand g s f

example : (parseCommand { lastFired := 0 } ";fr:3;;FR: -2x:7;XY:1;".toList).1.forwardReverse = -2 := by
  decide

end TankFirmware
