/-
# What `parseCommand` does with a line

The `while` loop of `parseCommand` cuts its argument at every `;`, one part a
round, and cuts each part at its first `:`.  This file says so once for every
text, and everything later about commands is about the pieces of a `splitOn`:

* `parseWhile_end`: the loop comes to its end within the rounds the model allows;
* `parseEvents_eq`: what it does is `processPart` on the pieces, in order;
* `parseEvents_intercalate`: on a line joined with `;` these are the parts joined;
* `get_parseCommand`: a command field ends with the last value assigned to it.
-/
import ProjectTank.TankFirmware

open DecimalText SeparatedText

namespace TankFirmware

/-! ## The loop -/

theorem parseWhile_stopped (s : Text) (fuel : ℕ) {st : ParseState} (h : st.end_ = -1) :
    parseWhile s fuel st = st := by
  cases fuel with
  | zero => rfl
  | succ fuel => rw [parseWhile, if_neg (not_not.mpr h)]

/-- The last round takes all that is left. -/
theorem parseRound_last {s : Text} {st : ParseState} (h : Arduino.indexOf s ';' st.start = -1) :
    parseRound s st =
      ⟨0, -1, st.events ++ (processPart (s.drop st.start)).toList⟩ := by
  simp [parseRound, h, Arduino.substringFrom]

/-- An intermediate round takes the part before the next `;`. -/
theorem parseRound_cut {s : Text} {st : ParseState} (h : Arduino.indexOf s ';' st.start ≠ -1) :
    ∃ i part, st.start ≤ i ∧ i < s.length ∧
      cut ';' (s.drop st.start) = some (part, s.drop (i + 1)) ∧
      parseRound s st = ⟨i + 1, i, st.events ++ (processPart part).toList⟩ := by
  obtain ⟨i, hi, hle, hlt, hcut⟩ := Arduino.cut_of_indexOf h
  refine ⟨i, _, hle, hlt, hcut, ?_⟩
  have hne : ¬ (i : ℤ) = -1 := by omega
  simp only [parseRound, hi, if_neg hne, ParseState.mk.injEq, Int.toNat_natCast, and_true]
  omega

/-- **The loop from any position**: given a round for each character left and one
more, it ends, having processed the pieces of the rest of the text. -/
theorem parseWhile_spec (s : Text) (fuel : ℕ) (st : ParseState) (hrun : st.end_ ≠ -1)
    (hfuel : s.length - st.start < fuel) :
    (parseWhile s fuel st).end_ = -1 ∧
      (parseWhile s fuel st).events =
        st.events ++ ((s.drop st.start).splitOn ';').filterMap processPart := by
  -- induction on the rounds left; a cut round moves `start` forward by at least one
  induction fuel generalizing st with
  | zero => omega
  | succ fuel ih =>
      rw [parseWhile, if_pos hrun]
      by_cases hidx : Arduino.indexOf s ';' st.start = -1
      · rw [parseRound_last hidx, parseWhile_stopped s fuel rfl,
          splitOn_eq_singleton_of_cut (cut_eq_none_iff.mpr (Arduino.indexOf_eq_neg_one_iff.mp hidx))]
        refine ⟨rfl, ?_⟩
        cases hpart : processPart (s.drop st.start) <;> simp [hpart]
      · obtain ⟨i, part, hle, hlt, hcut, hround⟩ := parseRound_cut hidx
        have hnext := ih (parseRound s st) (by rw [hround]; simp only; omega)
          (by rw [hround]; simp only; omega)
        refine ⟨hnext.1, hnext.2.trans ?_⟩
        rw [hround, splitOn_eq_cons_of_cut hcut, List.append_assoc]
        congr 1
        cases hpart : processPart part <;> simp [hpart]

/-- The loop has ended when the model stops counting rounds. -/
theorem parseWhile_end (s : Text) : (parseWhile s (s.length + 1) .initial).end_ = -1 :=
  (parseWhile_spec s (s.length + 1) .initial (by decide) (by simp [ParseState.initial])).1

/-- **`parseCommand` processes the pieces between the semicolons, from left to right.** -/
theorem parseEvents_eq (s : Text) : parseEvents s = (s.splitOn ';').filterMap processPart := by
  have h := (parseWhile_spec s (s.length + 1) .initial (by decide)
    (by simp [ParseState.initial])).2
  rw [parseEvents, h]
  rfl

/-- Parts joined with `;` are processed as they are. -/
theorem parseEvents_intercalate {parts : List Text} (hne : parts ≠ [])
    (hparts : ∀ part ∈ parts, ';' ∉ part) :
    parseEvents ([';'].intercalate parts) = parts.filterMap processPart := by
  rw [parseEvents_eq, List.splitOn_intercalate ';' hparts hne]

/-! ## One part -/

/-- A part is cut at its first colon. -/
theorem processPart_eq (part : Text) :
    processPart part = (cut ':' part).map fun kv =>
      match fieldOf kv.1 with
      | some f => .assign f (Arduino.toInt kv.2)
      | none => .unknownKey kv.1 := by
  unfold processPart
  by_cases hidx : Arduino.indexOf part ':' 0 = -1
  · have hnone : cut ':' part = none :=
      cut_eq_none_iff.mpr (by simpa using Arduino.indexOf_eq_neg_one_iff.mp hidx)
    simp [hidx, hnone]
  · obtain ⟨i, hi, -, -, hcut⟩ := Arduino.cut_of_indexOf hidx
    rw [List.drop_zero] at hcut
    have hcolon : ((i : ℤ) + 1).toNat = i + 1 := by omega
    simp only [ne_eq, hidx, not_false_eq_true, if_true, hcut, Option.map_some]
    rw [hi, hcolon, Int.toNat_natCast]
    cases fieldOf (Arduino.substring part 0 i) <;> simp [Arduino.substringFrom]

/-- A part that consists of a known key, a colon and a decimal text assigns the
value to the field of the key. -/
theorem processPart_segment {key : Text} {f : Field} (hcolon : ':' ∉ key)
    (hf : fieldOf key = some f) (v : ℤ) :
    processPart (key ++ ':' :: intText v) = some (.assign f (Arduino.clipLong v)) := by
  rw [processPart_eq, cut_append hcolon, Option.map_some, hf, Arduino.toInt_intText]

/-- Whatever a part assigns fits an `int`. -/
theorem fitsInt32_of_assign {part : Text} {f : Field} {v : ℤ}
    (h : processPart part = some (.assign f v)) : FitsInt32 v := by
  rw [processPart_eq, Option.map_eq_some_iff] at h
  obtain ⟨kv, -, hkv⟩ := h
  split at hkv
  · obtain ⟨-, rfl⟩ := ParseEvent.assign.inj hkv
    exact Arduino.fitsInt32_toInt _
  · exact absurd hkv (by simp)

/-! ## The effect on the globals -/

/-- The value an event assigns to the field `f`, if it does. -/
def ParseEvent.assigned (f : Field) : ParseEvent → Option ℤ
  | .assign f' value => if f' = f then some value else none
  | .unknownKey _ => none

/-- The last value that a sequence of events assigns to the field `f`. -/
def lastAssigned (f : Field) (es : List ParseEvent) : Option ℤ :=
  (es.filterMap (ParseEvent.assigned f)).getLast?

theorem lastAssigned_append (f : Field) (es es' : List ParseEvent) :
    lastAssigned f (es ++ es') = (lastAssigned f es').or (lastAssigned f es) := by
  rw [lastAssigned, List.filterMap_append, List.getLast?_append]
  rfl

theorem Globals.get_handle (g : Globals) (e : ParseEvent) (f : Field) :
    (g.handle e).get f = (e.assigned f).getD (g.get f) := by
  cases e with
  | assign f' v =>
      rw [Globals.handle, Globals.get_assign, ParseEvent.assigned]
      by_cases hf : f = f'
      · simp [hf]
      · simp [hf, Ne.symm hf]
  | unknownKey key => rfl

/-- A field ends with the last value assigned to it. -/
theorem Globals.get_foldl_handle (g : Globals) (es : List ParseEvent) (f : Field) :
    (es.foldl Globals.handle g).get f = (lastAssigned f es).getD (g.get f) := by
  induction es generalizing g with
  | nil => rfl
  | cons e es ih =>
      rw [List.foldl_cons, ih, Globals.get_handle]
      have hsplit : lastAssigned f (e :: es) = (lastAssigned f es).or (e.assigned f) := by
        rw [← List.singleton_append, lastAssigned_append]
        cases h : e.assigned f <;> simp [lastAssigned, h]
      rw [hsplit]
      cases lastAssigned f es <;> rfl

theorem get_parseCommand (g : Globals) (s : Text) (f : Field) :
    (parseCommand g s).1.get f = (lastAssigned f (parseEvents s)).getD (g.get f) :=
  g.get_foldl_handle _ f

/-- The globals that no command assigns. -/
structure Globals.SameRest (g g' : Globals) : Prop where
  servoDeg : g'.servoDeg = g.servoDeg
  lastFired : g'.lastFired = g.lastFired
  readyFire : g'.readyFire = g.readyFire
  firing : g'.firing = g.firing

theorem Globals.SameRest.assign (g : Globals) (f : Field) (value : ℤ) :
    g.SameRest (g.assign f value) := by
  cases f <;> exact ⟨rfl, rfl, rfl, rfl⟩

/-- A command leaves the rest of the globals alone. -/
theorem sameRest_parseCommand (g : Globals) (s : Text) : g.SameRest (parseCommand g s).1 := by
  have hfold : ∀ es : List ParseEvent, ∀ g₀, g.SameRest g₀ →
      g.SameRest (es.foldl Globals.handle g₀) := by
    intro es
    induction es with
    | nil => exact fun _ h => h
    | cons e es ih =>
        intro g₀ h
        apply ih _
        cases e with
        | assign f v =>
            have ha := Globals.SameRest.assign g₀ f v
            exact ⟨ha.servoDeg.trans h.servoDeg, ha.lastFired.trans h.lastFired,
              ha.readyFire.trans h.readyFire, ha.firing.trans h.firing⟩
        | unknownKey key => exact h
  exact hfold _ g ⟨rfl, rfl, rfl, rfl⟩

end TankFirmware
