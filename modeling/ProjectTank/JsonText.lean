/-
# JSON of strings, arrays and objects

A reader for the part of JSON that has strings without escapes, arrays and objects, with white space
wherever JSON allows it.  What it reads is JSON with this meaning; what it refuses may be JSON that
has numbers, literals or escapes.

* `Spells`: a text is read as a value, whatever follows it;
* `Spells.string`, `Spells.array`, `Spells.object`: the ways to write a value;
* `SpellsMembers.intercalate`, `SpellsElements.intercalate`: lists with separators;
* `parse_eq`: such a text as a whole document.

Nothing here refers to a particular program.
-/
import Mathlib.Data.List.Basic
import Mathlib.Data.List.TakeWhile
import Mathlib.Data.Char

namespace JsonText

/-- A value; the members of an object in their order. -/
inductive Json
  | string (text : List Char)
  | array (elements : List Json)
  | object (members : List (List Char × Json))

/-! ## The reader -/

def isWhite (c : Char) : Bool := c = ' ' || c = '\n' || c = '\r' || c = '\t'

def skip (s : List Char) : List Char := s.dropWhile isWhite

/-- A character that stands for itself in a string. -/
def isPlain (c : Char) : Bool := c ≠ '"' && c ≠ '\\' && 32 ≤ c.toNat

/-- The rest of a string behind its opening quote. -/
def parseString (s : List Char) : Option (List Char × List Char) :=
  match s.dropWhile isPlain with
  | c :: rest => if c = '"' then some (s.takeWhile isPlain, rest) else none
  | [] => none

/-- What is behind a character that has to come next. -/
def expect (wanted : Char) (s : List Char) : Option (List Char) :=
  match skip s with
  | c :: rest => if c = wanted then some rest else none
  | [] => none

mutual

/-- A value, with the white space in front of it. -/
def parseValue : ℕ → List Char → Option (Json × List Char)
  | 0, _ => none
  | fuel + 1, s =>
      match skip s with
      | c :: s =>
          if c = '"' then (parseString s).map fun p => (.string p.1, p.2)
          else if c = '[' then
            match parseElements fuel s with
            | some p => some (.array p.1, p.2)
            | none => (expect ']' s).map fun rest => (.array [], rest)
          else if c = '{' then
            match parseMembers fuel s with
            | some p => some (.object p.1, p.2)
            | none => (expect '}' s).map fun rest => (.object [], rest)
          else none
      | [] => none

/-- Elements up to and with the closing bracket. -/
def parseElements : ℕ → List Char → Option (List Json × List Char)
  | 0, _ => none
  | fuel + 1, s =>
      (parseValue fuel s).bind fun p =>
        match skip p.2 with
        | c :: rest =>
            if c = ']' then some ([p.1], rest)
            else if c = ',' then (parseElements fuel rest).map fun q => (p.1 :: q.1, q.2)
            else none
        | [] => none

/-- Members up to and with the closing brace. -/
def parseMembers : ℕ → List Char → Option (List (List Char × Json) × List Char)
  | 0, _ => none
  | fuel + 1, s =>
      (expect '"' s).bind fun s =>
        (parseString s).bind fun name =>
          (expect ':' name.2).bind fun s =>
            (parseValue fuel s).bind fun p =>
              match skip p.2 with
              | c :: rest =>
                  if c = '}' then some ([(name.1, p.1)], rest)
                  else if c = ',' then
                    (parseMembers fuel rest).map fun q => ((name.1, p.1) :: q.1, q.2)
                  else none
              | [] => none

end

/-- A whole document. -/
def parse (s : List Char) : Option Json :=
  match parseValue s.length s with
  | some (v, rest) => if skip rest = [] then some v else none
  | none => none

/-! ## White space -/

/-- A text of white space. -/
def White (ws : List Char) : Prop := ∀ c ∈ ws, isWhite c = true

theorem skip_append {ws : List Char} (hws : White ws) (s : List Char) : skip (ws ++ s) = skip s :=
  List.dropWhile_append_of_pos hws

theorem skip_cons {c : Char} (hc : isWhite c = false) (s : List Char) : skip (c :: s) = c :: s :=
  List.dropWhile_cons_of_neg (by rw [hc]; decide)

theorem skip_white {ws : List Char} (hws : White ws) {c : Char} (hc : isWhite c = false)
    (s : List Char) : skip (ws ++ c :: s) = c :: s := by
  rw [skip_append hws, skip_cons hc]

/-! ## What is read -/

/-- A text of characters that stand for themselves. -/
def Plain (s : List Char) : Prop := ∀ c ∈ s, isPlain c = true

theorem parseString_eq {s : List Char} (hs : Plain s) (t : List Char) :
    parseString (s ++ '"' :: t) = some (s, t) := by
  have hquote : isPlain '"' = false := by decide
  have hdrop : (s ++ '"' :: t).dropWhile isPlain = '"' :: t := by
    rw [List.dropWhile_append_of_pos hs, List.dropWhile_cons_of_neg (by rw [hquote]; decide)]
  have htake : (s ++ '"' :: t).takeWhile isPlain = s := by
    rw [List.takeWhile_append_of_pos hs, List.takeWhile_cons_of_neg (by rw [hquote]; decide),
      List.append_nil]
  rw [parseString, hdrop, htake]
  exact if_pos rfl

/-- The text is read as this value, whatever follows it. -/
def Spells (v : Json) (s : List Char) : Prop :=
  ∀ fuel t, s.length ≤ fuel → parseValue fuel (s ++ t) = some (v, t)

/-- The text is read as these elements with the closing bracket. -/
def SpellsElements (vs : List Json) (s : List Char) : Prop :=
  ∀ fuel t, s.length ≤ fuel → parseElements fuel (s ++ t) = some (vs, t)

/-- The text is read as these members with the closing brace. -/
def SpellsMembers (ms : List (List Char × Json)) (s : List Char) : Prop :=
  ∀ fuel t, s.length ≤ fuel → parseMembers fuel (s ++ t) = some (ms, t)

theorem Spells.white {v : Json} {s ws : List Char} (hws : White ws) (h : Spells v s) :
    Spells v (ws ++ s) := by
  intro fuel t hfuel
  rw [List.length_append] at hfuel
  have hsame := h fuel t (by omega)
  cases fuel with
  | zero => cases hsame
  | succ fuel =>
      rw [parseValue] at hsame ⊢
      rw [List.append_assoc, skip_append hws]
      exact hsame

theorem expect_white {ws : List Char} (hws : White ws) {c : Char} (hc : isWhite c = false)
    (s : List Char) : expect c (ws ++ c :: s) = some s := by
  rw [expect, skip_white hws hc]
  exact if_pos rfl

theorem expect_cons {c : Char} (hc : isWhite c = false) (s : List Char) :
    expect c (c :: s) = some s := by
  rw [expect, skip_cons hc]
  exact if_pos rfl

/-- A string. -/
theorem Spells.string {s : List Char} (hs : Plain s) : Spells (.string s) ('"' :: (s ++ ['"'])) := by
  intro fuel t hfuel
  cases fuel with
  | zero => cases hfuel
  | succ fuel =>
      have hskip : skip ('"' :: (s ++ ['"']) ++ t) = '"' :: (s ++ '"' :: t) := by
        rw [List.cons_append, List.append_assoc]
        exact skip_cons (by decide) _
      rw [parseValue, hskip]
      dsimp only
      rw [if_pos rfl, parseString_eq hs]
      rfl

/-! ## Elements and members -/

/-- The last element. -/
theorem SpellsElements.last {v : Json} {s ws : List Char} (hv : Spells v s) (hws : White ws) :
    SpellsElements [v] (s ++ (ws ++ [']'])) := by
  intro fuel t hfuel
  rw [List.length_append, List.length_append, List.length_singleton] at hfuel
  cases fuel with
  | zero => omega
  | succ fuel =>
      have hskip : skip (ws ++ ']' :: t) = ']' :: t := skip_white hws (by decide) t
      rw [parseElements, List.append_assoc, List.append_assoc, hv fuel _ (by omega),
        Option.bind_some]
      dsimp only [List.singleton_append]
      rw [hskip]
      exact if_pos rfl

/-- One more element in front. -/
theorem SpellsElements.cons {v : Json} {vs : List Json} {s ws s' : List Char} (hv : Spells v s)
    (hws : White ws) (hvs : SpellsElements vs s') :
    SpellsElements (v :: vs) (s ++ (ws ++ ',' :: s')) := by
  intro fuel t hfuel
  rw [List.length_append, List.length_append, List.length_cons] at hfuel
  cases fuel with
  | zero => omega
  | succ fuel =>
      have hskip : skip (ws ++ ',' :: (s' ++ t)) = ',' :: (s' ++ t) :=
        skip_white hws (by decide) _
      rw [parseElements, List.append_assoc, List.append_assoc, hv fuel _ (by omega),
        Option.bind_some]
      dsimp only [List.cons_append]
      rw [hskip]
      dsimp only
      rw [if_neg (by decide), if_pos rfl, hvs fuel t (by omega)]
      rfl

/-- A member without what follows it. -/
def memberText (name ws s : List Char) : List Char := '"' :: (name ++ '"' :: ':' :: (ws ++ s))

/-- The text is read as this member. -/
def SpellsMember (m : List Char × Json) (p : List Char) : Prop :=
  ∃ ws s, Plain m.1 ∧ White ws ∧ Spells m.2 s ∧ p = memberText m.1 ws s

/-- What follows a member: the closing brace, or a comma and more members. -/
inductive SpellsRest : List (List Char × Json) → List Char → Prop
  | close {ws : List Char} (hws : White ws) : SpellsRest [] (ws ++ ['}'])
  | comma {ws s : List Char} {ms : List (List Char × Json)} (hws : White ws)
      (hms : SpellsMembers ms s) : SpellsRest ms (ws ++ ',' :: s)

/-- A member is read up to what follows it. -/
theorem parseMembers_memberText {name : List Char} {v : Json} {s ws : List Char}
    (hname : Plain name) (hws : White ws) (hv : Spells v s) {fuel : ℕ}
    (hfuel : (memberText name ws s).length ≤ fuel) (rest : List Char) :
    parseMembers (fuel + 1) (memberText name ws s ++ rest) =
      match skip rest with
      | c :: rest =>
          if c = '}' then some ([(name, v)], rest)
          else if c = ',' then (parseMembers fuel rest).map fun q => ((name, v) :: q.1, q.2)
          else none
      | [] => none := by
  have hlength : (ws ++ s).length ≤ fuel := by
    simp only [memberText, List.length_cons, List.length_append] at hfuel ⊢
    omega
  have hstart : expect '"' (memberText name ws s ++ rest) =
      some (name ++ '"' :: (':' :: (ws ++ s ++ rest))) := by
    simp only [memberText, List.cons_append, List.append_assoc]
    exact expect_cons (by decide) _
  have hcolon : expect ':' (':' :: (ws ++ s ++ rest)) = some (ws ++ s ++ rest) :=
    expect_cons (by decide) _
  rw [parseMembers, hstart, Option.bind_some, parseString_eq hname, Option.bind_some]
  dsimp only
  rw [hcolon, Option.bind_some, hv.white hws fuel rest hlength, Option.bind_some]

/-- A member and what follows it. -/
theorem SpellsMember.members {m : List Char × Json} {ms : List (List Char × Json)}
    {p s : List Char} (hm : SpellsMember m p) (hs : SpellsRest ms s) :
    SpellsMembers (m :: ms) (p ++ s) := by
  obtain ⟨ws, value, hname, hws, hv, rfl⟩ := hm
  intro fuel t hfuel
  rw [List.length_append] at hfuel
  cases hs with
  | @close ws' hws' =>
      rw [List.length_append, List.length_singleton] at hfuel
      cases fuel with
      | zero => omega
      | succ fuel =>
          have hclose : skip (ws' ++ ['}'] ++ t) = '}' :: t := by
            rw [List.append_assoc]
            exact skip_white hws' (by decide) t
          rw [List.append_assoc, parseMembers_memberText hname hws hv (by omega), hclose]
          exact if_pos rfl
  | @comma ws' s' _ hws' hms =>
      rw [List.length_append, List.length_cons] at hfuel
      cases fuel with
      | zero => omega
      | succ fuel =>
          have hcomma : skip (ws' ++ ',' :: s' ++ t) = ',' :: (s' ++ t) := by
            rw [List.append_assoc]
            exact skip_white hws' (by decide) _
          rw [List.append_assoc, parseMembers_memberText hname hws hv (by omega), hcomma]
          dsimp only
          rw [if_neg (by decide), if_pos rfl, hms fuel t (by omega)]
          rfl

theorem SpellsElements.white {vs : List Json} {s ws : List Char} (hws : White ws)
    (h : SpellsElements vs s) : SpellsElements vs (ws ++ s) := by
  intro fuel t hfuel
  rw [List.length_append] at hfuel
  have hsame := h fuel t (by omega)
  cases fuel with
  | zero => cases hsame
  | succ fuel =>
      cases fuel with
      | zero => cases hsame
      | succ fuel =>
          rw [parseElements, parseValue] at hsame ⊢
          rw [List.append_assoc, skip_append hws]
          exact hsame

/-- White space in front of the first member. -/
theorem SpellsMembers.white {ms : List (List Char × Json)} {s ws : List Char} (hws : White ws)
    (h : SpellsMembers ms s) : SpellsMembers ms (ws ++ s) := by
  intro fuel t hfuel
  rw [List.length_append] at hfuel
  have hsame := h fuel t (by omega)
  cases fuel with
  | zero => cases hsame
  | succ fuel =>
      rw [parseMembers, expect] at hsame ⊢
      rw [List.append_assoc, skip_append hws]
      exact hsame

/-- Members with a comma and white space between them. -/
theorem SpellsMembers.intercalate {α : Type*} {member : α → List Char × Json}
    {text : α → List Char} {ws s : List Char} {ms : List (List Char × Json)} {as : List α}
    (hne : as ≠ []) (h : ∀ a ∈ as, SpellsMember (member a) (text a)) (hws : White ws)
    (hs : SpellsRest ms s) :
    SpellsMembers (as.map member ++ ms) ((',' :: ws).intercalate (as.map text) ++ s) := by
  induction as with
  | nil => exact absurd rfl hne
  | cons a as ih =>
      obtain ⟨ha, has⟩ := List.forall_mem_cons.mp h
      cases as with
      | nil =>
          rw [List.map_singleton, List.map_singleton, List.intercalate_singleton]
          exact ha.members hs
      | cons b bs =>
          have hrest := ih (List.cons_ne_nil _ _) has
          have hcomma : SpellsRest ((b :: bs).map member ++ ms)
              ([] ++ ',' :: (ws ++ ((',' :: ws).intercalate ((b :: bs).map text) ++ s))) :=
            .comma (fun _ hc => absurd hc List.not_mem_nil) (hrest.white hws)
          have hsplit : (',' :: ws).intercalate ((a :: b :: bs).map text) ++ s =
              text a ++ ([] ++ ',' :: (ws ++ ((',' :: ws).intercalate ((b :: bs).map text) ++ s))) := by
            rw [List.map_cons, List.map_cons, List.intercalate_cons_cons, ← List.map_cons]
            simp only [List.append_assoc, List.cons_append, List.nil_append]
          rw [hsplit]
          exact ha.members hcomma

/-- Elements with a comma and white space between them. -/
theorem SpellsElements.intercalate {α : Type*} {value : α → Json} {text : α → List Char}
    {ws ws' : List Char} {as : List α} (hne : as ≠ []) (h : ∀ a ∈ as, Spells (value a) (text a))
    (hws : White ws) (hws' : White ws') :
    SpellsElements (as.map value) ((',' :: ws).intercalate (as.map text) ++ (ws' ++ [']'])) := by
  have hnone : White [] := fun _ hc => absurd hc List.not_mem_nil
  induction as with
  | nil => exact absurd rfl hne
  | cons a as ih =>
      obtain ⟨ha, has⟩ := List.forall_mem_cons.mp h
      cases as with
      | nil =>
          rw [List.map_singleton, List.map_singleton, List.intercalate_singleton]
          exact .last ha hws'
      | cons b bs =>
          have hrest := ih (List.cons_ne_nil _ _) has
          have hsplit : (',' :: ws).intercalate ((a :: b :: bs).map text) ++ (ws' ++ [']']) =
              text a ++ ([] ++ ',' :: (ws ++
                ((',' :: ws).intercalate ((b :: bs).map text) ++ (ws' ++ [']'])))) := by
            rw [List.map_cons, List.map_cons, List.intercalate_cons_cons, ← List.map_cons]
            simp only [List.append_assoc, List.cons_append, List.nil_append]
          rw [hsplit]
          exact .cons ha hnone (hrest.white hws)

/-! ## Arrays and objects -/

theorem Spells.array {vs : List Json} {s : List Char} (h : SpellsElements vs s) :
    Spells (.array vs) ('[' :: s) := by
  intro fuel t hfuel
  rw [List.length_cons] at hfuel
  cases fuel with
  | zero => omega
  | succ fuel =>
      have hskip : skip ('[' :: s ++ t) = '[' :: (s ++ t) := skip_cons (by decide) _
      rw [parseValue, hskip]
      dsimp only
      rw [if_neg (by decide), if_pos rfl, h fuel t (by omega)]

/-- No elements. -/
theorem Spells.array_nil {ws : List Char} (hws : White ws) :
    Spells (.array []) ('[' :: (ws ++ [']'])) := by
  intro fuel t hfuel
  cases fuel with
  | zero => cases hfuel
  | succ fuel =>
      have hskip : skip ('[' :: (ws ++ [']']) ++ t) = '[' :: (ws ++ ']' :: t) := by
        rw [List.cons_append, List.append_assoc]
        exact skip_cons (by decide) _
      have hnone : parseElements fuel (ws ++ ']' :: t) = none := by
        cases fuel with
        | zero => rfl
        | succ fuel =>
            cases fuel with
            | zero => rfl
            | succ fuel =>
                rw [parseElements, parseValue, skip_white hws (by decide)]
                rfl
      rw [parseValue, hskip]
      dsimp only
      rw [if_neg (by decide), if_pos rfl, hnone]
      dsimp only
      rw [expect_white hws (by decide)]
      rfl

theorem Spells.object {ms : List (List Char × Json)} {s : List Char} (h : SpellsMembers ms s) :
    Spells (.object ms) ('{' :: s) := by
  intro fuel t hfuel
  rw [List.length_cons] at hfuel
  cases fuel with
  | zero => omega
  | succ fuel =>
      have hskip : skip ('{' :: s ++ t) = '{' :: (s ++ t) := skip_cons (by decide) _
      rw [parseValue, hskip]
      dsimp only
      rw [if_neg (by decide), if_neg (by decide), if_pos rfl, h fuel t (by omega)]

/-- **A document is read as its value.** -/
theorem parse_eq {v : Json} {s ws : List Char} (h : Spells v s) (hws : White ws) :
    parse (s ++ ws) = some v := by
  have hvalue := h (s ++ ws).length ws (by rw [List.length_append]; omega)
  have hend : skip ws = [] := List.dropWhile_eq_nil_iff.mpr hws
  rw [parse, hvalue]
  dsimp only
  rw [if_pos hend]

end JsonText
