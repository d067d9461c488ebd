/-
# Commands for the plugins (`command` in `httpd.c`)

`/?action=command&id=...&value=...` sets a control of a plugin.  The numbers are looked for by name in
the parameter of the request, so their order does not matter; the identifier is cut off before a sign.

* `field_query`: a number is read back from its place among the others;
* `command_query`: the command that is carried out for a request.
-/
import ProjectTank.ClientThread
import Mathlib.Data.List.TakeWhile

open ProgramText DecimalText ClientThread

namespace ControlCommand

/-! ## `command` -/

/-- What `cmd` of a plugin is called with: the destination, the plugin, the control, its group, its
value, and the text behind `plugin=`. -/
structure Call where
  dest : ℤ
  pluginNo : ℤ
  commandId : ℤ
  group : ℤ
  ivalue : ℤ
  value : Option Text
  deriving DecidableEq

/-- An error, or the call that is made, if any, and the command that the answer repeats. -/
inductive Outcome
  | error (which : ℕ) (message : Text)
  | done (call : Option Call) (command : Text)
  deriving DecidableEq

def isWordChar (c : Char) : Bool := c.isAlpha || c.isDigit || c = '_'

def isNumberChar (c : Char) : Bool := c = '-' || c.isDigit

/-- `MAX(MIN(strtol(s, NULL, 10), INT_MAX), INT_MIN)`. -/
def toInt (longBits : ℕ) (s : Text) : ℤ :=
  max (min (strtol longBits s) (2 ^ 31 - 1)) (-2 ^ 31)

/-- The text behind a name, if the name occurs. -/
def behind (parameter name : Text) : Option Text :=
  (strstr parameter name).map fun rest => rest.drop name.length

/-- A number that is looked for by its name. -/
def field (longBits : ℕ) (parameter name : Text) (default : ℤ) : ℤ :=
  match behind parameter name with
  | none => default
  | some rest => toInt longBits (rest.takeWhile isNumberChar)

/-- The call that the parameter asks for, with the text behind `id=`. -/
def readCall (longBits : ℕ) (parameter command : Text) : Call where
  dest := field longBits parameter "dest=".toList 0
  pluginNo := field longBits parameter "plugin=".toList 0
  commandId := toInt longBits (command.takeWhile isNumberChar)
  group := field longBits parameter "group=".toList 0
  ivalue := field longBits parameter "value=".toList 0
  value := behind parameter "plugin=".toList

/-- `command`, with a parameter that is a string. -/
def command (s : Server) (parameter : Text) : Outcome :=
  if 255 ≤ parameter.length ∨ parameter.length = 0 then
    .error 400 "Parameter-string of command does not look valid.".toList
  else
    match behind parameter "id=".toList with
    | none =>
        .error 400 ("no GET variable \"id=...\" found, ".toList ++
          "it is required to specify which command id to execute".toList)
    | some rest =>
        let command := rest.takeWhile isWordChar
        let call := readCall s.longBits parameter command
        -- the plugin is compared with the number of plugins, and not with zero
        if call.dest = 0 ∧ call.pluginNo < s.incnt then .done (some call) command
        else if call.dest = 1 ∧ call.pluginNo < s.outcnt then .done (some call) command
        else .done none command

/-- What is done for a request line: the parameter is unescaped, and a string ends at a NUL. -/
def serveCommand (s : Server) (buffer : Text) : Option Outcome :=
  (unescape (parameter .command buffer)).map fun text =>
    command s (text.takeWhile (· ≠ Char.ofNat 0))

/-! ## Searching by name -/

/-- The names of the numbers. -/
inductive Key
  | id
  | value
  | group
  | dest
  | plugin
  deriving DecidableEq

/-- What is looked for. -/
def Key.name : Key → Text
  | .id => "id=".toList
  | .value => "value=".toList
  | .group => "group=".toList
  | .dest => "dest=".toList
  | .plugin => "plugin=".toList

/-- A number with its name. -/
def pair (kv : Key × ℤ) : Text := '&' :: (kv.1.name ++ intText kv.2)

/-- The numbers of a request, in this order. -/
def query (kvs : List (Key × ℤ)) : Text := kvs.flatMap pair

theorem strstr_cons {c : Char} {s needle : Text} (h : needle.isPrefixOf (c :: s) = false) :
    strstr (c :: s) needle = strstr s needle := by
  conv => lhs; unfold strstr
  rw [h, if_neg Bool.false_ne_true]

/-- The texts differ at a place that both have. -/
def differs : Text → Text → Bool
  | n :: needle, c :: s => n ≠ c || differs needle s
  | _, _ => false

theorem isPrefixOf_of_differs {needle s : Text} (h : differs needle s = true) (t : Text) :
    needle.isPrefixOf (s ++ t) = false := by
  induction needle generalizing s with
  | nil => simp [differs] at h
  | cons n needle ih =>
      cases s with
      | nil => simp [differs] at h
      | cons c s =>
          rw [differs, Bool.or_eq_true] at h
          rw [List.cons_append, List.isPrefixOf]
          rcases h with hne | hrest
          · rw [beq_false_of_ne (of_decide_eq_true hne), Bool.false_and]
          · rw [ih hrest, Bool.and_false]

/-- At no place of the text can the other begin, whatever follows. -/
def stepsOver (needle : Text) : Text → Bool
  | [] => true
  | c :: s => differs needle (c :: s) && stepsOver needle s

/-- **The search steps over such a text.** -/
theorem strstr_append {needle s : Text} (h : stepsOver needle s = true) (t : Text) :
    strstr (s ++ t) needle = strstr t needle := by
  induction s with
  | nil => rfl
  | cons c s ih =>
      rw [stepsOver, Bool.and_eq_true] at h
      rw [List.cons_append, strstr_cons, ih h.2]
      exact isPrefixOf_of_differs h.1 t

/-- A text without the first letter is stepped over. -/
theorem stepsOver_of_not_mem {n : Char} {needle s : Text} (h : n ∉ s) :
    stepsOver (n :: needle) s = true := by
  induction s with
  | nil => rfl
  | cons c s ih =>
      rw [List.mem_cons, not_or] at h
      rw [stepsOver, differs, ih h.2, decide_eq_true h.1]
      rfl

theorem strstr_self (needle t : Text) : strstr (needle ++ t) needle = some (needle ++ t) := by
  unfold strstr
  rw [if_pos (List.isPrefixOf_iff_prefix.mpr (List.prefix_append needle t))]

/-- Another name is stepped over. -/
theorem stepsOver_name {k k' : Key} (h : k' ≠ k) : stepsOver k.name ('&' :: k'.name) = true := by
  revert h
  cases k <;> cases k' <;> decide

/-- The text of a number is stepped over. -/
theorem stepsOver_intText (k : Key) (v : ℤ) : stepsOver k.name (intText v) = true := by
  cases k with
  | id => exact stepsOver_of_not_mem (not_mem_intText (by decide) (by decide) v)
  | value => exact stepsOver_of_not_mem (not_mem_intText (by decide) (by decide) v)
  | group => exact stepsOver_of_not_mem (not_mem_intText (by decide) (by decide) v)
  | dest => exact stepsOver_of_not_mem (not_mem_intText (by decide) (by decide) v)
  | plugin => exact stepsOver_of_not_mem (not_mem_intText (by decide) (by decide) v)

/-- Another number is stepped over. -/
theorem strstr_pair {k : Key} {kv : Key × ℤ} (h : kv.1 ≠ k) (t : Text) :
    strstr (pair kv ++ t) k.name = strstr t k.name := by
  have hsplit : pair kv ++ t = '&' :: kv.1.name ++ (intText kv.2 ++ t) := by
    simp only [pair, List.cons_append, List.append_assoc]
  rw [hsplit, strstr_append (stepsOver_name h), strstr_append (stepsOver_intText k kv.2)]

/-- The number itself is found. -/
theorem strstr_pair_self (k : Key) (v : ℤ) (t : Text) :
    strstr (pair (k, v) ++ t) k.name = some (k.name ++ (intText v ++ t)) := by
  have hamp : stepsOver k.name ['&'] = true := by cases k <;> decide
  have hsplit : pair (k, v) ++ t = ['&'] ++ (k.name ++ (intText v ++ t)) := by
    simp only [pair, List.cons_append, List.append_assoc, List.nil_append]
  rw [hsplit, strstr_append hamp, strstr_self]

/-- **Where a name is found**: at its number, wherever that stands. -/
theorem behind_query {kvs : List (Key × ℤ)} (hnodup : (kvs.map Prod.fst).Nodup) (k : Key) (t : Text)
    (ht : strstr t k.name = none) :
    (k ∉ kvs.map Prod.fst → behind (query kvs ++ t) k.name = none) ∧
    ∀ v, (k, v) ∈ kvs → ∃ rest, behind (query kvs ++ t) k.name = some (intText v ++ (rest ++ t)) ∧
      (rest = [] ∨ ∃ s, rest = '&' :: s) := by
  induction kvs with
  | nil =>
      refine ⟨fun _ => ?_, fun v hv => by cases hv⟩
      show Option.map _ (strstr t k.name) = none
      rw [ht]
      rfl
  | cons kv kvs ih =>
      rw [List.map_cons, List.nodup_cons] at hnodup
      obtain ⟨hnone, hsome⟩ := ih hnodup.2
      have hquery : query (kv :: kvs) ++ t = pair kv ++ (query kvs ++ t) := by
        rw [query, List.flatMap_cons, List.append_assoc]
        rfl
      have hskip : kv.1 ≠ k → behind (query (kv :: kvs) ++ t) k.name =
          behind (query kvs ++ t) k.name := by
        intro hne
        rw [hquery, behind, strstr_pair hne]
        rfl
      constructor
      · intro hk
        rw [List.map_cons, List.mem_cons, not_or] at hk
        rw [hskip (Ne.symm hk.1), hnone hk.2]
      · intro v hv
        rcases List.mem_cons.mp hv with rfl | hv
        · refine ⟨query kvs, ?_, ?_⟩
          · rw [hquery, behind, strstr_pair_self, Option.map_some, List.drop_left]
          · cases kvs with
            | nil => exact Or.inl rfl
            | cons kv' kvs' => exact Or.inr ⟨_, rfl⟩
        · have hne : kv.1 ≠ k := by
            intro heq
            exact hnodup.1 (heq ▸ List.mem_map_of_mem hv)
          rw [hskip hne]
          exact hsome v hv

/-! ## Reading the numbers -/

theorem takeWhile_intText {v : ℤ} {rest : Text} (h : rest = [] ∨ ∃ s, rest = '&' :: s) :
    (intText v ++ rest).takeWhile isNumberChar = intText v := by
  have hall : ∀ c ∈ intText v, isNumberChar c = true := by
    intro c hc
    rcases mem_intText hc with hdigit | rfl
    · rw [isNumberChar, hdigit, Bool.or_true]
    · rfl
  rw [List.takeWhile_append_of_pos hall]
  rcases h with rfl | ⟨s, rfl⟩
  · rw [List.takeWhile_nil, List.append_nil]
  · rw [List.takeWhile_cons_of_neg (by decide), List.append_nil]

theorem takeWhile_natText (n : ℕ) : (natText n).takeWhile Char.isDigit = natText n :=
  List.takeWhile_eq_self_iff.mpr fun _ hc => isDigit_of_mem_natText hc

/-- `strtol` reads a number back, as far as it fits a `long`. -/
theorem strtol_intText (longBits : ℕ) (v : ℤ) : strtol longBits (intText v) =
    max (-2 ^ (longBits - 1)) (min (2 ^ (longBits - 1) - 1) v) := by
  have hdigits : ∀ n, (readNat ((natText n).takeWhile Char.isDigit) : ℤ) = n := by
    intro n
    rw [takeWhile_natText, readNat_natText]
  cases v with
  | ofNat n =>
      obtain ⟨c, s, hc⟩ := List.exists_cons_of_ne_nil (natText_ne_nil n)
      have hdigit : c.isDigit = true := isDigit_of_mem_natText (hc ▸ List.mem_cons_self)
      have hspace : (natText n).dropWhile isSpace = natText n := by
        rw [hc]
        exact List.dropWhile_cons_of_neg (by simp [isSpace_of_isDigit hdigit])
      unfold strtol intText
      dsimp only
      rw [hspace]
      congr 2
      -- a digit is no sign
      split
      · next ds heq =>
        rw [heq] at hc
        obtain rfl := (List.cons.inj hc).1
        cases hdigit
      · next ds heq =>
        rw [heq] at hc
        obtain rfl := (List.cons.inj hc).1
        cases hdigit
      · exact hdigits n
  | negSucc n =>
      have hminus : intText (.negSucc n) = '-' :: natText (n + 1) := rfl
      have hspace : ('-' :: natText (n + 1)).dropWhile isSpace = '-' :: natText (n + 1) :=
        List.dropWhile_cons_of_neg (by decide)
      unfold strtol
      dsimp only
      rw [hminus, hspace]
      show max _ (min _ (-(readNat ((natText (n + 1)).takeWhile Char.isDigit) : ℤ))) = _
      rw [hdigits]
      rfl

theorem toInt_intText {longBits : ℕ} (hlong : 32 ≤ longBits) {v : ℤ} (hv : FitsInt32 v) :
    toInt longBits (intText v) = v := by
  obtain ⟨hlow, hhigh⟩ := hv
  have hpow : (2 : ℤ) ^ 31 ≤ 2 ^ (longBits - 1) := by
    apply pow_le_pow_right₀ (by norm_num)
    omega
  rw [toInt, strtol_intText]
  generalize (2 : ℤ) ^ (longBits - 1) = limit at hpow
  omega

/-- The number with a name, or what it is otherwise. -/
def valueOf (kvs : List (Key × ℤ)) (k : Key) (default : ℤ) : ℤ :=
  ((kvs.find? fun kv => kv.1 = k).map Prod.snd).getD default

theorem valueOf_cases (kvs : List (Key × ℤ)) (k : Key) (default : ℤ) :
    (k ∉ kvs.map Prod.fst ∧ valueOf kvs k default = default) ∨
    ∃ v, (k, v) ∈ kvs ∧ valueOf kvs k default = v := by
  unfold valueOf
  cases hfind : kvs.find? fun kv => kv.1 = k with
  | none =>
      refine Or.inl ⟨fun hmem => ?_, rfl⟩
      obtain ⟨kv, hkv, hk⟩ := List.mem_map.mp hmem
      exact List.find?_eq_none.mp hfind kv hkv (decide_eq_true hk)
  | some kv =>
      have hk : kv.1 = k := by simpa using List.find?_some hfind
      refine Or.inr ⟨kv.2, ?_, rfl⟩
      rw [← hk]
      exact List.mem_of_find?_eq_some hfind

variable {kvs : List (Key × ℤ)}

/-- **A number is read back**, wherever it stands among the others. -/
theorem field_query (hnodup : (kvs.map Prod.fst).Nodup) {longBits : ℕ} (hlong : 32 ≤ longBits)
    (hfits : ∀ kv ∈ kvs, FitsInt32 kv.2) (k : Key) (default : ℤ) :
    field longBits (query kvs) k.name default = valueOf kvs k default := by
  have hnil : strstr [] k.name = none := by cases k <;> rfl
  obtain ⟨hnone, hsome⟩ := behind_query hnodup k [] hnil
  simp only [List.append_nil] at hnone hsome
  unfold field
  rcases valueOf_cases kvs k default with ⟨hk, hvalue⟩ | ⟨v, hv, hvalue⟩
  · rw [hnone hk, hvalue]
  · obtain ⟨rest, hbehind, hrest⟩ := hsome v hv
    rw [hbehind, hvalue]
    show toInt longBits ((intText v ++ rest).takeWhile isNumberChar) = v
    rw [takeWhile_intText hrest, toInt_intText hlong (hfits _ hv)]

/-- The identifier is read back if it is not negative; a sign makes it zero. -/
theorem commandId_query (hnodup : (kvs.map Prod.fst).Nodup) {longBits : ℕ} (hlong : 32 ≤ longBits)
    {v : ℤ} (hv : (Key.id, v) ∈ kvs) (hfits : FitsInt32 v) :
    ∃ rest, behind (query kvs) "id=".toList = some rest ∧
      rest.takeWhile isWordChar = (if 0 ≤ v then intText v else []) ∧
      toInt longBits ((rest.takeWhile isWordChar).takeWhile isNumberChar) = max v 0 := by
  obtain ⟨rest, hbehind, hrest⟩ := (behind_query hnodup .id [] rfl).2 v hv
  simp only [List.append_nil] at hbehind
  refine ⟨intText v ++ rest, hbehind, ?_⟩
  cases v with
  | ofNat n =>
      have hword : ∀ c ∈ natText n, isWordChar c = true := by
        intro c hc
        rw [isWordChar, isDigit_of_mem_natText hc, Bool.or_true, Bool.true_or]
      have hcommand : (intText (.ofNat n) ++ rest).takeWhile isWordChar = intText (.ofNat n) := by
        show (natText n ++ rest).takeWhile isWordChar = natText n
        rw [List.takeWhile_append_of_pos hword]
        rcases hrest with rfl | ⟨s, rfl⟩
        · rw [List.takeWhile_nil, List.append_nil]
        · rw [List.takeWhile_cons_of_neg (by decide), List.append_nil]
      have hnumber := takeWhile_intText (v := .ofNat n) (Or.inl rfl)
      rw [List.append_nil] at hnumber
      rw [hcommand, hnumber, toInt_intText hlong hfits]
      have hpos : (0 : ℤ) ≤ .ofNat n := Int.natCast_nonneg n
      exact ⟨(if_pos hpos).symm, (max_eq_left hpos).symm⟩
  | negSucc n =>
      have hcommand : (intText (.negSucc n) ++ rest).takeWhile isWordChar = [] :=
        List.takeWhile_cons_of_neg (by decide)
      have hzero : toInt longBits [] = 0 := by
        have hone : (1 : ℤ) ≤ 2 ^ (longBits - 1) := one_le_pow₀ (by norm_num)
        have hnothing : strtol longBits [] =
            max (-2 ^ (longBits - 1)) (min (2 ^ (longBits - 1) - 1) 0) := rfl
        rw [toInt, hnothing]
        generalize (2 : ℤ) ^ (longBits - 1) = limit at hone
        omega
      have hneg := Int.negSucc_lt_zero n
      rw [hcommand, List.takeWhile_nil, hzero]
      exact ⟨(if_neg (not_le.mpr hneg)).symm, (max_eq_right hneg.le).symm⟩

/-! ## A request with a command -/

/-- The request line with these numbers. -/
def requestText (kvs : List (Key × ℤ)) : Text :=
  "GET /?action=command".toList ++ (query kvs ++ " HTTP/1.0\r\n".toList)

/-- What the numbers and their names consist of. -/
theorem forall_mem_query {P : Char → Prop} (hamp : P '&') (hname : ∀ k : Key, ∀ c ∈ k.name, P c)
    (hdigit : ∀ c : Char, c.isDigit = true → P c) (hminus : P '-') : ∀ c ∈ query kvs, P c := by
  intro c hc
  obtain ⟨kv, -, hc⟩ := List.mem_flatMap.mp hc
  rcases List.mem_cons.mp hc with rfl | hc
  · exact hamp
  · rcases List.mem_append.mp hc with hc | hc
    · exact hname kv.1 c hc
    · rcases mem_intText hc with hd | rfl
      · exact hdigit c hd
      · exact hminus

theorem not_mem_query {n : Char} (hamp : '&' ≠ n) (hname : ∀ k : Key, n ∉ k.name)
    (hdigit : n.isDigit = false) (hminus : '-' ≠ n) : n ∉ query kvs := by
  have hne : ∀ c ∈ query kvs, c ≠ n :=
    forall_mem_query hamp (fun k c hc heq => hname k (heq ▸ hc))
      (fun c hc heq => by rw [heq, hdigit] at hc; cases hc) hminus
  exact fun hmem => hne n hmem rfl

/-- A request that begins otherwise is not in the line. -/
theorem not_contains {n : Char} {needle : Text} (hhead : needle.head? = some n) (hamp : '&' ≠ n)
    (hname : ∀ k : Key, n ∉ k.name) (hdigit : n.isDigit = false) (hminus : '-' ≠ n)
    (haction : stepsOver needle "GET /?action=command".toList = true)
    (hend : strstr " HTTP/1.0\r\n".toList needle = none) :
    contains (requestText kvs) needle = false := by
  have hquery : stepsOver needle (query kvs) = true := by
    cases needle with
    | nil => cases hhead
    | cons m needle =>
        obtain rfl := Option.some.inj hhead
        exact stepsOver_of_not_mem (not_mem_query hamp hname hdigit hminus)
  delta contains requestText
  rw [strstr_append haction, strstr_append hquery, hend]
  rfl

theorem not_mem_name_G (k : Key) : 'G' ∉ k.name := by cases k <;> decide

theorem not_mem_name_P (k : Key) : 'P' ∉ k.name := by cases k <;> decide

theorem not_contains_get {needle : Text} (hhead : needle.head? = some 'G')
    (haction : stepsOver needle "GET /?action=command".toList = true)
    (hend : strstr " HTTP/1.0\r\n".toList needle = none) :
    contains (requestText kvs) needle = false :=
  not_contains hhead (by decide) not_mem_name_G (by decide) (by decide) haction hend

theorem kind_requestText (kvs : List (Key × ℤ)) : kind (requestText kvs) = .command := by
  have hpost : contains (requestText kvs) "POST /stream".toList = false :=
    not_contains (n := 'P') (by decide +kernel) (by decide) not_mem_name_P (by decide) (by decide)
      (by decide +kernel) (by decide +kernel)
  have hcommand : contains (requestText kvs) "GET /?action=command".toList = true := by
    unfold contains
    delta requestText
    rw [strstr_self]
    rfl
  have hsnapshot : contains (requestText kvs) "GET /?action=snapshot".toList = false :=
    not_contains_get (by decide +kernel) (by decide +kernel) (by decide +kernel)
  have hstream : contains (requestText kvs) "GET /?action=stream".toList = false :=
    not_contains_get (by decide +kernel) (by decide +kernel) (by decide +kernel)
  have htake : contains (requestText kvs) "GET /?action=take".toList = false :=
    not_contains_get (by decide +kernel) (by decide +kernel) (by decide +kernel)
  have hinput : contains (requestText kvs) "GET /input".toList = false :=
    not_contains_get (by decide +kernel) (by decide +kernel) (by decide +kernel)
  have houtput : contains (requestText kvs) "GET /output".toList = false :=
    not_contains_get (by decide +kernel) (by decide +kernel) (by decide +kernel)
  have hprogram : contains (requestText kvs) "GET /program.json".toList = false :=
    not_contains_get (by decide +kernel) (by decide +kernel) (by decide +kernel)
  have hgpio : contains (requestText kvs) "GET /?action=gpio".toList = false :=
    not_contains_get (by decide +kernel) (by decide +kernel) (by decide +kernel)
  unfold kind
  simp only [hpost, hcommand, hsnapshot, hstream, htake, hinput, houtput, hprogram, hgpio,
    Bool.false_and, Bool.false_eq_true, if_false, if_true]

/-- A text without a percent sign is left as it is. -/
theorem unescape_of_not_mem {s : Text} (h : '%' ∉ s) : unescape s = some s := by
  induction s with
  | nil => rfl
  | cons c s ih =>
      rw [List.mem_cons, not_or] at h
      rw [unescape, ih h.2]
      · rfl
      · exact fun _ _ _ heq _ => h.1 heq.symm
      · exact fun heq => h.1 heq.symm

/-- The parameter of the request is its numbers, if they are not too long. -/
theorem parameter_requestText (hlength : (query kvs).length ≤ 100) :
    parameter .command (requestText kvs) = query kvs := by
  have hchars : ∀ c ∈ query kvs, isParameterChar c = true := by
    apply forall_mem_query
    · decide
    · intro k
      apply List.all_eq_true.mp
      cases k <;> decide
    · intro c hc
      rw [isParameterChar, hc, Bool.or_true, Bool.true_or]
    · decide
  have hfound : strstr (requestText kvs) Kind.command.action = some (requestText kvs) := by
    delta requestText
    exact strstr_self _ _
  have hdrop : (requestText kvs).drop Kind.command.action.length =
      query kvs ++ " HTTP/1.0\r\n".toList := by
    delta requestText
    exact List.drop_left
  have hend : " HTTP/1.0\r\n".toList.takeWhile isParameterChar = [] := by decide +kernel
  unfold parameter
  rw [hfound]
  show (((requestText kvs).drop Kind.command.action.length).takeWhile isParameterChar).take 100 = _
  rw [hdrop, List.takeWhile_append_of_pos hchars, hend, List.append_nil,
    List.take_of_length_le hlength]

/-- The call that the numbers of a request ask for. -/
def callOf (kvs : List (Key × ℤ)) (id : ℤ) : Call where
  dest := valueOf kvs .dest 0
  pluginNo := valueOf kvs .plugin 0
  commandId := max id 0
  group := valueOf kvs .group 0
  ivalue := valueOf kvs .value 0
  value := behind (query kvs) "plugin=".toList

/-- The plugin's number is below the number of plugins of the destination. -/
def Reaches (s : Server) (call : Call) : Prop :=
  (call.dest = 0 ∧ call.pluginNo < s.incnt) ∨ (call.dest = 1 ∧ call.pluginNo < s.outcnt)

instance (s : Server) (call : Call) : Decidable (Reaches s call) :=
  inferInstanceAs (Decidable (_ ∨ _))

/-- What is done for the numbers of a request. -/
theorem serveCommand_requestText {s : Server} (hlong : 32 ≤ s.longBits)
    (hnodup : (kvs.map Prod.fst).Nodup) (hfits : ∀ kv ∈ kvs, FitsInt32 kv.2) {id : ℤ}
    (hid : (Key.id, id) ∈ kvs) (hlength : (query kvs).length ≤ 100) :
    serveCommand s (requestText kvs) =
      some (.done (if Reaches s (callOf kvs id) then some (callOf kvs id) else none)
        (if 0 ≤ id then intText id else [])) := by
  obtain ⟨rest, hbehind, hcommand, hcommandId⟩ := commandId_query hnodup hlong hid (hfits _ hid)
  have hpercent : '%' ∉ query kvs := not_mem_query (by decide) (fun k => by cases k <;> decide)
    (by decide) (by decide)
  have hnul : ∀ c ∈ query kvs, decide (c ≠ Char.ofNat 0) = true := by
    have hnot : Char.ofNat 0 ∉ query kvs := not_mem_query (by decide)
      (fun k => by cases k <;> decide) (by decide) (by decide)
    exact fun c hc => decide_eq_true fun heq => hnot (heq ▸ hc)
  have hstring : (query kvs).takeWhile (· ≠ Char.ofNat 0) = query kvs :=
    List.takeWhile_eq_self_iff.mpr hnul
  have hne : (query kvs).length ≠ 0 := by
    intro hzero
    rw [List.length_eq_zero_iff.mp hzero] at hbehind
    cases hbehind
  have hfield := field_query hnodup hlong hfits
  have hcall : readCall s.longBits (query kvs) (rest.takeWhile isWordChar) = callOf kvs id := by
    delta readCall callOf
    rw [hcommandId, ← hfield .dest 0, ← hfield .plugin 0, ← hfield .group 0, ← hfield .value 0]
    rfl
  unfold serveCommand
  rw [parameter_requestText hlength, unescape_of_not_mem hpercent, Option.map_some, hstring]
  unfold command
  rw [if_neg (by omega), hbehind]
  dsimp only
  rw [hcall, hcommand]
  by_cases hinput : (callOf kvs id).dest = 0 ∧ (callOf kvs id).pluginNo < s.incnt
  · have hreaches : Reaches s (callOf kvs id) := Or.inl hinput
    rw [if_pos hinput, if_pos hreaches]
  · rw [if_neg hinput]
    by_cases houtput : (callOf kvs id).dest = 1 ∧ (callOf kvs id).pluginNo < s.outcnt
    · have hreaches : Reaches s (callOf kvs id) := Or.inr houtput
      rw [if_pos houtput, if_pos hreaches]
    · have hnot : ¬Reaches s (callOf kvs id) := not_or.mpr ⟨hinput, houtput⟩
      rw [if_neg houtput, if_neg hnot]

end ControlCommand
