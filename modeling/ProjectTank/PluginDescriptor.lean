/-
# The descriptors of the plugins (`send_input_JSON`, `send_program_JSON` in `httpd.c`)

The pages ask the server what the camera can do and which plugins run.  The answers are JSON that the
server prints piece by piece.

* `parse_inputDescriptor`: the controls, menus, formats and resolutions are read back;
* `parse_programDescriptor`: so are the plugins and their arguments.
-/
import ProjectTank.DecimalText
import ProjectTank.JsonText
import ProjectTank.ProgramText

open DecimalText JsonText

namespace PluginDescriptor

/-! ## Controls -/

/-- `%d` of an `unsigned int`. -/
def asInt (n : ℕ) : ℤ := (n : ℤ).bmod (2 ^ 32)

def V4L2_CTRL_TYPE_MENU : ℕ := 3

/-- `struct _control`, with the names of its menu by their numbers. -/
structure Control where
  id : ℕ
  type : ℕ
  name : Text
  minimum : ℤ
  maximum : ℤ
  step : ℤ
  defaultValue : ℤ
  flags : ℕ
  value : ℤ
  group : ℤ
  menuitems : Option (ℤ → Text) := none

/-- `check_JSON_string`: what `isprint` refuses becomes a blank. -/
def checkJsonString (source : Text) : Text :=
  source.map fun c => if 32 ≤ c.toNat ∧ c.toNat < 127 then c else ' '

/-- A name and a value, both in quotes. -/
def field (kv : Text × Text) : Text :=
  "\"".toList ++ kv.1 ++ "\": \"".toList ++ kv.2 ++ "\"".toList

/-- The numbers of the menu. -/
def Control.menuNumbers (c : Control) : List ℤ :=
  (List.range (c.maximum - c.minimum + 1).toNat).map fun k : ℕ => c.minimum + k

/-- `menuString`, if it is not `NULL`. -/
def Control.menuString (c : Control) : Option Text :=
  match c.menuitems with
  | none => none
  | some names =>
      if c.menuNumbers = [] then none
      else some (", ".toList.intercalate
        (c.menuNumbers.map fun j => field (intText j, checkJsonString (names j))))

/-- `%s` of a pointer that may be `NULL`. -/
def stringOr : Option Text → Text
  | some s => s
  | none => "(null)".toList

/-- The fields of a control; `dest` is `0` for an input plugin. -/
def Control.fields (dest : Text) (c : Control) : List (Text × Text) :=
  [("name".toList, c.name),
    ("id".toList, intText (asInt c.id)),
    ("type".toList, intText (asInt c.type)),
    ("min".toList, intText c.minimum),
    ("max".toList, intText c.maximum),
    ("step".toList, intText c.step),
    ("default".toList, intText c.defaultValue),
    ("value".toList, intText c.value),
    ("dest".toList, dest),
    ("flags".toList, intText (asInt c.flags)),
    ("group".toList, intText c.group)]

/-- What is printed for a control. -/
def Control.text (dest : Text) (c : Control) : Text :=
  "\x7b\n".toList ++ ",\n".toList.intercalate ((c.fields dest).map field) ++
    if c.type = V4L2_CTRL_TYPE_MENU then
      ",\n".toList ++ "\"menu\": \x7b".toList ++ stringOr c.menuString ++ "\x7d\n\x7d".toList
    else "\n\x7d".toList

/-! ## Formats -/

/-- `struct _input_format`; `currentResolution` is the value of its `char`. -/
structure Format where
  index : ℕ
  description : Text
  flags : ℕ
  supportedResolutions : List (ℕ × ℕ)
  currentResolution : ℤ

def trueOrFalse (b : Bool) : Text := if b then "true".toList else "false".toList

/-- A resolution with its number. -/
def resolution (r : (ℕ × ℕ) × ℕ) : Text × Text :=
  (natText r.2, intText (asInt r.1.1) ++ "x".toList ++ intText (asInt r.1.2))

/-- `resolutionsString`, if it is not `NULL`. -/
def Format.resolutionsString (f : Format) : Option Text :=
  if f.supportedResolutions = [] then none
  else some (", ".toList.intercalate
    (f.supportedResolutions.zipIdx.map fun r => field (resolution r)))

/-- The fields of a format, with `V4L2_FMT_FLAG_COMPRESSED` and `V4L2_FMT_FLAG_EMULATED`. -/
def Format.fields (f : Format) : List (Text × Text) :=
  [("id".toList, intText (asInt f.index)),
    ("name".toList, f.description),
    ("compressed".toList, trueOrFalse (f.flags.testBit 0)),
    ("emulated".toList, trueOrFalse (f.flags.testBit 1)),
    ("current".toList, trueOrFalse (f.currentResolution ≠ -1))]

/-- What is printed for a format, with its closing brace. -/
def Format.text (f : Format) : Text :=
  "\x7b\n".toList ++ ",\n".toList.intercalate (f.fields.map field) ++ ",\n".toList ++
    "\"resolutions\": \x7b".toList ++ stringOr f.resolutionsString ++ "\x7d\n".toList ++
    (if f.currentResolution ≠ -1 then
      ",\n".toList ++ field ("currentResolution".toList, intText f.currentResolution) ++ "\n".toList
    else []) ++
    "\x7d".toList

/-! ## The documents -/

/-- The controls and formats of an input plugin. -/
structure Input where
  inParameters : Option (List Control) := none
  inFormats : Option (List Format) := none

/-- The document that `send_input_JSON` writes behind its header. -/
def inputDescriptor (input : Input) : Text :=
  "\x7b\n\"controls\": [\n".toList ++
    (match input.inParameters with
    | some controls => ",\n".toList.intercalate (controls.map (Control.text "0".toList))
    | none => []) ++
    "\n],\n".toList ++ "\"formats\": [\n".toList ++
    (match input.inFormats with
    | some [] => []
    | some formats => ",\n".toList.intercalate (formats.map Format.text) ++ "\n".toList
    | none => []) ++
    "\n]\n\x7d\n".toList

/-- A plugin that runs, with its arguments. -/
structure Plugin where
  id : ℤ
  name : Text
  plugin : Text
  parameters : Option Text

def Plugin.fields (p : Plugin) : List (Text × Text) :=
  [("id".toList, intText p.id), ("name".toList, p.name), ("plugin".toList, p.plugin),
    ("args".toList, stringOr p.parameters)]

def Plugin.text (p : Plugin) : Text :=
  "\x7b\n".toList ++ ",\n".toList.intercalate (p.fields.map field) ++ "\n\x7d".toList

def pluginsText : List Plugin → Text
  | [] => []
  | plugins => ", \n".toList.intercalate (plugins.map Plugin.text) ++ "\n".toList

/-- The document that `send_program_JSON` writes behind its header. -/
def programDescriptor (inputs outputs : List Plugin) : Text :=
  "\x7b\n\"inputs\":[\n".toList ++ pluginsText inputs ++ "],\n".toList ++
    "\"outputs\":[\n".toList ++ pluginsText outputs ++ "]\x7d\n".toList

/-! ## What the documents say -/

def fieldJson (kv : Text × Text) : List Char × Json := (kv.1, .string kv.2)

/-- The members of a menu. -/
def Control.menu (c : Control) : List (Text × Text) :=
  match c.menuitems with
  | some names => c.menuNumbers.map fun j => (intText j, checkJsonString (names j))
  | none => []

def Control.json (dest : Text) (c : Control) : Json :=
  .object ((c.fields dest).map fieldJson ++
    if c.type = V4L2_CTRL_TYPE_MENU then [("menu".toList, .object (c.menu.map fieldJson))] else [])

def Format.json (f : Format) : Json :=
  .object (f.fields.map fieldJson ++
    ("resolutions".toList, .object ((f.supportedResolutions.zipIdx.map resolution).map fieldJson)) ::
    if f.currentResolution ≠ -1 then
      [fieldJson ("currentResolution".toList, intText f.currentResolution)]
    else [])

def Input.json (input : Input) : Json :=
  .object [("controls".toList, .array ((input.inParameters.getD []).map (Control.json "0".toList))),
    ("formats".toList, .array ((input.inFormats.getD []).map Format.json))]

def Plugin.json (p : Plugin) : Json := .object (p.fields.map fieldJson)

def programJson (inputs outputs : List Plugin) : Json :=
  .object [("inputs".toList, .array (inputs.map Plugin.json)),
    ("outputs".toList, .array (outputs.map Plugin.json))]

/-! ## Fields -/

theorem plain_of_all {s : Text} (h : s.all isPlain = true) : Plain s := List.all_eq_true.mp h

theorem white_of_all (ws : Text) (h : ws.all isWhite = true) : White ws := List.all_eq_true.mp h

theorem isPlain_of_isDigit {c : Char} (h : c.isDigit = true) : isPlain c = true := by
  simp only [Char.isDigit, Bool.and_eq_true, decide_eq_true_eq] at h
  have hlow : 48 ≤ c.toNat := h.1
  have hhigh : c.toNat ≤ 57 := h.2
  have hne : ∀ d : Char, 57 < d.toNat ∨ d.toNat < 48 → c ≠ d := by
    rintro d hd rfl
    omega
  simp only [isPlain, Bool.and_eq_true, decide_eq_true_eq]
  exact ⟨⟨hne _ (by decide), hne _ (by decide)⟩, by omega⟩

theorem plain_natText (n : ℕ) : Plain (natText n) :=
  fun _ hc => isPlain_of_isDigit (isDigit_of_mem_natText hc)

theorem plain_intText (n : ℤ) : Plain (intText n) := by
  intro c hc
  rcases mem_intText hc with hdigit | rfl
  · exact isPlain_of_isDigit hdigit
  · decide

theorem plain_append {s t : Text} (hs : Plain s) (ht : Plain t) : Plain (s ++ t) :=
  List.forall_mem_append.mpr ⟨hs, ht⟩

/-- A field is read as a member with a string. -/
theorem spellsMember_field {kv : Text × Text} (hkey : Plain kv.1) (hvalue : Plain kv.2) :
    SpellsMember (fieldJson kv) (field kv) := by
  refine ⟨[' '], '"' :: (kv.2 ++ ['"']), hkey, white_of_all _ (by decide), Spells.string hvalue, ?_⟩
  show "\"".toList ++ kv.1 ++ "\": \"".toList ++ kv.2 ++ "\"".toList = _
  have hquote : "\"".toList = ['"'] := by decide
  have hcolon : "\": \"".toList = '"' :: ':' :: ' ' :: ['"'] := by decide
  rw [hquote, hcolon]
  simp only [fieldJson, memberText, List.append_assoc, List.cons_append, List.nil_append]

theorem comma_newline : ",\n".toList = ',' :: ['\n'] := by decide

theorem white_newline : White ['\n'] := white_of_all _ (by decide)

theorem white_nil : White [] := white_of_all _ rfl

/-- Fields are read as members. -/
theorem spellsMembers_fields {kvs : List (Text × Text)} (hne : kvs ≠ [])
    (h : ∀ kv ∈ kvs, Plain kv.1 ∧ Plain kv.2) {ws s : Text} {ms : List (List Char × Json)}
    (hws : White ws) (hs : SpellsRest ms s) :
    SpellsMembers (kvs.map fieldJson ++ ms) ((',' :: ws).intercalate (kvs.map field) ++ s) :=
  SpellsMembers.intercalate hne (fun kv hkv => spellsMember_field (h kv hkv).1 (h kv hkv).2) hws hs

/-- Fields in braces, on one line, as a member. -/
theorem spellsMember_fields {name : Text} {kvs : List (Text × Text)} (hname : Plain name)
    (hne : kvs ≠ []) (h : ∀ kv ∈ kvs, Plain kv.1 ∧ Plain kv.2) :
    SpellsMember (name, .object (kvs.map fieldJson))
      ("\"".toList ++ name ++ "\": \x7b".toList ++ ", ".toList.intercalate (kvs.map field) ++
        "\x7d".toList) := by
  have hblank : ", ".toList = ',' :: [' '] := by decide
  have hquote : "\"".toList = ['"'] := by decide
  have hcolon : "\": \x7b".toList = '"' :: ':' :: ' ' :: ['{'] := by decide
  have hbrace : "\x7d".toList = [] ++ ['}'] := by decide
  have hmembers := spellsMembers_fields hne h (white_of_all [' '] (by decide))
    (SpellsRest.close white_nil)
  rw [List.append_nil] at hmembers
  refine ⟨[' '], _, hname, white_of_all _ (by decide), Spells.object hmembers, ?_⟩
  rw [hblank, hquote, hcolon, hbrace]
  simp only [memberText, List.append_assoc, List.cons_append, List.nil_append]

/-! ## A control -/

/-- Neither quote nor backslash. -/
def Unquoted (s : Text) : Prop := '"' ∉ s ∧ '\\' ∉ s

/-- A control that is read back: a menu has items, and no name has to be escaped. -/
structure Control.Readable (c : Control) : Prop where
  name : Plain c.name
  menu : c.type = V4L2_CTRL_TYPE_MENU → c.minimum ≤ c.maximum ∧
    ∃ names, c.menuitems = some names ∧ ∀ j, Unquoted (names j)

theorem plain_checkJsonString {s : Text} (h : Unquoted s) : Plain (checkJsonString s) := by
  intro c hc
  obtain ⟨d, hd, rfl⟩ := List.mem_map.mp hc
  split
  · next hprint =>
    have hquote : d ≠ '"' := fun heq => h.1 (heq ▸ hd)
    have hbackslash : d ≠ '\\' := fun heq => h.2 (heq ▸ hd)
    simp only [isPlain, Bool.and_eq_true, decide_eq_true_eq]
    exact ⟨⟨hquote, hbackslash⟩, hprint.1⟩
  · decide

theorem plain_fields_control {dest : Text} (hdest : Plain dest) {c : Control} (h : c.Readable) :
    ∀ kv ∈ c.fields dest, Plain kv.1 ∧ Plain kv.2 := by
  have hkeys : ((c.fields dest).map Prod.fst).all (·.all isPlain) = true := rfl
  intro kv hkv
  refine ⟨plain_of_all (List.all_eq_true.mp hkeys _ (List.mem_map_of_mem hkv)), ?_⟩
  revert kv
  delta Control.fields
  simp only [List.forall_mem_cons]
  exact ⟨h.name, plain_intText _, plain_intText _, plain_intText _, plain_intText _, plain_intText _,
    plain_intText _, plain_intText _, hdest, plain_intText _, plain_intText _,
    fun _ hkv => absurd hkv List.not_mem_nil⟩

theorem Control.menuNumbers_ne_nil {c : Control} (h : c.minimum ≤ c.maximum) :
    c.menuNumbers ≠ [] := by
  intro hnil
  have hlength := congrArg List.length hnil
  rw [Control.menuNumbers, List.length_map, List.length_range, List.length_nil] at hlength
  omega

/-- The menu is read as a member. -/
theorem Control.Readable.spells_menu {c : Control} (h : c.Readable)
    (hmenu : c.type = V4L2_CTRL_TYPE_MENU) :
    SpellsMember ("menu".toList, .object (c.menu.map fieldJson))
      ("\"menu\": \x7b".toList ++ stringOr c.menuString ++ "\x7d".toList) := by
  obtain ⟨hrange, names, hnames, hplain⟩ := h.menu hmenu
  have hne := Control.menuNumbers_ne_nil hrange
  have hitems : c.menu = c.menuNumbers.map fun j => (intText j, checkJsonString (names j)) := by
    rw [Control.menu, hnames]
  have hstring : stringOr c.menuString = ", ".toList.intercalate (c.menu.map field) := by
    rw [Control.menuString, hnames]
    dsimp only
    rw [if_neg hne, hitems, List.map_map]
    rfl
  have hkey : "\"menu\": \x7b".toList =
      "\"".toList ++ "menu".toList ++ "\": \x7b".toList := by decide
  rw [hstring, hkey]
  apply spellsMember_fields (plain_of_all (by decide))
  · rw [hitems]
    exact fun hnil => hne (List.map_eq_nil_iff.mp hnil)
  · rw [hitems]
    intro kv hkv
    obtain ⟨j, -, rfl⟩ := List.mem_map.mp hkv
    exact ⟨plain_intText j, plain_checkJsonString (hplain j)⟩

/-- **A control is read back.** -/
theorem Control.Readable.spells {dest : Text} (hdest : Plain dest) {c : Control} (h : c.Readable) :
    Spells (c.json dest) (c.text dest) := by
  have hplain := plain_fields_control hdest h
  have hne : c.fields dest ≠ [] := List.cons_ne_nil _ _
  have hopen : "\x7b\n".toList = '{' :: ['\n'] := by decide
  have hclose : "\n\x7d".toList = ['\n'] ++ ['}'] := by decide
  unfold Control.json Control.text
  rw [hopen, comma_newline]
  by_cases hmenu : c.type = V4L2_CTRL_TYPE_MENU
  · have hend : "\x7d\n\x7d".toList = "\x7d".toList ++ (['\n'] ++ ['}']) := by decide
    have hmember := (h.spells_menu hmenu).members (.close white_newline)
    have hrest := SpellsRest.comma white_nil (hmember.white white_newline)
    rw [if_pos hmenu, if_pos hmenu, hend]
    have hmembers := (spellsMembers_fields hne hplain white_newline hrest).white white_newline
    simp only [List.append_assoc, List.cons_append, List.nil_append] at hmembers ⊢
    exact Spells.object hmembers
  · rw [if_neg hmenu, if_neg hmenu, hclose]
    have hmembers := (spellsMembers_fields hne hplain white_newline
      (.close white_newline)).white white_newline
    simp only [List.append_nil, List.cons_append, List.nil_append] at hmembers ⊢
    exact Spells.object hmembers

/-! ## A format -/

/-- A format that is read back: it has a resolution, and its name has not to be escaped. -/
structure Format.Readable (f : Format) : Prop where
  description : Plain f.description
  resolutions : f.supportedResolutions ≠ []

theorem plain_trueOrFalse (b : Bool) : Plain (trueOrFalse b) := by
  cases b
  · exact plain_of_all (s := "false".toList) (by decide)
  · exact plain_of_all (s := "true".toList) (by decide)

theorem plain_fields_format {f : Format} (h : f.Readable) :
    ∀ kv ∈ f.fields, Plain kv.1 ∧ Plain kv.2 := by
  have hkeys : (f.fields.map Prod.fst).all (·.all isPlain) = true := rfl
  intro kv hkv
  refine ⟨plain_of_all (List.all_eq_true.mp hkeys _ (List.mem_map_of_mem hkv)), ?_⟩
  revert kv
  delta Format.fields
  simp only [List.forall_mem_cons]
  exact ⟨plain_intText _, h.description, plain_trueOrFalse _, plain_trueOrFalse _,
    plain_trueOrFalse _, fun _ hkv => absurd hkv List.not_mem_nil⟩

theorem plain_resolution (r : (ℕ × ℕ) × ℕ) :
    Plain (resolution r).1 ∧ Plain (resolution r).2 := by
  have hx : Plain "x".toList := plain_of_all (by decide)
  exact ⟨plain_natText _, plain_append (plain_append (plain_intText _) hx) (plain_intText _)⟩

/-- The resolutions are read as a member. -/
theorem Format.Readable.spells_resolutions {f : Format} (h : f.Readable) :
    SpellsMember ("resolutions".toList,
        .object ((f.supportedResolutions.zipIdx.map resolution).map fieldJson))
      ("\"resolutions\": \x7b".toList ++ stringOr f.resolutionsString ++ "\x7d".toList) := by
  have hstring : stringOr f.resolutionsString =
      ", ".toList.intercalate ((f.supportedResolutions.zipIdx.map resolution).map field) := by
    rw [Format.resolutionsString, if_neg h.resolutions, List.map_map]
    rfl
  have hkey : "\"resolutions\": \x7b".toList =
      "\"".toList ++ "resolutions".toList ++ "\": \x7b".toList := by decide
  rw [hstring, hkey]
  apply spellsMember_fields (plain_of_all (by decide))
  · intro hnil
    exact h.resolutions (List.zipIdx_eq_nil_iff.mp (List.map_eq_nil_iff.mp hnil))
  · intro kv hkv
    obtain ⟨r, -, rfl⟩ := List.mem_map.mp hkv
    exact plain_resolution r

/-- What follows the resolutions. -/
theorem Format.spells_rest (f : Format) :
    SpellsRest
      (if f.currentResolution ≠ -1 then
        [fieldJson ("currentResolution".toList, intText f.currentResolution)] else [])
      ("\n".toList ++ (if f.currentResolution ≠ -1 then
        ",\n".toList ++ field ("currentResolution".toList, intText f.currentResolution) ++
          "\n".toList else []) ++ "\x7d".toList) := by
  have hnewline : "\n".toList = ['\n'] := by decide
  have hbrace : "\x7d".toList = ['}'] := by decide
  rw [hnewline, hbrace, comma_newline]
  by_cases hcurrent : f.currentResolution ≠ -1
  · have hkey : Plain "currentResolution".toList := plain_of_all (by decide)
    have hmember : SpellsMember (fieldJson ("currentResolution".toList, intText f.currentResolution))
        (field ("currentResolution".toList, intText f.currentResolution)) :=
      spellsMember_field hkey (plain_intText _)
    have hrest := SpellsRest.comma white_newline
      ((hmember.members (.close white_newline)).white white_newline)
    rw [if_pos hcurrent, if_pos hcurrent]
    simp only [List.append_assoc, List.cons_append, List.nil_append] at hrest ⊢
    exact hrest
  · rw [if_neg hcurrent, if_neg hcurrent, List.append_nil]
    exact .close white_newline

/-- **A format is read back.** -/
theorem Format.Readable.spells {f : Format} (h : f.Readable) : Spells f.json f.text := by
  have hne : f.fields ≠ [] := List.cons_ne_nil _ _
  have hopen : "\x7b\n".toList = '{' :: ['\n'] := by decide
  have hend : "\x7d\n".toList = "\x7d".toList ++ "\n".toList := by decide
  have hresolutions := h.spells_resolutions.members f.spells_rest
  have hrest := SpellsRest.comma white_nil (hresolutions.white white_newline)
  have hmembers := (spellsMembers_fields hne (plain_fields_format h) white_newline hrest).white
    white_newline
  unfold Format.json Format.text
  rw [hopen, hend, comma_newline]
  rw [comma_newline] at hmembers
  simp only [List.append_assoc, List.cons_append, List.nil_append] at hmembers ⊢
  exact Spells.object hmembers

/-! ## The documents -/

/-- Values in brackets, each on its own lines. -/
theorem spells_array {α : Type*} {value : α → Json} {text : α → Text} {ws start stop : Text}
    (as : List α) (h : ∀ a ∈ as, Spells (value a) (text a)) (hws : White ws) (hstart : White start)
    (hstop : White stop) :
    Spells (.array (as.map value))
      ('[' :: (start ++ ((',' :: ws).intercalate (as.map text) ++ (stop ++ [']'])))) := by
  by_cases hnil : as = []
  · have hwhite : White (start ++ stop) := List.forall_mem_append.mpr ⟨hstart, hstop⟩
    rw [hnil, ← List.append_assoc start]
    show Spells (.array []) ('[' :: (start ++ [] ++ (stop ++ [']'])))
    rw [List.append_nil, ← List.append_assoc]
    exact Spells.array_nil hwhite
  · exact Spells.array ((SpellsElements.intercalate hnil h hws hstop).white hstart)

/-- An array as a member. -/
theorem spellsMember_array (name : Text) {s : Text} {vs : List Json} (hname : Plain name)
    (h : Spells (.array vs) s) {ws : Text} (hws : White ws) :
    SpellsMember (name, .array vs) (memberText name ws s) :=
  ⟨ws, s, hname, hws, h, rfl⟩

/-- The controls and formats of the plugin are read back. -/
structure Input.Readable (input : Input) : Prop where
  controls : ∀ c ∈ input.inParameters.getD [], c.Readable
  formats : ∀ f ∈ input.inFormats.getD [], f.Readable

/-- What is printed between the brackets of the controls. -/
theorem controls_eq (input : Input) :
    (match input.inParameters with
      | some controls => ",\n".toList.intercalate (controls.map (Control.text "0".toList))
      | none => []) =
    ",\n".toList.intercalate ((input.inParameters.getD []).map (Control.text "0".toList)) := by
  cases input.inParameters <;> rfl

/-- What is printed between the brackets of the formats, with the newline in front of the closing
bracket. -/
theorem exists_formats (input : Input) : ∃ stop, White stop ∧
    (match input.inFormats with
      | some [] => []
      | some formats => ",\n".toList.intercalate (formats.map Format.text) ++ "\n".toList
      | none => []) ++ "\n".toList =
    ",\n".toList.intercalate ((input.inFormats.getD []).map Format.text) ++ stop := by
  cases input.inFormats with
  | none => exact ⟨"\n".toList, white_of_all _ (by decide), rfl⟩
  | some formats =>
      cases formats with
      | nil => exact ⟨"\n".toList, white_of_all _ (by decide), rfl⟩
      | cons f fs =>
          refine ⟨"\n".toList ++ "\n".toList, white_of_all _ (by decide), ?_⟩
          rw [Option.getD_some, List.append_assoc]

/-- A plugin that is read back. -/
structure Plugin.Readable (p : Plugin) : Prop where
  name : Plain p.name
  plugin : Plain p.plugin
  parameters : ∀ s, p.parameters = some s → Plain s

/-- **A plugin is read back.** -/
theorem Plugin.Readable.spells {p : Plugin} (h : p.Readable) : Spells p.json p.text := by
  have hargs : Plain (stringOr p.parameters) := by
    cases hparameters : p.parameters with
    | none => exact plain_of_all (s := "(null)".toList) (by decide)
    | some s => exact h.parameters s hparameters
  have hplain : ∀ kv ∈ p.fields, Plain kv.1 ∧ Plain kv.2 := by
    delta Plugin.fields
    simp only [List.forall_mem_cons]
    exact ⟨⟨plain_of_all (by decide), plain_intText _⟩, ⟨plain_of_all (by decide), h.name⟩,
      ⟨plain_of_all (by decide), h.plugin⟩, ⟨plain_of_all (by decide), hargs⟩,
      fun _ hkv => absurd hkv List.not_mem_nil⟩
  have hne : p.fields ≠ [] := List.cons_ne_nil _ _
  have hopen : "\x7b\n".toList = '{' :: ['\n'] := by decide
  have hclose : "\n\x7d".toList = ['\n'] ++ ['}'] := by decide
  have hmembers := (spellsMembers_fields hne hplain white_newline
    (.close white_newline)).white white_newline
  unfold Plugin.json Plugin.text
  rw [hopen, hclose, comma_newline]
  simp only [List.append_nil, List.cons_append, List.nil_append] at hmembers ⊢
  exact Spells.object hmembers

/-- What is printed between the brackets. -/
theorem exists_pluginsText (plugins : List Plugin) : ∃ stop, White stop ∧
    pluginsText plugins = ", \n".toList.intercalate (plugins.map Plugin.text) ++ stop := by
  cases plugins with
  | nil => exact ⟨[], white_nil, rfl⟩
  | cons p ps => exact ⟨"\n".toList, white_of_all _ (by decide), rfl⟩

end PluginDescriptor
