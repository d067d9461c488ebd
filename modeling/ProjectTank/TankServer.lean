/-
# The command handler of the server (`Guy/peter/web_fixed.py`)

`parse_tank_command`, the line the handler sends, and `do_GET` as the program of one
handler thread: the response headers first, then parsing, then the write under
`serial_lock`.  Each request has its own thread (`ThreadedHTTPServer`), and the
thread that reads the sensor values takes the same lock without writing, so the
server is a `WriterPool` whose output is the serial port.

* `parseTankCommand_eq_lastAccepted`: the dictionary holds, for each key, the value
  of the last segment with that key whose value `int` accepts;
* `formatCommand_eq_ok_iff`: a line is built exactly when all six keys are there;
* `machine`, with `handler` as the program of its threads.
-/
import ProjectTank.PythonText
import ProjectTank.WriterPool

open ProgramText DecimalText SeparatedText

namespace TankServer

/-! ## `parse_tank_command` -/

/-- The dictionary that `parse_tank_command` returns. -/
abbrev CommandData := Text → Option ℤ

/-- One part of the command: the key in upper case gets the value, unless there is no
colon or `int` raises `ValueError`. -/
def storePart (u : UnicodeTables) (result : CommandData) (part : Text) : CommandData :=
  match cut ':' part with
  | some (key, valueStr) =>
      match Python.int u valueStr with
      | some value => Function.update result (toUpperCase u key) (some value)
      | none => result
  | none => result

/-- The decoded `cmd` parameter: the first one, `''` when there is none or no query. -/
def commandStr (path : Text) : Text :=
  match (Python.splitquery path).2 with
  | some queryString => (Python.parseQs queryString "cmd".toList).headD []
  | none => []

/-- `parse_tank_command`.  Without a query the result is `{}`, as it is for the command
`''`, which has no part with a colon. -/
def parseTankCommand (u : UnicodeTables) (path : Text) : CommandData :=
  match (Python.splitquery path).2 with
  | none => fun _ => none
  | some queryString =>
      if queryString = [] then fun _ => none
      else ((commandStr path).splitOn ';').foldl (storePart u) fun _ => none

/-- The value that a part gives to the key `K`, if it does. -/
def acceptedValue (u : UnicodeTables) (K : Text) (part : Text) : Option ℤ :=
  (cut ':' part).bind fun kv =>
    if toUpperCase u kv.1 = K then Python.int u kv.2 else none

/-- The value of the last part of a command whose key is `K` in upper case and whose value
`int` accepts. -/
def lastAccepted (u : UnicodeTables) (K cmd : Text) : Option ℤ :=
  ((cmd.splitOn ';').filterMap (acceptedValue u K)).getLast?

theorem storePart_eq (u : UnicodeTables) (result : CommandData) (part K : Text) :
    storePart u result part K = (acceptedValue u K part).or (result K) := by
  unfold storePart acceptedValue
  cases cut ':' part with
  | none => rfl
  | some kv =>
      simp only [Option.bind_some]
      cases Python.int u kv.2 with
      | none => simp
      | some value =>
          by_cases hK : toUpperCase u kv.1 = K
          · simp [hK]
          · simp [hK, Function.update_of_ne (Ne.symm hK)]

theorem foldl_storePart (u : UnicodeTables) (parts : List Text) (result : CommandData)
    (K : Text) :
    parts.foldl (storePart u) result K =
      ((parts.filterMap (acceptedValue u K)).getLast?).or (result K) := by
  induction parts generalizing result with
  | nil => rfl
  | cons part parts ih =>
      rw [List.foldl_cons, ih, storePart_eq, List.filterMap_cons]
      cases acceptedValue u K part with
      | none => rfl
      | some value =>
          rw [List.getLast?_cons, Option.some_or]
          cases (parts.filterMap (acceptedValue u K)).getLast? <;> rfl

/-- **The dictionary of a request**: the last accepted value of each key. -/
theorem parseTankCommand_eq_lastAccepted (u : UnicodeTables) (path K : Text) :
    parseTankCommand u path K = lastAccepted u K (commandStr path) := by
  have hempty : lastAccepted u K [] = none := rfl
  unfold parseTankCommand
  cases hquery : (Python.splitquery path).2 with
  | none => rw [commandStr, hquery, hempty]
  | some queryString =>
      by_cases hnil : queryString = []
      · have hcmd : commandStr path = [] := by
          rw [commandStr, hquery, hnil]
          rfl
        rw [hcmd, hempty]
        simp only [hnil, if_true]
      · simp only [hnil, if_false, foldl_storePart, Option.or_none, lastAccepted]

/-! ## The line -/

/-- `command_data[key]`: the value, or the `KeyError` with its key. -/
def lookup (commandData : CommandData) (key : Text) : Except Text ℤ :=
  match commandData key with
  | some value => .ok value
  | none => .error key

/-- The line of six values. -/
def commandLine (fr lr ud tlr fc lc : ℤ) : Text :=
  "FR:".toList ++ intText fr ++ ";LR:".toList ++ intText lr ++ ";UD:".toList ++ intText ud ++
    ";TLR:".toList ++ intText tlr ++ ";FC:".toList ++ intText fc ++ ";LC:".toList ++ intText lc

/-- The characters of a line are those of its keys and of decimal texts. -/
theorem commandLine_all {p : Char → Bool} (hint : ∀ n, (intText n).all p = true)
    (hkeys : ∀ key ∈ ["FR:", ";LR:", ";UD:", ";TLR:", ";FC:", ";LC:"], key.toList.all p = true)
    (fr lr ud tlr fc lc : ℤ) : (commandLine fr lr ud tlr fc lc).all p = true := by
  simp only [List.mem_cons, List.not_mem_nil, or_false, forall_eq_or_imp, forall_eq] at hkeys
  obtain ⟨h1, h2, h3, h4, h5, h6⟩ := hkeys
  have hand : ∀ {s t : Text}, s.all p = true → t.all p = true → (s ++ t).all p = true := by
    intro s t hs ht
    rw [List.all_append, hs, ht]
    rfl
  exact hand (hand (hand (hand (hand (hand (hand (hand (hand (hand (hand h1 (hint fr)) h2)
    (hint lr)) h3) (hint ud)) h4) (hint tlr)) h5) (hint fc)) h6) (hint lc)

theorem commandLine_ascii (fr lr ud tlr fc lc : ℤ) :
    (commandLine fr lr ud tlr fc lc).all isAscii = true :=
  commandLine_all Python.intText_ascii (by decide) fr lr ud tlr fc lc

/-- A line does not contain the character that ends it. -/
theorem newline_not_mem_commandLine (fr lr ud tlr fc lc : ℤ) :
    '\n' ∉ commandLine fr lr ud tlr fc lc := by
  have hint : ∀ n, (intText n).all (fun c => c ≠ '\n') = true := by
    intro n
    simp only [List.all_eq_true, decide_eq_true_eq]
    rintro c hc rfl
    exact not_mem_intText (by decide) (by decide) n hc
  have hall := commandLine_all hint (by decide) fr lr ud tlr fc lc
  intro hmem
  exact absurd (List.all_eq_true.mp hall _ hmem) (by decide)

/-- `command_str`. -/
def formatCommand (commandData : CommandData) : Except Text Text := do
  let fr ← lookup commandData "FR".toList
  let lr ← lookup commandData "LR".toList
  let ud ← lookup commandData "UD".toList
  let tlr ← lookup commandData "TLR".toList
  let fc ← lookup commandData "FC".toList
  let lc ← lookup commandData "LC".toList
  return commandLine fr lr ud tlr fc lc

/-- `message_to_send`, encoded. -/
def messageToSend (commandStr : Text) : List UInt8 := encodeUtf8 (commandStr ++ ['\n'])

theorem lookup_eq_ok_iff {commandData : CommandData} {key : Text} {value : ℤ} :
    lookup commandData key = .ok value ↔ commandData key = some value := by
  unfold lookup
  cases commandData key <;> simp

/-- Sequencing succeeds when both steps do. -/
theorem bind_eq_ok_iff {ε α β : Type} {x : Except ε α} {f : α → Except ε β} {b : β} :
    (x >>= f) = .ok b ↔ ∃ a, x = .ok a ∧ f a = .ok b := by
  cases x with
  | error e => simp [Bind.bind, Except.bind]
  | ok a => simp [Bind.bind, Except.bind]

/-- **A line is built exactly from six values**, one for each key. -/
theorem formatCommand_eq_ok_iff {commandData : CommandData} {line : Text} :
    formatCommand commandData = .ok line ↔
      ∃ fr, commandData "FR".toList = some fr ∧ ∃ lr, commandData "LR".toList = some lr ∧
        ∃ ud, commandData "UD".toList = some ud ∧ ∃ tlr, commandData "TLR".toList = some tlr ∧
        ∃ fc, commandData "FC".toList = some fc ∧ ∃ lc, commandData "LC".toList = some lc ∧
        commandLine fr lr ud tlr fc lc = line := by
  simp only [formatCommand, bind_eq_ok_iff, lookup_eq_ok_iff, pure, Except.pure, Except.ok.injEq]

/-! ## Handler threads -/

/-- The branches of `do_GET` that the other results need to tell apart. -/
inductive Route
  | redirect
  | indexPage
  | audio
  | tankCommand
  | other
  deriving DecidableEq

/-- The chain of comparisons in `do_GET`, up to the branch of the commands. -/
def route (path : Text) : Route :=
  if path = "/".toList then .redirect
  else if path = "/index.html".toList then .indexPage
  else if ".mp3".toList.isSuffixOf path then .audio
  else if "/tank_command".toList.isPrefixOf path then .tankCommand
  else .other

/-- What a command handler sends back: the headers of a response, or `send_error`. -/
inductive Response
  | headers (code : ℕ)
  | sendError (code : ℕ) (message : Text)
  deriving DecidableEq

/-- A request: its path, whether its headers are out, and what has been sent back. -/
structure Request where
  path : Text
  headersSent : Bool := false
  responses : List Response := []
  deriving DecidableEq

/-- What the handlers find when they run: the Unicode tables, whether `ser` is open, and
the text of the exception when a step of a handler fails. -/
structure Setting where
  unicode : UnicodeTables
  serialOpen : Bool
  exceptionText : Text

/-- `send_error(500, ...)` in the `except` clause. -/
def errorResponse (e : Text) : Response :=
  .sendError 500 ("Error sending tank command: ".toList ++ e)

/-- `str` of a `KeyError`: the key in quotes. -/
def keyErrorText (key : Text) : Text := ['\''] ++ key ++ ['\'']

/-- The next step of a handler before the write: the headers go out first, then the
command is parsed and formatted. -/
def prepare (s : Setting) (r : Request) : WriterPool.Prep Request UInt8 :=
  if route r.path ≠ .tankCommand then .quit r
  else if r.headersSent = false then
    .work { r with headersSent := true, responses := r.responses ++ [.headers 200] }
  else
    let commandData := parseTankCommand s.unicode r.path
    if s.serialOpen = false then .quit r
    else
      match formatCommand commandData with
      | .ok line => .ready r (messageToSend line)
      | .error key => .quit { r with responses := r.responses ++ [errorResponse (keyErrorText key)] }

/-- `do_GET` as the program of a handler thread. -/
def handler (s : Setting) : WriterPool.Program Request UInt8 where
  prepare := prepare s
  finish := id
  fail := fun r => { r with responses := r.responses ++ [errorResponse s.exceptionText] }

/-- A handler never changes the path it works on. -/
theorem path_prepare (s : Setting) (r : Request) : (prepare s r).data.path = r.path := by
  unfold prepare
  split_ifs
  · rfl
  · rfl
  · rfl
  · show (match formatCommand (parseTankCommand s.unicode r.path) with
      | .ok line => WriterPool.Prep.ready r (messageToSend line)
      | .error key => .quit _).data.path = r.path
    cases formatCommand (parseTankCommand s.unicode r.path) <;> rfl

/-- The server: handler threads, the sensor thread, and the serial port as output. -/
def machine (s : Setting) : Machine (WriterPool.Pool Request UInt8) (WriterPool.Move Request) :=
  WriterPool.machine (handler s)

end TankServer
