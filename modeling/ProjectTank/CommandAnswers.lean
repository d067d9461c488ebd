/-
# The answer to a command (`/tank_command` of `Guy/peter/web_fixed.py`)

The handler sends `200` before it parses the command and looks at the serial port.  What
goes wrong afterwards either ends the handler quietly, when there is no port, or adds a
second status line, when a key is missing or `ser.write` raises.

* `tankCommand_eq_handler`: one request on its own is the handler thread of the server,
  run to its end;
* `truthful_iff`: the answer tells the truth about the port if and only if the port takes
  the line and the path stands for all six values.
-/
import ProjectTank.SerialLines

open ProgramText TankServer

namespace CommandAnswers

/-! ## One request -/

/-- The serial port when the handler comes to write: it takes every byte, `ser` is `None`, or
`ser.write` raises with a text after the port has taken some bytes. -/
inductive SerialState
  | opened
  | absent
  | raising (taken : ℕ) (exceptionText : Text)
  deriving DecidableEq

/-- What a request leaves behind: what is sent back, and what the serial port has taken. -/
structure Outcome where
  responses : List Response
  written : List UInt8
  deriving DecidableEq

/-- The branch of `do_GET` for commands. -/
def tankCommand (u : UnicodeTables) (serial : SerialState) (path : Text) : Outcome :=
  let responses := [.headers 200]
  let commandData := parseTankCommand u path
  if serial = .absent then ⟨responses, []⟩
  else
    match formatCommand commandData with
    | .error key => ⟨responses ++ [errorResponse (keyErrorText key)], []⟩
    | .ok commandStr =>
        match serial with
        | .raising taken e =>
            ⟨responses ++ [errorResponse e], (messageToSend commandStr).take taken⟩
        | _ => ⟨responses, messageToSend commandStr⟩

/-- `do_GET` for a path that comes to this branch. -/
def doGet (u : UnicodeTables) (serial : SerialState) (path : Text) : Option Outcome :=
  if route path = .tankCommand then some (tankCommand u serial path) else none

/-- What the handler threads of the server find. -/
def SerialState.setting (u : UnicodeTables) : SerialState → Setting
  | .opened => ⟨u, true, []⟩
  | .absent => ⟨u, false, []⟩
  | .raising _ e => ⟨u, true, e⟩

/-- The end of a handler thread after its private steps. -/
def ending (u : UnicodeTables) (serial : SerialState) : WriterPool.Prep Request UInt8 → Outcome
  | .work r | .quit r => ⟨r.responses, []⟩
  | .ready r buf =>
      match serial with
      | .raising taken _ => ⟨((handler (serial.setting u)).fail r).responses, buf.take taken⟩
      | _ => ⟨((handler (serial.setting u)).finish r).responses, buf⟩

/-- **The handler on its own** is the handler thread: it sends the headers, and then it
ends as its second private step says. -/
theorem tankCommand_eq_handler {u : UnicodeTables} {path : Text} (hroute : route path = .tankCommand)
    (serial : SerialState) :
    ∃ r, prepare (serial.setting u) { path := path } = .work r ∧
      tankCommand u serial path = ending u serial (prepare (serial.setting u) r) := by
  refine ⟨{ path := path, headersSent := true, responses := [.headers 200] }, ?_, ?_⟩
  · rw [prepare, if_neg (not_not.mpr hroute), if_pos rfl]
    rfl
  · rw [prepare, if_neg (not_not.mpr hroute), if_neg Bool.false_ne_true.symm, tankCommand]
    cases serial with
    | absent => rfl
    | opened =>
        simp only [SerialState.setting]
        cases formatCommand (parseTankCommand u path) <;> rfl
    | raising taken e =>
        simp only [SerialState.setting]
        cases formatCommand (parseTankCommand u path) <;> rfl

/-! ## What the answer says -/

/-- The code in the status line of a response. -/
def statusCode : Response → ℕ
  | .headers code => code
  | .sendError code _ => code

/-- The codes of all status lines that are sent. -/
def Outcome.statusLines (o : Outcome) : List ℕ := o.responses.map statusCode

/-- The port has taken the whole line of the command. -/
def Complete (u : UnicodeTables) (path : Text) (o : Outcome) : Prop :=
  ∃ commandStr, formatCommand (parseTankCommand u path) = .ok commandStr ∧
    o.written = messageToSend commandStr

/-- There is one status line; it is `200` exactly when the whole line is written, and an error
when nothing is. -/
def Truthful (u : UnicodeTables) (path : Text) (o : Outcome) : Prop :=
  ∃ code, o.statusLines = [code] ∧ (code = 200 ↔ Complete u path o) ∧
    (o.written = [] → 400 ≤ code)

/-- More than one status line is one too many. -/
theorem not_truthful_of_error {u : UnicodeTables} {path : Text} {responses : List Response}
    {e : Text} {written : List UInt8} (h : responses ≠ []) :
    ¬ Truthful u path ⟨responses ++ [errorResponse e], written⟩ := by
  rintro ⟨code, hcode, -⟩
  have hlength := congrArg List.length hcode
  have hpos := List.length_pos_iff.mpr h
  simp only [Outcome.statusLines, List.length_map, List.length_append, List.length_singleton]
    at hlength
  omega

theorem messageToSend_ne_nil (commandStr : Text) : messageToSend commandStr ≠ [] := by
  have hlast : encodeUtf8 ['\n'] = [10] := by decide
  simp [messageToSend, hlast]

/-- **When the answer tells the truth.**  For every path that comes to the branch of the
commands and every state of the port, there is one status line, `200` exactly when the whole
line was written and an error when nothing was, if and only if the port takes every byte
and the command in the path has a value that `int` accepts for each of the six keys. -/
theorem truthful_iff {u : UnicodeTables} {serial : SerialState} {path : Text} {o : Outcome}
    (h : doGet u serial path = some o) :
    Truthful u path o ↔ serial = .opened ∧ ∃ v, SerialLines.StandsFor u path v := by
  obtain ⟨-, ho⟩ := Option.ite_none_right_eq_some.mp h
  obtain rfl := Option.some.inj ho
  have hvalues : (∃ v, SerialLines.StandsFor u path v) ↔
      ∃ commandStr, formatCommand (parseTankCommand u path) = .ok commandStr := by
    simp only [SerialLines.StandsFor, SerialLines.formatCommand_eq_ok_iff_values,
      ← parseTankCommand_eq_lastAccepted]
    constructor
    · rintro ⟨v, hv⟩
      exact ⟨_, v, hv, rfl⟩
    · rintro ⟨-, v, hv, -⟩
      exact ⟨v, hv⟩
  rw [hvalues, tankCommand]
  by_cases habsent : serial = .absent
  · -- the handler returns after `200`
    subst habsent
    refine iff_of_false ?_ (by simp)
    rintro ⟨code, hcode, -, hnothing⟩
    obtain rfl : 200 = code := by simpa [Outcome.statusLines, statusCode] using hcode
    exact absurd (hnothing rfl) (by decide)
  · simp only [if_neg habsent]
    cases hline : formatCommand (parseTankCommand u path) with
    | error key =>
        apply iff_of_false (not_truthful_of_error (by simp))
        rintro ⟨-, commandStr, hcommand⟩
        cases hcommand
    | ok commandStr =>
        cases serial with
        | absent => exact absurd rfl habsent
        | raising taken e => exact iff_of_false (not_truthful_of_error (by simp)) (by simp)
        | opened =>
            refine iff_of_true ⟨200, rfl, iff_of_true rfl ⟨commandStr, hline, rfl⟩, ?_⟩ (by simp)
            intro hnothing
            exact absurd hnothing (messageToSend_ne_nil commandStr)

/-- A command with all six values and an open port. -/
theorem truthful_of_complete :
    let path := "/tank_command?cmd=FR:5;LR:0;UD:0;TLR:0;FC:0;LC:1".toList
    ∃ o, doGet .bare .opened path = some o ∧ Truthful .bare path o := by
  intro path
  have hvalues : ∃ v, SerialLines.StandsFor .bare path v := by
    refine ⟨CommandLink.valuesOf 5 0 0 0 0 1, fun f => ?_⟩
    cases f <;> decide
  exact ⟨_, if_pos (by decide), (truthful_iff (if_pos (by decide))).mpr ⟨rfl, hvalues⟩⟩

/-- Without a port the answer is `200` and nothing is written. -/
theorem untruthful_without_port :
    let path := "/tank_command?cmd=FR:5;LR:0;UD:0;TLR:0;FC:0;LC:1".toList
    ¬ ∀ o, doGet .bare .absent path = some o → Truthful .bare path o := by
  intro path h
  obtain ⟨code, hcode, -, hnothing⟩ := h ⟨[.headers 200], []⟩ (by decide)
  obtain rfl : 200 = code := by simpa [Outcome.statusLines, statusCode] using hcode
  exact absurd (hnothing rfl) (by decide)

end CommandAnswers
