/-
# The letter servers (`main/web.py` and `peter/ultrasonic/web.py`)

The branch `/tank_command` of `do_GET`, with `send_command_to_arduino`: the command is
what follows the last `=` in the last part of the path, in upper case; one of the five
letters is written to the serial port under `serial_lock`, and then the request is
answered.  An exception of `ser.write` is printed, and the answer is the same.  The two
servers differ in nothing that these requests meet.

* `handler` is the program of a handler thread;
* `handler_writes`: a handler writes the letter of its path, or nothing.
-/
import ProjectTank.TankServer
import ProjectTank.CarFirmware
import ProjectTank.LastWriter

open ProgramText WriterPool TankServer

namespace LetterServer

/-- The commands that page and server know. -/
def commandLetters : List Text :=
  ["W".toList, "A".toList, "S".toList, "D".toList, "X".toList]

/-- The stop command. -/
abbrev stopCommand : Text := ['X']

/-- `command`: what follows the last `=` in what follows the last `?`. -/
def commandOf (u : UnicodeTables) (path : Text) : Text :=
  let query := (path.splitOn '?').getLastD []
  toUpperCase u ((query.splitOn '=').getLastD [])

/-- A request and what has been sent back. -/
structure Request where
  path : Text
  responses : List Response := []
  deriving DecidableEq

/-- The request is answered with `200`. -/
def Request.accept (r : Request) : Request := { r with responses := r.responses ++ [.headers 200] }

/-- The handler up to the lock. -/
def prepare (s : Setting) (r : Request) : Prep Request UInt8 :=
  if route r.path ≠ .tankCommand then .quit r
  else
    let command := commandOf s.unicode r.path
    if command ∈ commandLetters then
      -- without a serial port the command is dropped and the request accepted
      if s.serialOpen = false then .quit r.accept
      else .ready r (encodeUtf8 command)
    else
      .quit { r with
        responses := r.responses ++ [.sendError 400 "Invalid Tank Command".toList] }

/-- `do_GET` as the program of a handler thread. -/
def handler (s : Setting) : Program Request UInt8 where
  prepare := prepare s
  finish := Request.accept
  fail := Request.accept

/-- The bytes that a request may contribute: the letter of its path. -/
def LetterOf (s : Setting) (r : Request) (buf : List UInt8) : Prop :=
  route r.path = .tankCommand ∧ commandOf s.unicode r.path ∈ commandLetters ∧
    buf = encodeUtf8 (commandOf s.unicode r.path)

/-- **A handler writes the letter of its path, or nothing.** -/
theorem handler_writes (s : Setting) : (handler s).Writes (LetterOf s) where
  ready := by
    intro r r' buf h
    simp only [handler, prepare] at h
    split_ifs at h with hroute hletter hserial
    obtain ⟨rfl, rfl⟩ := Prep.ready.inj h
    exact ⟨not_not.mp hroute, hletter, rfl⟩
  finish := fun _ _ h => h

/-- A handler never changes the path it works on. -/
theorem path_prepare (s : Setting) (r : Request) : (prepare s r).data.path = r.path := by
  simp only [prepare]
  split_ifs <;> rfl

/-- What is said of the paths only stays true. -/
theorem keeps_path (s : Setting) (P : Text → Prop) : (handler s).Keeps fun r => P r.path where
  prepare := by
    intro r h
    show P (prepare s r).data.path
    rwa [path_prepare]
  finish := fun _ h => h
  fail := fun _ h => h

/-- A letter is one byte, which the firmware takes for its current command. -/
theorem encodeUtf8_letter {command : Text} (h : command ∈ commandLetters) :
    ∃ b, encodeUtf8 command = [b] ∧ ∀ c, command = [CarFirmware.receive c b] := by
  have hcases : command = "W".toList ∨ command = "A".toList ∨ command = "S".toList ∨
      command = "D".toList ∨ command = "X".toList := by
    simpa [commandLetters] using h
  rcases hcases with rfl | rfl | rfl | rfl | rfl
  · exact ⟨87, rfl, fun _ => rfl⟩
  · exact ⟨65, rfl, fun _ => rfl⟩
  · exact ⟨83, rfl, fun _ => rfl⟩
  · exact ⟨68, rfl, fun _ => rfl⟩
  · exact ⟨88, rfl, fun _ => rfl⟩

/-! ## One request after the other -/

/-- A handler that runs alone and does not fail: what it writes, and the answered request. -/
def serve (s : Setting) (r : Request) : List UInt8 × Request :=
  match prepare s r with
  | .ready r buf => (buf, r.accept)
  | .work r => ([], r)
  | .quit r => ([], r)

/-- `response.ok` for a response of the server. -/
def responseOk : Response → Bool
  | .headers code => 200 ≤ code && code < 300
  | .sendError code _ => 200 ≤ code && code < 300

/-- A letter is written, if there is a serial port, and the request is accepted. -/
theorem serve_of_letter {s : Setting} {r : Request} (hroute : route r.path = .tankCommand)
    (hletter : commandOf s.unicode r.path ∈ commandLetters) :
    serve s r =
      (if s.serialOpen = false then [] else encodeUtf8 (commandOf s.unicode r.path), r.accept) := by
  have hprepare : prepare s r = if s.serialOpen = false then .quit r.accept
      else .ready r (encodeUtf8 (commandOf s.unicode r.path)) := by
    rw [prepare, if_neg (not_not.mpr hroute)]
    exact if_pos hletter
  rw [serve, hprepare]
  cases s.serialOpen <;> rfl

end LetterServer
