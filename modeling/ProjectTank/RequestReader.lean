/-
# Reading a request through the buffer (`_read`, `_readline`, `client_thread` in `httpd.c`)

The server reads from the socket in blocks of at most `IO_BUFFER` bytes, keeps a block at the end of
its buffer, and hands it out byte by byte; `_readline` gives up when five seconds pass without data.

* `read_eq`: `_read` takes the first bytes of what is in the buffer and on its way;
* `clientThreadFrom_eq`: what the thread does depends on the bytes that arrive before a pause, and
  neither on the blocks they come in nor on the buffer.
-/
import ProjectTank.ClientThread
import ProjectTank.ElementSource

open ProgramText ClientThread

namespace RequestReader

/-! ## The buffer -/

def IO_BUFFER : ℕ := 256

/-- `iobuffer`: the bytes that are left stand at its end. -/
structure IoBuffer where
  buffer : List UInt8
  level : ℕ
  length_buffer : buffer.length = IO_BUFFER
  level_le : level ≤ IO_BUFFER

/-- What is left in the buffer. -/
def IoBuffer.contents (b : IoBuffer) : List UInt8 := b.buffer.drop (IO_BUFFER - b.level)

/-- `init_iobuffer`. -/
def initIobuffer : IoBuffer where
  buffer := List.replicate IO_BUFFER 0
  level := 0
  length_buffer := List.length_replicate
  level_le := Nat.zero_le _

/-- So many bytes are taken. -/
def IoBuffer.consume (b : IoBuffer) (i : ℕ) : IoBuffer :=
  { b with level := b.level - i, level_le := (Nat.sub_le _ _).trans b.level_le }

theorem length_contents (b : IoBuffer) : b.contents.length = b.level := by
  have hle := b.level_le
  rw [IoBuffer.contents, List.length_drop, b.length_buffer]
  omega

theorem contents_consume (b : IoBuffer) {i : ℕ} (hi : i ≤ b.level) :
    (b.consume i).contents = b.contents.drop i := by
  have hle := b.level_le
  simp only [IoBuffer.contents, IoBuffer.consume, List.drop_drop]
  congr 1
  omega

/-- A block of bytes that `read` returns. -/
structure Block where
  bytes : List UInt8
  pos : bytes ≠ []
  fits : bytes.length ≤ IO_BUFFER

theorem length_align (b : Block) : ((b.bytes ++ List.replicate (IO_BUFFER - b.bytes.length) 0).take
    (IO_BUFFER - b.bytes.length) ++ b.bytes).length = IO_BUFFER := by
  have hfits := b.fits
  simp only [List.length_append, List.length_take, List.length_replicate]
  omega

/-- `read` into the cleared buffer, and `memmove` to its end. -/
def fill (b : Block) : IoBuffer where
  buffer := (b.bytes ++ List.replicate (IO_BUFFER - b.bytes.length) 0).take
    (IO_BUFFER - b.bytes.length) ++ b.bytes
  level := b.bytes.length
  length_buffer := length_align b
  level_le := b.fits

theorem contents_fill (b : Block) : (fill b).contents = b.bytes := by
  have hfits := b.fits
  rw [IoBuffer.contents]
  show List.drop (IO_BUFFER - b.bytes.length) (_ ++ b.bytes) = b.bytes
  apply List.drop_left'
  simp only [List.length_take, List.length_append, List.length_replicate]
  omega

/-! ## `_read` -/

/-- What a wait for the socket ends with: nothing within the time, a closed connection, a block. -/
inductive Arrival
  | silence
  | closed
  | data (block : Block)

/-- The bytes that arrive before a pause or the end. -/
def available : List Arrival → List UInt8
  | .data block :: arrivals => block.bytes ++ available arrivals
  | _ => []

/-- A connection: the buffer, and what its waits will end with. -/
structure Connection where
  iobuf : IoBuffer
  arrivals : List Arrival

/-- What is in the buffer and on its way. -/
def Connection.stream (c : Connection) : List UInt8 := c.iobuf.contents ++ available c.arrivals

/-- The first half of the loop of `_read`: what the buffer has is copied. -/
def copyFrom (len : ℕ) (iobuf : IoBuffer) (copied : List UInt8) : List UInt8 × IoBuffer :=
  let i := min iobuf.level (len - copied.length)
  (copied ++ iobuf.contents.take i, iobuf.consume i)

/-- The loop of `_read`: the bytes that are copied, or `none` for its `-1`. -/
def readLoop (len : ℕ) : IoBuffer → List UInt8 → List Arrival → Option (List UInt8) × Connection
  | iobuf, copied, [] =>
      let next := copyFrom len iobuf copied
      (some next.1, ⟨next.2, []⟩)
  | iobuf, copied, arrival :: arrivals =>
      let next := copyFrom len iobuf copied
      if len ≤ next.1.length then (some next.1, ⟨next.2, arrival :: arrivals⟩)
      else
        match arrival with
        | .silence => (some next.1, ⟨next.2, arrivals⟩)
        | .closed => (none, ⟨next.2, arrivals⟩)
        | .data block => readLoop len (fill block) next.1 arrivals

/-- `_read`. -/
def read (len : ℕ) (c : Connection) : Option (List UInt8) × Connection :=
  if len = 0 then (some [], c) else readLoop len c.iobuf [] c.arrivals

theorem copyFrom_eq {len : ℕ} (iobuf : IoBuffer) {copied : List UInt8} (h : copied.length ≤ len) :
    (copyFrom len iobuf copied).1 = (copied ++ iobuf.contents).take len ∧
      (copyFrom len iobuf copied).2.contents = (copied ++ iobuf.contents).drop len := by
  have hlevel := length_contents iobuf
  constructor
  · show copied ++ iobuf.contents.take _ = _
    rw [List.take_append, List.take_of_length_le h,
      List.take_eq_take_min (i := len - copied.length) (l := iobuf.contents), hlevel, min_comm]
  · show (iobuf.consume _).contents = _
    rw [contents_consume iobuf (Nat.min_le_left _ _), List.drop_append, List.drop_of_length_le h,
      List.nil_append]
    by_cases hle : iobuf.level ≤ len - copied.length
    · rw [min_eq_left hle, List.drop_of_length_le hlevel.le, List.drop_of_length_le (by omega)]
    · rw [min_eq_right (by omega)]

/-- **What `_read` returns**: the first bytes of the stream, if so many come before a pause; else
all that came, or an error. -/
theorem readLoop_eq {len : ℕ} {iobuf : IoBuffer} {copied : List UInt8} (arrivals : List Arrival)
    (h : copied.length ≤ len) :
    (len ≤ (copied ++ (iobuf.contents ++ available arrivals)).length →
      (readLoop len iobuf copied arrivals).1 =
          some ((copied ++ (iobuf.contents ++ available arrivals)).take len) ∧
        (readLoop len iobuf copied arrivals).2.stream =
          (copied ++ (iobuf.contents ++ available arrivals)).drop len) ∧
    ((copied ++ (iobuf.contents ++ available arrivals)).length < len →
      (readLoop len iobuf copied arrivals).1 = none ∨
        (readLoop len iobuf copied arrivals).1 =
          some (copied ++ (iobuf.contents ++ available arrivals))) := by
  induction arrivals generalizing iobuf copied with
  | nil =>
      obtain ⟨hcopied, hleft⟩ := copyFrom_eq iobuf h
      simp only [available, List.append_nil]
      refine ⟨fun _ => ⟨congrArg some hcopied, ?_⟩, fun hshort => Or.inr ?_⟩
      · show (copyFrom len iobuf copied).2.contents ++ [] = _
        rw [hleft, List.append_nil]
      · show some (copyFrom len iobuf copied).1 = _
        rw [hcopied, List.take_of_length_le (by omega)]
  | cons arrival arrivals ih =>
      obtain ⟨hcopied, hleft⟩ := copyFrom_eq iobuf h
      have hlength : (copyFrom len iobuf copied).1.length =
          min len (copied ++ iobuf.contents).length := by rw [hcopied, List.length_take]
      have hloop : readLoop len iobuf copied (arrival :: arrivals) =
          if len ≤ (copyFrom len iobuf copied).1.length then
            (some (copyFrom len iobuf copied).1,
              ⟨(copyFrom len iobuf copied).2, arrival :: arrivals⟩)
          else
            match arrival with
            | .silence =>
                (some (copyFrom len iobuf copied).1, ⟨(copyFrom len iobuf copied).2, arrivals⟩)
            | .closed => (none, ⟨(copyFrom len iobuf copied).2, arrivals⟩)
            | .data block => readLoop len (fill block) (copyFrom len iobuf copied).1 arrivals := by
        cases arrival <;> rfl
      rw [hloop]
      by_cases henough : len ≤ (copyFrom len iobuf copied).1.length
      · -- the buffer has enough
        have hlong : len ≤ (copied ++ iobuf.contents).length := by omega
        rw [if_pos henough, ← List.append_assoc]
        refine ⟨fun _ => ⟨?_, ?_⟩, fun hshort => ?_⟩
        · rw [List.take_append_of_le_length hlong, hcopied]
        · show (copyFrom len iobuf copied).2.contents ++ available (arrival :: arrivals) = _
          rw [List.drop_append_of_le_length hlong, hleft]
        · rw [List.length_append] at hshort
          omega
      · -- the buffer is empty, and the next block comes
        have hall : (copyFrom len iobuf copied).1 = copied ++ iobuf.contents := by
          rw [hcopied]
          apply List.take_of_length_le
          omega
        rw [if_neg henough]
        cases arrival with
        | silence =>
            simp only [available, List.append_nil]
            refine ⟨fun hlong => ?_, fun _ => Or.inr ?_⟩
            · rw [hall] at henough
              omega
            · rw [hall]
        | closed =>
            simp only [available, List.append_nil]
            refine ⟨fun hlong => ?_, fun _ => Or.inl trivial⟩
            rw [hall] at henough
            omega
        | data block =>
            have hroom : (copyFrom len iobuf copied).1.length ≤ len := by omega
            have hrest := @ih (fill block) _ hroom
            rw [contents_fill, hall, List.append_assoc] at hrest
            simp only [available, hall]
            exact hrest

theorem read_eq (len : ℕ) (c : Connection) :
    (len ≤ c.stream.length →
      (read len c).1 = some (c.stream.take len) ∧ (read len c).2.stream = c.stream.drop len) ∧
    (c.stream.length < len → (read len c).1 = none ∨ (read len c).1 = some c.stream) := by
  unfold read
  split
  · next hzero =>
    rw [hzero]
    exact ⟨fun _ => ⟨rfl, rfl⟩, fun h => absurd h (Nat.not_lt_zero _)⟩
  · have hnothing : ([] : List UInt8).length ≤ len := Nat.zero_le len
    exact readLoop_eq c.arrivals hnothing

/-! ## `_readline` -/

/-- `_read` of one byte. -/
def readByte (c : Connection) : Option (UInt8 × Connection) :=
  match read 1 c with
  | (some [b], c') => some (b, c')
  | _ => none

theorem readByte_spec (c : Connection) :
    (c.stream = [] ∧ readByte c = none) ∨
    ∃ b c', readByte c = some (b, c') ∧ c.stream = b :: c'.stream := by
  obtain ⟨hlong, hshort⟩ := read_eq 1 c
  unfold readByte
  cases hstream : c.stream with
  | nil =>
      rw [hstream] at hshort
      refine Or.inl ⟨rfl, ?_⟩
      rcases hshort Nat.one_pos with h | h
      · rw [show read 1 c = (none, (read 1 c).2) from Prod.ext h rfl]
      · rw [show read 1 c = (some [], (read 1 c).2) from Prod.ext h rfl]
  | cons b bs =>
      rw [hstream] at hlong
      obtain ⟨hread, hrest⟩ := hlong (Nat.succ_pos _)
      refine Or.inr ⟨b, (read 1 c).2, ?_, by rw [hrest]; rfl⟩
      rw [show read 1 c = (some [b], (read 1 c).2) from Prod.ext hread rfl]

/-- A connection as a source of bytes. -/
def bytes : ElementSource Connection UInt8 where
  next := readByte
  rest := Connection.stream
  rest_of_none := by
    intro c h
    rcases readByte_spec c with ⟨hstream, -⟩ | ⟨b, c', hread, -⟩
    · exact hstream
    · rw [h] at hread
      cases hread
  rest_of_some := by
    intro c b c' h
    rcases readByte_spec c with ⟨-, hnone⟩ | ⟨b', c'', hread, hstream⟩
    · rw [h] at hnone
      cases hnone
    · rw [h] at hread
      obtain ⟨rfl, rfl⟩ := Prod.mk.inj (Option.some.inj hread)
      exact hstream

/-- `_readline`: at most so many bytes, up to and with a newline; `none` for its `-1`. -/
def readlineFrom (len : ℕ) (c : Connection) : Option (List UInt8 × Connection) :=
  bytes.takeLine (· = 10) len c

/-- The lines that the header loop reads. -/
def readHeadersFrom (c : Connection) : Option (List (List UInt8)) :=
  bytes.takeLines (· = 10) endsHeader (BUFFER_SIZE - 2) c

theorem readline_eq (n : ℕ) (bs : List UInt8) :
    readline n bs = (ElementSource.ofList UInt8).takeLine (· = 10) n bs := by
  induction n generalizing bs with
  | zero => rfl
  | succ n ih =>
      cases bs with
      | nil => rfl
      | cons b bs =>
          rw [readline, ih bs]
          show _ = if decide (b = 10) = true then _ else _
          simp only [decide_eq_true_eq]

theorem readHeaders_eq_takeLines (bs : List UInt8) : readHeaders bs =
    (ElementSource.ofList UInt8).takeLines (· = 10) endsHeader (BUFFER_SIZE - 2) bs := by
  induction hlength : bs.length using Nat.strong_induction_on generalizing bs with
  | _ k ih =>
    rw [readHeaders_eq, ElementSource.takeLines_step, readline_eq]
    show Option.bind ((ElementSource.ofList UInt8).takeLine _ (BUFFER_SIZE - 1) bs) _ =
      Option.bind ((ElementSource.ofList UInt8).takeLine _ (BUFFER_SIZE - 1) bs) _
    cases hline : (ElementSource.ofList UInt8).takeLine (· = 10) (BUFFER_SIZE - 1) bs with
    | none => rfl
    | some p =>
        obtain ⟨line, rest⟩ := p
        have hshort : rest.length < k := by
          rw [← readline_eq] at hline
          have hread := length_readline hline
          have hpos := hread.2 (by decide)
          omega
        show (if endsHeader line then _ else _) = if endsHeader line then _ else _
        rw [ih _ hshort rest rfl]

/-! ## The thread -/

/-- `client_thread`, for what arrives on the connection. -/
def clientThreadFrom (s : Server) (arrivals : List Arrival) : Outcome :=
  match readlineFrom (BUFFER_SIZE - 1) ⟨initIobuffer, arrivals⟩ with
  | none => { answer := .closed }
  | some (line, c) =>
      match early s (stringOf line) with
      | some outcome => outcome
      | none =>
          match readHeadersFrom c with
          | none => { answer := .closed }
          | some lines => { answer := checked s (stringOf line) lines }

theorem contents_initIobuffer : initIobuffer.contents = [] := by
  rw [IoBuffer.contents]
  apply List.drop_of_length_le
  exact initIobuffer.length_buffer.le

/-- **The buffer and the blocks do not matter**: what the thread does is what it does for the bytes
that arrive before a pause. -/
theorem clientThreadFrom_eq (s : Server) (arrivals : List Arrival) :
    clientThreadFrom s arrivals = clientThread s (available arrivals) := by
  have hstream : Connection.stream ⟨initIobuffer, arrivals⟩ = available arrivals := by
    rw [Connection.stream, contents_initIobuffer]
    rfl
  have hline := bytes.takeLine_eq (· = 10) (BUFFER_SIZE - 1) ⟨initIobuffer, arrivals⟩
  rw [show bytes.rest ⟨initIobuffer, arrivals⟩ = available arrivals from hstream, ← readline_eq]
    at hline
  unfold clientThreadFrom clientThread readlineFrom
  rw [← hline]
  cases bytes.takeLine (· = 10) (BUFFER_SIZE - 1) ⟨initIobuffer, arrivals⟩ with
  | none => rfl
  | some p =>
      obtain ⟨line, c⟩ := p
      have hheaders : readHeadersFrom c = readHeaders (bytes.rest c) := by
        rw [readHeadersFrom, bytes.takeLines_eq, ← readHeaders_eq_takeLines]
      cases hearly : early s (stringOf line) with
      | some outcome => simp only [hearly, Option.map_some]
      | none =>
          cases hlines : readHeaders (bytes.rest c) <;>
            simp only [hearly, Option.map_some, hheaders, hlines]

end RequestReader
