/-
# The multipart stream (`/stream.mjpg` in `main/web.py`)

For each frame the handler writes the boundary, then headers through `send_header` and
`end_headers` of `http.server`, then the frame, then an end of line.  The headers go
through a buffer that `end_headers` empties, so it is empty between parts.  A reader that
trusts the declared length never looks for the boundary in a frame.

* `serve_eq`: what the loop writes is the parts of the frames;
* `streamReader_reads`: the reader of one part;
* `stream_decodable`: the whole stream, and every truncation of it.
-/
import ProjectTank.FramedStream
import ProjectTank.PythonText
import ProjectTank.SeparatedText
import ProjectTank.StreamingOutput

open FramedStream SeparatedText DecimalText ProgramText Python StreamingOutput

namespace StreamDecoding

/-- The end of a line. -/
def crlf : List UInt8 := [13, 10]

/-! ## The handler -/

/-- A `StreamingHandler`: the header lines not sent yet, and all that has been written. -/
structure Handler where
  headersBuffer : List (List UInt8) := []
  wfile : List UInt8 := []

namespace Handler

/-- `self.wfile.write`. -/
def write (h : Handler) (bytes : List UInt8) : Handler := { h with wfile := h.wfile ++ bytes }

/-- `send_header` of `http.server`. -/
def sendHeader (h : Handler) (keyword value : Text) : Handler :=
  { h with headersBuffer :=
      h.headersBuffer ++ [encodeUtf8 (keyword ++ ": ".toList ++ value ++ "\r\n".toList)] }

/-- `end_headers` of `http.server`. -/
def endHeaders (h : Handler) : Handler where
  headersBuffer := []
  wfile := h.wfile ++ (h.headersBuffer ++ [crlf]).flatten

/-- `send_response` of `http.server`, which buffers the status line and two headers. -/
def sendResponse (h : Handler) (lines : List (List UInt8)) : Handler :=
  { h with headersBuffer := h.headersBuffer ++ lines }

/-- What `do_GET` sends before the loop. -/
def streamHeaders (h : Handler) (lines : List (List UInt8)) : Handler :=
  (((((h.sendResponse lines).sendHeader "Age".toList "0".toList).sendHeader
    "Cache-Control".toList "no-cache, private".toList).sendHeader
    "Pragma".toList "no-cache".toList).sendHeader
    "Content-Type".toList "multipart/x-mixed-replace; boundary=FRAME".toList).endHeaders

/-- One round of the loop, with the frame it has got. -/
def sendFrame (h : Handler) (frame : Frame) : Handler :=
  (((((h.write (encodeUtf8 "--FRAME\r\n".toList)).sendHeader
    "Content-Type".toList "image/jpeg".toList).sendHeader
    "Content-Length".toList (natText frame.length)).endHeaders).write frame).write
    (encodeUtf8 "\r\n".toList)

/-- The loop, over the frames it gets. -/
def serve (h : Handler) (frames : List Frame) : Handler := frames.foldl sendFrame h

theorem headersBuffer_streamHeaders (h : Handler) (lines : List (List UInt8)) :
    (h.streamHeaders lines).headersBuffer = [] := rfl

end Handler

/-! ## What the loop writes -/

/-- The bytes of a part. -/
def part (frame : Frame) : List UInt8 := (pieces frame).flatten

/-- The header lines of a part, without their ends. -/
def headerLines (frame : Frame) : List (List UInt8) :=
  [encodeUtf8 "Content-Type: image/jpeg".toList,
    encodeUtf8 ("Content-Length: ".toList ++ natText frame.length)]

theorem encodeUtf8_crlf : encodeUtf8 "\r\n".toList = crlf := by decide

theorem encodeUtf8_boundary :
    encodeUtf8 "--FRAME\r\n".toList = encodeUtf8 "--FRAME".toList ++ crlf := by decide

theorem encodeUtf8_contentType :
    encodeUtf8 "Content-Type: image/jpeg\r\nContent-Length: ".toList =
      encodeUtf8 "Content-Type: image/jpeg".toList ++ crlf ++
        encodeUtf8 "Content-Length: ".toList := by decide

/-- A part, as its reader meets it. -/
theorem part_eq (frame : Frame) :
    part frame = encodeUtf8 "--FRAME".toList ++ 13 :: 10 ::
      ((headerLines frame).flatMap (· ++ [13, 10]) ++ 13 :: 10 :: (frame ++ crlf)) := by
  have hblank : encodeUtf8 "\r\n\r\n".toList = [13, 10, 13, 10] := by decide
  simp only [part, pieces, headerLines, encodeUtf8_append, encodeUtf8_boundary,
    encodeUtf8_contentType, encodeUtf8_crlf, hblank, crlf, List.flatten_cons, List.flatten_nil,
    List.flatMap_cons, List.flatMap_nil, List.append_assoc, List.cons_append, List.nil_append,
    List.append_nil]

/-- With an empty header buffer, a round writes the part and leaves the buffer empty. -/
theorem sendFrame_eq {h : Handler} (hbuffer : h.headersBuffer = []) (frame : Frame) :
    h.sendFrame frame = { headersBuffer := [], wfile := h.wfile ++ part frame } := by
  have htype : encodeUtf8 "Content-Type".toList ++ (encodeUtf8 ": ".toList ++
      encodeUtf8 "image/jpeg".toList) = encodeUtf8 "Content-Type: image/jpeg".toList := by decide
  have hlength : encodeUtf8 "Content-Length".toList ++ encodeUtf8 ": ".toList =
      encodeUtf8 "Content-Length: ".toList := by decide
  simp only [Handler.sendFrame, Handler.write, Handler.sendHeader, Handler.endHeaders, hbuffer,
    ← htype, part_eq, headerLines, encodeUtf8_boundary, encodeUtf8_append, encodeUtf8_crlf,
    ← hlength, crlf, List.flatten_cons, List.flatten_nil,
    List.flatMap_cons, List.flatMap_nil, List.append_assoc, List.cons_append, List.nil_append,
    List.append_nil]

theorem serve_eq {h : Handler} (hbuffer : h.headersBuffer = []) (frames : List Frame) :
    h.serve frames = { headersBuffer := [], wfile := h.wfile ++ frames.flatMap part } := by
  induction frames generalizing h with
  | nil =>
      obtain ⟨buffer, wfile⟩ := h
      obtain rfl : buffer = [] := hbuffer
      simp [Handler.serve]
  | cons frame frames ih =>
      show (h.sendFrame frame).serve frames = _
      rw [ih (by rw [sendFrame_eq hbuffer]), sendFrame_eq hbuffer, List.flatMap_cons,
        List.append_assoc]

/-! ## The reader -/

/-- The value of a `Content-Length` line. -/
def contentLengthOf (line : List UInt8) : Option ℕ :=
  match cut ':' (ofBytes line) with
  | some (name, value) =>
      let digits := strip value
      if name = "Content-Length".toList ∧ digits ≠ [] ∧ digits.all Char.isDigit then
        some (readNat digits)
      else none
  | none => none

/-- The length that header lines declare. -/
def contentLength (lines : List (List UInt8)) : Option ℕ := lines.findSome? contentLengthOf

/-- A part: the boundary line is skipped, the header lines are read up to the blank line, then
as many bytes as they declare, and an end of line. -/
def partParser : Parser UInt8 Frame :=
  (line 13 10).andThen fun _ =>
    (lines 13 10).andThen fun headers =>
      (Parser.ofOption (contentLength headers)).andThen fun n =>
        (Parser.takeExactly n).andThen fun frame =>
          (Parser.literal crlf).andThen fun _ => Parser.ofOption (some frame)

/-- The reader of the stream. -/
def streamReader : Reader UInt8 Frame where
  part := partParser
  shrinks := Parser.Shrinks.andThen (line_shrinks 13 10) _

theorem contentLength_headerLines (frame : Frame) :
    contentLength (headerLines frame) = some frame.length := by
  have htype : contentLengthOf (encodeUtf8 "Content-Type: image/jpeg".toList) = none := by decide
  have hdigits : ∀ c ∈ natText frame.length, c.isDigit = true :=
    fun c hc => isDigit_of_mem_natText hc
  have hascii : ("Content-Length: ".toList ++ natText frame.length).all isAscii = true := by
    rw [List.all_append, show natText frame.length = intText frame.length from rfl, intText_ascii]
    decide
  have hstrip : strip (' ' :: natText frame.length) = natText frame.length :=
    strip_intText frame.length
  have hcut : cut ':' ("Content-Length: ".toList ++ natText frame.length) =
      some ("Content-Length".toList, ' ' :: natText frame.length) :=
    cut_append (p := "Content-Length".toList) (by decide) _
  have hlength : contentLengthOf (encodeUtf8 ("Content-Length: ".toList ++
      natText frame.length)) = some frame.length := by
    rw [contentLengthOf, ofBytes_encodeUtf8 hascii, hcut]
    simp only [hstrip]
    rw [if_pos ⟨trivial, natText_ne_nil _, List.all_eq_true.mpr hdigits⟩, readNat_natText]
  simp only [contentLength, headerLines, List.findSome?_cons, htype, hlength]

/-- No header line is empty or has a carriage return in it. -/
theorem headerLines_ends (frame : Frame) :
    ∀ l ∈ headerLines frame, l ≠ [] ∧ (13 : UInt8) ∉ l := by
  have htype : encodeUtf8 "Content-Type: image/jpeg".toList ≠ [] ∧
      (13 : UInt8) ∉ encodeUtf8 "Content-Type: image/jpeg".toList := by decide
  have hname : encodeUtf8 "Content-Length: ".toList ≠ [] ∧
      (13 : UInt8) ∉ encodeUtf8 "Content-Length: ".toList := by decide
  have hdigits : (13 : UInt8) ∉ encodeUtf8 (natText frame.length) := fun h =>
    not_mem_intText (by decide) (by decide) frame.length
      (mem_of_mem_encodeUtf8 (intText_ascii frame.length) h)
  intro l hl
  rcases List.mem_pair.mp hl with rfl | rfl
  · exact htype
  · rw [encodeUtf8_append]
    exact ⟨fun h => hname.1 (List.append_eq_nil_iff.mp h).1, fun h =>
      (List.mem_append.mp h).elim hname.2 hdigits⟩

/-- **The reader reads a part back**, whatever the frame contains and whatever follows. -/
theorem streamReader_reads : streamReader.Reads part := by
  intro frame t
  show partParser.run (part frame ++ t) = some (frame, t)
  have hboundary : (13 : UInt8) ∉ encodeUtf8 "--FRAME".toList := by decide
  have hlength : (Parser.ofOption (contentLength (headerLines frame))).run (frame ++ (crlf ++ t)) =
      some (frame.length, frame ++ (crlf ++ t)) := by
    rw [contentLength_headerLines]
    rfl
  -- boundary, header, length, frame and end of line, one after the other
  rw [part_eq, List.append_assoc, List.cons_append, List.cons_append, partParser,
    Parser.andThen_run _ _ (line_append 13 10 hboundary _), List.append_assoc, List.cons_append,
    List.cons_append, Parser.andThen_run _ _ (lines_append 13 10 (headerLines_ends frame) _),
    List.append_assoc, Parser.andThen_run _ _ hlength,
    Parser.andThen_run _ _ (Parser.takeExactly_append frame _),
    Parser.andThen_run _ _ (Parser.literal_append crlf t)]
  rfl

/-! ## The whole stream -/

/-- **The stream is uniquely decodable**: what the loop writes after the response headers is
read back as the frames, and a truncation of it as the frames whose parts are whole. -/
theorem stream_decodable (h : Handler) (status : List (List UInt8)) (frames : List Frame) :
    ∃ body, ((h.streamHeaders status).serve frames).wfile =
        (h.streamHeaders status).wfile ++ body ∧
      streamReader.readAll body = frames ∧
      ∀ s, s <+: body → ∃ whole missing left, frames = whole ++ missing ∧
        s = whole.flatMap part ++ left ∧ streamReader.readAll s = whole ∧
        (left = [] ∨ ∃ frame ∈ missing.head?, left <+: part frame ∧ left ≠ part frame) := by
  refine ⟨frames.flatMap part, ?_, ?_, ?_⟩
  · rw [serve_eq (Handler.headersBuffer_streamHeaders h status)]
  · exact Reader.readAll_flatMap streamReader_reads frames
  · intro s hs
    exact Reader.readAll_of_prefix streamReader_reads hs

/-- A frame that contains the boundary, and an empty one. -/
example : streamReader.readAll
    ([encodeUtf8 "\r\n--FRAME\r\n".toList, []].flatMap part) =
      [encodeUtf8 "\r\n--FRAME\r\n".toList, []] := by
  decide +kernel

end StreamDecoding
