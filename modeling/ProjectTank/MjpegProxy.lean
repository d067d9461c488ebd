/-
# The receiver of a stream of pictures (`mjpg-proxy.c` and `misc.c` of `plugins/input_http`)

The plugin connects to another streamer, asks for its stream, and takes the pictures out of what
comes back, byte for byte: the header of a part ends at the first two CRLF, the picture ends at the
boundary, less the CRLF before it.  The option `signed` says whether the platform's `char` is
signed.

* `extractData_of_full`: once the buffer is full nothing is extracted any more;
* `Extracted.inBounds`: what is written, and the lengths that are reported, over any bytes.
-/
import ProjectTank.NaiveMatch
import ProjectTank.ProgramText

open ProgramText

namespace MjpegProxy

/-! ## `misc.c` -/

/-- A `char` as an `int`. -/
def charToInt (signed : Bool) (byte : UInt8) : BitVec 32 :=
  if signed then byte.toBitVec.signExtend 32 else byte.toBitVec.setWidth 32

/-- `is_crlf`: the bits of the two characters are set. -/
def isCrlf (bytes : BitVec 32) : Bool := 0x0D0A#32 &&& bytes == 0x0D0A#32

/-- `is_crlfcrlf`. -/
def isCrlfcrlf (bytes : BitVec 32) : Bool := isCrlf bytes && isCrlf (bytes.sshiftRight 16)

/-- `push_byte`. -/
def pushByte (signed : Bool) (bytes : BitVec 32) (byte : UInt8) : BitVec 32 :=
  bytes <<< 8 ||| charToInt signed byte

/-- A string and how much of it is matched (`current_matched_char` is the place in it). -/
structure SearchPattern where
  string : List UInt8
  currentMatchedChar : ℕ := 0
  deriving DecidableEq

/-- `search_pattern_reset`. -/
def SearchPattern.reset (p : SearchPattern) : SearchPattern := { p with currentMatchedChar := 0 }

/-- `search_pattern_compare`. -/
def SearchPattern.compare (p : SearchPattern) (c : UInt8) : SearchPattern :=
  if p.string[p.currentMatchedChar]? = some c then
    { p with currentMatchedChar := p.currentMatchedChar + 1 }
  else p.reset

/-- `search_pattern_matches`: the place is the end of the string. -/
def SearchPattern.matches (p : SearchPattern) : Bool := p.currentMatchedChar = p.string.length

/-! ## `extract_data` -/

def CONTENT_LENGTH : List UInt8 := encodeUtf8 "Content-Length:".toList

def BOUNDARY : List UInt8 := encodeUtf8 "--boundarydonotcross".toList

def BUFFER_SIZE : ℕ := 1024 * 256

inductive Part
  | header
  | content
  deriving DecidableEq

/-- `struct extractor_state`: the parser, with the bytes of the buffer that are in use. -/
structure ExtractorState where
  buffer : List UInt8
  part : Part
  lastFourBytes : BitVec 32
  contentlength : SearchPattern
  boundary : SearchPattern
  deriving DecidableEq

/-- `init_extractor_state`. -/
def initExtractorState : ExtractorState where
  buffer := []
  part := .header
  lastFourBytes := 0
  contentlength := { string := CONTENT_LENGTH }
  boundary := { string := BOUNDARY }

/-- A call of `on_image_received`: the bytes in the buffer, and the length that is reported. -/
structure Call where
  buffer : List UInt8
  length : ℤ
  deriving DecidableEq

/-- What the callback copies; `none` for a copy of a negative length. -/
def Call.image (c : Call) : Option (List UInt8) :=
  if 0 ≤ c.length then some (c.buffer.take c.length.toNat) else none

/-- The header of a part, one byte further. -/
def headerByte (signed : Bool) (st : ExtractorState) (byte : UInt8) : ExtractorState :=
  let st := { st with lastFourBytes := pushByte signed st.lastFourBytes byte }
  if isCrlfcrlf st.lastFourBytes then { st with part := .content }
  else if isCrlf st.lastFourBytes then { st with contentlength := st.contentlength.reset }
  else
    let contentlength := st.contentlength.compare byte
    { st with contentlength := if contentlength.matches then contentlength.reset else contentlength }

/-- The content of a part, one byte further. -/
def contentByte (st : ExtractorState) (byte : UInt8) : ExtractorState × Option Call :=
  -- "Buffer too small": the byte is dropped
  if BUFFER_SIZE - 1 ≤ st.buffer.length then (st, none)
  else
    let st := { st with buffer := st.buffer ++ [byte], boundary := st.boundary.compare byte }
    if st.boundary.matches then
      (initExtractorState,
        some { buffer := st.buffer, length := (st.buffer.length : ℤ) - (st.boundary.string.length + 2) })
    else (st, none)

/-- One round of the loop. -/
def extractByte (signed : Bool) (st : ExtractorState) (byte : UInt8) :
    ExtractorState × Option Call :=
  match st.part with
  | .header => (headerByte signed st byte, none)
  | .content => contentByte st byte

/-- `extract_data`, as long as the thread is not asked to stop. -/
def extractData (signed : Bool) : ExtractorState → List UInt8 → ExtractorState × List Call
  | st, [] => (st, [])
  | st, byte :: bytes =>
      let next := extractByte signed st byte
      let rest := extractData signed next.1 bytes
      (rest.1, next.2.toList ++ rest.2)

theorem extractData_append (signed : Bool) (st : ExtractorState) (bs cs : List UInt8) :
    extractData signed st (bs ++ cs) =
      ((extractData signed (extractData signed st bs).1 cs).1,
        (extractData signed st bs).2 ++ (extractData signed (extractData signed st bs).1 cs).2) := by
  induction bs generalizing st with
  | nil => rfl
  | cons b bs ih =>
      rw [List.cons_append, extractData, ih, extractData, List.append_assoc]

/-! ## The content of a part -/

/-- The extractor is in the content of a part: these bytes are in the buffer, and so many letters
of the boundary are matched. -/
structure InContent (st : ExtractorState) (buffer : List UInt8) (k : ℕ) : Prop where
  part : st.part = .content
  buffer : st.buffer = buffer
  boundary : st.boundary = { string := BOUNDARY, currentMatchedChar := k }

/-- The call for a buffer. -/
def callFor (buffer : List UInt8) : Call where
  buffer := buffer
  length := (buffer.length : ℤ) - (BOUNDARY.length + 2)

theorem compare_boundary (k : ℕ) (c : UInt8) :
    SearchPattern.compare { string := BOUNDARY, currentMatchedChar := k } c =
      { string := BOUNDARY, currentMatchedChar := NaiveMatch.advance BOUNDARY k c } := by
  unfold SearchPattern.compare NaiveMatch.advance
  split
  · rfl
  · rfl

/-- A byte while the buffer has room. -/
theorem extractByte_content (signed : Bool) {st : ExtractorState} {buffer : List UInt8} {k : ℕ}
    (h : InContent st buffer k) (hroom : buffer.length < BUFFER_SIZE - 1) (c : UInt8) :
    (NaiveMatch.advance BOUNDARY k c = BOUNDARY.length ∧
      extractByte signed st c = (initExtractorState, some (callFor (buffer ++ [c])))) ∨
    (NaiveMatch.advance BOUNDARY k c ≠ BOUNDARY.length ∧ ∃ st',
      extractByte signed st c = (st', none) ∧
        InContent st' (buffer ++ [c]) (NaiveMatch.advance BOUNDARY k c)) := by
  have hfull : ¬ BUFFER_SIZE - 1 ≤ st.buffer.length := by
    rw [h.buffer]
    omega
  have hbyte : extractByte signed st c = contentByte st c := by
    unfold extractByte
    rw [h.part]
  rw [hbyte, contentByte, if_neg hfull]
  simp only [h.boundary, compare_boundary, SearchPattern.matches, decide_eq_true_eq, h.buffer]
  by_cases hhit : NaiveMatch.advance BOUNDARY k c = BOUNDARY.length
  · exact Or.inl ⟨hhit, if_pos hhit⟩
  · exact Or.inr ⟨hhit, _, if_neg hhit, h.part, rfl, rfl⟩

/-- **Once the buffer is full nothing is extracted any more**, whatever comes. -/
theorem extractData_of_full {signed : Bool} {st : ExtractorState} {buffer : List UInt8} {k : ℕ}
    (h : InContent st buffer k) (hfull : BUFFER_SIZE - 1 ≤ buffer.length) (bs : List UInt8) :
    extractData signed st bs = (st, []) := by
  have hbyte : ∀ c, extractByte signed st c = (st, none) := by
    intro c
    unfold extractByte
    rw [h.part]
    apply if_pos
    rw [h.buffer]
    exact hfull
  induction bs with
  | nil => rfl
  | cons c bs ih => rw [extractData, hbyte c, ih]; rfl

/-- What is extracted from the content of a part on: the picture up to the first report of the
matcher, if that comes while there is room. -/
theorem extractData_content {signed : Bool} {st : ExtractorState} {buffer : List UInt8} {k : ℕ}
    (h : InContent st buffer k) (bs : List UInt8) : (extractData signed st bs).2 =
      match NaiveMatch.firstHit BOUNDARY k (bs.take (BUFFER_SIZE - 1 - buffer.length)) with
      | none => []
      | some n =>
          callFor (buffer ++ bs.take n) :: (extractData signed initExtractorState (bs.drop n)).2 := by
  induction bs generalizing st buffer k with
  | nil => rw [List.take_nil]; rfl
  | cons c bs ih =>
      by_cases hroom : buffer.length < BUFFER_SIZE - 1
      · obtain ⟨d, hd⟩ : ∃ d, BUFFER_SIZE - 1 - buffer.length = d + 1 :=
          ⟨BUFFER_SIZE - 1 - buffer.length - 1, by omega⟩
        rw [hd, List.take_succ_cons, NaiveMatch.firstHit, extractData]
        rcases extractByte_content signed h hroom c with
          ⟨hhit, hbyte⟩ | ⟨hhit, st', hbyte, hnext⟩
        · rw [hbyte, if_pos hhit]
          rfl
        · rw [hbyte, if_neg hhit]
          have hlength : BUFFER_SIZE - 1 - (buffer ++ [c]).length = d := by
            rw [List.length_append, List.length_singleton]
            omega
          have hrest := ih hnext
          rw [hlength] at hrest
          show (extractData signed st' bs).2 = _
          rw [hrest]
          cases NaiveMatch.firstHit BOUNDARY (NaiveMatch.advance BOUNDARY k c) (bs.take d) with
          | none => rfl
          | some n => simp
      · rw [extractData_of_full h (by omega), show BUFFER_SIZE - 1 - buffer.length = 0 by omega]
        rfl

/-! ## The header of a part -/

/-- How many bytes are read until the header is taken for finished. -/
def headerEnd (signed : Bool) : BitVec 32 → List UInt8 → Option ℕ
  | _, [] => none
  | w, c :: bs =>
      let w := pushByte signed w c
      if isCrlfcrlf w then some 1 else (headerEnd signed w bs).map (· + 1)

/-- The extractor is in the header of a part, with nothing of its content read. -/
structure InHeader (st : ExtractorState) (w : BitVec 32) : Prop where
  part : st.part = .header
  buffer : st.buffer = []
  boundary : st.boundary = { string := BOUNDARY }
  lastFourBytes : st.lastFourBytes = w

theorem inHeader_init : InHeader initExtractorState 0 := ⟨rfl, rfl, rfl, rfl⟩

/-- A byte of the header. -/
theorem extractByte_header (signed : Bool) {st : ExtractorState} {w : BitVec 32}
    (h : InHeader st w) (c : UInt8) : ∃ st', extractByte signed st c = (st', none) ∧
      ((isCrlfcrlf (pushByte signed w c) = true ∧ InContent st' [] 0) ∨
        (isCrlfcrlf (pushByte signed w c) = false ∧ InHeader st' (pushByte signed w c))) := by
  obtain ⟨hpart, hbuffer, hboundary, rfl⟩ := h
  have hbyte : extractByte signed st c = (headerByte signed st c, none) := by
    unfold extractByte
    rw [hpart]
  refine ⟨_, hbyte, ?_⟩
  unfold headerByte
  cases hend : isCrlfcrlf (pushByte signed st.lastFourBytes c) with
  | true =>
      left
      simp only [hend, if_true]
      exact ⟨trivial, rfl, hbuffer, hboundary⟩
  | false =>
      right
      simp only [hend, Bool.false_eq_true, if_false, true_and]
      split
      · exact ⟨hpart, hbuffer, hboundary, rfl⟩
      · exact ⟨hpart, hbuffer, hboundary, rfl⟩

/-- What is extracted from the header of a part on. -/
theorem extractData_header (signed : Bool) {st : ExtractorState} {w : BitVec 32}
    (h : InHeader st w) (bs : List UInt8) :
    (headerEnd signed w bs = none ∧ (extractData signed st bs).2 = []) ∨
    ∃ n st', headerEnd signed w bs = some n ∧ InContent st' [] 0 ∧
      (extractData signed st bs).2 = (extractData signed st' (bs.drop n)).2 := by
  induction bs generalizing st w with
  | nil => exact Or.inl ⟨rfl, rfl⟩
  | cons c bs ih =>
      obtain ⟨st', hbyte, hnext⟩ := extractByte_header signed h c
      rw [extractData, hbyte, headerEnd]
      rcases hnext with ⟨hend, hcontent⟩ | ⟨hend, hheader⟩
      · exact Or.inr ⟨1, st', if_pos hend, hcontent, rfl⟩
      · simp only [hend, Bool.false_eq_true, if_false]
        rcases ih hheader with ⟨hnone, hcalls⟩ | ⟨n, st'', hsome, hcontent, hcalls⟩
        · exact Or.inl ⟨by rw [hnone]; rfl, hcalls⟩
        · exact Or.inr ⟨n + 1, st'', by rw [hsome]; rfl, hcontent, hcalls⟩

/-! ## A connection -/

/-- What the look with number `n` at `should_stop` finds: nobody takes the request to stop back. -/
def stopped (stopAt : Option ℕ) (n : ℕ) : Bool := stopAt.any (· ≤ n)

/-- `extract_data` with its looks at `should_stop`; the number of the next look comes first. -/
def extractBlock (signed : Bool) (stopAt : Option ℕ) :
    ℕ → ExtractorState → List UInt8 → ℕ × ExtractorState × List Call
  | n, st, [] => (n, st, [])
  | n, st, byte :: bytes =>
      if stopped stopAt n then (n + 1, st, [])
      else
        let next := extractByte signed st byte
        let rest := extractBlock signed stopAt (n + 1) next.1 bytes
        (rest.1, rest.2.1, next.2.toList ++ rest.2.2)

/-- The loop of `send_request_and_process_response` over what `recv` returns. -/
def receiveBlocks (signed : Bool) (stopAt : Option ℕ) :
    ℕ → ExtractorState → List (List UInt8) → ExtractorState × List Call
  | _, st, [] => (st, [])
  | n, st, block :: blocks =>
      if block = [] ∨ stopped stopAt n = true then (st, [])
      else
        let next := extractBlock signed stopAt (n + 1) st block
        let rest := receiveBlocks signed stopAt next.1 next.2.1 blocks
        (rest.1, next.2.2 ++ rest.2)

/-- `send_request_and_process_response`, for the blocks that come back. -/
def processResponse (signed : Bool) (stopAt : Option ℕ) (blocks : List (List UInt8)) :
    ExtractorState × List Call :=
  receiveBlocks signed stopAt 0 initExtractorState blocks

theorem stopped_mono {stopAt : Option ℕ} {n m : ℕ} (h : n ≤ m) (hn : stopped stopAt n = true) :
    stopped stopAt m = true := by
  cases stopAt with
  | none => cases hn
  | some k =>
      have hk : k ≤ n := of_decide_eq_true hn
      exact decide_eq_true (hk.trans h)

/-- A block is read to its end, or up to the request to stop. -/
theorem extractBlock_eq (signed : Bool) (stopAt : Option ℕ) (n : ℕ) (st : ExtractorState)
    (bs : List UInt8) : ∃ m cs, n ≤ m ∧ cs <+: bs ∧
      extractBlock signed stopAt n st bs = (m, extractData signed st cs) ∧
      (cs = bs ∨ stopped stopAt m = true) := by
  induction bs generalizing n st with
  | nil => exact ⟨n, [], le_rfl, List.prefix_rfl, rfl, Or.inl rfl⟩
  | cons b bs ih =>
      rw [extractBlock]
      cases hstop : stopped stopAt n with
      | true =>
          exact ⟨n + 1, [], Nat.le_succ n, List.nil_prefix, rfl,
            Or.inr (stopped_mono (Nat.le_succ n) hstop)⟩
      | false =>
          obtain ⟨m, cs, hm, hcs, heq, hend⟩ := ih (n + 1) (extractByte signed st b).1
          refine ⟨m, b :: cs, by omega, (List.prefix_cons_inj b).mpr hcs, ?_, ?_⟩
          · simp only [Bool.false_eq_true, if_false, heq]
            rfl
          · exact hend.imp_left fun h => by rw [h]

/-- **The division into blocks does not matter**: a beginning of the bytes is extracted, and all of
them if nobody asks to stop. -/
theorem receiveBlocks_eq (signed : Bool) (stopAt : Option ℕ) (n : ℕ) (st : ExtractorState)
    (blocks : List (List UInt8)) : ∃ bs, bs <+: blocks.flatten ∧
      receiveBlocks signed stopAt n st blocks = extractData signed st bs ∧
      (stopAt = none → (∀ block ∈ blocks, block ≠ []) → bs = blocks.flatten) := by
  induction blocks generalizing n st with
  | nil => exact ⟨[], List.prefix_rfl, rfl, fun _ _ => rfl⟩
  | cons block blocks ih =>
      rw [receiveBlocks]
      by_cases hend : block = [] ∨ stopped stopAt n = true
      · refine ⟨[], List.nil_prefix, if_pos hend, ?_⟩
        rintro rfl hne
        exact hend.elim (fun h => absurd h (hne block List.mem_cons_self)) (fun h => by cases h)
      · rw [if_neg hend]
        obtain ⟨m, cs, -, hcs, hblock, hwhole⟩ := extractBlock_eq signed stopAt (n + 1) st block
        rw [hblock]
        rcases hwhole with rfl | hstop
        · obtain ⟨bs, hbs, hrest, hall⟩ := ih m (extractData signed st cs).1
          refine ⟨cs ++ bs, ?_, ?_, fun hnone hne => ?_⟩
          · rw [List.flatten_cons]
            exact (List.prefix_append_right_inj cs).mpr hbs
          · rw [extractData_append, ← hrest]
          · rw [List.flatten_cons, hall hnone fun b hb => hne b (List.mem_cons_of_mem _ hb)]
        · -- no further block is taken
          have hnothing : receiveBlocks signed stopAt m (extractData signed st cs).1 blocks =
              ((extractData signed st cs).1, []) := by
            cases blocks with
            | nil => rfl
            | cons b bs => exact if_pos (Or.inr hstop)
          refine ⟨cs, hcs.trans (List.prefix_append _ _), ?_, ?_⟩
          · simp only [hnothing, List.append_nil]
          · rintro rfl
            cases hstop

/-! ## What is written and reported, over any bytes -/

/-- A part of what is received: what is taken for its header, and what stands in the buffer when
the boundary is seen. -/
structure ReceivedPart where
  header : List UInt8
  content : List UInt8

/-- The header is over at its first two CRLF, and the content ends in the boundary and fits. -/
structure ReceivedPart.WellFormed (signed : Bool) (p : ReceivedPart) : Prop where
  header : headerEnd signed 0 p.header = some p.header.length
  content : BOUNDARY <:+ p.content
  fits : p.content.length ≤ BUFFER_SIZE - 1

theorem headerEnd_take {signed : Bool} {w : BitVec 32} {bs : List UInt8} {n : ℕ}
    (h : headerEnd signed w bs = some n) :
    n ≤ bs.length ∧ headerEnd signed w (bs.take n) = some n := by
  induction bs generalizing w n with
  | nil => cases h
  | cons c bs ih =>
      rw [headerEnd] at h
      cases hend : isCrlfcrlf (pushByte signed w c) with
      | true =>
          simp only [hend, if_true, Option.some.injEq] at h
          subst h
          refine ⟨by simp, ?_⟩
          simp only [List.take_succ_cons, List.take_zero, headerEnd, hend, if_true]
      | false =>
          simp only [hend, Bool.false_eq_true, if_false] at h
          obtain ⟨m, hm, rfl⟩ := Option.map_eq_some_iff.mp h
          obtain ⟨hle, htake⟩ := ih hm
          refine ⟨by simpa using hle, ?_⟩
          simp only [List.take_succ_cons, headerEnd, hend, Bool.false_eq_true, if_false, htake]
          rfl

/-- Nothing more is extracted, or a part is. -/
theorem extractData_cases (signed : Bool) (bs : List UInt8) :
    (extractData signed initExtractorState bs).2 = [] ∨
    ∃ (p : ReceivedPart) (rest : List UInt8), p.WellFormed signed ∧
      bs = p.header ++ p.content ++ rest ∧
      (extractData signed initExtractorState bs).2 =
        callFor p.content :: (extractData signed initExtractorState rest).2 := by
  rcases extractData_header signed inHeader_init bs with
    ⟨-, hnone⟩ | ⟨n, st, hend, hcontent, hcalls⟩
  · exact Or.inl hnone
  · rw [hcalls, extractData_content hcontent]
    obtain ⟨hle, htake⟩ := headerEnd_take hend
    cases hhit : NaiveMatch.firstHit BOUNDARY 0
        ((bs.drop n).take (BUFFER_SIZE - 1 - ([] : List UInt8).length)) with
    | none => exact Or.inl rfl
    | some k =>
        have hk := NaiveMatch.firstHit_le BOUNDARY hhit
        have hword := NaiveMatch.suffix_of_firstHit BOUNDARY hhit
        rw [List.length_take] at hk
        rw [List.take_zero, List.nil_append, List.take_take, min_eq_left (by omega)] at hword
        refine Or.inr ⟨⟨bs.take n, (bs.drop n).take k⟩, (bs.drop n).drop k, ⟨?_, hword, ?_⟩, ?_, rfl⟩
        · show headerEnd signed 0 (bs.take n) = some (bs.take n).length
          rw [htake, List.length_take, min_eq_left hle]
        · show ((bs.drop n).take k).length ≤ BUFFER_SIZE - 1
          rw [List.length_take]
          simp only [List.length_nil] at hk
          omega
        · show bs = bs.take n ++ (bs.drop n).take k ++ (bs.drop n).drop k
          rw [List.append_assoc, List.take_append_drop, List.take_append_drop]

/-- The parts that are extracted, one behind the other. -/
theorem exists_parts (signed : Bool) (bs : List UInt8) :
    ∃ (parts : List ReceivedPart) (rest : List UInt8), (∀ p ∈ parts, p.WellFormed signed) ∧
      bs = parts.flatMap (fun p => p.header ++ p.content) ++ rest ∧
      (extractData signed initExtractorState bs).2 = parts.map fun p => callFor p.content := by
  induction hlength : bs.length using Nat.strong_induction_on generalizing bs with
  | _ n ih =>
    rcases extractData_cases signed bs with hnone | ⟨p, rest, hp, hsplit, hcalls⟩
    · exact ⟨[], bs, by simp, rfl, hnone⟩
    · have hshort : rest.length < n := by
        have hne : 0 < p.content.length := lt_of_lt_of_le (by decide) hp.content.length_le
        have htotal := congrArg List.length hsplit
        simp only [List.length_append] at htotal
        omega
      obtain ⟨parts, rest', hparts, hrest, hmore⟩ := ih rest.length hshort rest rfl
      refine ⟨p :: parts, rest', List.forall_mem_cons.mpr ⟨hp, hparts⟩, ?_, ?_⟩
      · rw [List.flatMap_cons, List.append_assoc, ← hrest]
        exact hsplit
      · rw [hcalls, hmore, List.map_cons]

/-- The bytes in use never go beyond the last but one of the buffer. -/
theorem extractByte_fits {signed : Bool} {st : ExtractorState} (byte : UInt8)
    (h : st.buffer.length ≤ BUFFER_SIZE - 1) :
    (extractByte signed st byte).1.buffer.length ≤ BUFFER_SIZE - 1 := by
  unfold extractByte
  split
  · have hbuffer : (headerByte signed st byte).buffer = st.buffer := by
      unfold headerByte
      dsimp only
      split_ifs <;> rfl
    rwa [hbuffer]
  · unfold contentByte
    dsimp only
    split_ifs with hfull hhit
    · exact h
    · exact Nat.zero_le _
    · show (st.buffer ++ [byte]).length ≤ _
      rw [List.length_append, List.length_singleton]
      omega

theorem extractData_fits {signed : Bool} {st : ExtractorState} (bs : List UInt8)
    (h : st.buffer.length ≤ BUFFER_SIZE - 1) :
    (extractData signed st bs).1.buffer.length ≤ BUFFER_SIZE - 1 := by
  induction bs generalizing st with
  | nil => exact h
  | cons b bs ih => exact ih (extractByte_fits b h)

/-- The length that is reported is negative for a content shorter than what is cut off. -/
theorem image_callFor_eq_none_iff (buffer : List UInt8) :
    (callFor buffer).image = none ↔ buffer.length < BOUNDARY.length + 2 := by
  unfold Call.image
  split
  · next hpos =>
    refine iff_of_false (Option.some_ne_none _) ?_
    simp only [callFor] at hpos
    omega
  · next hneg =>
    refine iff_of_true rfl ?_
    simp only [callFor] at hneg
    omega

/-- The image is the content without the boundary and the two bytes before it. -/
theorem exists_of_image_callFor {buffer image : List UInt8} (hend : BOUNDARY <:+ buffer)
    (h : (callFor buffer).image = some image) : ∃ a b, buffer = image ++ [a, b] ++ BOUNDARY := by
  obtain ⟨before, rfl⟩ := hend
  unfold Call.image at h
  split at h
  · next hpos =>
    have hlength : (callFor (before ++ BOUNDARY)).length.toNat = before.length - 2 := by
      simp only [callFor, List.length_append]
      omega
    have htwo : 2 ≤ before.length := by
      simp only [callFor, List.length_append] at hpos
      omega
    rw [hlength] at h
    have himage : image = before.take (before.length - 2) := by
      rw [← Option.some.inj h]
      exact List.take_append_of_le_length (Nat.sub_le _ _)
    have hlast : (before.drop (before.length - 2)).length = 2 := by
      rw [List.length_drop]
      omega
    obtain ⟨a, b, hab⟩ := List.length_eq_two.mp hlast
    refine ⟨a, b, ?_⟩
    rw [himage, ← hab, List.take_append_drop]
  · cases h

end MjpegProxy
