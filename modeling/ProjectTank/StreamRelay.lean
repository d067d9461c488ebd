/-
# A stream of pictures and its relay (`send_stream` in `httpd.c`, `extract_data` in `mjpg-proxy.c`)

One streamer writes a stream of pictures; the HTTP plugin of another takes the pictures out of it
again.  The receiver takes a header for finished when the bits of two CRLF are set in its last four
bytes, and `OK` with a CRLF behind it has them: so the first part it sees is the rest of the response
header.  Its matcher for the boundary starts over after a mismatch, and its buffer has a size.

* `relay_exact_iff`: when the pictures come out as they went in;
* `relay_beginning`: what has come out when the connection breaks;
* `relay_silenced`: after a picture that does not fit nothing comes out any more.
-/
import ProjectTank.DecimalText
import ProjectTank.MjpegProxy

open ProgramText DecimalText MjpegProxy

namespace StreamRelay

/-! ## The sender -/

/-- A picture with its time, as the `int`s that are printed. -/
structure Picture where
  data : List UInt8
  sec : ℤ := 0
  usec : ℤ := 0
  deriving DecidableEq

/-- `%06d`, for a width of 6. -/
def zeroPadded (width : ℕ) : ℤ → Text
  | .ofNat n => List.replicate (width - (natText n).length) '0' ++ natText n
  | .negSucc n =>
      '-' :: (List.replicate (width - 1 - (natText (n + 1)).length) '0' ++ natText (n + 1))

def STD_HEADER : Text :=
  "Connection: close\r\n".toList ++ "Server: MJPG-Streamer/0.2\r\n".toList ++
    "Cache-Control: no-store, no-cache, must-revalidate, ".toList ++
    "pre-check=0, post-check=0, max-age=0\r\n".toList ++ "Pragma: no-cache\r\n".toList ++
    "Expires: Mon, 3 Jan 2000 12:34:56 GMT\r\n".toList

/-- The status line of the response. -/
def statusLine : List UInt8 := encodeUtf8 "HTTP/1.0 200 OK\r\n".toList

/-- The header fields of the response. -/
def responseFields : List UInt8 :=
  encodeUtf8 ("Access-Control-Allow-Origin: *\r\n".toList ++ STD_HEADER ++
    "Content-Type: multipart/x-mixed-replace;boundary=boundarydonotcross\r\n".toList)

def crlf : List UInt8 := [13, 10]

/-- The first write of `send_stream`. -/
def responseHeader : List UInt8 := statusLine ++ responseFields ++ crlf ++ BOUNDARY ++ crlf

/-- The header of a part: the first write for a picture. -/
def partHeader (p : Picture) : List UInt8 :=
  encodeUtf8 ("Content-Type: image/jpeg\r\nContent-Length: ".toList ++ intText p.data.length ++
    "\r\nX-Timestamp: ".toList ++ intText p.sec ++ ".".toList ++ zeroPadded 6 p.usec ++
    "\r\n\r\n".toList)

/-- The three writes for a picture. -/
def partBytes (p : Picture) : List UInt8 := partHeader p ++ p.data ++ (crlf ++ BOUNDARY ++ crlf)

/-- What `send_stream` writes for these pictures. -/
def streamBytes (pictures : List Picture) : List UInt8 :=
  responseHeader ++ pictures.flatMap partBytes

/-! ## Two CRLF by their bits -/

/-- Byte `j` of an `int` has the bits of a carriage return. -/
def crBits (w : BitVec 32) (j : ℕ) : Bool :=
  w.getLsbD (8 * j) && w.getLsbD (8 * j + 2) && w.getLsbD (8 * j + 3)

/-- Byte `j` of an `int` has the bits of a line feed. -/
def lfBits (w : BitVec 32) (j : ℕ) : Bool := w.getLsbD (8 * j + 1) && w.getLsbD (8 * j + 3)

theorem isCrlf_eq (w : BitVec 32) : isCrlf w = (crBits w 1 && lfBits w 0) := by
  rw [Bool.eq_iff_iff]
  unfold isCrlf crBits lfBits
  rw [beq_iff_eq]
  simp only [Nat.mul_one, Nat.mul_zero, Nat.zero_add, Bool.and_eq_true]
  constructor
  · intro h
    have hbit : ∀ i, (0x0D0A#32).getLsbD i = true → w.getLsbD i = true := by
      intro i hi
      have hand := congrArg (·.getLsbD i) h
      simp only [BitVec.getLsbD_and, hi, Bool.true_and] at hand
      exact hand
    exact ⟨⟨⟨hbit 8 rfl, hbit 10 rfl⟩, hbit 11 rfl⟩, hbit 1 rfl, hbit 3 rfl⟩
  · rintro ⟨⟨⟨h8, h10⟩, h11⟩, h1, h3⟩
    apply BitVec.eq_of_getLsbD_eq
    intro i hi
    rw [BitVec.getLsbD_and]
    interval_cases i <;> first | rfl | (simp only [h1, h3, h8, h10, h11]; rfl)

theorem isCrlfcrlf_eq (w : BitVec 32) :
    isCrlfcrlf w = (crBits w 1 && lfBits w 0 && (crBits w 3 && lfBits w 2)) := by
  have hshift : ∀ i, i < 16 → (w.sshiftRight 16).getLsbD i = w.getLsbD (16 + i) := by
    intro i hi
    rw [BitVec.getLsbD_sshiftRight, decide_eq_false (by omega), Bool.not_false, Bool.true_and,
      if_pos (by omega)]
  rw [isCrlfcrlf, isCrlf_eq, isCrlf_eq]
  simp only [crBits, lfBits]
  rw [hshift _ (by omega), hshift _ (by omega), hshift _ (by omega), hshift _ (by omega),
    hshift _ (by omega)]

/-- An ASCII byte moves in from below, whether or not `char` is signed. -/
theorem getLsbD_pushByte {signed : Bool} {byte : UInt8} (hb : byte < 128) (w : BitVec 32) {i : ℕ}
    (hi : i < 32) : (pushByte signed w byte).getLsbD i =
      if i < 8 then byte.toBitVec.getLsbD i else w.getLsbD (i - 8) := by
  have hmsb : byte.toBitVec.msb = false := by
    rw [BitVec.msb_eq_false_iff_two_mul_lt]
    have hlt : byte.toNat < 128 := hb
    have hnat : byte.toBitVec.toNat = byte.toNat := rfl
    omega
  have hchar : (charToInt signed byte).getLsbD i = byte.toBitVec.getLsbD i := by
    unfold charToInt
    cases signed with
    | true =>
        rw [if_pos rfl, BitVec.getLsbD_signExtend, hmsb, decide_eq_true hi, Bool.true_and]
        split
        · rfl
        · next h => exact (BitVec.getLsbD_of_ge _ _ (by omega)).symm
    | false => simp [hi]
  unfold pushByte
  rw [BitVec.getLsbD_or, BitVec.getLsbD_shiftLeft, hchar, decide_eq_true hi, Bool.true_and]
  by_cases h8 : i < 8
  · rw [if_pos h8, decide_eq_true h8, Bool.not_true, Bool.false_and, Bool.false_or]
  · rw [if_neg h8, decide_eq_false h8, Bool.not_false, Bool.true_and,
      BitVec.getLsbD_of_ge byte.toBitVec i (by omega), Bool.or_false]

/-- A byte with the bits of a carriage return. -/
def isCr (byte : UInt8) : Bool :=
  byte.toBitVec.getLsbD 0 && byte.toBitVec.getLsbD 2 && byte.toBitVec.getLsbD 3

/-- A byte with the bits of a line feed. -/
def isLf (byte : UInt8) : Bool := byte.toBitVec.getLsbD 1 && byte.toBitVec.getLsbD 3

/-- How much of two CRLF the last bytes may be: a carriage return, one CRLF, one CRLF and a carriage
return. -/
structure Progress where
  cr : Bool := false
  crlf : Bool := false
  crlfCr : Bool := false
  deriving DecidableEq

/-- One byte further. -/
def Progress.next (p : Progress) (byte : UInt8) : Progress where
  cr := isCr byte
  crlf := p.cr && isLf byte
  crlfCr := p.crlf && isCr byte

/-- What the last four bytes are. -/
def progress (w : BitVec 32) : Progress where
  cr := crBits w 0
  crlf := crBits w 1 && lfBits w 0
  crlfCr := crBits w 2 && lfBits w 1 && crBits w 0

theorem crBits_pushByte {signed : Bool} {byte : UInt8} (hb : byte < 128) (w : BitVec 32) {j : ℕ}
    (hj : j < 3) : crBits (pushByte signed w byte) (j + 1) = crBits w j := by
  unfold crBits
  rw [getLsbD_pushByte hb w (by omega), getLsbD_pushByte hb w (by omega),
    getLsbD_pushByte hb w (by omega), if_neg (by omega), if_neg (by omega), if_neg (by omega),
    show 8 * (j + 1) - 8 = 8 * j by omega, show 8 * (j + 1) + 2 - 8 = 8 * j + 2 by omega,
    show 8 * (j + 1) + 3 - 8 = 8 * j + 3 by omega]

theorem lfBits_pushByte {signed : Bool} {byte : UInt8} (hb : byte < 128) (w : BitVec 32) {j : ℕ}
    (hj : j < 3) : lfBits (pushByte signed w byte) (j + 1) = lfBits w j := by
  unfold lfBits
  rw [getLsbD_pushByte hb w (by omega), getLsbD_pushByte hb w (by omega), if_neg (by omega),
    if_neg (by omega), show 8 * (j + 1) + 1 - 8 = 8 * j + 1 by omega,
    show 8 * (j + 1) + 3 - 8 = 8 * j + 3 by omega]

theorem crBits_pushByte_zero {signed : Bool} {byte : UInt8} (hb : byte < 128) (w : BitVec 32) :
    crBits (pushByte signed w byte) 0 = isCr byte := by
  unfold crBits isCr
  rw [getLsbD_pushByte hb w (by omega), getLsbD_pushByte hb w (by omega),
    getLsbD_pushByte hb w (by omega)]
  rfl

theorem lfBits_pushByte_zero {signed : Bool} {byte : UInt8} (hb : byte < 128) (w : BitVec 32) :
    lfBits (pushByte signed w byte) 0 = isLf byte := by
  unfold lfBits isLf
  rw [getLsbD_pushByte hb w (by omega), getLsbD_pushByte hb w (by omega)]
  rfl

theorem progress_pushByte (signed : Bool) {byte : UInt8} (hb : byte < 128) (w : BitVec 32) :
    progress (pushByte signed w byte) = (progress w).next byte := by
  unfold progress Progress.next
  rw [crBits_pushByte_zero hb, lfBits_pushByte_zero hb, crBits_pushByte hb w (j := 0) (by omega),
    crBits_pushByte hb w (j := 1) (by omega), lfBits_pushByte hb w (j := 0) (by omega)]

theorem isCrlfcrlf_pushByte {signed : Bool} {byte : UInt8} (hb : byte < 128) (w : BitVec 32) :
    isCrlfcrlf (pushByte signed w byte) = ((progress w).crlfCr && isLf byte) := by
  rw [isCrlfcrlf_eq, lfBits_pushByte_zero hb, crBits_pushByte hb w (j := 0) (by omega),
    crBits_pushByte hb w (j := 2) (by omega), lfBits_pushByte hb w (j := 1) (by omega)]
  unfold progress
  cases crBits w 0 <;> cases crBits w 2 <;> cases lfBits w 1 <;> simp

/-! ## Where a header ends -/

/-- The progress after these bytes, if the header is not taken for finished in them. -/
def quiet : Progress → List UInt8 → Option Progress
  | p, [] => some p
  | p, byte :: bytes => if p.crlfCr && isLf byte then none else quiet (p.next byte) bytes

theorem quiet_append (p : Progress) (bs cs : List UInt8) :
    quiet p (bs ++ cs) = (quiet p bs).bind fun q => quiet q cs := by
  induction bs generalizing p with
  | nil => rfl
  | cons b bs ih =>
      rw [List.cons_append, quiet, quiet]
      split
      · rfl
      · exact ih (p.next b)

/-- **Where a header ends**: behind bytes in which it does not, at a byte that completes it. -/
theorem headerEnd_of_quiet (signed : Bool) {w : BitVec 32} {bs : List UInt8} {b : UInt8}
    {q : Progress} (cs : List UInt8) (hascii : ∀ c ∈ bs ++ [b], c < 128) (hquiet : quiet (progress w) bs = some q)
    (hend : (q.crlfCr && isLf b) = true) :
    headerEnd signed w (bs ++ b :: cs) = some (bs.length + 1) := by
  induction bs generalizing w with
  | nil =>
      obtain rfl := Option.some.inj hquiet
      have hb : b < 128 := hascii b (by simp)
      rw [List.nil_append, headerEnd, isCrlfcrlf_pushByte hb, hend]
      rfl
  | cons c bs ih =>
      have hc : c < 128 := hascii c (by simp)
      rw [quiet] at hquiet
      split at hquiet
      · cases hquiet
      · next hno =>
        rw [← progress_pushByte signed hc] at hquiet
        have hrest := ih (fun d hd => hascii d (List.mem_cons_of_mem _ hd)) hquiet
        rw [List.cons_append, headerEnd, isCrlfcrlf_pushByte hc]
        simp only [Bool.not_eq_true] at hno
        rw [hno, if_neg Bool.false_ne_true, hrest]
        rfl

/-! ## Numbers in a header -/

/-- The character of a number, as a byte. -/
theorem encodeUtf8_digits {s : Text} (hs : ∀ c ∈ s, c.isDigit = true) :
    ∀ b ∈ encodeUtf8 s, b < 128 ∧ isCr b = false ∧ isLf b = false := by
  have hascii : s.all isAscii = true := by
    rw [List.all_eq_true]
    intro c hc
    have hdigit := Char.isDigit_iff_toNat.mp (hs c hc)
    have h9 : '9'.toNat = 57 := rfl
    exact decide_eq_true (by omega)
  rw [encodeUtf8_ascii hascii]
  intro b hb
  obtain ⟨c, hc, rfl⟩ := List.mem_map.mp hb
  obtain ⟨hlow, hhigh⟩ := Char.isDigit_iff_toNat.mp (hs c hc)
  have h0 : '0'.toNat = 48 := rfl
  have h9 : '9'.toNat = 57 := rfl
  generalize c.toNat = n at hlow hhigh
  rw [h0] at hlow
  rw [h9] at hhigh
  interval_cases n <;> decide

/-- Bytes without these bits: everything starts again. -/
theorem quiet_plain {b : UInt8} {bs : List UInt8}
    (h : ∀ c ∈ b :: bs, isCr c = false ∧ isLf c = false) (p : Progress) :
    quiet p (b :: bs) = some {} := by
  induction bs generalizing b p with
  | nil =>
      obtain ⟨hcr, hlf⟩ := h b List.mem_cons_self
      simp [quiet, Progress.next, hcr, hlf]
  | cons c bs ih =>
      obtain ⟨-, hlf⟩ := h b List.mem_cons_self
      rw [quiet, hlf, Bool.and_false, if_neg Bool.false_ne_true]
      exact ih (fun d hd => h d (List.mem_cons_of_mem b hd)) (p.next b)

theorem quiet_digits {s : Text} (hs : ∀ c ∈ s, c.isDigit = true) (hne : s ≠ []) (p : Progress) :
    quiet p (encodeUtf8 s) = some {} := by
  have hbytes := encodeUtf8_digits hs
  have hne' : encodeUtf8 s ≠ [] := by
    obtain ⟨c, t, rfl⟩ := List.exists_cons_of_ne_nil hne
    rw [encodeUtf8, List.flatMap_cons]
    simp [String.utf8EncodeChar_ne_nil]
  obtain ⟨b, bs, hb⟩ := List.exists_cons_of_ne_nil hne'
  rw [hb] at hbytes ⊢
  exact quiet_plain (fun c hc => (hbytes c hc).2) p

/-- A text of digits, perhaps with a minus sign before them. -/
def IsNumber (s : Text) : Prop :=
  ∃ digits : Text, digits ≠ [] ∧ (∀ c ∈ digits, c.isDigit = true) ∧
    (s = digits ∨ s = '-' :: digits)

theorem isNumber_intText (n : ℤ) : IsNumber (intText n) := by
  cases n with
  | ofNat n => exact ⟨natText n, natText_ne_nil n, fun _ => isDigit_of_mem_natText, Or.inl rfl⟩
  | negSucc n =>
      exact ⟨natText (n + 1), natText_ne_nil _, fun _ => isDigit_of_mem_natText, Or.inr rfl⟩

theorem isNumber_zeroPadded (width : ℕ) (n : ℤ) : IsNumber (zeroPadded width n) := by
  have hdigits : ∀ k m : ℕ, ∀ c ∈ List.replicate k '0' ++ natText m, c.isDigit = true := by
    intro k m c hc
    rcases List.mem_append.mp hc with h | h
    · rw [(List.mem_replicate.mp h).2]
      rfl
    · exact isDigit_of_mem_natText h
  have hne : ∀ k m : ℕ, List.replicate k '0' ++ natText m ≠ [] := fun k m h =>
    natText_ne_nil m (List.append_eq_nil_iff.mp h).2
  cases n with
  | ofNat n => exact ⟨_, hne _ n, hdigits _ n, Or.inl rfl⟩
  | negSucc n => exact ⟨_, hne _ (n + 1), hdigits _ (n + 1), Or.inr rfl⟩

theorem IsNumber.ascii {s : Text} (h : IsNumber s) : ∀ b ∈ encodeUtf8 s, b < 128 := by
  obtain ⟨digits, -, hdigits, rfl | rfl⟩ := h
  · exact fun b hb => (encodeUtf8_digits hdigits b hb).1
  · have hminus : ∀ b ∈ encodeUtf8 "-".toList, b < 128 := by decide +kernel
    rw [show '-' :: digits = "-".toList ++ digits from rfl, encodeUtf8_append,
      List.forall_mem_append]
    exact ⟨hminus, fun b hb => (encodeUtf8_digits hdigits b hb).1⟩

/-- A number in a header does not end it, and behind it everything starts again. -/
theorem IsNumber.quiet {s : Text} (h : IsNumber s) : quiet {} (encodeUtf8 s) = some {} := by
  obtain ⟨digits, hne, hdigits, rfl | rfl⟩ := h
  · exact quiet_digits hdigits hne {}
  · have hminus : StreamRelay.quiet {} (encodeUtf8 "-".toList) = some { cr := true } := by decide
    rw [show '-' :: digits = "-".toList ++ digits from rfl, encodeUtf8_append, quiet_append, hminus,
      Option.bind_some]
    exact quiet_digits hdigits hne _

/-! ## The headers of the stream -/

/-- The header of a part without its last line feed, from the end of the boundary on. -/
def partHeaderInit (p : Picture) : List UInt8 :=
  encodeUtf8 "\r\nContent-Type: image/jpeg\r\nContent-Length: ".toList ++
    (encodeUtf8 (intText p.data.length) ++ (encodeUtf8 "\r\nX-Timestamp: ".toList ++
      (encodeUtf8 (intText p.sec) ++ (encodeUtf8 ".".toList ++
        (encodeUtf8 (zeroPadded 6 p.usec) ++ encodeUtf8 "\r\n\r".toList)))))

theorem crlf_partHeader (p : Picture) : crlf ++ partHeader p = partHeaderInit p ++ [10] := by
  have hfirst : encodeUtf8 "\r\nContent-Type: image/jpeg\r\nContent-Length: ".toList =
      crlf ++ encodeUtf8 "Content-Type: image/jpeg\r\nContent-Length: ".toList := by decide
  have hlast : encodeUtf8 "\r\n\r\n".toList = encodeUtf8 "\r\n\r".toList ++ [10] := by decide
  unfold partHeader partHeaderInit
  rw [hfirst]
  simp only [encodeUtf8_append, hlast, List.append_assoc]

theorem quiet_partHeaderInit (p : Picture) :
    quiet {} (partHeaderInit p) = some { cr := true, crlfCr := true } := by
  have htype : quiet {} (encodeUtf8
      "\r\nContent-Type: image/jpeg\r\nContent-Length: ".toList) = some {} := by decide +kernel
  have htime : quiet {} (encodeUtf8 "\r\nX-Timestamp: ".toList) = some {} := by decide +kernel
  have hpoint : quiet {} (encodeUtf8 ".".toList) = some {} := by decide
  have hend : quiet {} (encodeUtf8 "\r\n\r".toList) = some { cr := true, crlfCr := true } := by
    decide
  unfold partHeaderInit
  simp only [quiet_append, htype, htime, hpoint, hend, (isNumber_intText _).quiet,
    (isNumber_zeroPadded _ _).quiet, Option.bind_some]

theorem ascii_partHeaderInit (p : Picture) : ∀ b ∈ partHeaderInit p ++ [10], b < 128 := by
  have htype : ∀ b ∈ encodeUtf8 "\r\nContent-Type: image/jpeg\r\nContent-Length: ".toList,
      b < 128 := by decide +kernel
  have htime : ∀ b ∈ encodeUtf8 "\r\nX-Timestamp: ".toList, b < 128 := by decide +kernel
  have hpoint : ∀ b ∈ encodeUtf8 ".".toList, b < 128 := by decide +kernel
  have hend : ∀ b ∈ encodeUtf8 "\r\n\r".toList, b < 128 := by decide +kernel
  have hfeed : ∀ b ∈ ([10] : List UInt8), b < 128 := by decide +kernel
  unfold partHeaderInit
  simp only [List.forall_mem_append]
  exact ⟨⟨htype, (isNumber_intText _).ascii, htime, (isNumber_intText _).ascii, hpoint,
    (isNumber_zeroPadded _ _).ascii, hend⟩, hfeed⟩

/-- **The header of a part is taken for finished at its end**, whatever its numbers are. -/
theorem headerEnd_partHeader (signed : Bool) (p : Picture) (rest : List UInt8) :
    headerEnd signed 0 (crlf ++ partHeader p ++ rest) = some (crlf ++ partHeader p).length := by
  have hzero : progress 0 = {} := by decide
  have h := headerEnd_of_quiet signed (w := 0) rest (ascii_partHeaderInit p)
    (by rw [hzero]; exact quiet_partHeaderInit p) rfl
  rw [crlf_partHeader, List.append_assoc, List.length_append]
  exact h

/-- **The response header is taken for finished behind its status line**: `OK` and the CRLF behind
it have the bits of two CRLF. -/
theorem headerEnd_statusLine (signed : Bool) (rest : List UInt8) :
    headerEnd signed 0 (statusLine ++ rest) = some statusLine.length := by
  have hsplit : statusLine = encodeUtf8 "HTTP/1.0 200 OK\r".toList ++ [10] := by decide
  have hascii : ∀ b ∈ encodeUtf8 "HTTP/1.0 200 OK\r".toList ++ [10], b < 128 := by decide +kernel
  have hquiet : quiet (progress 0) (encodeUtf8 "HTTP/1.0 200 OK\r".toList) =
      some { cr := true, crlfCr := true } := by decide +kernel
  have h := headerEnd_of_quiet signed rest hascii hquiet rfl
  rw [hsplit, List.append_assoc, List.length_append]
  exact h

/-! ## One picture -/

/-- The images that the callbacks copy. -/
def images (signed : Bool) (st : ExtractorState) (bs : List UInt8) : List (Option (List UInt8)) :=
  (extractData signed st bs).2.map Call.image

/-- The matcher for the boundary does not report within the data, and the buffer has room for it
with the boundary. -/
def Deliverable (data : List UInt8) : Prop :=
  NaiveMatch.firstHit BOUNDARY 0 data = none ∧
    data.length + (crlf.length + BOUNDARY.length) ≤ BUFFER_SIZE - 1

instance (data : List UInt8) : Decidable (Deliverable data) :=
  inferInstanceAs (Decidable (_ ∧ _))

theorem firstHit_data (data : List UInt8) :
    NaiveMatch.firstHit BOUNDARY 0 (data ++ (crlf ++ BOUNDARY)) =
      (NaiveMatch.firstHit BOUNDARY 0 data).or
        (some (data.length + (crlf.length + BOUNDARY.length))) := by
  have hne : BOUNDARY ≠ [] := by decide
  have hout : ∀ c ∈ crlf, c ∉ BOUNDARY := by decide +kernel
  exact NaiveMatch.firstHit_append_word BOUNDARY hne (List.cons_ne_nil _ _) hout

theorem image_callFor (data : List UInt8) :
    (callFor (data ++ (crlf ++ BOUNDARY))).image = some data := by
  have hlength : (callFor (data ++ (crlf ++ BOUNDARY))).length = data.length := by
    simp only [callFor, List.length_append]
    have htwo : crlf.length = 2 := rfl
    omega
  unfold Call.image
  rw [hlength, if_pos (Int.natCast_nonneg _), Int.toNat_natCast]
  exact congrArg some List.take_left

/-- Data that can be delivered comes out, and the extractor is at the beginning of a part again. -/
theorem images_of_deliverable {signed : Bool} {st : ExtractorState} {data : List UInt8}
    (hst : InContent st [] 0) (h : Deliverable data) (rest : List UInt8) :
    images signed st (data ++ (crlf ++ BOUNDARY) ++ rest) =
      some data :: images signed initExtractorState rest := by
  obtain ⟨hsilent, hroom⟩ := h
  have hblock : (data ++ (crlf ++ BOUNDARY)).length =
      data.length + (crlf.length + BOUNDARY.length) := by
    rw [List.length_append, List.length_append]
  have hhit : NaiveMatch.firstHit BOUNDARY 0
      ((data ++ (crlf ++ BOUNDARY) ++ rest).take (BUFFER_SIZE - 1 - ([] : List UInt8).length)) =
        some (data ++ (crlf ++ BOUNDARY)).length := by
    rw [List.length_nil, Nat.sub_zero, List.take_append, List.take_of_length_le (by omega)]
    apply NaiveMatch.firstHit_append_of_some
    rw [firstHit_data, hsilent, hblock]
    rfl
  unfold images
  rw [extractData_content hst, hhit]
  show (callFor ([] ++ _)).image :: _ = _
  rw [List.nil_append, List.take_left, List.drop_left, image_callFor]

/-- Only data that can be delivered comes out. -/
theorem deliverable_of_images {signed : Bool} {st : ExtractorState} {data rest : List UInt8}
    {more : List (Option (List UInt8))} (hst : InContent st [] 0)
    (h : images signed st (data ++ (crlf ++ BOUNDARY) ++ rest) = some data :: more) :
    Deliverable data := by
  unfold images at h
  rw [extractData_content hst, List.length_nil, Nat.sub_zero] at h
  cases hhit : NaiveMatch.firstHit BOUNDARY 0
      ((data ++ (crlf ++ BOUNDARY) ++ rest).take (BUFFER_SIZE - 1)) with
  | none =>
      rw [hhit] at h
      cases h
  | some n =>
      rw [hhit] at h
      have hword := NaiveMatch.suffix_of_firstHit BOUNDARY hhit
      have hle := (NaiveMatch.firstHit_le BOUNDARY hhit).2
      rw [List.length_take] at hle
      rw [List.take_zero, List.nil_append, List.take_take, min_eq_left (by omega)] at hword
      obtain ⟨himage, -⟩ := List.cons.inj h
      -- the image is as long as the data, so the matcher reported at the boundary behind it
      obtain ⟨a, b, hbuffer⟩ := exists_of_image_callFor hword himage
      have hn : n = data.length + (crlf.length + BOUNDARY.length) := by
        have hlength := congrArg List.length hbuffer
        have htwo : crlf.length = 2 := rfl
        simp only [List.length_append, List.length_take, List.length_cons, List.length_nil]
          at hlength hle
        omega
      refine ⟨?_, by omega⟩
      cases hdata : NaiveMatch.firstHit BOUNDARY 0 data with
      | none => rfl
      | some m =>
          exfalso
          have hm := (NaiveMatch.firstHit_le BOUNDARY hdata).2
          have hearly : NaiveMatch.firstHit BOUNDARY 0
              ((data ++ (crlf ++ BOUNDARY) ++ rest).take (BUFFER_SIZE - 1)) = some m := by
            rw [List.append_assoc, List.take_append, List.take_of_length_le (by omega)]
            exact NaiveMatch.firstHit_append_of_some BOUNDARY hdata _
          have hsame := Option.some.inj (hhit.symm.trans hearly)
          have htwo : crlf.length = 2 := rfl
          omega

/-- After data without the boundary that does not fit with it, nothing comes out any more. -/
theorem images_of_oversized {signed : Bool} {st : ExtractorState} {data : List UInt8}
    (hst : InContent st [] 0) (hsilent : NaiveMatch.firstHit BOUNDARY 0 data = none)
    (hlarge : BUFFER_SIZE - 1 < data.length + (crlf.length + BOUNDARY.length))
    (rest : List UInt8) : images signed st (data ++ (crlf ++ BOUNDARY) ++ rest) = [] := by
  have hnone : NaiveMatch.firstHit BOUNDARY 0
      ((data ++ (crlf ++ BOUNDARY) ++ rest).take (BUFFER_SIZE - 1)) = none := by
    have hblock : (data ++ (crlf ++ BOUNDARY)).length =
        data.length + (crlf.length + BOUNDARY.length) := by
      rw [List.length_append, List.length_append]
    rw [List.take_append_of_le_length (by omega)]
    cases hhit : NaiveMatch.firstHit BOUNDARY 0
        ((data ++ (crlf ++ BOUNDARY)).take (BUFFER_SIZE - 1)) with
    | none => rfl
    | some n =>
        exfalso
        -- a report within the room would be one in the whole block, which has it at its end
        have hwhole := NaiveMatch.firstHit_append_of_some BOUNDARY hhit
          ((data ++ (crlf ++ BOUNDARY)).drop (BUFFER_SIZE - 1))
        rw [List.take_append_drop, firstHit_data, hsilent, Option.none_or] at hwhole
        have hle := (NaiveMatch.firstHit_le BOUNDARY hhit).2
        rw [List.length_take] at hle
        have hn := Option.some.inj hwhole
        omega
  unfold images
  rw [extractData_content hst, List.length_nil, Nat.sub_zero, hnone]
  rfl

/-- The header of a part, and then its content. -/
theorem images_header {signed : Bool} {header : List UInt8}
    (h : ∀ rest, headerEnd signed 0 (header ++ rest) = some header.length) (rest : List UInt8) :
    ∃ st, InContent st [] 0 ∧
      images signed initExtractorState (header ++ rest) = images signed st rest := by
  rcases extractData_header signed inHeader_init (header ++ rest) with
    ⟨hnone, -⟩ | ⟨n, st, hsome, hst, hcalls⟩
  · rw [h rest] at hnone
    cases hnone
  · rw [h rest] at hsome
    obtain rfl := Option.some.inj hsome
    rw [List.drop_left] at hcalls
    exact ⟨st, hst, congrArg (List.map Call.image) hcalls⟩

/-! ## The whole stream -/

/-- A part from the end of one boundary to the end of the next. -/
def partBlock (p : Picture) : List UInt8 := crlf ++ partHeader p ++ (p.data ++ (crlf ++ BOUNDARY))

theorem streamBytes_eq (pictures : List Picture) : streamBytes pictures =
    statusLine ++ (responseFields ++ (crlf ++ BOUNDARY) ++ (pictures.flatMap partBlock ++ crlf)) := by
  have hparts : ∀ ps : List Picture,
      crlf ++ ps.flatMap partBytes = ps.flatMap partBlock ++ crlf := by
    intro ps
    induction ps with
    | nil => rfl
    | cons p ps ih =>
        rw [List.flatMap_cons, List.flatMap_cons, List.append_assoc (partBlock p), ← ih]
        simp only [partBytes, partBlock, List.append_assoc]
  rw [streamBytes, responseHeader, List.append_assoc, hparts]
  simp only [List.append_assoc]

theorem images_crlf (signed : Bool) : images signed initExtractorState crlf = [] := by
  cases signed <;> decide +kernel

theorem deliverable_responseFields : Deliverable responseFields := by decide +kernel

/-- A part whose picture can be delivered. -/
theorem images_partBlock {signed : Bool} {p : Picture} (h : Deliverable p.data) (rest : List UInt8) :
    images signed initExtractorState (partBlock p ++ rest) =
      some p.data :: images signed initExtractorState rest := by
  obtain ⟨st, hst, himages⟩ := images_header (headerEnd_partHeader signed p)
    (p.data ++ (crlf ++ BOUNDARY) ++ rest)
  rw [partBlock, List.append_assoc, himages, images_of_deliverable hst h]

/-- **What comes first is the rest of the response header.** -/
theorem images_streamBytes (signed : Bool) (pictures : List Picture) (later : List UInt8) :
    images signed initExtractorState (streamBytes pictures ++ later) = some responseFields ::
      images signed initExtractorState (pictures.flatMap partBlock ++ crlf ++ later) := by
  obtain ⟨st, hst, himages⟩ := images_header (headerEnd_statusLine signed)
    (responseFields ++ (crlf ++ BOUNDARY) ++ (pictures.flatMap partBlock ++ crlf ++ later))
  rw [streamBytes_eq, ← images_of_deliverable hst deliverable_responseFields, ← himages]
  simp only [List.append_assoc]

theorem images_flatMap_partBlock {signed : Bool} {pictures : List Picture}
    (h : ∀ p ∈ pictures, Deliverable p.data) (rest : List UInt8) :
    images signed initExtractorState (pictures.flatMap partBlock ++ rest) =
      pictures.map (fun p => some p.data) ++ images signed initExtractorState rest := by
  induction pictures with
  | nil => rfl
  | cons p ps ih =>
      obtain ⟨hp, hps⟩ := List.forall_mem_cons.mp h
      rw [List.flatMap_cons, List.append_assoc, images_partBlock hp, ih hps]
      rfl

/-- The pictures come out as they went in only if each can be delivered. -/
theorem deliverable_of_images_flatMap {signed : Bool} {pictures : List Picture} {rest : List UInt8}
    {more : List (Option (List UInt8))}
    (h : images signed initExtractorState (pictures.flatMap partBlock ++ rest) =
      pictures.map (fun p => some p.data) ++ more) : ∀ p ∈ pictures, Deliverable p.data := by
  induction pictures with
  | nil => simp
  | cons p ps ih =>
      rw [List.flatMap_cons, List.append_assoc, List.map_cons, List.cons_append] at h
      have hp : Deliverable p.data := by
        obtain ⟨st, hst, himages⟩ := images_header (headerEnd_partHeader signed p)
          (p.data ++ (crlf ++ BOUNDARY) ++ (ps.flatMap partBlock ++ rest))
        have hout : images signed st (p.data ++ (crlf ++ BOUNDARY) ++ (ps.flatMap partBlock ++ rest)) =
            some p.data :: (ps.map (fun p => some p.data) ++ more) := by
          rw [← himages, ← h, partBlock, List.append_assoc (crlf ++ partHeader p)]
        exact deliverable_of_images hst hout
      rw [images_partBlock hp] at h
      exact List.forall_mem_cons.mpr ⟨hp, ih (List.cons.inj h).2⟩

theorem processResponse_eq (signed : Bool) {blocks : List (List UInt8)}
    (hne : ∀ block ∈ blocks, block ≠ []) :
    (processResponse signed none blocks).2.map Call.image =
      images signed initExtractorState blocks.flatten := by
  obtain ⟨bs, -, hrun, hall⟩ := receiveBlocks_eq signed none 0 initExtractorState blocks
  rw [processResponse, hrun, hall rfl hne]
  rfl

/-- **When a relayed stream is right.**  However the stream is cut into blocks, the relay copies the
rest of the response header and then the pictures, exactly if each of them can be delivered. -/
theorem relay_exact_iff (signed : Bool) (pictures : List Picture) (blocks : List (List UInt8))
    (hblocks : blocks.flatten = streamBytes pictures) (hne : ∀ block ∈ blocks, block ≠ []) :
    (processResponse signed none blocks).2.map Call.image =
        some responseFields :: pictures.map (fun p => some p.data) ↔
      ∀ p ∈ pictures, Deliverable p.data := by
  have hstream := images_streamBytes signed pictures []
  rw [List.append_nil, List.append_nil] at hstream
  rw [processResponse_eq signed hne, hblocks, hstream, List.cons.injEq]
  constructor
  · intro h
    have hout : images signed initExtractorState (pictures.flatMap partBlock ++ crlf) =
        pictures.map (fun p => some p.data) ++ [] := by
      rw [h.2, List.append_nil]
    exact deliverable_of_images_flatMap hout
  · intro h
    refine ⟨rfl, ?_⟩
    rw [images_flatMap_partBlock h, images_crlf, List.append_nil]

/-- A picture of two bytes, received in two blocks. -/
theorem relay_exact_two_bytes :
    (processResponse true none [statusLine,
        (streamBytes [{ data := [0xFF, 0xD8] }]).drop statusLine.length]).2.map Call.image =
      [some responseFields, some [0xFF, 0xD8]] := by
  have hdeliverable : ∀ p ∈ [({ data := [0xFF, 0xD8] } : Picture)], Deliverable p.data := by decide
  apply (relay_exact_iff true [{ data := [0xFF, 0xD8] }] _ ?_ ?_).mpr hdeliverable
  · rw [streamBytes_eq, List.drop_left]
    simp only [List.flatten_cons, List.flatten_nil, List.append_nil]
  · decide +kernel

/-- What a beginning of the bytes gives is a beginning of what all give. -/
theorem images_of_isPrefix (signed : Bool) {bs cs : List UInt8} (h : bs <+: cs) :
    images signed initExtractorState bs <+: images signed initExtractorState cs := by
  obtain ⟨later, rfl⟩ := h
  unfold images
  rw [extractData_append, List.map_append]
  exact List.prefix_append _ _

/-- **A picture that does not fit silences the relay.**  When a picture is too large for the buffer,
the pictures before it are copied, and nothing after it on this connection, whatever comes. -/
theorem relay_silenced (signed : Bool) (pictures : List Picture) (large : Picture)
    (later : List UInt8) (blocks : List (List UInt8)) (h : ∀ p ∈ pictures, Deliverable p.data)
    (hsilent : NaiveMatch.firstHit BOUNDARY 0 large.data = none)
    (hlarge : BUFFER_SIZE - 1 < large.data.length + (crlf.length + BOUNDARY.length))
    (hblocks : blocks.flatten = streamBytes pictures ++ (partBytes large ++ later))
    (hne : ∀ block ∈ blocks, block ≠ []) :
    (processResponse signed none blocks).2.map Call.image =
      some responseFields :: pictures.map (fun p => some p.data) := by
  obtain ⟨st, hst, himages⟩ := images_header (headerEnd_partHeader signed large)
    (large.data ++ (crlf ++ BOUNDARY) ++ (crlf ++ later))
  rw [images_of_oversized hst hsilent hlarge] at himages
  have hsplit : pictures.flatMap partBlock ++ crlf ++ (partBytes large ++ later) =
      pictures.flatMap partBlock ++
        (crlf ++ partHeader large ++ (large.data ++ (crlf ++ BOUNDARY) ++ (crlf ++ later))) := by
    simp only [partBytes, List.append_assoc]
  rw [processResponse_eq signed hne, hblocks, images_streamBytes, hsplit,
    images_flatMap_partBlock h, himages, List.append_nil]

/-- A picture of 256 KiB of zeros. -/
theorem relay_silenced_zeros :
    (processResponse true none [streamBytes [] ++
        (partBytes { data := List.replicate (1024 * 256) 0 } ++ [])]).2.map Call.image =
      [some responseFields] := by
  have hzero : ∀ c ∈ List.replicate (1024 * 256) (0 : UInt8), c ∉ BOUNDARY := by
    intro c hc
    rw [(List.mem_replicate.mp hc).2]
    decide
  apply relay_silenced true [] { data := List.replicate (1024 * 256) 0 } [] _ (by simp)
    (NaiveMatch.firstHit_of_not_mem BOUNDARY (by decide) hzero 0)
  · rw [List.length_replicate]
    decide
  · rw [List.flatten_cons, List.flatten_nil, List.append_nil]
  · intro block hblock
    rw [List.mem_singleton.mp hblock]
    exact List.append_ne_nil_of_left_ne_nil (by decide +kernel) _

/-- A picture without the boundary in it can be delivered, if it is not too large. -/
theorem deliverable_of_not_infix {data : List UInt8} (h : ¬ BOUNDARY <:+: data)
    (hsize : data.length + (crlf.length + BOUNDARY.length) ≤ BUFFER_SIZE - 1) : Deliverable data :=
  ⟨NaiveMatch.firstHit_eq_none BOUNDARY h, hsize⟩

end StreamRelay
