/-
# Access control of the HTTP server (`client_thread` in `plugins/output_http/httpd.c`)

The thread reads the request line, finds out by a chain of `strstr` what is wanted, reads the
header, compares the credentials, and then answers.  The branch for the GPIO pin answers where the
others only note what is wanted.  The options `MANAGMENT` and `WXP_COMPAT` are off, as they are by
default.

* `exists_readHeaders`: the header of a request is read to its end;
* `obeys_iff`: for which requests the pin is under the server's access control;
* `gpio_without_credentials`: a request that sets the pin without credentials.
-/
import ProjectTank.DecimalText
import ProjectTank.ProgramText

open ProgramText DecimalText

namespace ClientThread

/-! ## Functions of the C library -/

/-- `strstr`: the text from the first place on where the other begins. -/
def strstr (s needle : Text) : Option Text :=
  if needle.isPrefixOf s then some s
  else
    match s with
    | [] => none
    | _ :: t => strstr t needle

/-- `strstr(...) != NULL`. -/
def contains (s needle : Text) : Bool := (strstr s needle).isSome

/-- `strcasestr(...) != NULL`. -/
def containsIgnoreCase (s needle : Text) : Bool :=
  contains (s.map Char.toLower) (needle.map Char.toLower)

/-- `strtol` to base ten, for a `long` of so many bits. -/
def strtol (longBits : ℕ) (s : Text) : ℤ :=
  let digits (ds : Text) : ℤ := readNat (ds.takeWhile Char.isDigit)
  let value :=
    match s.dropWhile isSpace with
    | '-' :: ds => -digits ds
    | '+' :: ds => digits ds
    | ds => digits ds
  max (-2 ^ (longBits - 1)) (min (2 ^ (longBits - 1) - 1) value)

/-- `atoi`: the `int` of that `long`. -/
def atoi (longBits : ℕ) (s : Text) : ℤ := (strtol longBits s).bmod (2 ^ 32)

/-- The string in a buffer ends at the first NUL. -/
def stringOf (line : List UInt8) : Text := (ofBytes line).takeWhile (· ≠ Char.ofNat 0)

/-! ## Reading -/

def BUFFER_SIZE : ℕ := 1024

/-- `_readline`: at most so many bytes, up to and with a newline; `none` for its `-1`, when no more
bytes come. -/
def readline : ℕ → List UInt8 → Option (List UInt8 × List UInt8)
  | 0, bs => some ([], bs)
  | _ + 1, [] => none
  | n + 1, b :: bs =>
      if b = 10 then some ([b], bs)
      else (readline n bs).map fun p => (b :: p.1, p.2)

theorem length_readline {n : ℕ} {bs line rest : List UInt8} (h : readline n bs = some (line, rest)) :
    bs.length = line.length + rest.length ∧ (0 < n → 0 < line.length) := by
  induction n generalizing bs line rest with
  | zero =>
      obtain ⟨rfl, rfl⟩ := Prod.mk.inj (Option.some.inj h)
      exact ⟨(Nat.zero_add _).symm, fun hn => absurd hn (lt_irrefl 0)⟩
  | succ n ih =>
      cases bs with
      | nil => cases h
      | cons b bs =>
          rw [readline] at h
          split_ifs at h
          · obtain ⟨rfl, rfl⟩ := Prod.mk.inj (Option.some.inj h)
            exact ⟨by simp [Nat.add_comm], fun _ => Nat.one_pos⟩
          · obtain ⟨⟨tail, rest'⟩, hrest, heq⟩ := Option.map_eq_some_iff.mp h
            obtain ⟨rfl, rfl⟩ := Prod.mk.inj heq
            have hlength := (ih hrest).1
            exact ⟨by simp only [List.length_cons]; omega, fun _ => Nat.succ_pos _⟩

/-- The condition under which the header loop ends. -/
def endsHeader (line : List UInt8) : Bool := line.length ≤ 2 || [13, 10].isPrefixOf line

/-- The lines that the header loop reads; `none` when the client sends no more. -/
def readHeaders (bs : List UInt8) : Option (List (List UInt8)) :=
  match _hline : readline (BUFFER_SIZE - 1) bs with
  | none => none
  | some (line, rest) =>
      if endsHeader line then some [line] else (readHeaders rest).map (line :: ·)
termination_by bs.length
decreasing_by
  -- a line takes at least one byte from the input
  have hlength := length_readline _hline
  have hpos := hlength.2 (by decide)
  omega

/-! ## The request -/

/-- What is wanted: `req.type`, with a case for the pin and one for what is no request. -/
inductive Kind
  | snapshot
  | stream
  | take
  | inputJson
  | outputJson
  | programJson
  | gpio
  | command
  | file
  | cgi
  | malformed
  deriving DecidableEq

/-- The chain of tests on the request line. -/
def kind (buffer : Text) : Kind :=
  if contains buffer "GET /?action=snapshot".toList then .snapshot
  else if contains buffer "POST /stream".toList then .stream
  else if contains buffer "GET /?action=stream".toList then .stream
  else if contains buffer "GET /?action=take".toList then .take
  else if contains buffer "GET /input".toList && contains buffer ".json".toList then .inputJson
  else if contains buffer "GET /output".toList && contains buffer ".json".toList then .outputJson
  else if contains buffer "GET /program.json".toList then .programJson
  else if contains buffer "GET /?action=gpio".toList then .gpio
  else if contains buffer "GET /?action=command".toList then .command
  else
    match strstr buffer "GET /".toList with
    | none => .malformed
    | some pb => if contains (pb.drop 5) ".cgi".toList then .cgi else .file

/-- `query_suffixed`. -/
def Kind.suffixed : Kind → Bool
  | .snapshot | .stream | .take | .inputJson | .outputJson => true
  | _ => false

/-- What stands before the parameter. -/
def Kind.action : Kind → Text
  | .take => "GET /?action=take".toList
  | .command => "GET /?action=command".toList
  | _ => []

/-- The characters that a parameter may have. -/
def isParameterChar (c : Char) : Bool :=
  c.isAlpha || c.isDigit || "_-=&%./".toList.contains c

/-- `req.parameter` of `take` and `command`, before it is unescaped. -/
def parameter (k : Kind) (buffer : Text) : Text :=
  match strstr buffer k.action with
  | none => []
  | some pb => ((pb.drop k.action.length).takeWhile isParameterChar).take 100

/-- `hex_char_to_int`. -/
def hexCharToInt (c : Char) : Option ℕ :=
  if c.isDigit then some (c.toNat - '0'.toNat)
  else if 'a' ≤ c ∧ c ≤ 'f' then some (c.toNat - 'a'.toNat + 10)
  else if 'A' ≤ c ∧ c ≤ 'F' then some (c.toNat - 'A'.toNat + 10)
  else none

/-- `unescape`, or `none` for its `-1`. -/
def unescape : Text → Option Text
  | [] => some []
  | '%' :: c :: d :: s =>
      match hexCharToInt c, hexCharToInt d with
      | some high, some low => (unescape s).map (Char.ofNat (high * 16 + low) :: ·)
      | _, _ => none
  | '%' :: _ => none
  | c :: s => (unescape s).map (c :: ·)

/-- The value after `value=` in the request line, or `-1`. -/
def gpioValue (longBits : ℕ) (buffer : Text) : ℤ :=
  match strstr buffer "value=".toList with
  | none => -1
  | some pb => atoi longBits ((pb.drop 6).takeWhile (· ≠ ' '))

/-- The number of the plugin, a digit after the first `_`. -/
def inputNumber (buffer : Text) : ℕ :=
  match (buffer.dropWhile (· ≠ '_')).tail with
  | c :: _ => if c.isDigit then c.toNat - '0'.toNat else 0
  | [] => 0

/-! ## The credentials -/

/-- The value of a base64 digit; other characters are skipped. -/
def base64Digit (c : Char) : Option ℕ :=
  if c.isDigit then some (c.toNat - '0'.toNat + 52)
  else if c.isUpper then some (c.toNat - 'A'.toNat)
  else if c.isLower then some (c.toNat - 'a'.toNat + 26)
  else if c = '+' then some 62
  else if c = '/' then some 63
  else if c = '=' then some 0
  else none

/-- Four digits are three characters. -/
def decodeDigits : List ℕ → Text
  | a :: b :: c :: d :: ds =>
      let ch := ((a * 64 + b) * 64 + c) * 64 + d
      Char.ofNat (ch / 65536) :: Char.ofNat (ch / 256 % 256) :: Char.ofNat (ch % 256) ::
        decodeDigits ds
  | _ => []

/-- `decodeBase64`, and what is a string of the result. -/
def decodeBase64 (s : Text) : Text :=
  (decodeDigits (s.filterMap base64Digit)).takeWhile (· ≠ Char.ofNat 0)

/-- The credentials in a line that the server takes for an `Authorization: Basic` header. -/
def authorization (line : List UInt8) : Option Text :=
  if containsIgnoreCase (stringOf line) "Authorization: Basic ".toList then
    some (decodeBase64 ((stringOf line).drop 21))
  else none

/-- `req.credentials` after the header loop. -/
def credentialsOf (lines : List (List UInt8)) : Option Text :=
  lines.foldl (fun credentials line =>
    -- a line that names the client is not looked at again
    if containsIgnoreCase (stringOf line) "User-Agent: ".toList then credentials
    else (authorization line).or credentials) none

/-! ## The answer -/

/-- The configuration of the server and what it has loaded; `longBits` is the size of a `long`. -/
structure Server where
  credentials : Option Text := none
  nocommands : Bool := false
  wwwFolder : Option Text := none
  incnt : ℕ := 1
  outcnt : ℕ := 1
  longBits : ℕ := 64

/-- The `200 OK` of the pin, `send_error`, what the function for the kind sends, or nothing. -/
inductive Answer
  | ok
  | error (which : ℕ) (message : Text)
  | serve (k : Kind) (inputNumber : ℕ)
  | closed
  deriving DecidableEq

/-- The calls of `gpio_set_value`, and the answer. -/
structure Outcome where
  gpioCalls : List ℤ := []
  answer : Answer
  deriving DecidableEq

/-- The answer when access is granted. -/
def dispatch (s : Server) (k : Kind) (buffer : Text) : Answer :=
  let n := inputNumber buffer
  if k = .outputJson ∧ ¬ n < s.outcnt then .error 404 "Invalid output plugin number".toList
  -- the other kinds with a suffix name an input plugin
  else if k.suffixed = true ∧ k ≠ .outputJson ∧ ¬ n < s.incnt then
    .error 404 "Invalid input plugin number".toList
  else if k = .command ∧ s.nocommands = true then
    .error 501 "this server is configured to not accept commands".toList
  else if k = .file ∧ s.wwwFolder = none then .error 501 "no www-folder configured".toList
  else .serve k n

/-- What is answered before the header is read. -/
def early (s : Server) (buffer : Text) : Option Outcome :=
  match kind buffer with
  | .gpio =>
      -- the other branches note what is wanted; this one answers and closes the connection
      let value := gpioValue s.longBits buffer
      some { gpioCalls := if 0 ≤ value then [value] else [], answer := .ok }
  | .malformed => some { answer := .error 400 "Malformed HTTP request".toList }
  | .take | .command =>
      match unescape (parameter (kind buffer) buffer) with
      | none =>
          some { answer := .error 500 "could not properly unescape command parameter string".toList }
      | some _ => none
  | _ => none

/-- The credentials are compared, if there are some, and then the request is answered. -/
def checked (s : Server) (buffer : Text) (lines : List (List UInt8)) : Answer :=
  match s.credentials with
  | none => dispatch s (kind buffer) buffer
  | some credentials =>
      if credentialsOf lines = some credentials then dispatch s (kind buffer) buffer
      else .error 401 "username and password do not match to configuration".toList

/-- `client_thread`, for the bytes that the client sends. -/
def clientThread (s : Server) (bs : List UInt8) : Outcome :=
  match readline (BUFFER_SIZE - 1) bs with
  | none => { answer := .closed }
  | some (line, rest) =>
      match early s (stringOf line) with
      | some outcome => outcome
      | none =>
          match readHeaders rest with
          | none => { answer := .closed }
          | some lines => { answer := checked s (stringOf line) lines }

/-! ## A request is read to its end -/

/-- A request with any request line, any header lines and anything behind them. -/
structure HttpRequest where
  requestLine : List UInt8
  headers : List (List UInt8) := []
  body : List UInt8 := []

def HttpRequest.bytes (r : HttpRequest) : List UInt8 :=
  r.requestLine ++ [13, 10] ++ r.headers.flatMap (· ++ [13, 10]) ++ 13 :: 10 :: r.body

/-- The bytes are lines. -/
def Lined (bs : List UInt8) : Prop := bs = [] ∨ ∃ init, bs = init ++ [10]

theorem lined_flatMap (ls : List (List UInt8)) : Lined (ls.flatMap (· ++ [13, 10])) := by
  induction ls with
  | nil => exact Or.inl rfl
  | cons l ls ih =>
      refine Or.inr ?_
      rcases ih with hnil | ⟨init, hinit⟩
      · exact ⟨l ++ [13], by rw [List.flatMap_cons, hnil]; simp⟩
      · exact ⟨l ++ [13, 10] ++ init, by rw [List.flatMap_cons, hinit, ← List.append_assoc]⟩

/-- A line is read from lines, and what remains are lines. -/
theorem readline_lined {n : ℕ} (hn : 0 < n) {l : List UInt8} (hl : Lined l) (hne : l ≠ [])
    (t : List UInt8) : ∃ line rest, readline n (l ++ t) = some (line, rest ++ t) ∧
      l = line ++ rest ∧ line ≠ [] ∧ Lined rest := by
  induction n generalizing l with
  | zero => exact absurd hn (lt_irrefl 0)
  | succ n ih =>
      obtain ⟨init, rfl⟩ := hl.resolve_left hne
      cases init with
      | nil => exact ⟨[10], [], rfl, rfl, List.cons_ne_nil _ _, Or.inl rfl⟩
      | cons b init =>
          have htail : Lined (init ++ [10]) := Or.inr ⟨init, rfl⟩
          have htne : init ++ [10] ≠ [] := by simp
          simp only [List.cons_append, readline]
          by_cases hb : b = 10
          · rw [if_pos hb]
            exact ⟨[b], init ++ [10], rfl, rfl, List.cons_ne_nil _ _, htail⟩
          · rw [if_neg hb]
            cases n with
            | zero => exact ⟨[b], init ++ [10], rfl, rfl, List.cons_ne_nil _ _, htail⟩
            | succ n =>
                obtain ⟨line, rest, hread, hsplit, -, hrest⟩ := ih n.succ_pos htail htne
                exact ⟨b :: line, rest, by rw [hread]; rfl, by rw [hsplit]; rfl,
                  List.cons_ne_nil _ _, hrest⟩

theorem readHeaders_eq (bs : List UInt8) : readHeaders bs =
    (readline (BUFFER_SIZE - 1) bs).bind fun p =>
      if endsHeader p.1 then some [p.1] else (readHeaders p.2).map (p.1 :: ·) := by
  rw [readHeaders]
  split
  · next hline => rw [hline]; rfl
  · next hline => rw [hline]; rfl

/-- **The header loop ends**: at the empty line at the latest. -/
theorem exists_readHeaders {l : List UInt8} (hl : Lined l) (body : List UInt8) :
    ∃ lines, readHeaders (l ++ 13 :: 10 :: body) = some lines := by
  induction hlength : l.length using Nat.strong_induction_on generalizing l with
  | _ n ih =>
    by_cases hne : l = []
    · have hempty : readline (BUFFER_SIZE - 1) ([] ++ 13 :: 10 :: body) = some ([13, 10], body) := rfl
      exact ⟨[[13, 10]], by rw [hne, readHeaders_eq, hempty]; rfl⟩
    · obtain ⟨line, rest, hread, hsplit, hline, hrest⟩ :=
        readline_lined (by decide : 0 < BUFFER_SIZE - 1) hl hne (13 :: 10 :: body)
      rw [readHeaders_eq, hread, Option.bind_some]
      split_ifs
      · exact ⟨[line], rfl⟩
      -- the rest is lines again, and fewer bytes
      · have hshort : rest.length < n := by
          have hpos := List.length_pos_iff.mpr hline
          rw [← hlength, hsplit, List.length_append]
          omega
        obtain ⟨lines, hlines⟩ := ih rest.length hshort hrest rfl
        exact ⟨line :: lines, by rw [hlines]; rfl⟩

/-- The request line as far as it fits the buffer, and the lines of the header loop. -/
theorem exists_lines (r : HttpRequest) : ∃ line rest lines,
    readline (BUFFER_SIZE - 1) r.bytes = some (line, rest) ∧ readHeaders rest = some lines := by
  have hlined : Lined (r.requestLine ++ [13, 10] ++ r.headers.flatMap (· ++ [13, 10])) := by
    have h := lined_flatMap (r.requestLine :: r.headers)
    rwa [List.flatMap_cons] at h
  obtain ⟨line, rest, hread, -, -, hrest⟩ := readline_lined (by decide : 0 < BUFFER_SIZE - 1) hlined
    (by simp) (13 :: 10 :: r.body)
  obtain ⟨lines, hlines⟩ := exists_readHeaders hrest r.body
  exact ⟨line, _, lines, hread, hlines⟩

/-! ## Access control -/

/-- The string that the request line leaves in the buffer. -/
def HttpRequest.buffer (r : HttpRequest) : Text :=
  match readline (BUFFER_SIZE - 1) r.bytes with
  | none => []
  | some (line, _) => stringOf line

/-- The lines that the header loop reads. -/
def HttpRequest.headerLines (r : HttpRequest) : List (List UInt8) :=
  match readline (BUFFER_SIZE - 1) r.bytes with
  | none => []
  | some (_, rest) => (readHeaders rest).getD []

/-- A header line carries the credentials, by the test that the header loop makes of each line. -/
def Carries (r : HttpRequest) (credentials : Text) : Prop :=
  ∃ line ∈ r.headerLines, authorization line = some credentials

/-- The pin after a call of `gpio_set_value`. -/
def gpioSetValue (_ : Bool) (value : ℤ) : Bool := value ≠ 0

/-- The access control, for one request: without the credentials the pin is not touched and the
answer is 401; with `nocommands` the pin keeps its level. -/
def Obeys (s : Server) (r : HttpRequest) : Prop :=
  let outcome := clientThread s r.bytes
  (∀ credentials, s.credentials = some credentials → ¬ Carries r credentials →
    outcome.gpioCalls = [] ∧ ∃ message, outcome.answer = .error 401 message) ∧
  (s.nocommands = true → ∀ level, outcome.gpioCalls.foldl gpioSetValue level = level)

/-- The request is answered without a look at its header: it is for the pin, or it is not
understood. -/
def AnsweredEarly (buffer : Text) : Prop :=
  kind buffer = .gpio ∨ kind buffer = .malformed ∨
    ((kind buffer = .take ∨ kind buffer = .command) ∧
      unescape (parameter (kind buffer) buffer) = none)

/-- The request sets the pin. -/
def SetsPin (longBits : ℕ) (buffer : Text) : Prop :=
  kind buffer = .gpio ∧ 0 ≤ gpioValue longBits buffer

variable {s : Server} {r : HttpRequest}

theorem mem_of_credentialsOf {lines : List (List UInt8)} {credentials : Text}
    (h : credentialsOf lines = some credentials) :
    ∃ line ∈ lines, authorization line = some credentials := by
  induction lines using List.reverseRecOn with
  | nil => cases h
  | append_singleton lines line ih =>
      rw [credentialsOf, List.foldl_append] at h
      simp only [List.foldl_cons, List.foldl_nil] at h
      have hbefore : credentialsOf lines = some credentials →
          ∃ l ∈ lines ++ [line], authorization l = some credentials := fun hc => by
        obtain ⟨l, hl, hauth⟩ := ih hc
        exact ⟨l, List.mem_append_left _ hl, hauth⟩
      split_ifs at h
      · exact hbefore h
      · rcases Option.or_eq_some_iff.mp h with hauth | ⟨-, hc⟩
        · exact ⟨line, by simp, hauth⟩
        · exact hbefore hc

/-- **The two ways through the thread.** -/
theorem clientThread_eq (s : Server) (r : HttpRequest) : clientThread s r.bytes =
    (early s r.buffer).getD { answer := checked s r.buffer r.headerLines } := by
  obtain ⟨line, rest, lines, hread, hlines⟩ := exists_lines r
  have hbuffer : r.buffer = stringOf line := by rw [HttpRequest.buffer, hread]
  have hheader : r.headerLines = lines := by simp only [HttpRequest.headerLines, hread, hlines]; rfl
  rw [hbuffer, hheader, clientThread, hread]
  cases hearly : early s (stringOf line) with
  | some outcome => simp only [hearly]; rfl
  | none => simp only [hearly, hlines]; rfl

theorem SetsPin.answeredEarly {longBits : ℕ} {buffer : Text} (h : SetsPin longBits buffer) :
    AnsweredEarly buffer := Or.inl h.1

/-- The header is read unless the request is answered early. -/
theorem early_eq_none_iff (s : Server) (buffer : Text) :
    early s buffer = none ↔ ¬ AnsweredEarly buffer := by
  unfold early AnsweredEarly
  cases hk : kind buffer with
  | take =>
      cases hunescape : unescape (parameter .take buffer) with
      | none => simp
      | some text => simp
  | command =>
      cases hunescape : unescape (parameter .command buffer) with
      | none => simp
      | some text => simp
  | _ => simp

theorem not_setsPin {longBits : ℕ} {buffer : Text} (h : kind buffer ≠ .gpio) :
    ¬ SetsPin longBits buffer := fun hpin => h hpin.1

/-- A parameter that cannot be unescaped. -/
theorem early_of_parameter {buffer : Text} {outcome : Outcome}
    (hk : kind buffer = .take ∨ kind buffer = .command) (h : early s buffer = some outcome) :
    ∃ message, outcome = { answer := .error 500 message } := by
  rcases hk with hk | hk
  all_goals
    simp only [early, hk] at h
    split at h
    · exact ⟨_, (Option.some.inj h).symm⟩
    · cases h

/-- An early answer is not 401, and the pin is set by its own request only. -/
theorem early_spec {buffer : Text} {outcome : Outcome} (h : early s buffer = some outcome) :
    (∀ message, outcome.answer ≠ .error 401 message) ∧
      (SetsPin s.longBits buffer → outcome.gpioCalls = [gpioValue s.longBits buffer]) ∧
      (¬ SetsPin s.longBits buffer → outcome.gpioCalls = []) := by
  -- an error that is not 401
  have herror : ∀ which message, which ≠ 401 → outcome = { answer := .error which message } →
      kind buffer ≠ .gpio → (∀ message, outcome.answer ≠ .error 401 message) ∧
        (SetsPin s.longBits buffer → outcome.gpioCalls = [gpioValue s.longBits buffer]) ∧
        (¬ SetsPin s.longBits buffer → outcome.gpioCalls = []) := by
    rintro which message hwhich rfl hk
    exact ⟨fun _ h => hwhich (Answer.error.inj h).1, fun hpin => absurd hpin (not_setsPin hk),
      fun _ => rfl⟩
  cases hk : kind buffer with
  | gpio =>
      rw [early, hk] at h
      obtain rfl := Option.some.inj h
      refine ⟨fun _ => by simp, fun hpin => if_pos hpin.2, fun hpin => ?_⟩
      exact if_neg fun hvalue => hpin ⟨hk, hvalue⟩
  | malformed =>
      rw [early, hk] at h
      exact herror 400 _ (by decide) (Option.some.inj h).symm (by simp [hk])
  | take =>
      obtain ⟨message, heq⟩ := early_of_parameter (Or.inl hk) h
      exact herror 500 message (by decide) heq (by simp [hk])
  | command =>
      obtain ⟨message, heq⟩ := early_of_parameter (Or.inr hk) h
      exact herror 500 message (by decide) heq (by simp [hk])
  | _ =>
      rw [early, hk] at h
      cases h

/-- Behind the header loop, without the credentials the answer is 401. -/
theorem checked_of_not_carries {credentials : Text} (hs : s.credentials = some credentials)
    (h : ¬ Carries r credentials) :
    ∃ message, checked s r.buffer r.headerLines = .error 401 message := by
  have hne : ¬ credentialsOf r.headerLines = some credentials := fun hc => h (mem_of_credentialsOf hc)
  refine ⟨"username and password do not match to configuration".toList, ?_⟩
  simp only [checked, hs, if_neg hne]

/-- **When the pin is under the access control.** -/
theorem obeys_iff (s : Server) (r : HttpRequest) : Obeys s r ↔
    (∀ credentials, s.credentials = some credentials → ¬ Carries r credentials →
      ¬ AnsweredEarly r.buffer) ∧
    (s.nocommands = true → ¬ SetsPin s.longBits r.buffer) := by
  unfold Obeys
  rw [clientThread_eq]
  cases hearly : early s r.buffer with
  | none =>
      have hlate := (early_eq_none_iff s r.buffer).mp hearly
      refine iff_of_true ⟨fun credentials hs hno => ?_, fun _ level => rfl⟩
        ⟨fun _ _ _ => hlate, fun _ hpin => hlate hpin.answeredEarly⟩
      exact ⟨rfl, checked_of_not_carries hs hno⟩
  | some outcome =>
      obtain ⟨hanswer, hset, hkeep⟩ := early_spec hearly
      have hmet : AnsweredEarly r.buffer := by
        by_contra hlate
        cases hearly.symm.trans ((early_eq_none_iff s r.buffer).mpr hlate)
      refine and_congr ?_ (imp_congr_right fun _ => ?_)
      · refine forall_congr' fun credentials => imp_congr_right fun _ => imp_congr_right fun _ => ?_
        exact iff_of_false (fun h => h.2.elim hanswer) (not_not.mpr hmet)
      · by_cases hpin : SetsPin s.longBits r.buffer
        · -- the level after the call does not depend on the level before
          refine iff_of_false (fun h => ?_) (not_not.mpr hpin)
          have htrue := h true
          have hfalse := h false
          rw [Option.getD_some, hset hpin] at htrue hfalse
          exact absurd (htrue.symm.trans hfalse) (by decide)
        · refine iff_of_true (fun level => ?_) hpin
          rw [Option.getD_some, hkeep hpin]
          rfl

/-- A request that sets the pin and carries no credentials. -/
def gpioRequest : HttpRequest where
  requestLine := encodeUtf8 "GET /?action=gpio&value=1 HTTP/1.0".toList

theorem headerLines_gpioRequest : gpioRequest.headerLines = [[13, 10]] := by
  have hline : readline (BUFFER_SIZE - 1) gpioRequest.bytes =
      some (gpioRequest.requestLine ++ [13, 10], [13, 10]) := by decide +kernel
  have hheader : readHeaders [13, 10] = some [[13, 10]] := by
    rw [readHeaders_eq]
    rfl
  simp only [HttpRequest.headerLines, hline, hheader]
  rfl

/-- The pin is set although the server asks for credentials. -/
theorem gpio_without_credentials : ¬ ∀ (s : Server) (r : HttpRequest), Obeys s r := by
  intro h
  have hobeys := (h { credentials := some "user:pass".toList } gpioRequest).1 "user:pass".toList rfl
  have hcarries : ¬ Carries gpioRequest "user:pass".toList := by
    rintro ⟨line, hline, hauth⟩
    rw [headerLines_gpioRequest] at hline
    obtain rfl := List.mem_singleton.mp hline
    revert hauth
    decide
  have hcalls := (hobeys hcarries).1
  revert hcalls
  decide +kernel

end ClientThread
