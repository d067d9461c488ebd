/-
# Who is let in (`client_thread`, `decodeBase64` in `httpd.c`)

A client sends its credentials in base64.  For every request whose lines fit the buffer, in whatever
blocks it comes, the server lets a client in exactly if it sends the configured credentials.

* `decodeBase64_encode`: the server reads the credentials back;
* `carries_iff`: which requests carry the credentials that access is granted for;
* `admitted_iff`: who is let in.
-/
import ProjectTank.Base64
import ProjectTank.RequestReader
import Mathlib.Data.List.TakeWhile

open ProgramText ClientThread

namespace RequestCredentials

/-! ## The credentials of a client -/

/-- A text of bytes without a NUL. -/
def ByteText (s : Text) : Prop := ∀ c ∈ s, c.toNat < 256 ∧ c ≠ Char.ofNat 0

instance (s : Text) : Decidable (ByteText s) := List.decidableBAll _ s

/-- The header line with these credentials. -/
def basicText (credentials : Text) : Text :=
  "Authorization: Basic ".toList ++ Base64.encode (credentials.map Char.toNat)

/-- The header line, as bytes. -/
def basicLine (credentials : Text) : List UInt8 := encodeUtf8 (basicText credentials)

/-- The decoder of the server works by groups of four, as the library's does. -/
theorem decodeDigits_eq (ds : List ℕ) : decodeDigits ds = (Base64.decodeGroups ds).map Char.ofNat := by
  induction ds using decodeDigits.induct with
  | case1 a b c d ds ih => rw [decodeDigits, Base64.decodeGroups, ih]; rfl
  | case2 ds hds =>
      rw [decodeDigits, Base64.decodeGroups, List.map_nil]
      · exact hds
      · exact hds

theorem base64Digit_letter : ∀ g < 64, base64Digit (Base64.letter g) = some g := by decide

/-- **The server reads the credentials back**, with the line end behind them. -/
theorem decodeBase64_encode {credentials : Text} (h : ByteText credentials) :
    decodeBase64 (Base64.encode (credentials.map Char.toNat) ++ "\r\n".toList) = credentials := by
  have hbytes : ∀ b ∈ credentials.map Char.toNat, b < 256 := by
    intro b hb
    obtain ⟨c, hc, rfl⟩ := List.mem_map.mp hb
    exact (h c hc).1
  have hdigits : (Base64.encode (credentials.map Char.toNat) ++ "\r\n".toList).filterMap base64Digit =
      (Base64.encodeGroups (credentials.map Char.toNat)).map (·.getD 0) := by
    have hend : "\r\n".toList.filterMap base64Digit = [] := by decide
    rw [List.filterMap_append, hend, List.append_nil, Base64.encode, List.filterMap_map]
    refine (List.filterMap_congr (g := fun g => some (g.getD 0)) fun g hg => ?_).trans ?_
    · cases g with
      | none => rfl
      | some g => exact base64Digit_letter g (Base64.lt_of_mem_encodeGroups hbytes hg)
    · rw [List.filterMap_eq_map']
  have hread : (credentials.map Char.toNat).map Char.ofNat = credentials := by
    rw [List.map_map]
    refine (List.map_congr_left fun c _ => ?_).trans (List.map_id credentials)
    exact Char.ofNat_toNat c
  rw [decodeBase64, hdigits, decodeDigits_eq, Base64.decodeGroups_encodeGroups hbytes,
    List.map_append, hread, List.map_replicate, List.takeWhile_append_of_pos]
  · rw [List.takeWhile_replicate]
    simp
  · intro c hc
    exact decide_eq_true (h c hc).2

/-! ## The header lines -/

/-- A line that fits the buffer and has something in it. -/
structure Clean (line : List UInt8) : Prop where
  noNewline : 10 ∉ line
  ne_nil : line ≠ []
  fits : line.length + 2 ≤ BUFFER_SIZE - 1

instance (line : List UInt8) : Decidable (Clean line) :=
  decidable_of_iff (10 ∉ line ∧ line ≠ [] ∧ line.length + 2 ≤ BUFFER_SIZE - 1)
    ⟨fun h => ⟨h.1, h.2.1, h.2.2⟩, fun h => ⟨h.noNewline, h.ne_nil, h.fits⟩⟩

/-- A line is read up to and with its newline. -/
theorem readline_line {n : ℕ} {line : List UInt8} (hline : 10 ∉ line) (hn : line.length < n)
    (rest : List UInt8) : readline n (line ++ 10 :: rest) = some (line ++ [10], rest) := by
  induction line generalizing n with
  | nil =>
      obtain ⟨m, rfl⟩ := Nat.exists_eq_succ_of_ne_zero hn.ne'
      rfl
  | cons b line ih =>
      obtain ⟨m, rfl⟩ := Nat.exists_eq_succ_of_ne_zero (Nat.ne_of_gt (Nat.zero_lt_of_lt hn))
      rw [List.mem_cons, not_or] at hline
      rw [List.cons_append, readline, if_neg (Ne.symm hline.1),
        ih hline.2 (Nat.lt_of_succ_lt_succ hn)]
      rfl

/-- A clean line is read whole, with its line end. -/
theorem Clean.readline {line : List UInt8} (h : Clean line) (rest : List UInt8) :
    ClientThread.readline (BUFFER_SIZE - 1) (line ++ [13, 10] ++ rest) =
      some (line ++ [13, 10], rest) := by
  have hfits := h.fits
  have hno : 10 ∉ line ++ [13] := by
    rw [List.mem_append, not_or]
    exact ⟨h.noNewline, by decide⟩
  have hlength : (line ++ [13]).length < BUFFER_SIZE - 1 := by
    rw [List.length_append, List.length_singleton]
    omega
  have hread := readline_line hno hlength rest
  simpa only [List.append_assoc, List.cons_append, List.nil_append] using hread

/-- Such a line does not end the header. -/
theorem Clean.endsHeader {line : List UInt8} (h : Clean line) :
    ClientThread.endsHeader (line ++ [13, 10]) = false := by
  obtain ⟨b, rest, rfl⟩ := List.exists_cons_of_ne_nil h.ne_nil
  have hb := h.noNewline
  rw [List.mem_cons, not_or] at hb
  have hlong : ¬ ((b :: rest) ++ [13, 10]).length ≤ 2 := by
    simp
  unfold ClientThread.endsHeader
  rw [decide_eq_false hlong, Bool.false_or]
  -- the second byte is a newline of the line or its carriage return
  cases rest with
  | nil => simp [List.isPrefixOf]
  | cons c rest =>
      have hc : (10 : UInt8) ≠ c := fun h => hb.2 (h ▸ List.mem_cons_self)
      simp [List.isPrefixOf, hc]

/-- The header loop reads the lines one by one and stops at the empty one. -/
theorem readHeaders_lines {headers : List (List UInt8)} (h : ∀ line ∈ headers, Clean line)
    (body : List UInt8) :
    readHeaders (headers.flatMap (· ++ [13, 10]) ++ 13 :: 10 :: body) =
      some (headers.map (· ++ [13, 10]) ++ [[13, 10]]) := by
  induction headers with
  | nil =>
      have hempty : readline (BUFFER_SIZE - 1) (13 :: 10 :: body) = some ([13, 10], body) := rfl
      rw [List.flatMap_nil, List.nil_append, readHeaders_eq, hempty]
      rfl
  | cons line headers ih =>
      obtain ⟨hline, hheaders⟩ := List.forall_mem_cons.mp h
      rw [List.flatMap_cons, List.append_assoc, readHeaders_eq, hline.readline, Option.bind_some,
        hline.endsHeader, if_neg Bool.false_ne_true, ih hheaders]
      rfl

/-- A request whose lines fit the buffer. -/
structure WellFormed (r : HttpRequest) : Prop where
  requestLine : Clean r.requestLine
  headers : ∀ line ∈ r.headers, Clean line

/-- What the server takes for header lines is what the client sent as such. -/
theorem WellFormed.headerLines {r : HttpRequest} (h : WellFormed r) :
    r.headerLines = r.headers.map (· ++ [13, 10]) ++ [[13, 10]] := by
  have hline := h.requestLine.readline (r.headers.flatMap (· ++ [13, 10]) ++ 13 :: 10 :: r.body)
  rw [← List.append_assoc] at hline
  simp only [HttpRequest.headerLines, HttpRequest.bytes, hline, readHeaders_lines h.headers]
  rfl

/-! ## The line with the credentials -/

theorem letter_facts : ∀ g < 64, isAscii (Base64.letter g) = true ∧
    Base64.letter g ≠ Char.ofNat 0 ∧ (Base64.letter g).toLower ≠ '-' ∧
      (Base64.letter g).toNat ≠ 10 := by decide

/-- What the header line consists of. -/
theorem mem_basicText {credentials : Text} (h : ByteText credentials) {c : Char}
    (hc : c ∈ basicText credentials) :
    isAscii c = true ∧ c ≠ Char.ofNat 0 ∧ c.toLower ≠ '-' ∧ c.toNat ≠ 10 := by
  have hname : ∀ c ∈ "Authorization: Basic ".toList,
      decide (isAscii c = true ∧ c ≠ Char.ofNat 0 ∧ c.toLower ≠ '-' ∧ c.toNat ≠ 10) = true := by
    apply List.all_eq_true.mp
    decide +kernel
  have hbytes : ∀ b ∈ credentials.map Char.toNat, b < 256 := by
    intro b hb
    obtain ⟨d, hd, rfl⟩ := List.mem_map.mp hb
    exact (h d hd).1
  rcases List.mem_append.mp hc with hc | hc
  · exact of_decide_eq_true (hname c hc)
  · rcases Base64.mem_encode hbytes hc with rfl | ⟨g, hg, rfl⟩
    · decide
    · exact letter_facts g hg

/-- The line of the credentials, as C reads it. -/
theorem stringOf_basicLine {credentials : Text} (h : ByteText credentials) :
    stringOf (basicLine credentials ++ [13, 10]) = basicText credentials ++ "\r\n".toList := by
  have hascii : (basicText credentials).all isAscii = true :=
    List.all_eq_true.mpr fun c hc => (mem_basicText h hc).1
  have hend : ofBytes [13, 10] = "\r\n".toList := by decide
  rw [stringOf, ofBytes_append, basicLine, ofBytes_encodeUtf8 hascii, hend]
  apply List.takeWhile_eq_self_iff.mpr
  have hcrlf : ∀ c ∈ "\r\n".toList, decide (c ≠ Char.ofNat 0) = true := by
    apply List.all_eq_true.mp
    decide
  rw [List.forall_mem_append]
  exact ⟨fun c hc => decide_eq_true (mem_basicText h hc).2.1, hcrlf⟩

/-- What is contained is a part of the text. -/
theorem infix_of_contains {s needle : Text} (h : contains s needle = true) : needle <:+: s := by
  induction s with
  | nil =>
      unfold contains strstr at h
      split at h
      · next hprefix => exact (List.isPrefixOf_iff_prefix.mp hprefix).isInfix
      · cases h
  | cons c s ih =>
      unfold contains strstr at h
      split at h
      · next hprefix => exact (List.isPrefixOf_iff_prefix.mp hprefix).isInfix
      · exact (ih h).trans (List.suffix_cons c s).isInfix

theorem contains_of_prefix {s needle : Text} (h : needle <+: s) : contains s needle = true := by
  unfold contains strstr
  rw [if_pos (List.isPrefixOf_iff_prefix.mpr h)]
  rfl

/-- A text contains its beginning. -/
theorem containsIgnoreCase_append (s t : Text) : containsIgnoreCase (s ++ t) s = true := by
  unfold containsIgnoreCase
  rw [List.map_append]
  exact contains_of_prefix (List.prefix_append _ _)

/-- The line does not name the client. -/
theorem not_userAgent {credentials : Text} (h : ByteText credentials) :
    containsIgnoreCase (stringOf (basicLine credentials ++ [13, 10])) "User-Agent: ".toList = false := by
  rw [← Bool.not_eq_true]
  intro hcontains
  have hdash : '-' ∈ "User-Agent: ".toList.map Char.toLower := by decide
  have hmem := (infix_of_contains hcontains).subset hdash
  rw [stringOf_basicLine h, List.map_append, List.mem_append] at hmem
  rcases hmem with hmem | hmem
  · obtain ⟨c, hc, hlower⟩ := List.mem_map.mp hmem
    exact (mem_basicText h hc).2.2.1 hlower
  · revert hmem
    decide

/-- **The credentials in the line are the ones that were put in.** -/
theorem authorization_basicLine {credentials : Text} (h : ByteText credentials) :
    authorization (basicLine credentials ++ [13, 10]) = some credentials := by
  have hstring : stringOf (basicLine credentials ++ [13, 10]) = "Authorization: Basic ".toList ++
      (Base64.encode (credentials.map Char.toNat) ++ "\r\n".toList) := by
    rw [stringOf_basicLine h, ← List.append_assoc]
    rfl
  have hlength : "Authorization: Basic ".toList.length = 21 := by decide
  unfold authorization
  rw [hstring, containsIgnoreCase_append, if_pos rfl, ← hlength, List.drop_left,
    decodeBase64_encode h]

/-- Where the lines fit the buffer, the server's test looks at the header lines as they were
sent. -/
theorem WellFormed.carries_iff_headers {r : HttpRequest} (h : WellFormed r) (credentials : Text) :
    Carries r credentials ↔
      ∃ line ∈ r.headers, authorization (line ++ [13, 10]) = some credentials := by
  have hempty : authorization [13, 10] = none := by decide
  rw [Carries, h.headerLines]
  simp [hempty]

/-- **What it is to carry the credentials**: a request with one `Authorization: Basic` line carries
exactly the credentials that were put in it. -/
theorem carries_iff {r : HttpRequest} (hr : WellFormed r) {credentials : Text}
    (hcredentials : ByteText credentials) {before after : List (List UInt8)}
    (hheaders : r.headers = before ++ basicLine credentials :: after)
    (hnone : ∀ line ∈ before ++ after, authorization (line ++ [13, 10]) = none)
    (configured : Text) : Carries r configured ↔ credentials = configured := by
  rw [hr.carries_iff_headers, hheaders]
  constructor
  · rintro ⟨line, hline, hauth⟩
    rcases List.mem_append.mp hline with hbefore | hline
    · rw [hnone line (List.mem_append_left _ hbefore)] at hauth
      cases hauth
    · rcases List.mem_cons.mp hline with rfl | hafter
      · exact Option.some.inj ((authorization_basicLine hcredentials).symm.trans hauth)
      · rw [hnone line (List.mem_append_right _ hafter)] at hauth
        cases hauth
  · rintro rfl
    exact ⟨basicLine credentials, by simp, authorization_basicLine hcredentials⟩

/-- Without such a line a request carries none. -/
theorem not_carries_of_none {r : HttpRequest} (hr : WellFormed r)
    (hnone : ∀ line ∈ r.headers, authorization (line ++ [13, 10]) = none) (configured : Text) :
    ¬ Carries r configured := by
  rw [hr.carries_iff_headers]
  rintro ⟨line, hline, hauth⟩
  rw [hnone line hline] at hauth
  cases hauth

/-! ## Who is let in -/

/-- A header line that the server does not take credentials from. -/
def Silent (line : List UInt8) : Prop :=
  containsIgnoreCase (stringOf line) "User-Agent: ".toList = true ∨ authorization line = none

/-- What one line does to the credentials. -/
def withLine (credentials : Option Text) (line : List UInt8) : Option Text :=
  if containsIgnoreCase (stringOf line) "User-Agent: ".toList then credentials
  else (authorization line).or credentials

theorem credentialsOf_eq_foldl (lines : List (List UInt8)) :
    credentialsOf lines = lines.foldl withLine none := rfl

/-- Lines without credentials leave them as they are. -/
theorem foldl_withLine_of_silent {lines : List (List UInt8)} (h : ∀ line ∈ lines, Silent line)
    (credentials : Option Text) : lines.foldl withLine credentials = credentials := by
  induction lines with
  | nil => rfl
  | cons line lines ih =>
      obtain ⟨hline, hlines⟩ := List.forall_mem_cons.mp h
      have hkeep : withLine credentials line = credentials := by
        unfold withLine
        rcases hline with hagent | hnone
        · exact if_pos hagent
        · rw [hnone, Option.none_or, ite_self]
      rw [List.foldl_cons, hkeep]
      exact ih hlines

theorem silent_crlf : Silent [13, 10] := Or.inr (by decide)

/-- The credentials of a request with one line for them. -/
theorem credentialsOf_headerLines {r : HttpRequest} (hr : WellFormed r) {credentials : Text}
    (hcredentials : ByteText credentials) {before after : List (List UInt8)}
    (hheaders : r.headers = before ++ basicLine credentials :: after)
    (hsilent : ∀ line ∈ before ++ after, Silent (line ++ [13, 10])) :
    credentialsOf r.headerLines = some credentials := by
  have hlines : ∀ ls : List (List UInt8), (∀ line ∈ ls, line ∈ before ++ after) →
      ∀ line ∈ ls.map (· ++ [13, 10]), Silent line := by
    intro ls hls line hline
    obtain ⟨l, hl, rfl⟩ := List.mem_map.mp hline
    exact hsilent l (hls l hl)
  have hauth : withLine none (basicLine credentials ++ [13, 10]) = some credentials := by
    unfold withLine
    rw [not_userAgent hcredentials, if_neg Bool.false_ne_true, authorization_basicLine hcredentials]
    rfl
  rw [credentialsOf_eq_foldl, hr.headerLines, hheaders, List.map_append, List.map_cons,
    List.append_assoc, List.foldl_append,
    foldl_withLine_of_silent (hlines before fun _ => List.mem_append_left _), List.cons_append,
    List.foldl_cons, hauth, List.foldl_append,
    foldl_withLine_of_silent (hlines after fun _ => List.mem_append_right _)]
  exact foldl_withLine_of_silent (List.forall_mem_singleton.mpr silent_crlf) _

/-- **Who is let in.**  A client that sends credentials, among lines that carry none, in whatever
blocks its request comes, is answered exactly if they are the configured ones; else it gets 401. -/
theorem admitted_iff (s : Server) (r : HttpRequest) (arrivals : List RequestReader.Arrival)
    (harrivals : RequestReader.available arrivals = r.bytes) (hr : WellFormed r)
    (hlate : ¬ AnsweredEarly r.buffer) {configured credentials : Text}
    (hs : s.credentials = some configured) (hcredentials : ByteText credentials)
    {before after : List (List UInt8)}
    (hheaders : r.headers = before ++ basicLine credentials :: after)
    (hsilent : ∀ line ∈ before ++ after, Silent (line ++ [13, 10])) :
    (RequestReader.clientThreadFrom s arrivals).answer =
      if credentials = configured then dispatch s (kind r.buffer) r.buffer
      else .error 401 "username and password do not match to configuration".toList := by
  have hread := credentialsOf_headerLines hr hcredentials hheaders hsilent
  rw [RequestReader.clientThreadFrom_eq, harrivals, clientThread_eq,
    (early_eq_none_iff s r.buffer).mpr hlate, Option.getD_none]
  show checked s r.buffer r.headerLines = _
  unfold checked
  simp only [hs, hread, Option.some.injEq]

/-- A request for the stream with the credentials `user:pass`. -/
def streamRequest : HttpRequest where
  requestLine := encodeUtf8 "GET /?action=stream HTTP/1.0".toList
  headers := [basicLine "user:pass".toList]

/-- The request in one block. -/
def streamBlock : RequestReader.Block where
  bytes := streamRequest.bytes
  pos := by decide +kernel
  fits := by decide +kernel

theorem admitted_streamRequest :
    (RequestReader.clientThreadFrom { credentials := some "user:pass".toList }
      [.data streamBlock]).answer = .serve .stream 0 := by
  have hkind : kind streamRequest.buffer = .stream := by decide +kernel
  have hlate : ¬ AnsweredEarly streamRequest.buffer := by
    unfold AnsweredEarly
    rw [hkind]
    simp
  have hclean : WellFormed streamRequest := ⟨by decide +kernel, by decide +kernel⟩
  have harrivals : RequestReader.available [.data streamBlock] = streamRequest.bytes :=
    List.append_nil _
  rw [admitted_iff _ streamRequest _ harrivals hclean hlate rfl
    (by decide +kernel : ByteText "user:pass".toList) (List.nil_append _).symm (by simp), if_pos rfl]
  decide +kernel

end RequestCredentials
