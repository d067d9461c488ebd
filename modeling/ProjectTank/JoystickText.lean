/-
# The command text of the joystick page (`Guy/peter/index_fixed.html`)

`rawCommand` in `repeatedTask`, the library function `encodeURIComponent`, and the
URL that `safeFetch` requests.  `unquote_encodeURIComponent` says that the
percent-coding of the page and the decoding of the server are inverse to each other.
-/
import ProjectTank.PythonText

open ProgramText DecimalText

namespace JoystickPage

/-- `rawCommand`.  The template prints each number in decimal. -/
def rawCommand (leftJoystickY leftJoystickX rightJoystickY rightJoystickX fireData lightData : ℤ) :
    Text :=
  "FR:".toList ++ intText leftJoystickY ++ ";LR:".toList ++ intText leftJoystickX ++
    ";UD:".toList ++ intText rightJoystickY ++ ";TLR:".toList ++ intText rightJoystickX ++
    ";FC:".toList ++ intText fireData ++ ";LC:".toList ++ intText lightData

/-- The characters that `encodeURIComponent` leaves alone. -/
def isUnreserved (c : Char) : Bool := c.isAlphanum || "-_.!~*'()".toList.contains c

/-- An upper-case hexadecimal digit. -/
def hexDigit (n : ℕ) : Char := "0123456789ABCDEF".toList.getD n '0'

/-- A percent escape. -/
def percentEscape (b : UInt8) : Text := ['%', hexDigit (b.toNat / 16), hexDigit (b.toNat % 16)]

/-- `encodeURIComponent`. -/
def encodeURIComponent (s : Text) : Text :=
  s.flatMap fun c =>
    if isUnreserved c then [c] else (String.utf8EncodeChar c).flatMap percentEscape

/-- The URL of a command. -/
def tankCommandUrl (rawCommand : Text) : Text :=
  "/tank_command?cmd=".toList ++ encodeURIComponent rawCommand

/-! ## Decoding -/

theorem hexDigit?_hexDigit {n : ℕ} (h : n < 16) : Python.hexDigit? (hexDigit n) = some n := by
  have hall : ∀ k : Fin 16, Python.hexDigit? (hexDigit k) = some (k : ℕ) := by decide
  exact hall ⟨n, h⟩

theorem isUnreserved_hexDigit {n : ℕ} (h : n < 16) : isUnreserved (hexDigit n) = true := by
  have hall : ∀ k : Fin 16, isUnreserved (hexDigit k) = true := by decide
  exact hall ⟨n, h⟩

/-- What an encoded text consists of. -/
theorem mem_encodeURIComponent {s : Text} {c : Char} (h : c ∈ encodeURIComponent s) :
    isUnreserved c = true ∨ c = '%' := by
  obtain ⟨d, -, hd⟩ := List.mem_flatMap.mp h
  split at hd
  · next hun =>
      rw [List.mem_singleton.mp hd]
      exact Or.inl hun
  · obtain ⟨b, -, hb⟩ := List.mem_flatMap.mp hd
    have hlt : b.toNat < 256 := b.toNat_lt
    simp only [percentEscape, List.mem_cons, List.not_mem_nil, or_false] at hb
    rcases hb with rfl | rfl | rfl
    · exact Or.inr rfl
    · exact Or.inl (isUnreserved_hexDigit (by omega))
    · exact Or.inl (isUnreserved_hexDigit (by omega))

theorem not_mem_encodeURIComponent {c : Char} (hun : isUnreserved c = false) (hne : c ≠ '%')
    (s : Text) : c ∉ encodeURIComponent s := by
  intro h
  rcases mem_encodeURIComponent h with h | h
  · rw [hun] at h
    exact Bool.false_ne_true h
  · exact hne h

theorem isAscii_of_isUnreserved {c : Char} (h : isUnreserved c = true) : isAscii c = true := by
  have hval : c.toNat = c.val.toNat := rfl
  have hZ : 'Z'.val.toNat = 90 := rfl
  have hz : 'z'.val.toNat = 122 := rfl
  have h9 : '9'.val.toNat = 57 := rfl
  simp only [isUnreserved, Bool.or_eq_true] at h
  rcases h with h | h
  · delta Char.isAlphanum Char.isAlpha Char.isUpper Char.isLower Char.isDigit at h
    simp only [Bool.or_eq_true, Bool.and_eq_true, decide_eq_true_eq,
      UInt32.le_iff_toNat_le] at h
    simp only [isAscii, decide_eq_true_eq]
    omega
  · have hall : "-_.!~*'()".toList.all isAscii = true := by decide
    exact List.all_eq_true.mp hall c (by simpa using h)

theorem encodeURIComponent_ascii (s : Text) : (encodeURIComponent s).all isAscii = true := by
  rw [List.all_eq_true]
  intro c hc
  rcases mem_encodeURIComponent hc with h | rfl
  · exact isAscii_of_isUnreserved h
  · decide

/-- The bytes behind the escapes are those of the text. -/
theorem unquoteToBytes_encodeURIComponent (s : Text) :
    Python.unquoteToBytes (encodeURIComponent s) = encodeUtf8 s := by
  have hescape : ∀ (bs : List UInt8) (t : Text),
      Python.unquoteToBytes (bs.flatMap percentEscape ++ t) = bs ++ Python.unquoteToBytes t := by
    intro bs t
    induction bs with
    | nil => rfl
    | cons b bs ih =>
        have hlt : b.toNat < 256 := b.toNat_lt
        have hbyte : UInt8.ofNat (16 * (b.toNat / 16) + b.toNat % 16) = b := by
          rw [Nat.div_add_mod, UInt8.ofNat_toNat]
        rw [List.flatMap_cons, List.append_assoc]
        show Python.unquoteToBytes ('%' :: _ :: _ :: (bs.flatMap percentEscape ++ t)) = _
        rw [Python.unquoteToBytes_escape (hexDigit?_hexDigit (by omega))
          (hexDigit?_hexDigit (by omega)), hbyte, ih]
        rfl
  induction s with
  | nil => rfl
  | cons c s ih =>
      have hcons : encodeURIComponent (c :: s) =
          (if isUnreserved c then [c] else (String.utf8EncodeChar c).flatMap percentEscape) ++
            encodeURIComponent s := rfl
      have hbytes : encodeUtf8 (c :: s) = encodeUtf8 [c] ++ encodeUtf8 s :=
        encodeUtf8_append [c] s
      rw [hcons, hbytes, ← ih]
      by_cases hun : isUnreserved c = true
      · have hne : c ≠ '%' := by
          rintro rfl
          exact absurd hun (by decide)
        rw [if_pos hun, List.singleton_append, Python.unquoteToBytes_cons hne]
      · rw [if_neg hun, hescape]
        simp [encodeUtf8]

/-- **The server decodes what the page encoded**, for ASCII text. -/
theorem unquote_encodeURIComponent {s : Text} (h : s.all isAscii = true) :
    Python.unquote (Python.replacePlus (encodeURIComponent s)) = s := by
  have hplus : Python.replacePlus (encodeURIComponent s) = encodeURIComponent s := by
    have hno := not_mem_encodeURIComponent (show isUnreserved '+' = false by decide) (by decide) s
    refine (List.map_congr_left fun c hc => ?_).trans (List.map_id _)
    have hne : c ≠ '+' := by
      rintro rfl
      exact hno hc
    exact if_neg hne
  rw [hplus, Python.unquote_ascii (encodeURIComponent_ascii s), unquoteToBytes_encodeURIComponent,
    Python.decodeUtf8_encodeUtf8_ascii h]

end JoystickPage
