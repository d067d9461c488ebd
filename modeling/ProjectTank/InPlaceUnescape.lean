/-
# `unescape` on the buffer itself (`httpd.c`)

`unescape` writes the characters that it decodes over the string that it reads.  `unescapeLoop` is that
loop with every access to the buffer; `ClientThread.unescape` is what it is meant to do.

* `unescapeLoop_eq`: it does that, and reads and writes nothing outside the string;
* `unescape_percentEncode`: percent encoding is undone.
-/
import ProjectTank.ClientThread

open ProgramText ClientThread

namespace InPlaceUnescape

/-! ## The loop -/

def nul : Char := Char.ofNat 0

/-- A write to the buffer, if the place is in it. -/
def write (memory : Text) (i : ℕ) (c : Char) : Option Text :=
  if i < memory.length then some (memory.set i c) else none

/-- The loop of `unescape`: `none` for an access outside the buffer, `some none` for its `-1`. -/
def unescapeLoop (length src dst : ℕ) (memory : Text) : Option (Option Text) :=
  if src < length then
    memory[src]?.bind fun c =>
      if c ≠ '%' then
        (write memory dst c).bind (unescapeLoop length (src + 1) (dst + 1))
      else if length < src + 2 then some none
      else
        memory[src + 1]?.bind fun c =>
          match hexCharToInt c with
          | none => some none
          | some high =>
              -- the first half is stored before the second digit is read
              (write memory dst (Char.ofNat (high * 16))).bind fun memory =>
                memory[src + 2]?.bind fun c =>
                  match hexCharToInt c with
                  | none => some none
                  | some low =>
                      (write memory dst (Char.ofNat (high * 16 + low))).bind
                        (unescapeLoop length (src + 3) (dst + 1))
  else (write memory dst nul).map some
termination_by length - src

/-- `unescape` for a string at the beginning of a buffer. -/
def unescapeInPlace (memory : Text) : Option (Option Text) :=
  unescapeLoop (memory.takeWhile (· ≠ nul)).length 0 0 memory

/-! ## The buffer while the loop runs -/

/-- The buffer when its beginning was replaced. -/
def overwritten (memory done : Text) : Text := done ++ memory.drop done.length

/-- The buffer keeps its length. -/
theorem length_overwritten {memory done : Text} (h : done.length ≤ memory.length) :
    (overwritten memory done).length = memory.length := by
  rw [overwritten, List.length_append, List.length_drop]
  omega

/-- What stands behind the replaced beginning is still there. -/
theorem getElem?_overwritten {memory : Text} (done : Text) {i : ℕ} (h : done.length ≤ i) :
    (overwritten memory done)[i]? = memory[i]? := by
  rw [overwritten, List.getElem?_append_right h, List.getElem?_drop]
  congr 1
  omega

/-- The next place is written. -/
theorem write_overwritten {memory done : Text} (h : done.length < memory.length) (c : Char) :
    write (overwritten memory done) done.length c = some (overwritten memory (done ++ [c])) := by
  have hroom : done.length < (overwritten memory done).length := by
    rwa [length_overwritten h.le]
  rw [write, if_pos hroom, overwritten, overwritten, List.set_append_right _ _ le_rfl, Nat.sub_self,
    List.drop_eq_getElem_cons h, List.set_cons_zero, List.length_append, List.length_singleton,
    List.append_assoc]
  rfl

/-- The same place is written again. -/
theorem write_again {memory done : Text} (h : done.length < memory.length) (c d : Char) :
    write (overwritten memory (done ++ [c])) done.length d =
      some (overwritten memory (done ++ [d])) := by
  have hfits : (done ++ [c]).length ≤ memory.length := by
    rw [List.length_append, List.length_singleton]
    exact h
  have hroom : done.length < (overwritten memory (done ++ [c])).length := by
    rwa [length_overwritten hfits]
  rw [write, if_pos hroom, overwritten, overwritten, List.append_assoc, List.append_assoc,
    List.set_append_right _ _ le_rfl, Nat.sub_self, List.length_append, List.length_append]
  rfl

/-! ## What the loop does -/

/-- A character other than a percent sign stands for itself. -/
theorem unescape_cons {c : Char} (h : c ≠ '%') (s : Text) :
    unescape (c :: s) = (unescape s).map (c :: ·) := by
  rw [unescape]
  · exact fun _ _ _ heq _ => h heq
  · exact fun heq => h heq

theorem unescape_of_high {c : Char} (h : hexCharToInt c = none) (s : Text) :
    unescape ('%' :: c :: s) = none := by
  cases s with
  | nil => rfl
  | cons d s => simp only [unescape, h]

theorem unescape_of_low {c d : Char} (h : hexCharToInt d = none) (s : Text) :
    unescape ('%' :: c :: d :: s) = none := by
  cases hc : hexCharToInt c <;> simp only [unescape, hc, h]

/-- A percent sign and two digits stand for one character. -/
theorem unescape_digits {c d : Char} {high low : ℕ} (hc : hexCharToInt c = some high)
    (hd : hexCharToInt d = some low) (s : Text) :
    unescape ('%' :: c :: d :: s) = (unescape s).map (Char.ofNat (high * 16 + low) :: ·) := by
  simp only [unescape, hc, hd]

/-- What is left of the buffer is read as it was. -/
theorem getElem?_rest {before rest done : Text} (h : done.length ≤ before.length) (k : ℕ) :
    (overwritten (before ++ rest) done)[before.length + k]? = rest[k]? := by
  rw [getElem?_overwritten done (by omega), List.getElem?_append_right (by omega),
    Nat.add_sub_cancel_left]

/-- **The loop with some of the string behind it.**  It writes what `unescape` makes of the rest,
behind what it has written before. -/
theorem unescapeLoop_spec (before rest tail done : Text) (h : done.length ≤ before.length) :
    unescapeLoop (before ++ rest).length before.length done.length
        (overwritten (before ++ (rest ++ nul :: tail)) done) =
      some ((unescape rest).map fun t =>
        overwritten (before ++ (rest ++ nul :: tail)) (done ++ t ++ [nul])) := by
  induction hn : rest.length using Nat.strong_induction_on generalizing before rest done with
  | _ n ih =>
    generalize hmemory : before ++ (rest ++ nul :: tail) = memory
    have hroom : done.length < memory.length := by
      rw [← hmemory, List.length_append, List.length_append, List.length_cons]
      omega
    have hread : ∀ k, (overwritten memory done)[before.length + k]? = (rest ++ nul :: tail)[k]? := by
      intro k
      rw [← hmemory]
      exact getElem?_rest h k
    have hagain : ∀ c k, done.length < before.length + k →
        (overwritten memory (done ++ [c]))[before.length + k]? = (rest ++ nul :: tail)[k]? := by
      intro c k hk
      have hlonger : (done ++ [c]).length ≤ before.length + k := by
        rw [List.length_append, List.length_singleton]
        omega
      rw [getElem?_overwritten (done ++ [c]) hlonger, ← getElem?_overwritten done (by omega)]
      exact hread k
    cases rest with
    | nil =>
        rw [unescapeLoop, List.append_nil, if_neg (lt_irrefl _), write_overwritten hroom]
        rw [unescape, Option.map_some, Option.map_some, List.append_nil]
    | cons c s =>
        have hlt : before.length < (before ++ c :: s).length := by
          rw [List.length_append, List.length_cons]
          omega
        have hfirst := hread 0
        rw [Nat.add_zero] at hfirst
        rw [unescapeLoop, if_pos hlt, hfirst]
        show (if c ≠ '%' then _ else _) = _
        by_cases hc : c ≠ '%'
        · -- a character is copied
          have hnext := ih s.length (by rw [← hn]; exact Nat.lt_succ_self _) (before ++ [c]) s
            (done ++ [c]) (by simpa using h) rfl
          have hsame : before ++ [c] ++ (s ++ nul :: tail) = memory := by
            rw [← hmemory, List.append_assoc]
            rfl
          have hstring : before ++ [c] ++ s = before ++ c :: s := by simp
          have hsrc : (before ++ [c]).length = before.length + 1 := List.length_append
          have hdst : (done ++ [c]).length = done.length + 1 := List.length_append
          rw [hsame, hstring, hsrc, hdst] at hnext
          rw [if_pos hc, write_overwritten hroom, Option.bind_some, unescape_cons hc, Option.map_map]
          refine hnext.trans ?_
          simp only [Function.comp_def, List.append_assoc, List.cons_append, List.nil_append]
        · rw [if_neg hc]
          obtain rfl := not_not.mp hc
          cases s with
          | nil =>
              have hshort : (before ++ ['%']).length < before.length + 2 := by simp
              rw [if_pos hshort]
              rfl
          | cons d s =>
              have hlong : ¬(before ++ '%' :: d :: s).length < before.length + 2 := by simp
              have hsecond : (overwritten memory done)[before.length + 1]? = some d := hread 1
              rw [if_neg hlong, hsecond, Option.bind_some]
              cases hhigh : hexCharToInt d with
              | none => rw [unescape_of_high hhigh]; rfl
              | some high =>
                  dsimp only
                  rw [write_overwritten hroom, Option.bind_some, hagain _ 2 (by omega)]
                  cases s with
                  | nil =>
                      -- the second digit is the NUL
                      rfl
                  | cons e s =>
                      show (match hexCharToInt e with
                        | none => some none
                        | some low => _) = _
                      cases hlow : hexCharToInt e with
                      | none => rw [unescape_of_low hlow]; rfl
                      | some low =>
                          have hnext := ih s.length (by rw [← hn]; simp only [List.length_cons]; omega)
                            (before ++ ['%', d, e]) s
                            (done ++ [Char.ofNat (high * 16 + low)])
                            (by simp only [List.length_append, List.length_cons]; omega) rfl
                          have hsame : before ++ ['%', d, e] ++ (s ++ nul :: tail) = memory := by
                            rw [← hmemory, List.append_assoc]
                            rfl
                          have hstring : before ++ ['%', d, e] ++ s = before ++ '%' :: d :: e :: s := by
                            simp
                          have hsrc : (before ++ ['%', d, e]).length = before.length + 3 :=
                            List.length_append
                          have hdst : (done ++ [Char.ofNat (high * 16 + low)]).length =
                              done.length + 1 := List.length_append
                          rw [hsame, hstring, hsrc, hdst] at hnext
                          dsimp only
                          rw [write_again hroom, Option.bind_some, unescape_digits hhigh hlow,
                            Option.map_map]
                          refine hnext.trans ?_
                          simp only [Function.comp_def, List.append_assoc, List.cons_append,
                            List.nil_append]

/-- **`unescape` on the buffer.**  For a string and whatever stands behind it, the loop reads and
writes within the string and its NUL; it returns `-1` where `ClientThread.unescape` fails, and else
leaves the decoded string, its NUL, and behind it the buffer as it was. -/
theorem unescapeInPlace_eq {s : Text} (hs : nul ∉ s) (tail : Text) :
    unescapeInPlace (s ++ nul :: tail) =
      some ((unescape s).map fun t => t ++ nul :: (s ++ nul :: tail).drop (t.length + 1)) := by
  have hplain : ∀ c ∈ s, decide (c ≠ nul) = true := by
    intro c hc
    apply decide_eq_true
    rintro rfl
    exact hs hc
  have hlength : (s ++ nul :: tail).takeWhile (· ≠ nul) = s := by
    rw [List.takeWhile_append_of_pos hplain, List.takeWhile_cons_of_neg (by decide), List.append_nil]
  have hspec := unescapeLoop_spec [] s tail [] le_rfl
  simp only [overwritten, List.nil_append, List.length_nil, List.drop_zero] at hspec
  rw [unescapeInPlace, hlength, hspec]
  congr 2
  funext t
  rw [List.append_assoc, List.length_append, List.length_singleton]
  rfl

theorem unescapeInPlace_one :
    unescapeInPlace ("a%2fb".toList ++ nul :: ['x']) = some (some ['a', '/', 'b', nul, 'b', nul, 'x']) :=
  unescapeInPlace_eq (by decide +kernel) ['x']

/-! ## Percent encoding -/

def hexDigit (n : ℕ) : Char := Char.ofNat (if n < 10 then n + 48 else n + 87)

/-- A character as `%XX`. -/
def percentEncode (c : Char) : Text := ['%', hexDigit (c.toNat / 16), hexDigit (c.toNat % 16)]

/-- A hexadecimal digit is read back. -/
theorem hexCharToInt_hexDigit {n : ℕ} (h : n < 16) : hexCharToInt (hexDigit n) = some n := by
  have hall : ∀ n < 16, hexCharToInt (hexDigit n) = some n := by decide
  exact hall n h

/-- **Percent encoding is undone**, whichever of the characters are encoded. -/
theorem unescape_percentEncode {s : Text} (hbytes : ∀ c ∈ s, c.toNat < 256) (encoded : Char → Bool)
    (hpercent : encoded '%' = true) :
    unescape (s.flatMap fun c => if encoded c = true then percentEncode c else [c]) = some s := by
  induction s with
  | nil => rfl
  | cons c s ih =>
      obtain ⟨hc, hs⟩ := List.forall_mem_cons.mp hbytes
      rw [List.flatMap_cons]
      by_cases hencoded : encoded c = true
      · have hhigh : hexCharToInt (hexDigit (c.toNat / 16)) = some (c.toNat / 16) :=
          hexCharToInt_hexDigit (by omega)
        have hlow : hexCharToInt (hexDigit (c.toNat % 16)) = some (c.toNat % 16) :=
          hexCharToInt_hexDigit (by omega)
        have hvalue : c.toNat / 16 * 16 + c.toNat % 16 = c.toNat := by omega
        rw [if_pos hencoded, percentEncode, List.cons_append, List.cons_append, List.cons_append,
          List.nil_append, unescape_digits hhigh hlow, ih hs, hvalue, Char.ofNat_toNat]
        rfl
      · have hne : c ≠ '%' := by
          rintro rfl
          exact hencoded hpercent
        rw [if_neg hencoded, List.singleton_append, unescape_cons hne, ih hs]
        rfl

end InPlaceUnescape
