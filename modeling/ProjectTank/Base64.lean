/-
# Base64

Three bytes are four groups of six bits; a last group of one or two bytes is filled up with zero
bits and marked with padding.  `decodeGroups_encodeGroups` reads the bytes back, with a zero byte for
each padding.

Nothing here refers to a particular program.
-/
import Mathlib.Data.List.Basic
import Mathlib.Tactic.Common

namespace Base64

/-- The groups of six bits; `none` is the padding. -/
def encodeGroups : List ℕ → List (Option ℕ)
  | a :: b :: c :: bytes =>
      some (a / 4) :: some (a % 4 * 16 + b / 16) :: some (b % 16 * 4 + c / 64) :: some (c % 64) ::
        encodeGroups bytes
  | [a, b] => [some (a / 4), some (a % 4 * 16 + b / 16), some (b % 16 * 4), none]
  | [a] => [some (a / 4), some (a % 4 * 16), none, none]
  | [] => []

/-- Four groups are three bytes. -/
def decodeGroups : List ℕ → List ℕ
  | a :: b :: c :: d :: groups =>
      let n := ((a * 64 + b) * 64 + c) * 64 + d
      n / 65536 :: n / 256 % 256 :: n % 256 :: decodeGroups groups
  | _ => []

/-- How many bytes are missing in the last group. -/
def padding : List ℕ → ℕ
  | _ :: _ :: _ :: bytes => padding bytes
  | [_, _] => 1
  | [_] => 2
  | [] => 0

/-- **The bytes are read back**, with a zero for each padding. -/
theorem decodeGroups_encodeGroups {bytes : List ℕ} (h : ∀ b ∈ bytes, b < 256) :
    decodeGroups ((encodeGroups bytes).map (·.getD 0)) =
      bytes ++ List.replicate (padding bytes) 0 := by
  induction bytes using encodeGroups.induct with
  | case1 a b c bytes ih =>
      simp only [List.forall_mem_cons] at h
      obtain ⟨ha, hb, hc, hrest⟩ := h
      simp only [encodeGroups, List.map_cons, Option.getD_some, decodeGroups, ih hrest, padding,
        List.cons_append, List.cons.injEq, and_true]
      omega
  | case2 a b =>
      simp only [List.forall_mem_cons] at h
      simp only [encodeGroups, List.map_cons, List.map_nil, Option.getD_some, Option.getD_none,
        decodeGroups, padding, List.replicate_one, List.cons_append, List.nil_append,
        List.cons.injEq, and_true]
      omega
  | case3 a =>
      simp only [List.forall_mem_cons] at h
      simp only [encodeGroups, List.map_cons, List.map_nil, Option.getD_some, Option.getD_none,
        decodeGroups, padding, List.replicate_succ, List.replicate_zero, List.cons_append,
        List.nil_append, List.cons.injEq, and_true]
      omega
  | case4 => rfl

/-- Every group has six bits. -/
theorem lt_of_mem_encodeGroups {bytes : List ℕ} (h : ∀ b ∈ bytes, b < 256) {g : ℕ}
    (hg : some g ∈ encodeGroups bytes) : g < 64 := by
  induction bytes using encodeGroups.induct with
  | case1 a b c bytes ih =>
      simp only [List.forall_mem_cons] at h
      obtain ⟨ha, hb, hc, hrest⟩ := h
      simp only [encodeGroups, List.mem_cons, Option.some.injEq] at hg
      rcases hg with rfl | rfl | rfl | rfl | hg
      · omega
      · omega
      · omega
      · omega
      · exact ih hrest hg
  | case2 a b =>
      simp only [List.forall_mem_cons] at h
      simp only [encodeGroups, List.mem_cons, Option.some.injEq, reduceCtorEq, List.not_mem_nil,
        or_false] at hg
      omega
  | case3 a =>
      simp only [List.forall_mem_cons] at h
      simp only [encodeGroups, List.mem_cons, Option.some.injEq, reduceCtorEq, List.not_mem_nil,
        or_false] at hg
      omega
  | case4 => simp [encodeGroups] at hg

/-- The letter of a group. -/
def letter (g : ℕ) : Char :=
  if g < 26 then Char.ofNat ('A'.toNat + g)
  else if g < 52 then Char.ofNat ('a'.toNat + (g - 26))
  else if g < 62 then Char.ofNat ('0'.toNat + (g - 52))
  else if g = 62 then '+'
  else '/'

/-- The text of bytes. -/
def encode (bytes : List ℕ) : List Char := (encodeGroups bytes).map fun g => (g.map letter).getD '='

/-- The characters of such a text. -/
theorem mem_encode {bytes : List ℕ} (h : ∀ b ∈ bytes, b < 256) {c : Char} (hc : c ∈ encode bytes) :
    c = '=' ∨ ∃ g < 64, c = letter g := by
  obtain ⟨g, hg, rfl⟩ := List.mem_map.mp hc
  cases g with
  | none => exact Or.inl rfl
  | some g => exact Or.inr ⟨g, lt_of_mem_encodeGroups h hg, rfl⟩

end Base64
