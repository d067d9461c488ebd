/-
# The Huffman tables of a picture (`v4l2uvc.c`, `huffman.h`)

Many webcams leave the Huffman tables out of their pictures.  `memcpy_picture` looks for the marker of
the tables, and if it does not find it before that of the scan, it puts the usual tables in front of
the marker of the frame.

* `isHuffman_eq_true_iff`: which pictures have their tables;
* `memcpyPicture_cases`: every way the copy goes;
* `memcpyPicture_again_iff`: when the pictures made so are left alone by a later pass.
-/
import Mathlib.Data.List.Basic
import Mathlib.Data.Nat.Init
import Mathlib.Tactic.Common

namespace HuffmanTables

/-! ## The source -/

/-- The bytes of `dht_data`. -/
def dhtData : List UInt8 :=
  [0xff, 0xc4, 0x01, 0xa2, 0x00, 0x00, 0x01, 0x05, 0x01, 0x01, 0x01, 0x01,
    0x01, 0x01, 0x00, 0x00, 0x00, 0x00, 0x00, 0x00, 0x00, 0x00, 0x01, 0x02,
    0x03, 0x04, 0x05, 0x06, 0x07, 0x08, 0x09, 0x0a, 0x0b, 0x01, 0x00, 0x03,
    0x01, 0x01, 0x01, 0x01, 0x01, 0x01, 0x01, 0x01, 0x01, 0x00, 0x00, 0x00,
    0x00, 0x00, 0x00, 0x01, 0x02, 0x03, 0x04, 0x05, 0x06, 0x07, 0x08, 0x09,
    0x0a, 0x0b, 0x10, 0x00, 0x02, 0x01, 0x03, 0x03, 0x02, 0x04, 0x03, 0x05,
    0x05, 0x04, 0x04, 0x00, 0x00, 0x01, 0x7d, 0x01, 0x02, 0x03, 0x00, 0x04,
    0x11, 0x05, 0x12, 0x21, 0x31, 0x41, 0x06, 0x13, 0x51, 0x61, 0x07, 0x22,
    0x71, 0x14, 0x32, 0x81, 0x91, 0xa1, 0x08, 0x23, 0x42, 0xb1, 0xc1, 0x15,
    0x52, 0xd1, 0xf0, 0x24, 0x33, 0x62, 0x72, 0x82, 0x09, 0x0a, 0x16, 0x17,
    0x18, 0x19, 0x1a, 0x25, 0x26, 0x27, 0x28, 0x29, 0x2a, 0x34, 0x35, 0x36,
    0x37, 0x38, 0x39, 0x3a, 0x43, 0x44, 0x45, 0x46, 0x47, 0x48, 0x49, 0x4a,
    0x53, 0x54, 0x55, 0x56, 0x57, 0x58, 0x59, 0x5a, 0x63, 0x64, 0x65, 0x66,
    0x67, 0x68, 0x69, 0x6a, 0x73, 0x74, 0x75, 0x76, 0x77, 0x78, 0x79, 0x7a,
    0x83, 0x84, 0x85, 0x86, 0x87, 0x88, 0x89, 0x8a, 0x92, 0x93, 0x94, 0x95,
    0x96, 0x97, 0x98, 0x99, 0x9a, 0xa2, 0xa3, 0xa4, 0xa5, 0xa6, 0xa7, 0xa8,
    0xa9, 0xaa, 0xb2, 0xb3, 0xb4, 0xb5, 0xb6, 0xb7, 0xb8, 0xb9, 0xba, 0xc2,
    0xc3, 0xc4, 0xc5, 0xc6, 0xc7, 0xc8, 0xc9, 0xca, 0xd2, 0xd3, 0xd4, 0xd5,
    0xd6, 0xd7, 0xd8, 0xd9, 0xda, 0xe1, 0xe2, 0xe3, 0xe4, 0xe5, 0xe6, 0xe7,
    0xe8, 0xe9, 0xea, 0xf1, 0xf2, 0xf3, 0xf4, 0xf5, 0xf6, 0xf7, 0xf8, 0xf9,
    0xfa, 0x11, 0x00, 0x02, 0x01, 0x02, 0x04, 0x04, 0x03, 0x04, 0x07, 0x05,
    0x04, 0x04, 0x00, 0x01, 0x02, 0x77, 0x00, 0x01, 0x02, 0x03, 0x11, 0x04,
    0x05, 0x21, 0x31, 0x06, 0x12, 0x41, 0x51, 0x07, 0x61, 0x71, 0x13, 0x22,
    0x32, 0x81, 0x08, 0x14, 0x42, 0x91, 0xa1, 0xb1, 0xc1, 0x09, 0x23, 0x33,
    0x52, 0xf0, 0x15, 0x62, 0x72, 0xd1, 0x0a, 0x16, 0x24, 0x34, 0xe1, 0x25,
    0xf1, 0x17, 0x18, 0x19, 0x1a, 0x26, 0x27, 0x28, 0x29, 0x2a, 0x35, 0x36,
    0x37, 0x38, 0x39, 0x3a, 0x43, 0x44, 0x45, 0x46, 0x47, 0x48, 0x49, 0x4a,
    0x53, 0x54, 0x55, 0x56, 0x57, 0x58, 0x59, 0x5a, 0x63, 0x64, 0x65, 0x66,
    0x67, 0x68, 0x69, 0x6a, 0x73, 0x74, 0x75, 0x76, 0x77, 0x78, 0x79, 0x7a,
    0x82, 0x83, 0x84, 0x85, 0x86, 0x87, 0x88, 0x89, 0x8a, 0x92, 0x93, 0x94,
    0x95, 0x96, 0x97, 0x98, 0x99, 0x9a, 0xa2, 0xa3, 0xa4, 0xa5, 0xa6, 0xa7,
    0xa8, 0xa9, 0xaa, 0xb2, 0xb3, 0xb4, 0xb5, 0xb6, 0xb7, 0xb8, 0xb9, 0xba,
    0xc2, 0xc3, 0xc4, 0xc5, 0xc6, 0xc7, 0xc8, 0xc9, 0xca, 0xd2, 0xd3, 0xd4,
    0xd5, 0xd6, 0xd7, 0xd8, 0xd9, 0xda, 0xe2, 0xe3, 0xe4, 0xe5, 0xe6, 0xe7,
    0xe8, 0xe9, 0xea, 0xf2, 0xf3, 0xf4, 0xf5, 0xf6, 0xf7, 0xf8, 0xf9, 0xfa]

/-- `is_huffman`, from `ptbuf` on; `none` when it reads beyond the buffer. -/
def isHuffmanFrom : ℕ → List UInt8 → Option Bool
  | i, a :: b :: rest =>
      if a = 0xff ∧ b = 0xda then some false
      else if i > 2048 then some false
      else if a = 0xff ∧ b = 0xc4 then some true
      else isHuffmanFrom (i + 1) (b :: rest)
  | _, _ => none

/-- `is_huffman`. -/
def isHuffman (buf : List UInt8) : Option Bool := isHuffmanFrom 0 buf

/-- How far `ptcur` goes in the loop of `memcpy_picture`, with `left` bytes before `ptlimit`. -/
def skipToFrame : ℕ → List UInt8 → Option ℕ
  | left, a :: b :: rest =>
      -- the bytes are read before the pointer is compared
      if (a = 0xff ∧ b = 0xc0) ∨ left = 0 then some 0
      else (skipToFrame (left - 1) (b :: rest)).map (· + 1)
  | _, _ => none

/-- What `memcpy_picture` copies to `out`, where `buf` is the whole memory at its argument. -/
def memcpyPicture (buf : List UInt8) (size : ℕ) : Option (List UInt8) :=
  if size ≤ buf.length then
    match isHuffman buf with
    | none => none
    | some true => some (buf.take size)
    | some false =>
        (skipToFrame size buf).map fun sizein =>
          if sizein ≥ size then []
          else buf.take sizein ++ dhtData ++ (buf.drop sizein).take (size - sizein)
  else none

/-! ## Markers -/

/-- There is a marker at this place. -/
def MarkerAt (m : UInt8) (bytes : List UInt8) (k : ℕ) : Prop :=
  bytes[k]? = some 0xff ∧ bytes[k + 1]? = some m

theorem markerAt_zero {m a b : UInt8} {bytes : List UInt8} :
    MarkerAt m (a :: b :: bytes) 0 ↔ a = 0xff ∧ b = m := by
  unfold MarkerAt
  rw [List.getElem?_cons_zero, List.getElem?_cons_succ, List.getElem?_cons_zero, Option.some.injEq,
    Option.some.injEq]

/-- A marker does not depend on what comes behind it. -/
theorem markerAt_append {m : UInt8} {bytes rest : List UInt8} {k : ℕ} (h : k + 1 < bytes.length) :
    MarkerAt m (bytes ++ rest) k ↔ MarkerAt m bytes k := by
  unfold MarkerAt
  rw [List.getElem?_append_left (by omega), List.getElem?_append_left h]

theorem MarkerAt.lt {m : UInt8} {bytes : List UInt8} {k : ℕ} (h : MarkerAt m bytes k) :
    k + 1 < bytes.length := (List.getElem?_eq_some_iff.mp h.2).1

/-- The tables are found: their marker is among the first bytes, and no scan begins before. -/
def Tabled (bytes : List UInt8) : Prop :=
  ∃ k ≤ 2048, MarkerAt 0xc4 bytes k ∧ ∀ j < k, ¬ MarkerAt 0xda bytes j

/-! ## What the scans find -/

/-- The search finds a table header that no scan header comes before. -/
theorem isHuffmanFrom_eq_true_iff {i : ℕ} {bytes : List UInt8} :
    isHuffmanFrom i bytes = some true ↔
      ∃ k, i + k ≤ 2048 ∧ MarkerAt 0xc4 bytes k ∧ ∀ j < k, ¬ MarkerAt 0xda bytes j := by
  induction bytes generalizing i with
  | nil => exact iff_of_false (by rintro ⟨⟩) fun ⟨k, _, h, _⟩ => absurd h.lt (Nat.not_lt_zero _)
  | cons a bytes ih =>
      cases bytes with
      | nil =>
          refine iff_of_false (by rintro ⟨⟩) ?_
          rintro ⟨k, -, hk, -⟩
          have hlt := hk.lt
          rw [List.length_singleton] at hlt
          omega
      | cons b rest =>
          rw [isHuffmanFrom]
          by_cases hscan : a = 0xff ∧ b = 0xda
          · rw [if_pos hscan]
            refine iff_of_false (by rintro ⟨⟩) ?_
            rintro ⟨k, -, hk, hno⟩
            cases k with
            | zero =>
                have hb := (markerAt_zero.mp hk).2
                rw [hscan.2] at hb
                revert hb
                decide
            | succ k => exact hno 0 (Nat.succ_pos k) (markerAt_zero.mpr hscan)
          · rw [if_neg hscan]
            by_cases hfar : i > 2048
            · rw [if_pos hfar]
              refine iff_of_false (by rintro ⟨⟩) ?_
              rintro ⟨k, hk, -⟩
              omega
            · rw [if_neg hfar]
              by_cases htables : a = 0xff ∧ b = 0xc4
              · rw [if_pos htables]
                refine iff_of_true rfl ⟨0, by omega, markerAt_zero.mpr htables, ?_⟩
                intro j hj
                exact absurd hj (Nat.not_lt_zero j)
              · rw [if_neg htables, ih]
                constructor
                · rintro ⟨k, hk, hmarker, hno⟩
                  refine ⟨k + 1, by omega, hmarker, ?_⟩
                  intro j hj
                  cases j with
                  | zero => exact fun h => hscan (markerAt_zero.mp h)
                  | succ j => exact hno j (by omega)
                · rintro ⟨k, hk, hmarker, hno⟩
                  cases k with
                  | zero => exact absurd (markerAt_zero.mp hmarker) htables
                  | succ k =>
                      exact ⟨k, by omega, hmarker, fun j hj => hno (j + 1) (Nat.succ_lt_succ hj)⟩

/-- `is_huffman` says that the picture has its tables. -/
theorem isHuffman_eq_true_iff {buf : List UInt8} : isHuffman buf = some true ↔ Tabled buf := by
  unfold isHuffman Tabled
  rw [isHuffmanFrom_eq_true_iff]
  simp only [Nat.zero_add]

/-- The scan stays in a buffer of 2051 bytes. -/
theorem isHuffmanFrom_ne_none {i : ℕ} {bytes : List UInt8} (hi : i ≤ 2049)
    (h : 2051 ≤ i + bytes.length) : isHuffmanFrom i bytes ≠ none := by
  induction bytes generalizing i with
  | nil =>
      rw [List.length_nil] at h
      omega
  | cons a bytes ih =>
      cases bytes with
      | nil =>
          rw [List.length_singleton] at h
          omega
      | cons b rest =>
          rw [isHuffmanFrom]
          split
          · exact Option.some_ne_none _
          split
          · exact Option.some_ne_none _
          split
          · exact Option.some_ne_none _
          · apply ih
            · omega
            · rw [List.length_cons] at h
              omega

/-- The loop stops at the first frame header, or at the end of the picture. -/
theorem skipToFrame_spec {left k : ℕ} {cur : List UInt8} (h : skipToFrame left cur = some k) :
    k ≤ left ∧ (∀ j < k, ¬ MarkerAt 0xc0 cur j) ∧ (k < left → MarkerAt 0xc0 cur k) := by
  induction cur generalizing left k with
  | nil => cases h
  | cons a cur ih =>
      cases cur with
      | nil => cases h
      | cons b rest =>
          rw [skipToFrame] at h
          split at h
          · rename_i hstop
            cases h
            refine ⟨Nat.zero_le _, fun j hj => absurd hj (Nat.not_lt_zero j), fun hlt => ?_⟩
            rcases hstop with hmarker | hzero
            · exact markerAt_zero.mpr hmarker
            · omega
          · rename_i hgo
            obtain ⟨n, hn, rfl⟩ := Option.map_eq_some_iff.mp h
            obtain ⟨hle, hno, hmarker⟩ := ih hn
            refine ⟨by omega, ?_, fun hlt => hmarker (by omega)⟩
            intro j hj
            cases j with
            | zero => exact fun hz => hgo (Or.inl (markerAt_zero.mp hz))
            | succ j => exact hno j (by omega)

/-- It stays in the buffer when there are two more bytes behind the picture. -/
theorem skipToFrame_ne_none {left : ℕ} {cur : List UInt8} (h : left + 2 ≤ cur.length) :
    skipToFrame left cur ≠ none := by
  induction cur generalizing left with
  | nil =>
      rw [List.length_nil] at h
      omega
  | cons a cur ih =>
      cases cur with
      | nil =>
          rw [List.length_singleton] at h
          omega
      | cons b rest =>
          rw [skipToFrame]
          split
          · exact Option.some_ne_none _
          · rename_i hgo
            rw [Ne, Option.map_eq_none_iff]
            apply ih
            rw [List.length_cons] at h
            omega

/-! ## The copy -/

theorem length_dhtData : dhtData.length = 420 := by decide +kernel

/-- The tables are in front of the frame header that is `k` bytes behind the beginning. -/
def withTables (buf : List UInt8) (size k : ℕ) : List UInt8 :=
  buf.take k ++ dhtData ++ (buf.drop k).take (size - k)

/-- The tables are all that is added. -/
theorem length_withTables {buf : List UInt8} {size k : ℕ} (hk : k < size) (hsize : size ≤ buf.length) :
    (withTables buf size k).length = size + 420 := by
  unfold withTables
  rw [List.length_append, List.length_append, List.length_take, List.length_take, List.length_drop,
    length_dhtData]
  omega

/-- Every way the copy goes. -/
theorem memcpyPicture_cases {buf out : List UInt8} {size : ℕ}
    (h : memcpyPicture buf size = some out) :
    size ≤ buf.length ∧
    (isHuffman buf = some true ∧ out = buf.take size ∨
      isHuffman buf = some false ∧
        ((∃ k < size, MarkerAt 0xc0 buf k ∧ (∀ j < k, ¬ MarkerAt 0xc0 buf j) ∧
            out = withTables buf size k) ∨
          out = [] ∧ ∀ j < size, ¬ MarkerAt 0xc0 buf j)) := by
  unfold memcpyPicture at h
  split at h
  · rename_i hsize
    refine ⟨hsize, ?_⟩
    cases hhuff : isHuffman buf with
    | none =>
        rw [hhuff] at h
        cases h
    | some tables =>
        rw [hhuff] at h
        cases tables with
        | true => exact Or.inl ⟨rfl, (Option.some.inj h).symm⟩
        | false =>
            refine Or.inr ⟨rfl, ?_⟩
            obtain ⟨k, hk, rfl⟩ := Option.map_eq_some_iff.mp h
            obtain ⟨hle, hno, hmarker⟩ := skipToFrame_spec hk
            by_cases hlt : k < size
            · exact Or.inl ⟨k, hlt, hmarker hlt, hno, if_neg (by omega)⟩
            · refine Or.inr ⟨if_pos (by omega), fun j hj => hno j (by omega)⟩
  · cases h

/-- The copy stays in the memory of its argument, if there are enough bytes behind the picture. -/
theorem memcpyPicture_ne_none {buf : List UInt8} {size : ℕ} (hbuf : 2051 ≤ buf.length)
    (hsize : size + 2 ≤ buf.length) : memcpyPicture buf size ≠ none := by
  rw [memcpyPicture, if_pos (by omega)]
  cases hhuff : isHuffman buf with
  | none => exact absurd hhuff (isHuffmanFrom_ne_none (by omega) (by omega))
  | some tables =>
      cases tables with
      | true => exact Option.some_ne_none _
      | false =>
          rw [Ne, Option.map_eq_none_iff]
          exact skipToFrame_ne_none hsize

/-- A picture grows by the tables at most. -/
theorem length_memcpyPicture_le {buf out : List UInt8} {size : ℕ}
    (h : memcpyPicture buf size = some out) : out.length ≤ size + 420 := by
  obtain ⟨hsize, hcases⟩ := memcpyPicture_cases h
  rcases hcases with ⟨-, rfl⟩ | ⟨-, ⟨k, hk, -, -, rfl⟩ | ⟨rfl, -⟩⟩
  · exact Nat.le_trans (List.length_take_le size buf) (Nat.le_add_right _ _)
  · exact Nat.le_of_eq (length_withTables hk hsize)
  · exact Nat.zero_le _

/-! ## A later pass -/

/-- More bytes behind a picture do not hide its tables. -/
theorem Tabled.append {bytes : List UInt8} (h : Tabled bytes) (rest : List UInt8) :
    Tabled (bytes ++ rest) := by
  obtain ⟨k, hk, hmarker, hno⟩ := h
  have hlt := hmarker.lt
  refine ⟨k, hk, (markerAt_append hlt).mpr hmarker, ?_⟩
  intro j hj hscan
  exact hno j hj ((markerAt_append (by omega)).mp hscan)

/-- A picture with its tables is copied as it is, whatever is behind it in the memory. -/
theorem memcpyPicture_of_tabled {p : List UInt8} (h : Tabled p) (rest : List UInt8) :
    memcpyPicture (p ++ rest) p.length = some p := by
  have hsize : p.length ≤ (p ++ rest).length := by
    rw [List.length_append]
    exact Nat.le_add_right _ _
  rw [memcpyPicture, if_pos hsize, isHuffman_eq_true_iff.mpr (h.append rest)]
  exact congrArg some List.take_left

section
variable {k : ℕ}

theorem getElem?_withTables_of_lt {buf : List UInt8} {size i : ℕ} (hi : i < k) (hk : k ≤ buf.length) :
    (withTables buf size k)[i]? = buf[i]? := by
  unfold withTables
  rw [List.append_assoc, List.getElem?_append_left (by rw [List.length_take]; omega),
    List.getElem?_take_of_lt hi]

theorem markerAt_withTables_of_lt {m : UInt8} {buf : List UInt8} {size i : ℕ} (hi : i + 1 < k)
    (hk : k ≤ buf.length) : MarkerAt m (withTables buf size k) i ↔ MarkerAt m buf i := by
  unfold MarkerAt
  rw [getElem?_withTables_of_lt (by omega) hk, getElem?_withTables_of_lt hi hk]

/-- The tables begin with their marker. -/
theorem markerAt_withTables {buf : List UInt8} {size : ℕ} (hk : k ≤ buf.length) :
    MarkerAt 0xc4 (withTables buf size k) k := by
  have htake : (buf.take k).length = k := by
    rw [List.length_take]
    omega
  have hdht : ∀ i < 420, (withTables buf size k)[k + i]? = dhtData[i]? := by
    intro i hi
    unfold withTables
    rw [List.append_assoc, List.getElem?_append_right (by omega), htake, Nat.add_sub_cancel_left,
      List.getElem?_append_left (by rw [length_dhtData]; exact hi)]
  exact ⟨hdht 0 (by decide), hdht 1 (by decide)⟩

/-- No marker of another kind ends where the tables begin. -/
theorem not_markerAt_withTables_pred {m : UInt8} (hm : m ≠ 0xff) {buf : List UInt8} {size i : ℕ}
    (hi : i + 1 = k) (hk : k ≤ buf.length) : ¬ MarkerAt m (withTables buf size k) i := by
  intro h
  have hff : (withTables buf size k)[k]? = some 0xff := (markerAt_withTables hk).1
  subst hi
  rw [h.2, Option.some.injEq] at hff
  exact hm hff

/-- Pictures with new tables are recognized exactly if the frame header is near the beginning and no
scan begins before it. -/
theorem tabled_withTables_iff {buf : List UInt8} {size : ℕ} (hk : k < size) (hsize : size ≤ buf.length)
    (hheader : MarkerAt 0xc0 buf k) (hnew : ¬ Tabled buf) :
    Tabled (withTables buf size k) ↔ k ≤ 2048 ∧ ∀ j < k, ¬ MarkerAt 0xda buf j := by
  have hbuf : k ≤ buf.length := by omega
  have hedge {m : UInt8} (hm : m ≠ 0xff) {j : ℕ} (hj : j < k) :
      ¬ MarkerAt m buf j → ¬ MarkerAt m (withTables buf size k) j := by
    intro hno
    by_cases hlast : j + 1 = k
    · exact not_markerAt_withTables_pred hm hlast hbuf
    · rwa [markerAt_withTables_of_lt (by omega) hbuf]
  constructor
  · rintro ⟨n, hn, hmarker, hno⟩
    have hscan : ∀ j < k, j < n → ¬ MarkerAt 0xda buf j := by
      intro j hj hjn h
      by_cases hlast : j + 1 = k
      · -- the byte behind would be that of the scan and that of the frame header
        have hff := hheader.1
        rw [← hlast, h.2] at hff
        revert hff
        decide
      · exact hno j hjn ((markerAt_withTables_of_lt (by omega) hbuf).mpr h)
    have hkn : k ≤ n := by
      by_contra hlt
      refine hedge (by decide) (Nat.not_le.mp hlt) ?_ hmarker
      intro h
      exact hnew ⟨n, hn, h, fun j hj => hscan j (by omega) hj⟩
    exact ⟨by omega, fun j hj => hscan j hj (by omega)⟩
  · rintro ⟨hfar, hno⟩
    exact ⟨k, hfar, markerAt_withTables hbuf, fun j hj => hedge (by decide) hj (hno j hj)⟩

end

/-- **A later pass leaves the picture alone** exactly if its frame header is within the first bytes,
and no scan begins before it. -/
theorem memcpyPicture_again_iff {buf out : List UInt8} {size : ℕ}
    (h : memcpyPicture buf size = some out) (hnew : isHuffman buf = some false) (hout : out ≠ []) :
    (∀ rest, memcpyPicture (out ++ rest) out.length = some out) ↔
      ∃ k ≤ 2048, k < size ∧ MarkerAt 0xc0 buf k ∧ ∀ j < k, ¬ MarkerAt 0xda buf j := by
  have hnot : ¬ Tabled buf := by
    intro htabled
    rw [isHuffman_eq_true_iff.mpr htabled] at hnew
    cases hnew
  obtain ⟨hsize, ⟨htrue, -⟩ | ⟨-, ⟨k, hk, hheader, hfirst, rfl⟩ | ⟨rfl, -⟩⟩⟩ := memcpyPicture_cases h
  · rw [hnew] at htrue
    cases htrue
  · have htabled := tabled_withTables_iff hk hsize hheader hnot
    constructor
    · intro hagain
      have hself := memcpyPicture_cases (hagain [])
      rw [List.append_nil, isHuffman_eq_true_iff] at hself
      obtain ⟨-, ⟨hyes, -⟩ | ⟨-, ⟨n, hn, -, -, hlonger⟩ | ⟨hempty, -⟩⟩⟩ := hself
      · obtain ⟨hfar, hno⟩ := htabled.mp hyes
        exact ⟨k, hfar, hk, hheader, hno⟩
      · have hlength := congrArg List.length hlonger
        rw [length_withTables hn (Nat.le_refl _)] at hlength
        omega
      · exact absurd hempty hout
    · rintro ⟨n, hn, -, hmarker, hno⟩ rest
      have hkn : k ≤ n := by
        by_contra hlt
        exact hfirst n (by omega) hmarker
      exact memcpyPicture_of_tabled (htabled.mpr ⟨by omega, fun j hj => hno j (by omega)⟩) rest
  · exact absurd rfl hout

/-- A small picture: the frame header, the beginning of its scan, and memory behind it.  It gets its
tables once. -/
theorem memcpyPicture_again_iff_small :
    memcpyPicture [0xff, 0xd8, 0xff, 0xc0, 0xff, 0xda, 0, 0] 6 =
        some ([0xff, 0xd8] ++ dhtData ++ [0xff, 0xc0, 0xff, 0xda]) ∧
      ∀ rest, memcpyPicture ([0xff, 0xd8] ++ dhtData ++ [0xff, 0xc0, 0xff, 0xda] ++ rest)
        ([0xff, 0xd8] ++ dhtData ++ [0xff, 0xc0, 0xff, 0xda]).length =
          some ([0xff, 0xd8] ++ dhtData ++ [0xff, 0xc0, 0xff, 0xda]) := by
  have hfirst : memcpyPicture [0xff, 0xd8, 0xff, 0xc0, 0xff, 0xda, 0, 0] 6 =
      some ([0xff, 0xd8] ++ dhtData ++ [0xff, 0xc0, 0xff, 0xda]) := rfl
  refine ⟨hfirst, (memcpyPicture_again_iff hfirst rfl (by simp)).mpr ⟨2, by decide, by decide, ?_⟩⟩
  unfold MarkerAt
  decide

end HuffmanTables
