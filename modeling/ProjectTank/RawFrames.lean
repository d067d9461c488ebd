/-
# Frames that are no JPEG (`compress_image_to_jpeg` in `jpeg_utils.c`)

A camera may send its pixels as pairs that share their colour (YUYV, UYVY), or one by one (RGB24,
RGB565).  `compress_image_to_jpeg` walks through the frame with a pointer, and a flag for the second
pixel of a pair that it keeps from row to row, and hands each row to libjpeg in red, green and blue.

* `scanlines_close`: the rows are the picture of the frame, each colour within a bound of the exact
  one, and the walk stays in the frame buffer, unless pairs are halved.
-/
import Mathlib.Algebra.Order.Field.Rat
import Mathlib.Algebra.Order.Group.MinMax
import Mathlib.Data.List.Forall2
import Mathlib.Tactic.Linarith
import Mathlib.Tactic.NormNum
import Mathlib.Tactic.Ring

namespace RawFrames

/-! ## The walk through the frame -/

/-- The formats that are converted. -/
inductive PixelFormat
  | yuyv
  | uyvy
  | rgb24
  | rgb565
  deriving DecidableEq

/-- A pixel of a row. -/
structure Pixel where
  r : UInt8
  g : UInt8
  b : UInt8
  deriving DecidableEq

/-- `z`, and how far the pointer `yuyv` has gone into the frame. -/
structure Cursor where
  z : Bool := false
  yuyv : ℕ := 0
  deriving DecidableEq

/-- `(n > 255) ? 255 : ((n < 0) ? 0 : n)`. -/
def clampByte (n : ℤ) : UInt8 :=
  UInt8.ofNat (if 255 < n then 255 else if n < 0 then 0 else n).toNat

/-- The colour of a pixel in fixed point, from `y` shifted by eight. -/
def convert (y u v : ℤ) : Pixel where
  r := clampByte ((y + 359 * v) >>> (8 : ℕ))
  g := clampByte ((y - 88 * u - 183 * v) >>> (8 : ℕ))
  b := clampByte ((y + 454 * u) >>> (8 : ℕ))

/-- Where the parts of a pair stand. -/
structure Layout where
  first : ℕ
  second : ℕ
  u : ℕ
  v : ℕ

/-- `V4L2_PIX_FMT_YUYV`. -/
def yuyvLayout : Layout := ⟨0, 2, 1, 3⟩

/-- `V4L2_PIX_FMT_UYVY`. -/
def uyvyLayout : Layout := ⟨1, 3, 0, 2⟩

/-- Where the brightness of a pixel of a pair stands. -/
def Layout.y (o : Layout) (z : Bool) : ℕ := if z then o.second else o.first

/-- One pixel of a pair; `none` where it is read beyond the frame. -/
def yuvPixel (o : Layout) (frame : List UInt8) (k : Cursor) : Option (Pixel × Cursor) :=
  match frame[k.yuyv + o.y k.z]?, frame[k.yuyv + o.u]?, frame[k.yuyv + o.v]? with
  | some y, some u, some v =>
      some (convert (y.toNat <<< 8 : ℕ) (u.toNat - 128) (v.toNat - 128),
        if k.z then ⟨false, k.yuyv + 4⟩ else ⟨true, k.yuyv⟩)
  | _, _, _ => none

/-- Three bytes as they are. -/
def rgb24Pixel (frame : List UInt8) (k : Cursor) : Option (Pixel × Cursor) :=
  match frame[k.yuyv]?, frame[k.yuyv + 1]?, frame[k.yuyv + 2]? with
  | some r, some g, some b => some (⟨r, g, b⟩, ⟨k.z, k.yuyv + 3⟩)
  | _, _, _ => none

/-- The two bytes of a pixel, as red, green and blue. -/
def expand (low high : ℕ) : Pixel where
  r := UInt8.ofNat (high &&& 248)
  g := UInt8.ofNat (((high <<< 8 + low) &&& 2016) >>> 3)
  b := UInt8.ofNat ((low &&& 31) * 8)

/-- Two bytes, the low one first. -/
def rgb565Pixel (frame : List UInt8) (k : Cursor) : Option (Pixel × Cursor) :=
  match frame[k.yuyv]?, frame[k.yuyv + 1]? with
  | some low, some high => some (expand low.toNat high.toNat, ⟨k.z, k.yuyv + 2⟩)
  | _, _ => none

/-- One pixel at the cursor, and the cursor behind it. -/
def pixel : PixelFormat → List UInt8 → Cursor → Option (Pixel × Cursor)
  | .yuyv => yuvPixel yuyvLayout
  | .uyvy => yuvPixel uyvyLayout
  | .rgb24 => rgb24Pixel
  | .rgb565 => rgb565Pixel

/-- The pixels of a row. -/
def row (format : PixelFormat) (frame : List UInt8) : ℕ → Cursor → Option (List Pixel × Cursor)
  | 0, k => some ([], k)
  | width + 1, k =>
      (pixel format frame k).bind fun (p, k) =>
        (row format frame width k).map fun (ps, k) => (p :: ps, k)

/-- The rows that are handed to `jpeg_write_scanlines`; the cursor is kept between them. -/
def rows (format : PixelFormat) (frame : List UInt8) (width : ℕ) :
    ℕ → Cursor → Option (List (List Pixel))
  | 0, _ => some []
  | height + 1, k =>
      (row format frame width k).bind fun (ps, k) =>
        (rows format frame width height k).map fun rest => ps :: rest

/-- The loop of `compress_image_to_jpeg` over a whole frame. -/
def scanlines (format : PixelFormat) (frame : List UInt8) (width height : ℕ) :
    Option (List (List Pixel)) :=
  rows format frame width height {}

/-- The size of the frame buffer, by `init_framebuffer`. -/
def framesizeIn : PixelFormat → ℕ → ℕ → ℕ
  | .rgb24, width, height => width * height * 3
  | _, width, height => width * height * 2

/-! ## The colours of a frame -/

/-- A colour of a channel from `0` to `255`, not rounded. -/
structure Colour where
  r : ℚ
  g : ℚ
  b : ℚ

/-- A value brought into the range of a channel. -/
def clamp (x : ℚ) : ℚ := max 0 (min 255 x)

/-- The exact colour for brightness and colour differences. -/
def exactYuv (y u v : ℚ) : Colour where
  r := clamp (y + 1402 / 1000 * v)
  g := clamp (y - 344136 / 1000000 * u - 714136 / 1000000 * v)
  b := clamp (y + 1772 / 1000 * u)

/-- The exact colour of five, six and five bits. -/
def exactBits (r g b : ℕ) : Colour where
  r := r * (255 / 31)
  g := g * (255 / 63)
  b := b * (255 / 31)

/-- The `n`-th pixel of a frame of pairs. -/
def yuvAt (o : Layout) (frame : List UInt8) (n : ℕ) : Option Colour :=
  match frame[4 * (n / 2) + o.y (n % 2 = 1)]?, frame[4 * (n / 2) + o.u]?,
    frame[4 * (n / 2) + o.v]? with
  | some y, some u, some v => some (exactYuv y.toNat (u.toNat - 128) (v.toNat - 128))
  | _, _, _ => none

/-- The `n`-th pixel of a frame of three bytes each. -/
def rgb24At (frame : List UInt8) (n : ℕ) : Option Colour :=
  match frame[3 * n]?, frame[3 * n + 1]?, frame[3 * n + 2]? with
  | some r, some g, some b => some ⟨r.toNat, g.toNat, b.toNat⟩
  | _, _, _ => none

/-- The `n`-th pixel of a frame of two bytes each. -/
def rgb565At (frame : List UInt8) (n : ℕ) : Option Colour :=
  match frame[2 * n]?, frame[2 * n + 1]? with
  | some low, some high =>
      let word := 256 * high.toNat + low.toNat
      some (exactBits (word / 2048) (word / 32 % 64) (word % 32))
  | _, _ => none

/-- The `n`-th pixel of a frame. -/
def colourAt : PixelFormat → List UInt8 → ℕ → Option Colour
  | .yuyv => yuvAt yuyvLayout
  | .uyvy => yuvAt uyvyLayout
  | .rgb24 => rgb24At
  | .rgb565 => rgb565At

/-- How far a channel may be from the exact one. -/
def tolerance : PixelFormat → ℚ
  | .rgb24 => 0
  | .rgb565 => 7
  | _ => 6 / 5

/-- Each channel is within the tolerance of the format. -/
def Close (format : PixelFormat) (p : Pixel) (q : Colour) : Prop :=
  |(p.r.toNat : ℚ) - q.r| ≤ tolerance format ∧ |(p.g.toNat : ℚ) - q.g| ≤ tolerance format ∧
    |(p.b.toNat : ℚ) - q.b| ≤ tolerance format

/-! ## One pixel is close -/

/-- The cast to a byte comes after the clamp, so it loses nothing. -/
theorem toNat_clampByte (n : ℤ) : ((clampByte n).toNat : ℤ) = max 0 (min 255 n) := by
  have hbyte : (if 255 < n then 255 else if n < 0 then 0 else n) = max 0 (min 255 n) := by
    split
    · omega
    · split <;> omega
  have hlt : (max 0 (min 255 n)).toNat < 256 := by omega
  rw [clampByte, hbyte, UInt8.toNat_ofNat_of_lt' hlt]
  omega

/-- To clamp does not take a number further away. -/
theorem clampByte_close {n : ℤ} {e t : ℚ} (h : |(n : ℚ) - e| ≤ t) :
    |((clampByte n).toNat : ℚ) - clamp e| ≤ t := by
  have hn : ((clampByte n).toNat : ℚ) = max 0 (min 255 (n : ℚ)) := by
    exact_mod_cast congrArg (Int.cast : ℤ → ℚ) (toNat_clampByte n)
  have hmin : |min 255 (n : ℚ) - min 255 e| ≤ |(n : ℚ) - e| := by
    rw [min_comm, min_comm 255 e]
    exact abs_min_sub_min_le_max _ _ _ _ |>.trans (by simp)
  have hmax : |max 0 (min 255 (n : ℚ)) - max 0 (min 255 e)| ≤
      |min 255 (n : ℚ) - min 255 e| := by
    rw [max_comm, max_comm 0 (min 255 e)]
    exact abs_max_sub_max_le_abs _ _ _
  rw [hn, clamp]
  exact hmax.trans (hmin.trans h)

/-- A shift by eight rounds downwards. -/
theorem shift_close {m : ℤ} {e : ℚ} (h : |(m : ℚ) / 256 - e| ≤ 1 / 5) :
    |((m >>> (8 : ℕ) : ℤ) : ℚ) - e| ≤ 6 / 5 := by
  obtain ⟨hlow, hhigh⟩ := abs_le.mp h
  have hshift : m >>> (8 : ℕ) = m / 256 := Int.shiftRight_eq_div_pow m 8
  have hfloor : m / 256 * 256 ≤ m ∧ m < m / 256 * 256 + 256 := by omega
  have hle : ((m / 256 : ℤ) : ℚ) * 256 ≤ m := by exact_mod_cast hfloor.1
  have hlt : (m : ℚ) < ((m / 256 : ℤ) : ℚ) * 256 + 256 := by exact_mod_cast hfloor.2
  rw [hshift, abs_le]
  constructor <;> linarith

/-- **The fixed point numbers are close to the exact ones.** -/
theorem convert_close (y u v : UInt8) :
    let p := convert (y.toNat <<< 8 : ℕ) (u.toNat - 128) (v.toNat - 128)
    let q := exactYuv y.toNat (u.toNat - 128) (v.toNat - 128)
    |(p.r.toNat : ℚ) - q.r| ≤ 6 / 5 ∧ |(p.g.toNat : ℚ) - q.g| ≤ 6 / 5 ∧
      |(p.b.toNat : ℚ) - q.b| ≤ 6 / 5 := by
  have hshift : y.toNat <<< 8 = y.toNat * 256 := Nat.shiftLeft_eq y.toNat 8
  have hu : (0 : ℚ) ≤ u.toNat ∧ (u.toNat : ℚ) ≤ 256 := by
    have hlt := u.toNat_lt
    exact ⟨Nat.cast_nonneg _, by exact_mod_cast hlt.le⟩
  have hv : (0 : ℚ) ≤ v.toNat ∧ (v.toNat : ℚ) ≤ 256 := by
    have hlt := v.toNat_lt
    exact ⟨Nat.cast_nonneg _, by exact_mod_cast hlt.le⟩
  rw [hshift]
  refine ⟨clampByte_close (shift_close ?_), clampByte_close (shift_close ?_),
    clampByte_close (shift_close ?_)⟩
  · push_cast
    rw [abs_le]
    constructor <;> linarith
  · push_cast
    rw [abs_le]
    constructor <;> linarith
  · push_cast
    rw [abs_le]
    constructor <;> linarith

/-- Masked bits, by division. -/
theorem and_shiftLeft (n k m : ℕ) : n &&& (m <<< k) = ((n >>> k) &&& m) <<< k := by
  apply Nat.eq_of_testBit_eq
  intro i
  rw [Nat.testBit_and, Nat.testBit_shiftLeft, Nat.testBit_shiftLeft, Nat.testBit_and,
    Nat.testBit_shiftRight]
  by_cases h : k ≤ i
  · rw [Nat.add_sub_cancel' h]
    cases n.testBit i <;> simp [h]
  · simp [h]

theorem toNat_expand (low high : UInt8) :
    (expand low.toNat high.toNat).r.toNat = 8 * ((256 * high.toNat + low.toNat) / 2048) ∧
    (expand low.toNat high.toNat).g.toNat = 4 * ((256 * high.toNat + low.toNat) / 32 % 64) ∧
    (expand low.toNat high.toNat).b.toNat = 8 * ((256 * high.toNat + low.toNat) % 32) := by
  have hlow := low.toNat_lt
  have hhigh := high.toNat_lt
  have hred : high.toNat &&& 248 = high.toNat / 8 % 32 * 8 := by
    have h := and_shiftLeft high.toNat 3 31
    rw [Nat.shiftRight_eq_div_pow, Nat.shiftLeft_eq, Nat.shiftLeft_eq,
      Nat.and_two_pow_sub_one_eq_mod _ 5] at h
    exact h
  have hgreen : ((high.toNat <<< 8 + low.toNat) &&& 2016) >>> 3 =
      (high.toNat * 256 + low.toNat) / 32 % 64 * 4 := by
    have h := and_shiftLeft (high.toNat <<< 8 + low.toNat) 5 63
    rw [Nat.shiftRight_eq_div_pow, Nat.shiftLeft_eq, Nat.shiftLeft_eq, Nat.shiftLeft_eq,
      Nat.and_two_pow_sub_one_eq_mod _ 6] at h
    rw [Nat.shiftLeft_eq, Nat.shiftRight_eq_div_pow]
    refine (congrArg (· / 2 ^ 3) h).trans ?_
    omega
  have hblue : low.toNat &&& 31 = low.toNat % 32 := Nat.and_two_pow_sub_one_eq_mod _ 5
  refine ⟨?_, ?_, ?_⟩
  · show (UInt8.ofNat (high.toNat &&& 248)).toNat = _
    rw [hred, UInt8.toNat_ofNat_of_lt' (by show _ < 256; omega)]
    omega
  · show (UInt8.ofNat (((high.toNat <<< 8 + low.toNat) &&& 2016) >>> 3)).toNat = _
    rw [hgreen, UInt8.toNat_ofNat_of_lt' (by show _ < 256; omega)]
    omega
  · show (UInt8.ofNat ((low.toNat &&& 31) * 8)).toNat = _
    rw [hblue, UInt8.toNat_ofNat_of_lt' (by show _ < 256; omega)]
    omega

/-- The bits that are left out are worth at most seven. -/
theorem expand_close (low high : UInt8) :
    let word := 256 * high.toNat + low.toNat
    Close .rgb565 (expand low.toNat high.toNat)
      (exactBits (word / 2048) (word / 32 % 64) (word % 32)) := by
  intro word
  have hlow := low.toNat_lt
  have hhigh := high.toNat_lt
  obtain ⟨hred, hgreen, hblue⟩ := toNat_expand low high
  have hfive : ∀ n : ℕ, n ≤ 31 → |((8 * n : ℕ) : ℚ) - n * (255 / 31)| ≤ 7 := by
    intro n hn
    have hpos : (0 : ℚ) ≤ n := Nat.cast_nonneg n
    have hle : (n : ℚ) ≤ 31 := by exact_mod_cast hn
    push_cast
    rw [abs_le]
    constructor <;> linarith
  have hsix : ∀ n : ℕ, n ≤ 63 → |((4 * n : ℕ) : ℚ) - n * (255 / 63)| ≤ 7 := by
    intro n hn
    have hpos : (0 : ℚ) ≤ n := Nat.cast_nonneg n
    have hle : (n : ℚ) ≤ 63 := by exact_mod_cast hn
    push_cast
    rw [abs_le]
    constructor <;> linarith
  refine ⟨?_, ?_, ?_⟩
  · rw [hred]
    exact hfive _ (by omega)
  · rw [hgreen]
    exact hsix _ (by omega)
  · rw [hblue]
    exact hfive _ (by omega)

/-! ## The walk -/

/-- Where the cursor stands before the `n`-th pixel. -/
def cursorAt : PixelFormat → ℕ → Cursor
  | .yuyv, n => ⟨n % 2 = 1, 4 * (n / 2)⟩
  | .uyvy, n => ⟨n % 2 = 1, 4 * (n / 2)⟩
  | .rgb24, n => ⟨false, 3 * n⟩
  | .rgb565, n => ⟨false, 2 * n⟩

/-- The last byte that the `n`-th pixel is read from. -/
def lastByte : PixelFormat → ℕ → ℕ
  | .yuyv, n => 4 * (n / 2) + 3
  | .uyvy, n => 4 * (n / 2) + (if n % 2 = 1 then 3 else 2)
  | .rgb24, n => 3 * n + 2
  | .rgb565, n => 2 * n + 1

section

variable {format : PixelFormat} {frame : List UInt8}

/-- What a pixel of the picture shows of the frame. -/
def Shows (format : PixelFormat) (frame : List UInt8) (n : ℕ) (p : Pixel) : Prop :=
  ∃ q, colourAt format frame n = some q ∧ Close format p q

/-- The cursor goes on to the next pixel, and the pixel read is close to its colour. -/
theorem yuvPixel_cursorAt {o : Layout} {n : ℕ} {p : Pixel} {k : Cursor}
    (h : yuvPixel o frame ⟨n % 2 = 1, 4 * (n / 2)⟩ = some (p, k)) :
    k = ⟨(n + 1) % 2 = 1, 4 * ((n + 1) / 2)⟩ ∧
      ∃ q, yuvAt o frame n = some q ∧ Close .yuyv p q := by
  unfold yuvPixel at h
  split at h
  · next y u v hy hu hv =>
    rw [Option.some.injEq, Prod.mk.injEq] at h
    obtain ⟨rfl, rfl⟩ := h
    constructor
    · -- the second pixel of a pair takes the cursor to the next pair
      rcases Nat.mod_two_eq_zero_or_one n with heven | hodd
      · have hnext : (n + 1) % 2 = 1 ∧ (n + 1) / 2 = n / 2 := by omega
        simp only [heven, hnext.1, hnext.2, zero_ne_one, decide_false, decide_true,
          Bool.false_eq_true, if_false]
      · have hnext : (n + 1) % 2 = 0 ∧ (n + 1) / 2 = n / 2 + 1 := by omega
        simp only [hodd, hnext.1, hnext.2, zero_ne_one, decide_false, decide_true, if_true,
          Nat.mul_add, Nat.mul_one]
    · refine ⟨exactYuv y.toNat (u.toNat - 128) (v.toNat - 128), ?_, convert_close y u v⟩
      unfold yuvAt
      rw [hy, hu, hv]
  · cases h

theorem rgb24Pixel_cursorAt {n : ℕ} {p : Pixel} {k : Cursor}
    (h : rgb24Pixel frame ⟨false, 3 * n⟩ = some (p, k)) :
    k = ⟨false, 3 * (n + 1)⟩ ∧ ∃ q, rgb24At frame n = some q ∧ Close .rgb24 p q := by
  unfold rgb24Pixel at h
  split at h
  · next r g b hr hg hb =>
    rw [Option.some.injEq, Prod.mk.injEq] at h
    obtain ⟨rfl, rfl⟩ := h
    dsimp only at hr hg hb
    refine ⟨rfl, ⟨r.toNat, g.toNat, b.toNat⟩, ?_, ?_⟩
    · unfold rgb24At
      rw [hr, hg, hb]
    · simp only [Close, sub_self, abs_zero, tolerance, le_refl, and_self]
  · cases h

theorem rgb565Pixel_cursorAt {n : ℕ} {p : Pixel} {k : Cursor}
    (h : rgb565Pixel frame ⟨false, 2 * n⟩ = some (p, k)) :
    k = ⟨false, 2 * (n + 1)⟩ ∧ ∃ q, rgb565At frame n = some q ∧ Close .rgb565 p q := by
  unfold rgb565Pixel at h
  split at h
  · next low high hlow hhigh =>
    rw [Option.some.injEq, Prod.mk.injEq] at h
    obtain ⟨rfl, rfl⟩ := h
    dsimp only at hlow hhigh
    refine ⟨rfl, _, ?_, expand_close low high⟩
    unfold rgb565At
    rw [hlow, hhigh]
  · cases h

/-- **One pixel**: the cursor goes on to the next, and the colour is close. -/
theorem pixel_cursorAt {n : ℕ} {p : Pixel} {k : Cursor}
    (h : pixel format frame (cursorAt format n) = some (p, k)) :
    k = cursorAt format (n + 1) ∧ Shows format frame n p := by
  cases format with
  | yuyv => exact yuvPixel_cursorAt h
  | uyvy => exact yuvPixel_cursorAt h
  | rgb24 => exact rgb24Pixel_cursorAt h
  | rgb565 => exact rgb565Pixel_cursorAt h

theorem yuvPixel_eq_none_iff {o : Layout} {k : Cursor} :
    yuvPixel o frame k = none ↔ frame.length ≤ k.yuyv + max (o.y k.z) (max o.u o.v) := by
  unfold yuvPixel
  split
  · next y u v hy hu hv =>
    have hy := (List.getElem?_eq_some_iff.mp hy).1
    have hu := (List.getElem?_eq_some_iff.mp hu).1
    have hv := (List.getElem?_eq_some_iff.mp hv).1
    exact iff_of_false (fun h => by cases h) (by omega)
  · next hno =>
    refine iff_of_true rfl ?_
    by_contra hin
    exact hno _ _ _ (List.getElem?_eq_getElem (by omega)) (List.getElem?_eq_getElem (by omega))
      (List.getElem?_eq_getElem (by omega))

theorem rgb24Pixel_eq_none_iff {k : Cursor} :
    rgb24Pixel frame k = none ↔ frame.length ≤ k.yuyv + 2 := by
  unfold rgb24Pixel
  split
  · next hb =>
    have hlt := (List.getElem?_eq_some_iff.mp hb).1
    exact iff_of_false (fun h => by cases h) (by omega)
  · next hno =>
    refine iff_of_true rfl ?_
    by_contra hin
    exact hno _ _ _ (List.getElem?_eq_getElem (by omega)) (List.getElem?_eq_getElem (by omega))
      (List.getElem?_eq_getElem (by omega))

theorem rgb565Pixel_eq_none_iff {k : Cursor} :
    rgb565Pixel frame k = none ↔ frame.length ≤ k.yuyv + 1 := by
  unfold rgb565Pixel
  split
  · next hhigh =>
    have hlt := (List.getElem?_eq_some_iff.mp hhigh).1
    exact iff_of_false (fun h => by cases h) (by omega)
  · next hno =>
    refine iff_of_true rfl ?_
    by_contra hin
    exact hno _ _ (List.getElem?_eq_getElem (by omega)) (List.getElem?_eq_getElem (by omega))

/-- A pixel is read beyond the frame exactly when its last byte is. -/
theorem pixel_eq_none_iff {n : ℕ} :
    pixel format frame (cursorAt format n) = none ↔ frame.length ≤ lastByte format n := by
  cases format with
  | yuyv =>
      refine yuvPixel_eq_none_iff.trans ?_
      show frame.length ≤ 4 * (n / 2) + max (if _ then 2 else 0) 3 ↔ frame.length ≤ 4 * (n / 2) + 3
      split <;> exact Iff.rfl
  | uyvy =>
      refine yuvPixel_eq_none_iff.trans ?_
      show frame.length ≤ 4 * (n / 2) + max (if decide (n % 2 = 1) = true then 3 else 1) 2 ↔
        frame.length ≤ 4 * (n / 2) + (if n % 2 = 1 then 3 else 2)
      by_cases hodd : n % 2 = 1
      · rw [if_pos (decide_eq_true hodd), if_pos hodd]
        exact Iff.rfl
      · rw [if_neg (by rw [decide_eq_true_eq]; exact hodd), if_neg hodd]
        exact Iff.rfl
  | rgb24 => exact rgb24Pixel_eq_none_iff
  | rgb565 => exact rgb565Pixel_eq_none_iff

/-- A row takes as many pixels, one after the other. -/
theorem row_cursorAt {width n : ℕ} {ps : List Pixel} {k : Cursor}
    (h : row format frame width (cursorAt format n) = some (ps, k)) :
    k = cursorAt format (n + width) ∧
      List.Forall₂ (Shows format frame) (List.range' n width) ps := by
  induction width generalizing n ps with
  | zero =>
      cases h
      exact ⟨rfl, List.Forall₂.nil⟩
  | succ width ih =>
      obtain ⟨⟨p, k'⟩, hp, h⟩ := Option.bind_eq_some_iff.mp h
      obtain ⟨⟨rest, k''⟩, hrest, h⟩ := Option.map_eq_some_iff.mp h
      rw [Prod.mk.injEq] at h
      obtain ⟨rfl, rfl⟩ := h
      obtain ⟨rfl, hshows⟩ := pixel_cursorAt hp
      obtain ⟨hk, hall⟩ := ih hrest
      refine ⟨?_, List.Forall₂.cons hshows hall⟩
      rw [hk, Nat.add_assoc, Nat.add_comm 1 width]

theorem row_eq_none_iff {width n : ℕ} : row format frame width (cursorAt format n) = none ↔
    ∃ i < width, frame.length ≤ lastByte format (n + i) := by
  induction width generalizing n with
  | zero => exact iff_of_false (fun h => by cases h) fun ⟨i, hi, _⟩ => absurd hi (Nat.not_lt_zero i)
  | succ width ih =>
      rw [row]
      cases hp : pixel format frame (cursorAt format n) with
      | none => exact iff_of_true rfl ⟨0, Nat.zero_lt_succ width, pixel_eq_none_iff.mp hp⟩
      | some pk =>
          obtain ⟨p, k⟩ := pk
          obtain ⟨rfl, -⟩ := pixel_cursorAt hp
          rw [Option.bind_some]
          show Option.map _ _ = none ↔ _
          rw [Option.map_eq_none_iff, ih]
          constructor
          · rintro ⟨i, hi, hlast⟩
            refine ⟨i + 1, Nat.succ_lt_succ hi, ?_⟩
            rw [Nat.add_comm i 1, ← Nat.add_assoc]
            exact hlast
          · rintro ⟨i, hi, hlast⟩
            cases i with
            | zero =>
                rw [← pixel_eq_none_iff, Nat.add_zero, hp] at hlast
                cases hlast
            | succ i =>
                refine ⟨i, Nat.lt_of_succ_lt_succ hi, ?_⟩
                rw [Nat.add_assoc, Nat.add_comm 1 i]
                exact hlast

/-- **The rows**: each has its width, and together they show the pixels in their order. -/
theorem rows_cursorAt {width height n : ℕ} {pss : List (List Pixel)}
    (h : rows format frame width height (cursorAt format n) = some pss) :
    pss.length = height ∧ (∀ ps ∈ pss, ps.length = width) ∧
      List.Forall₂ (Shows format frame) (List.range' n (height * width)) pss.flatten := by
  induction height generalizing n pss with
  | zero =>
      cases h
      refine ⟨rfl, fun ps hps => absurd hps List.not_mem_nil, ?_⟩
      rw [Nat.zero_mul]
      exact List.Forall₂.nil
  | succ height ih =>
      obtain ⟨⟨ps, k⟩, hrow, h⟩ := Option.bind_eq_some_iff.mp h
      obtain ⟨rest, hrest, rfl⟩ := Option.map_eq_some_iff.mp h
      obtain ⟨rfl, hshows⟩ := row_cursorAt hrow
      obtain ⟨hlength, hwidth, hall⟩ := ih hrest
      have hfirst : ps.length = width := by
        rw [← hshows.length_eq, List.length_range']
      refine ⟨congrArg (· + 1) hlength, ?_, ?_⟩
      · intro qs hqs
        rcases List.mem_cons.mp hqs with rfl | hqs
        · exact hfirst
        · exact hwidth qs hqs
      · have hsplit : List.range' n ((height + 1) * width) =
            List.range' n width ++ List.range' (n + width) (height * width) := by
          rw [Nat.succ_mul, Nat.add_comm (height * width) width, List.range'_append_1]
        rw [hsplit, List.flatten_cons]
        exact List.rel_append hshows hall

/-- The rows leave the frame exactly when one of their pixels does. -/
theorem rows_eq_none_iff {width height n : ℕ} :
    rows format frame width height (cursorAt format n) = none ↔
      ∃ i < height * width, frame.length ≤ lastByte format (n + i) := by
  induction height generalizing n with
  | zero =>
      refine iff_of_false (fun h => by cases h) ?_
      rintro ⟨i, hi, -⟩
      rw [Nat.zero_mul] at hi
      exact absurd hi (Nat.not_lt_zero i)
  | succ height ih =>
      rw [rows]
      cases hrow : row format frame width (cursorAt format n) with
      | none =>
          obtain ⟨i, hi, hlast⟩ := row_eq_none_iff.mp hrow
          refine iff_of_true rfl ⟨i, ?_, hlast⟩
          rw [Nat.succ_mul]
          exact Nat.lt_add_left _ hi
      | some psk =>
          obtain ⟨ps, k⟩ := psk
          obtain ⟨rfl, -⟩ := row_cursorAt hrow
          rw [Option.bind_some]
          show Option.map _ _ = none ↔ _
          rw [Option.map_eq_none_iff, ih, Nat.succ_mul]
          constructor
          · rintro ⟨i, hi, hlast⟩
            refine ⟨width + i, by omega, ?_⟩
            rw [← Nat.add_assoc]
            exact hlast
          · rintro ⟨i, hi, hlast⟩
            by_cases hin : i < width
            · have hnone := row_eq_none_iff.mpr ⟨i, hin, hlast⟩
              rw [hrow] at hnone
              cases hnone
            · refine ⟨i - width, by omega, ?_⟩
              rw [show n + width + (i - width) = n + i by omega]
              exact hlast

end

/-- The formats whose pixels come in pairs. -/
def PixelFormat.Paired (format : PixelFormat) : Prop := format = .yuyv ∨ format = .uyvy

/-- Only the last of an odd number of paired pixels is read from beyond the frame buffer. -/
theorem exists_beyond_iff {format : PixelFormat} {width height : ℕ} :
    (∃ i < width * height, framesizeIn format width height ≤ lastByte format (0 + i)) ↔
      format.Paired ∧ width * height % 2 = 1 := by
  generalize hn : width * height = n
  cases format with
  | yuyv =>
      rw [and_iff_right (show PixelFormat.yuyv.Paired from Or.inl rfl)]
      simp only [framesizeIn, lastByte, hn, Nat.zero_add]
      constructor
      · rintro ⟨i, hi, hlast⟩
        omega
      · exact fun hodd => ⟨n - 1, by omega, by omega⟩
  | uyvy =>
      rw [and_iff_right (show PixelFormat.uyvy.Paired from Or.inr rfl)]
      simp only [framesizeIn, lastByte, hn, Nat.zero_add]
      constructor
      · rintro ⟨i, hi, hlast⟩
        split at hlast <;> omega
      · intro hodd
        refine ⟨n - 1, by omega, ?_⟩
        rw [if_neg (by omega)]
        omega
  | rgb24 =>
      simp only [framesizeIn, lastByte, hn, Nat.zero_add, PixelFormat.Paired, reduceCtorEq,
        or_self, false_and, iff_false]
      rintro ⟨i, hi, hlast⟩
      omega
  | rgb565 =>
      simp only [framesizeIn, lastByte, hn, Nat.zero_add, PixelFormat.Paired, reduceCtorEq,
        or_self, false_and, iff_false]
      rintro ⟨i, hi, hlast⟩
      omega

/-- **The picture of a frame.**  The rows have the width and the height of the frame, and show its
pixels in their order, each colour within the tolerance of the format; and the frame buffer is not
left, unless the pixels come in pairs and their number is odd. -/
theorem scanlines_close {format : PixelFormat} {frame : List UInt8} {width height : ℕ}
    (hsize : frame.length = framesizeIn format width height) :
    (scanlines format frame width height = none ↔ format.Paired ∧ width * height % 2 = 1) ∧
      ∀ pss, scanlines format frame width height = some pss →
        pss.length = height ∧ (∀ ps ∈ pss, ps.length = width) ∧
          List.Forall₂ (Shows format frame) (List.range (width * height)) pss.flatten := by
  have hstart : cursorAt format 0 = {} := by cases format <;> rfl
  rw [scanlines, ← hstart]
  constructor
  · rw [rows_eq_none_iff, hsize, Nat.mul_comm height width]
    exact exists_beyond_iff
  · intro pss h
    obtain ⟨hlength, hwidth, hall⟩ := rows_cursorAt h
    rw [List.range_eq_range', Nat.mul_comm width height]
    exact ⟨hlength, hwidth, hall⟩

/-- A frame of two white pixels. -/
def whitePair : List UInt8 := [255, 128, 255, 128]

/-- Its row shows them. -/
theorem scanlines_close_white :
    scanlines .yuyv whitePair 2 1 = some [[⟨255, 255, 255⟩, ⟨255, 255, 255⟩]] ∧
      List.Forall₂ (Shows .yuyv whitePair) (List.range (2 * 1))
        [⟨255, 255, 255⟩, ⟨255, 255, 255⟩] := by
  have hrow : scanlines .yuyv whitePair 2 1 = some [[⟨255, 255, 255⟩, ⟨255, 255, 255⟩]] := by
    decide
  exact ⟨hrow, ((scanlines_close rfl).2 _ hrow).2.2⟩

end RawFrames
