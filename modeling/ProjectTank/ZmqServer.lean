/-
# The pictures published in packages (`output_zmqserver.c`)

`worker_thread` copies each picture of the global buffer into one of `zmqBufferSize` blocks, in turn,
and sends the pictures of all blocks as one package when it has filled the last.  Each block is
enlarged when a picture is larger than `max_frame_size`; but that size is one for all blocks, and only
the block in turn is enlarged.

* `sent_pictures`: the packages hold the pictures in order, none lost and none twice;
* `copies_in_bounds_iff`: with more than one block the copies stay in the blocks, whatever the
  pictures, only if no picture can be more than 64 KiB larger than another.
-/
import ProjectTank.MemoryBlock
import Mathlib.Data.Int.Notation
import Mathlib.Data.List.Induction
import Mathlib.Logic.Function.Basic
import Mathlib.Tactic.Ring

namespace ZmqServer

/-! ## The worker -/

/-- A picture of the global buffer with its timestamp, and what `time` says when it is copied. -/
structure Picture where
  buf : List UInt8
  tvSec : ℕ
  tvUsec : ℕ
  time : ℕ

/-- A frame of a package (`package.proto`). -/
structure Frame where
  timestampUnix : ℕ
  timestampS : ℕ
  timestampUs : ℕ
  blob : List UInt8
  deriving DecidableEq

/-- `pbPackage.frame[i]`; `blob.data` is the block `frames[i]`. -/
structure Entry where
  timestampUnix : ℕ
  timestampS : ℕ
  timestampUs : ℕ
  len : ℕ

/-- `MAX_ZMQ_BUFFER_SIZE`, the length of `frames`. -/
def maxZmqBufferSize : ℕ := 10

structure Worker where
  maxFrameSize : ℕ
  zmqBufferPos : ℕ
  frames : ℕ → Option (Block UInt8)
  entries : ℕ → Entry
  sent : List (List Frame)

/-- No block is allocated, `pb__package__frame__init` has cleared the entries. -/
def start : Worker := ⟨0, 0, fun _ => none, fun _ => ⟨0, 0, 0, 0⟩, []⟩

/-- What a package holds of the entry. -/
def Worker.frame (w : Worker) (i : ℕ) : Frame :=
  ⟨(w.entries i).timestampUnix, (w.entries i).timestampS, (w.entries i).timestampUs,
    (((w.frames i).map Block.contents).getD []).take (w.entries i).len⟩

/-- `max_frame_size` and the block, once the block has been enlarged if it seems too small. -/
def enlarge (maxFrameSize frameSize : ℕ) (frame : Option (Block UInt8)) : ℕ × Block UInt8 :=
  let maxFrameSize' := if frameSize > maxFrameSize then frameSize + 2 ^ 16 else maxFrameSize
  match frame with
  | none => (maxFrameSize', Block.malloc maxFrameSize')
  | some b => (maxFrameSize', if frameSize > maxFrameSize then b.realloc maxFrameSize' else b)

/-- The picture is in the block, and the entry describes it. -/
def Worker.store (w : Worker) (maxFrameSize : ℕ) (frame : Block UInt8) (p : Picture) : Worker :=
  { w with
    maxFrameSize := maxFrameSize
    zmqBufferPos := w.zmqBufferPos + 1
    frames := Function.update w.frames w.zmqBufferPos (some frame)
    entries := Function.update w.entries w.zmqBufferPos
      ⟨p.time % 2 ^ 32, p.tvSec % 2 ^ 32, p.tvUsec % 2 ^ 32, p.buf.length⟩ }

/-- The package is sent when the last block is filled. -/
def Worker.transmit (w : Worker) (zmqBufferSize : ℤ) : Worker :=
  if (w.zmqBufferPos : ℤ) = zmqBufferSize then
    { w with zmqBufferPos := 0, sent := w.sent ++ [(List.range zmqBufferSize.toNat).map w.frame] }
  else w

/-- One turn of `worker_thread`; `none` when it uses memory that is not its own. -/
def iterate (zmqBufferSize : ℤ) (w : Worker) (p : Picture) : Option Worker :=
  -- `frames[zmqBufferPos]` and `pbPackage.frame[zmqBufferPos]`
  if w.zmqBufferPos < maxZmqBufferSize ∧ (w.zmqBufferPos : ℤ) < zmqBufferSize then
    let grown := enlarge w.maxFrameSize p.buf.length (w.frames w.zmqBufferPos)
    (grown.2.copy p.buf).map fun frame => (w.store grown.1 frame p).transmit zmqBufferSize
  else none

/-- `worker_thread`, for the pictures it finds. -/
def run (zmqBufferSize : ℤ) (pictures : List Picture) : Option Worker :=
  pictures.foldlM (iterate zmqBufferSize) start

/-! ## What one turn does -/

variable {n : ℤ} {w w' : Worker} {p : Picture}

/-- Every way a turn goes that is defined. -/
theorem iterate_cases (h : iterate n w p = some w') :
    w.zmqBufferPos < maxZmqBufferSize ∧ (w.zmqBufferPos : ℤ) < n ∧
    ∃ frame, (enlarge w.maxFrameSize p.buf.length (w.frames w.zmqBufferPos)).2.copy p.buf =
        some frame ∧
      w' = (w.store (enlarge w.maxFrameSize p.buf.length (w.frames w.zmqBufferPos)).1 frame
        p).transmit n := by
  unfold iterate at h
  split at h
  · rename_i hroom
    obtain ⟨frame, hcopy, rfl⟩ := Option.map_eq_some_iff.mp h
    exact ⟨hroom.1, hroom.2, frame, hcopy, rfl⟩
  · cases h

/-- An iteration in which nothing goes wrong. -/
theorem iterate_eq (hten : w.zmqBufferPos < maxZmqBufferSize) (hlt : (w.zmqBufferPos : ℤ) < n)
    {frame : Block UInt8}
    (h : (enlarge w.maxFrameSize p.buf.length (w.frames w.zmqBufferPos)).2.copy p.buf = some frame) :
    iterate n w p =
      some ((w.store (enlarge w.maxFrameSize p.buf.length (w.frames w.zmqBufferPos)).1 frame
        p).transmit n) := by
  rw [iterate, if_pos ⟨hten, hlt⟩]
  exact Option.map_eq_some_iff.mpr ⟨frame, h, rfl⟩

theorem run_snoc (n : ℤ) (pictures : List Picture) (p : Picture) :
    run n (pictures ++ [p]) = (run n pictures).bind (iterate n · p) := by
  rw [run, List.foldlM_append]
  cases hrun : run n pictures with
  | none =>
      rw [run] at hrun
      rw [hrun]
      rfl
  | some w =>
      rw [run] at hrun
      rw [hrun]
      change (iterate n w p).bind some = iterate n w p
      cases iterate n w p <;> rfl

/-- A run with one more picture has come through the others. -/
theorem run_snoc_cases {pictures : List Picture} (h : run n (pictures ++ [p]) = some w') :
    ∃ w, run n pictures = some w ∧ iterate n w p = some w' := by
  rw [run_snoc] at h
  exact Option.bind_eq_some_iff.mp h

@[simp] theorem frames_transmit (w : Worker) (n : ℤ) : (w.transmit n).frames = w.frames := by
  unfold Worker.transmit
  split <;> rfl

@[simp] theorem maxFrameSize_transmit (w : Worker) (n : ℤ) :
    (w.transmit n).maxFrameSize = w.maxFrameSize := by
  unfold Worker.transmit
  split <;> rfl

/-- A batch that is full is sent, and the next one begins. -/
theorem zmqBufferPos_transmit (w : Worker) (n : ℤ) :
    (w.transmit n).zmqBufferPos = if (w.zmqBufferPos : ℤ) = n then 0 else w.zmqBufferPos := by
  unfold Worker.transmit
  split <;> rfl

@[simp] theorem zmqBufferPos_store (w : Worker) (size : ℕ) (frame : Block UInt8) (p : Picture) :
    (w.store size frame p).zmqBufferPos = w.zmqBufferPos + 1 := rfl

theorem frames_store_pos (w : Worker) (size : ℕ) (frame : Block UInt8) (p : Picture) :
    (w.store size frame p).frames w.zmqBufferPos = some frame := Function.update_self _ _ _

theorem frames_store_of_ne {i : ℕ} (h : i ≠ w.zmqBufferPos) (size : ℕ) (frame : Block UInt8) :
    (w.store size frame p).frames i = w.frames i := Function.update_of_ne h _ _

/-! ## The packages -/

/-- The frame of a picture. -/
def frameOf (p : Picture) : Frame :=
  ⟨p.time % 2 ^ 32, p.tvSec % 2 ^ 32, p.tvUsec % 2 ^ 32, p.buf⟩

theorem frame_store_of_ne {size i : ℕ} {frame : Block UInt8} (h : i ≠ w.zmqBufferPos) :
    (w.store size frame p).frame i = w.frame i := by
  unfold Worker.frame Worker.store
  simp only [Function.update_of_ne h]

/-- The new frame is the picture. -/
theorem frame_store_pos {size : ℕ} {block frame : Block UInt8} (h : block.copy p.buf = some frame) :
    (w.store size frame p).frame w.zmqBufferPos = frameOf p := by
  unfold Worker.frame Worker.store
  simp only [Function.update_self, Option.map_some, Option.getD_some, frameOf]
  rw [Block.take_contents_of_copy h]

/-- The frames that wait for their package. -/
def Worker.waiting (w : Worker) : List Frame := (List.range w.zmqBufferPos).map w.frame

/-- The picture waits behind those that wait already. -/
theorem waiting_store (size : ℕ) {block frame : Block UInt8} (h : block.copy p.buf = some frame) :
    (w.store size frame p).waiting = w.waiting ++ [frameOf p] := by
  unfold Worker.waiting
  rw [zmqBufferPos_store, List.range_succ, List.map_append, List.map_singleton, frame_store_pos h]
  congr 1
  apply List.map_congr_left
  intro i hi
  have hlt := List.mem_range.mp hi
  exact frame_store_of_ne (by omega)

/-- What holds of the packages after some pictures. -/
structure Packed (n : ℤ) (pictures : List Picture) (w : Worker) : Prop where
  frames : w.sent.flatten ++ w.waiting = pictures.map frameOf
  lengths : ∀ package ∈ w.sent, (package.length : ℤ) = n
  waits : (w.zmqBufferPos : ℤ) < n

/-- **One more picture**: it waits, or a whole batch is sent. -/
theorem Packed.iterate {pictures : List Picture} (h : Packed n pictures w)
    (hw : iterate n w p = some w') : Packed n (pictures ++ [p]) w' := by
  obtain ⟨-, hlt, frame, hcopy, rfl⟩ := iterate_cases hw
  generalize (enlarge w.maxFrameSize p.buf.length (w.frames w.zmqBufferPos)).1 = size
  have hwaiting := waiting_store (w := w) size hcopy
  have hall : w.sent.flatten ++ (w.store size frame p).waiting = (pictures ++ [p]).map frameOf := by
    rw [hwaiting, ← List.append_assoc, h.frames, List.map_append, List.map_singleton]
  unfold Worker.transmit
  split
  · rename_i hfull
    rw [zmqBufferPos_store] at hfull
    have hn : n.toNat = w.zmqBufferPos + 1 := by omega
    refine ⟨?_, ?_, ?_⟩
    · rw [← hall, hn]
      change (w.sent ++ [(w.store size frame p).waiting]).flatten ++ [] = _
      rw [List.append_nil, List.flatten_append, List.flatten_singleton]
    · intro package hmem
      rcases List.mem_append.mp hmem with hold | hnew
      · exact h.lengths package hold
      · rw [List.mem_singleton.mp hnew, List.length_map, List.length_range]
        omega
    · change ((0 : ℕ) : ℤ) < n
      omega
  · rename_i hmore
    rw [zmqBufferPos_store] at hmore
    refine ⟨hall, h.lengths, ?_⟩
    rw [zmqBufferPos_store]
    omega

/-- **The packages hold the pictures in order**, `zmqBufferSize` in each, with their timestamps; the
last pictures wait until there are enough of them. -/
theorem sent_pictures {zmqBufferSize : ℤ} {pictures : List Picture} {w : Worker}
    (hsize : 0 < zmqBufferSize) (h : run zmqBufferSize pictures = some w) :
    ∃ waiting : List Frame, w.sent.flatten ++ waiting = pictures.map frameOf ∧
      (waiting.length : ℤ) < zmqBufferSize ∧
      ∀ package ∈ w.sent, (package.length : ℤ) = zmqBufferSize := by
  have hpacked : Packed zmqBufferSize pictures w := by
    induction pictures using List.reverseRecOn generalizing w with
    | nil =>
        cases h
        exact ⟨rfl, fun package hmem => absurd hmem List.not_mem_nil, hsize⟩
    | append_singleton pictures p ih =>
        obtain ⟨v, hrun, hstep⟩ := run_snoc_cases h
        exact (ih hrun).iterate hstep
  refine ⟨w.waiting, hpacked.frames, ?_, hpacked.lengths⟩
  rw [Worker.waiting, List.length_map, List.length_range]
  exact hpacked.waits

theorem sent_pictures_two : ∃ w,
    run 2 [⟨[1], 5, 6, 7⟩, ⟨[2, 3], 8, 9, 10⟩, ⟨[4], 11, 12, 13⟩] = some w ∧
    w.sent = [[⟨7, 5, 6, [1]⟩, ⟨10, 8, 9, [2, 3]⟩]] ∧
    ∃ waiting : List Frame, w.sent.flatten ++ waiting =
        [⟨[1], 5, 6, 7⟩, ⟨[2, 3], 8, 9, 10⟩, ⟨[4], 11, 12, 13⟩].map frameOf ∧
      (waiting.length : ℤ) < 2 ∧ ∀ package ∈ w.sent, (package.length : ℤ) = 2 :=
  ⟨_, rfl, rfl, sent_pictures (by decide) rfl⟩

/-! ## The blocks -/

/-- A picture of these many bytes. -/
def blank (size : ℕ) : Picture := ⟨List.replicate size 0, 0, 0, 0⟩

theorem length_blank (size : ℕ) : (blank size).buf.length = size := List.length_replicate

theorem fst_enlarge (maxFrameSize frameSize : ℕ) (frame : Option (Block UInt8)) :
    (enlarge maxFrameSize frameSize frame).1 =
      if frameSize > maxFrameSize then frameSize + 2 ^ 16 else maxFrameSize := by
  cases frame <;> rfl

theorem fst_enlarge_of_gt {maxFrameSize frameSize : ℕ} (h : maxFrameSize < frameSize)
    (frame : Option (Block UInt8)) :
    (enlarge maxFrameSize frameSize frame).1 = frameSize + 2 ^ 16 := by
  rw [fst_enlarge]
  exact if_pos h

theorem fst_enlarge_of_le {maxFrameSize frameSize : ℕ} (h : frameSize ≤ maxFrameSize)
    (frame : Option (Block UInt8)) :
    (enlarge maxFrameSize frameSize frame).1 = maxFrameSize := by
  rw [fst_enlarge]
  exact if_neg (Nat.not_lt.mpr h)

/-- A picture that does not seem too large leaves the block as it is. -/
theorem enlarge_some_of_le {maxFrameSize frameSize : ℕ} (h : frameSize ≤ maxFrameSize)
    (b : Block UInt8) : (enlarge maxFrameSize frameSize (some b)).2 = b :=
  if_neg (Nat.not_lt.mpr h)

/-- A block that is as large as `max_frame_size` stays so, and has room for the picture. -/
theorem enlarge_level {maxFrameSize : ℕ} (frameSize : ℕ) {frame : Option (Block UInt8)}
    (h : ∀ b, frame = some b → b.size = maxFrameSize) :
    (enlarge maxFrameSize frameSize frame).2.size = (enlarge maxFrameSize frameSize frame).1 ∧
    frameSize ≤ (enlarge maxFrameSize frameSize frame).1 := by
  by_cases hgt : maxFrameSize < frameSize
  · rw [fst_enlarge_of_gt hgt]
    refine ⟨?_, Nat.le_add_right _ _⟩
    have hif : (if frameSize > maxFrameSize then frameSize + 2 ^ 16 else maxFrameSize) =
        frameSize + 2 ^ 16 := if_pos hgt
    cases frame with
    | none => exact hif
    | some b =>
        simp only [enlarge, hif, if_pos hgt, Block.size_realloc]
  · have hle := Nat.not_lt.mp hgt
    rw [fst_enlarge_of_le hle]
    refine ⟨?_, hle⟩
    cases frame with
    | none => exact if_neg hgt
    | some b =>
        rw [enlarge_some_of_le hle]
        exact h b rfl

/-- All blocks are as large as `max_frame_size`, and no picture of at most `bound` bytes changes that:
there is one block only, or the size is large enough. -/
structure Level (n : ℤ) (bound : ℕ) (w : Worker) : Prop where
  sizes : ∀ i b, w.frames i = some b → b.size = w.maxFrameSize
  few : ∀ i b, w.frames i = some b → (i : ℤ) < n
  turn : (w.zmqBufferPos : ℤ) < n
  ample : ((∀ i, w.frames i = none) ∧ w.maxFrameSize = 0) ∨ n = 1 ∨ bound ≤ w.maxFrameSize

/-- No block has been allocated at the start. -/
theorem level_start {n : ℤ} (hn : 0 < n) (bound : ℕ) : Level n bound start where
  sizes _ _ h := by cases h
  few _ _ h := by cases h
  turn := hn
  ample := Or.inl ⟨fun _ => rfl, rfl⟩

/-- The turn of a worker whose blocks are level. -/
theorem Level.iterate {least bound : ℕ} (h : Level n bound w) (hn : n ≤ 10)
    (hroom : n = 1 ∨ bound ≤ least + 2 ^ 16) (hleast : 0 < least) (hlo : least ≤ p.buf.length)
    (hhi : p.buf.length ≤ bound) : ∃ w', iterate n w p = some w' ∧ Level n bound w' := by
  have hturn := h.turn
  have hten : w.zmqBufferPos < maxZmqBufferSize := by
    unfold maxZmqBufferSize
    omega
  obtain ⟨hsize, hfits⟩ := enlarge_level p.buf.length (h.sizes w.zmqBufferPos)
  have hcopy := Block.copy_of_le (Nat.le_trans hfits (Nat.le_of_eq hsize.symm))
  refine ⟨_, iterate_eq hten hturn hcopy, ?_, ?_, ?_, ?_⟩
  · intro i b hb
    rw [frames_transmit] at hb
    rw [maxFrameSize_transmit]
    by_cases hi : i = w.zmqBufferPos
    · rw [hi, frames_store_pos, Option.some.injEq] at hb
      rw [← hb]
      exact hsize
    · have hold : w.frames i = some b := by rwa [frames_store_of_ne hi] at hb
      -- another block is there: only one that is ample keeps the blocks level
      have hfew := h.few i b hold
      have hample : bound ≤ w.maxFrameSize := by
        rcases h.ample with ⟨hnone, -⟩ | hone | hample
        · rw [hnone i] at hold
          cases hold
        · omega
        · exact hample
      exact (h.sizes i b hold).trans (fst_enlarge_of_le (Nat.le_trans hhi hample) _).symm
  · intro i b hb
    rw [frames_transmit] at hb
    by_cases hi : i = w.zmqBufferPos
    · rw [hi]
      exact hturn
    · rw [frames_store_of_ne hi] at hb
      exact h.few i b hb
  · rw [zmqBufferPos_transmit, zmqBufferPos_store]
    split <;> omega
  · refine Or.inr ?_
    rw [maxFrameSize_transmit]
    by_cases hone : n = 1
    · exact Or.inl hone
    · refine Or.inr ?_
      change bound ≤ (enlarge w.maxFrameSize p.buf.length (w.frames w.zmqBufferPos)).1
      rw [fst_enlarge]
      split
      · omega
      · rcases h.ample with ⟨-, hzero⟩ | hone' | hample
        · omega
        · exact absurd hone' hone
        · exact hample

/-- Pictures that differ by at most 64 KiB, or a single block: the copies stay in the blocks. -/
theorem run_of_level {least bound : ℕ} (hpos : 0 < n) (hn : n ≤ 10)
    (hroom : n = 1 ∨ bound ≤ least + 2 ^ 16) (hleast : 0 < least) {pictures : List Picture}
    (h : ∀ p ∈ pictures, least ≤ p.buf.length ∧ p.buf.length ≤ bound) :
    ∃ w, run n pictures = some w ∧ Level n bound w := by
  induction pictures using List.reverseRecOn with
  | nil => exact ⟨start, rfl, level_start hpos bound⟩
  | append_singleton pictures p ih =>
      obtain ⟨w, hrun, hlevel⟩ := ih fun q hq => h q (List.mem_append_left _ hq)
      obtain ⟨hlo, hhi⟩ := h p (List.mem_append_right _ (List.mem_singleton_self p))
      obtain ⟨w', hstep, hlevel'⟩ := hlevel.iterate hn hroom hleast hlo hhi
      refine ⟨w', ?_, hlevel'⟩
      rw [run_snoc, hrun]
      exact hstep

/-! ## A run that leaves its blocks -/

/-- A turn that allocates its block, which is not the last one. -/
theorem iterate_free (hten : w.zmqBufferPos < maxZmqBufferSize) (hlt : (w.zmqBufferPos : ℤ) + 1 < n)
    (hfree : w.frames w.zmqBufferPos = none) :
    ∃ w', iterate n w p = some w' ∧ w'.zmqBufferPos = w.zmqBufferPos + 1 ∧
      w'.maxFrameSize = (enlarge w.maxFrameSize p.buf.length none).1 ∧
      (∃ b, w'.frames w.zmqBufferPos = some b ∧ b.size = w'.maxFrameSize) ∧
      ∀ i, i ≠ w.zmqBufferPos → w'.frames i = w.frames i := by
  have hnew : ∀ b, w.frames w.zmqBufferPos = some b → b.size = w.maxFrameSize := by
    intro b hb
    rw [hfree] at hb
    cases hb
  obtain ⟨hsize, hfits⟩ := enlarge_level p.buf.length hnew
  have hcopy := Block.copy_of_le (Nat.le_trans hfits (Nat.le_of_eq hsize.symm))
  refine ⟨_, iterate_eq hten (by omega) hcopy, ?_, ?_, ?_, ?_⟩
  · rw [zmqBufferPos_transmit, zmqBufferPos_store]
    exact if_neg (by omega)
  · rw [maxFrameSize_transmit, ← hfree]
    rfl
  · rw [frames_transmit, frames_store_pos, maxFrameSize_transmit]
    refine ⟨_, rfl, ?_⟩
    exact hsize
  · intro i hi
    rw [frames_transmit, frames_store_of_ne hi]

/-- The worker after some equal pictures that have not filled the last block. -/
structure Filling (size k : ℕ) (w : Worker) : Prop where
  turn : w.zmqBufferPos = k
  most : w.maxFrameSize = if k = 0 then 0 else size + 2 ^ 16
  first : 0 < k → ∃ b, w.frames 0 = some b ∧ b.size = size + 2 ^ 16
  free : ∀ i, k ≤ i → w.frames i = none

/-- One more picture of the size goes into the batch. -/
theorem Filling.iterate {size k : ℕ} (h : Filling size k w) (hsize : 0 < size)
    (hk : (k : ℤ) + 1 < n) (hten : k < 10) :
    ∃ w', iterate n w (blank size) = some w' ∧ Filling size (k + 1) w' := by
  have hturn := h.turn
  have hroom : w.zmqBufferPos < maxZmqBufferSize := by
    unfold maxZmqBufferSize
    omega
  obtain ⟨w', hstep, hpos, hmax, ⟨b, hb, hbsize⟩, hother⟩ :=
    iterate_free (n := n) (p := blank size) hroom (by omega) (h.free _ (Nat.le_of_eq hturn.symm))
  have hmost : w'.maxFrameSize = size + 2 ^ 16 := by
    rw [hmax, fst_enlarge, length_blank, h.most]
    by_cases hzero : k = 0
    · rw [if_pos hzero, if_pos hsize]
    · rw [if_neg hzero, if_neg (by omega)]
  refine ⟨w', hstep, by omega, hmost.trans (if_neg (Nat.succ_ne_zero k)).symm, fun _ => ?_, ?_⟩
  · by_cases hzero : k = 0
    · rw [hturn, hzero] at hb
      exact ⟨b, hb, hbsize.trans hmost⟩
    · rw [hother 0 (by omega)]
      exact h.first (Nat.pos_of_ne_zero hzero)
  · intro i hi
    rw [hother i (by omega)]
    exact h.free i (by omega)

theorem run_replicate {size k : ℕ} (hsize : 0 < size) (hk : (k : ℤ) < n) (hten : k ≤ 10) :
    ∃ w, run n (List.replicate k (blank size)) = some w ∧ Filling size k w := by
  induction k with
  | zero => exact ⟨start, rfl, rfl, rfl, fun h => absurd h (Nat.lt_irrefl 0), fun _ _ => rfl⟩
  | succ k ih =>
      obtain ⟨w, hrun, hw⟩ := ih (by omega) (by omega)
      obtain ⟨w', hstep, hw'⟩ := hw.iterate (n := n) hsize (by omega) (by omega)
      refine ⟨w', ?_, hw'⟩
      rw [List.replicate_succ', run_snoc, hrun]
      exact hstep

/-- One larger picture in the last block raises `max_frame_size`; then a picture that fits neither the
first block nor raises it again is written beyond the first block. -/
theorem run_overflow {size large : ℕ} (hsize : 0 < size) (hlarge : size + 2 ^ 16 < large)
    (hone : 1 < n) (hn : n ≤ 10) :
    run n (List.replicate (n.toNat - 1) (blank size) ++ [blank large] ++
      [blank (size + 2 ^ 16 + 1)]) = none := by
  obtain ⟨w, hrun, hw⟩ := run_replicate hsize (show ((n.toNat - 1 : ℕ) : ℤ) < n by omega) (by omega)
  rw [run_snoc, run_snoc, hrun, Option.bind_some]
  cases hstep : iterate n w (blank large) with
  | none => rfl
  | some w' =>
      rw [Option.bind_some]
      have hturn := hw.turn
      have hmost : w.maxFrameSize = size + 2 ^ 16 := hw.most.trans (if_neg (by omega))
      obtain ⟨b, hb, hbsize⟩ := hw.first (by omega)
      obtain ⟨-, -, frame, hcopy, rfl⟩ := iterate_cases hstep
      rw [length_blank, fst_enlarge_of_gt (by omega)] at *
      have hpos : ((w.store (large + 2 ^ 16) frame (blank large)).transmit n).zmqBufferPos = 0 := by
        rw [zmqBufferPos_transmit, zmqBufferPos_store]
        exact if_pos (by omega)
      have hfirst : ((w.store (large + 2 ^ 16) frame (blank large)).transmit n).frames 0 = some b := by
        rw [frames_transmit, frames_store_of_ne (by omega)]
        exact hb
      -- the size of the first block no longer is what `max_frame_size` says
      rw [iterate, hpos, hfirst]
      split
      · have hle : (blank (size + 2 ^ 16 + 1)).buf.length ≤
            ((w.store (large + 2 ^ 16) frame (blank large)).transmit n).maxFrameSize := by
          rw [length_blank, maxFrameSize_transmit]
          change size + 2 ^ 16 + 1 ≤ large + 2 ^ 16
          omega
        have hover : b.copy (blank (size + 2 ^ 16 + 1)).buf = none := by
          rw [Block.copy_eq_none_iff, length_blank, hbsize]
          exact Nat.lt_succ_self _
        rw [Option.map_eq_none_iff, enlarge_some_of_le hle]
        exact hover
      · rfl

/-- There are blocks for ten pictures only. -/
theorem run_tooMany {size : ℕ} (hsize : 0 < size) (hn : 10 < n) :
    run n (List.replicate 10 (blank size) ++ [blank size]) = none := by
  obtain ⟨w, hrun, hw⟩ := run_replicate hsize (show ((10 : ℕ) : ℤ) < n by omega) (Nat.le_refl 10)
  rw [run_snoc, hrun, Option.bind_some, iterate, hw.turn]
  exact if_neg fun h => absurd h.1 (Nat.lt_irrefl 10)

/-- With no batch size there is no block for the first picture. -/
theorem run_noBlock {size : ℕ} (hn : n ≤ 0) : run n [blank size] = none := by
  have hno : iterate n start (blank size) = none :=
    if_neg fun h => absurd h.2 (by change ¬ ((0 : ℕ) : ℤ) < n; omega)
  rw [← List.nil_append [blank size], run_snoc]
  exact hno

/-- **The copies stay in the blocks**, whatever the pictures of these sizes are, exactly if there is
one block, or there are at most `MAX_ZMQ_BUFFER_SIZE` and no picture can be more than 64 KiB larger
than another. -/
theorem copies_in_bounds_iff {least bound : ℕ} (hleast : 0 < least) (hle : least ≤ bound)
    (zmqBufferSize : ℤ) :
    (∀ pictures : List Picture,
        (∀ p ∈ pictures, least ≤ p.buf.length ∧ p.buf.length ≤ bound) →
        run zmqBufferSize pictures ≠ none) ↔
      zmqBufferSize = 1 ∨ 1 ≤ zmqBufferSize ∧ zmqBufferSize ≤ 10 ∧ bound ≤ least + 2 ^ 16 := by
  have hblank : ∀ size, least ≤ size → size ≤ bound →
      ∀ p ∈ [blank size], least ≤ p.buf.length ∧ p.buf.length ≤ bound := by
    intro size hlo hhi p hp
    rw [List.mem_singleton.mp hp, length_blank]
    exact ⟨hlo, hhi⟩
  have hreplicate : ∀ k, ∀ p ∈ List.replicate k (blank least),
      least ≤ p.buf.length ∧ p.buf.length ≤ bound := by
    intro k p hp
    rw [List.eq_of_mem_replicate hp, length_blank]
    exact ⟨Nat.le_refl least, hle⟩
  have hboth {ps qs : List Picture}
      (hp : ∀ p ∈ ps, least ≤ p.buf.length ∧ p.buf.length ≤ bound)
      (hq : ∀ p ∈ qs, least ≤ p.buf.length ∧ p.buf.length ≤ bound) :
      ∀ p ∈ ps ++ qs, least ≤ p.buf.length ∧ p.buf.length ≤ bound := by
    intro p hmem
    exact (List.mem_append.mp hmem).elim (hp p) (hq p)
  constructor
  · intro h
    by_cases hpos : zmqBufferSize ≤ 0
    · exact absurd (run_noBlock hpos) (h _ (hblank least (Nat.le_refl _) hle))
    by_cases hten : 10 < zmqBufferSize
    · exact absurd (run_tooMany hleast hten)
        (h _ (hboth (hreplicate 10) (hblank least (Nat.le_refl _) hle)))
    by_cases hone : zmqBufferSize = 1
    · exact Or.inl hone
    refine Or.inr ⟨by omega, by omega, ?_⟩
    by_contra hlarge
    have hover := run_overflow hleast (show least + 2 ^ 16 < bound by omega)
      (show 1 < zmqBufferSize by omega) (by omega)
    refine h _ (hboth (hboth (hreplicate _) (hblank bound hle (Nat.le_refl _))) ?_) hover
    exact hblank _ (by omega) (by omega)
  · intro hcase pictures hsizes hnone
    have hroom : 0 < zmqBufferSize ∧ zmqBufferSize ≤ 10 ∧
        (zmqBufferSize = 1 ∨ bound ≤ least + 2 ^ 16) := by
      rcases hcase with hone | ⟨hlo, hhi, hbound⟩
      · exact ⟨by omega, by omega, Or.inl hone⟩
      · exact ⟨by omega, hhi, Or.inr hbound⟩
    obtain ⟨hpos, hten, hroom⟩ := hroom
    obtain ⟨w, hrun, -⟩ := run_of_level hpos hten hroom hleast hsizes
    rw [hrun] at hnone
    cases hnone

/-- With three blocks, pictures of up to 60000 bytes stay in them, and some of up to 70000 bytes do
not. -/
theorem copies_in_bounds_iff_default :
    (∀ pictures : List Picture, (∀ p ∈ pictures, 1 ≤ p.buf.length ∧ p.buf.length ≤ 60000) →
        run 3 pictures ≠ none) ∧
      ¬ ∀ pictures : List Picture, (∀ p ∈ pictures, 1 ≤ p.buf.length ∧ p.buf.length ≤ 70000) →
        run 3 pictures ≠ none := by
  constructor
  · exact (copies_in_bounds_iff (by decide) (by decide) 3).mpr (by decide)
  · rw [copies_in_bounds_iff (by decide) (by decide)]
    decide

end ZmqServer
