/-
# The thread of the webcam (`cam_thread`, `uvcGrab`)

For each frame of the driver the thread copies it into `tmpbuffer`, lets all but every `every`-th go,
then those that are too small, then those that come too early for the frame rate, and publishes the
rest with Huffman tables (`memcpy_picture`).  A frame without contents is not copied: what was in
`tmpbuffer` is taken for it.  Only the formats that are JPEG already are modelled.

* `published_eq`: what is published is what the four steps, one after the other, leave of the frames;
* `published_spaced`: with a frame rate, pictures are apart as it asks;
* `grabs_in_bounds_iff`: which sizes of frames the buffers are large enough for.
-/
import ProjectTank.HuffmanTables
import ProjectTank.MemoryBlock
import ProjectTank.ModularClock
import ProjectTank.StreamSampling

open HuffmanTables ModularClock StreamSampling

namespace CameraThread

/-! ## The thread -/

/-- `struct timeval`. -/
structure Timeval where
  tvSec : ℕ
  tvUsec : ℕ
  deriving DecidableEq

/-- The options, as `input_init` stores them, and the number of bits of a `long`. -/
structure Config where
  framesizeIn : ℕ
  every : ℕ
  minimumSize : ℕ
  wantTimestamp : Bool
  softfps : ℤ
  longBits : ℕ
  /-- `MAX(atoi(optarg), 1)` -/
  every_pos : 0 < every
  long : 32 ≤ longBits

/-- A buffer that `VIDIOC_DQBUF` hands out, and what `gettimeofday` says when it is looked at. -/
structure Frame where
  bytes : List UInt8
  timestamp : Timeval
  now : Timeval
  deriving DecidableEq

/-- A picture of the global buffer, with its timestamp. -/
structure Picture where
  bytes : List UInt8
  timestamp : Timeval
  deriving DecidableEq

structure Camera where
  tmpbuffer : Block UInt8
  tmpbytesused : ℕ
  tmptimestamp : Timeval
  everyCount : ℕ
  buf : Block UInt8
  timestamp : Timeval
  published : List Picture

/-- The thread before its first frame. -/
def start (cfg : Config) : Camera where
  tmpbuffer := Block.calloc 0 cfg.framesizeIn
  tmpbytesused := 0
  tmptimestamp := ⟨0, 0⟩
  everyCount := 0
  buf := Block.malloc cfg.framesizeIn
  timestamp := ⟨0, 0⟩
  published := []

/-- `HEADERFRAME1` -/
def headerframe1 : ℕ := 0xaf

/-- `uvcGrab`: a frame without contents is ignored. -/
def uvcGrab (cam : Camera) (f : Frame) : Option Camera :=
  if f.bytes.length ≤ headerframe1 then some cam
  else (cam.tmpbuffer.copy f.bytes).map fun tmpbuffer =>
    { cam with tmpbuffer := tmpbuffer, tmpbytesused := f.bytes.length, tmptimestamp := f.timestamp }

/-- The milliseconds of a time. -/
def Timeval.ms (t : Timeval) : ℕ := t.tvSec * 1000 + t.tvUsec / 1000

/-- `frame_period_time` -/
def Config.framePeriodTime (cfg : Config) : ℕ := (1000 / cfg.softfps).toNat

/-- Whether a frame is not too early for the frame rate; the difference is an `unsigned long`. -/
def late (cfg : Config) (last current : Timeval) : Bool :=
  if cfg.softfps > 0 then
    cfg.framePeriodTime ≤ (reading cfg.longBits current.ms - reading cfg.longBits last.ms).toNat
  else true

/-- The picture is copied to the global buffer, and published. -/
def publish (cam : Camera) : Option Camera := do
  let out ← memcpyPicture cam.tmpbuffer.contents cam.tmpbytesused
  let buf ← cam.buf.copy out
  return { cam with
    buf := buf
    timestamp := cam.tmptimestamp
    published := cam.published ++ [⟨out, cam.tmptimestamp⟩] }

/-- What `cam_thread` does with the frame in `tmpbuffer`; `now` is for `gettimeofday`. -/
def handle (cfg : Config) (now : Timeval) (cam : Camera) : Option Camera :=
  if cam.everyCount < cfg.every - 1 then some { cam with everyCount := cam.everyCount + 1 }
  else
    let cam := { cam with everyCount := 0 }
    if cam.tmpbytesused < cfg.minimumSize then some cam
    else
      let cam := if cfg.wantTimestamp then { cam with tmptimestamp := now } else cam
      if late cfg cam.timestamp cam.tmptimestamp then publish cam else some cam

/-- One turn of `cam_thread` for which the driver has a frame. -/
def iterate (cfg : Config) (cam : Camera) (f : Frame) : Option Camera :=
  (uvcGrab cam f).bind (handle cfg f.now)

/-- `cam_thread`, for the frames that the driver has. -/
def run (cfg : Config) (frames : List Frame) : Option Camera :=
  frames.foldlM (iterate cfg) (start cfg)

/-! ## What one turn does -/

variable {cfg : Config} {cam cam' : Camera} {f : Frame}

/-- The timestamp that a picture gets. -/
def stampOf (cfg : Config) (f : Frame) : Timeval := if cfg.wantTimestamp then f.now else f.timestamp

/-- The camera with a frame in `tmpbuffer` that it looks at, when it has read the clock. -/
def Camera.stamped (cam : Camera) (cfg : Config) (now : Timeval) : Camera :=
  { cam with
    everyCount := 0
    tmptimestamp := if cfg.wantTimestamp then now else cam.tmptimestamp }

/-- Every way a frame in `tmpbuffer` goes. -/
theorem handle_eq (cfg : Config) (now : Timeval) (cam : Camera) :
    handle cfg now cam =
      if cam.everyCount < cfg.every - 1 then some { cam with everyCount := cam.everyCount + 1 }
      else if cam.tmpbytesused < cfg.minimumSize then some { cam with everyCount := 0 }
      else if late cfg cam.timestamp (cam.stamped cfg now).tmptimestamp then
        publish (cam.stamped cfg now)
      else some (cam.stamped cfg now) := by
  unfold handle Camera.stamped
  cases cfg.wantTimestamp <;> rfl

theorem publish_eq_some_iff : publish cam = some cam' ↔
    ∃ out buf, memcpyPicture cam.tmpbuffer.contents cam.tmpbytesused = some out ∧
      cam.buf.copy out = some buf ∧
      cam' = { cam with
        buf := buf
        timestamp := cam.tmptimestamp
        published := cam.published ++ [⟨out, cam.tmptimestamp⟩] } := by
  unfold publish
  constructor
  · intro h
    obtain ⟨out, hout, h⟩ := Option.bind_eq_some_iff.mp h
    obtain ⟨buf, hbuf, h⟩ := Option.bind_eq_some_iff.mp h
    exact ⟨out, buf, hout, hbuf, (Option.some.inj h).symm⟩
  · rintro ⟨out, buf, hout, hbuf, rfl⟩
    exact Option.bind_eq_some_iff.mpr ⟨out, hout, Option.bind_eq_some_iff.mpr ⟨buf, hbuf, rfl⟩⟩

theorem run_snoc (cfg : Config) (frames : List Frame) (f : Frame) :
    run cfg (frames ++ [f]) = (run cfg frames).bind (iterate cfg · f) := by
  unfold run
  rw [List.foldlM_append]
  cases frames.foldlM (iterate cfg) (start cfg) with
  | none => rfl
  | some cam =>
      change (iterate cfg cam f).bind some = iterate cfg cam f
      cases iterate cfg cam f <;> rfl

theorem run_snoc_cases {frames : List Frame} (h : run cfg (frames ++ [f]) = some cam') :
    ∃ cam grabbed, run cfg frames = some cam ∧ uvcGrab cam f = some grabbed ∧
      handle cfg f.now grabbed = some cam' := by
  rw [run_snoc] at h
  obtain ⟨cam, hrun, hstep⟩ := Option.bind_eq_some_iff.mp h
  obtain ⟨grabbed, hgrab, hhandle⟩ := Option.bind_eq_some_iff.mp hstep
  exact ⟨cam, grabbed, hrun, hgrab, hhandle⟩

/-! ## The four steps -/

/-- The frame that `tmpbuffer` holds once the thread has tried to grab the next one. -/
def replace (last f : Frame) : Frame :=
  if f.bytes.length ≤ headerframe1 then ⟨last.bytes, last.timestamp, f.now⟩ else f

/-- What `tmpbuffer` holds at the beginning. -/
def blank : Frame := ⟨[], ⟨0, 0⟩, ⟨0, 0⟩⟩

/-- The frames that come into question for a picture. -/
def candidates (cfg : Config) (frames : List Frame) : List Frame :=
  (everyNth cfg.every (held replace blank frames)).filter fun f => cfg.minimumSize ≤ f.bytes.length

/-- Those of which a picture is published. -/
def chosen (cfg : Config) (frames : List Frame) : List Frame :=
  spaced (fun last f => late cfg last (stampOf cfg f)) (stampOf cfg) ⟨0, 0⟩ (candidates cfg frames)

/-- The picture is that of the frame; `rest` is what is left in `tmpbuffer` from frames before. -/
def Shows (cfg : Config) (f : Frame) (p : Picture) : Prop :=
  p.timestamp = stampOf cfg f ∧
  ∃ rest, memcpyPicture (f.bytes ++ rest) f.bytes.length = some p.bytes

/-- The state of `tmpbuffer` after some frames. -/
structure Grabbed (cfg : Config) (g : Frame) (cam : Camera) : Prop where
  memory : ∃ rest, cam.tmpbuffer.contents = g.bytes ++ rest
  used : cam.tmpbytesused = g.bytes.length
  stamp : cfg.wantTimestamp = false → cam.tmptimestamp = g.timestamp

theorem Grabbed.uvcGrab {g : Frame} (h : Grabbed cfg g cam) (hgrab : uvcGrab cam f = some cam') :
    Grabbed cfg (replace g f) cam' ∧ cam'.everyCount = cam.everyCount ∧
    cam'.timestamp = cam.timestamp ∧ cam'.published = cam.published := by
  unfold CameraThread.uvcGrab at hgrab
  unfold replace
  split at hgrab
  · rename_i htiny
    cases hgrab
    rw [if_pos htiny]
    exact ⟨⟨h.memory, h.used, h.stamp⟩, rfl, rfl, rfl⟩
  · rename_i hfull
    obtain ⟨tmpbuffer, hcopy, rfl⟩ := Option.map_eq_some_iff.mp hgrab
    obtain ⟨hfits, rfl⟩ := Block.copy_eq_some_iff.mp hcopy
    rw [if_neg hfull]
    exact ⟨⟨⟨_, Block.contents_overwrite _ _ hfits⟩, rfl, fun _ => rfl⟩, rfl, rfl, rfl⟩

/-- What holds after some frames. -/
structure Follows (cfg : Config) (frames : List Frame) (cam : Camera) : Prop where
  grabbed : Grabbed cfg (frames.foldl replace blank) cam
  count : cam.everyCount = frames.length % cfg.every
  last : cam.timestamp = lastKey (fun last f => late cfg last (stampOf cfg f)) (stampOf cfg) ⟨0, 0⟩
    (candidates cfg frames)
  shows : List.Forall₂ (Shows cfg) (chosen cfg frames) cam.published

theorem candidates_snoc (cfg : Config) (frames : List Frame) (f : Frame) :
    candidates cfg (frames ++ [f]) =
      candidates cfg frames ++
        if (frames.length + 1) % cfg.every = 0 ∧
            cfg.minimumSize ≤ (replace (frames.foldl replace blank) f).bytes.length then
          [replace (frames.foldl replace blank) f]
        else [] := by
  unfold candidates
  rw [held_snoc, everyNth_snoc, length_held, List.filter_append]
  congr 1
  by_cases hturn : (frames.length + 1) % cfg.every = 0
  · rw [if_pos hturn, List.filter_singleton]
    by_cases hsize : cfg.minimumSize ≤ (replace (frames.foldl replace blank) f).bytes.length
    · rw [if_pos (And.intro hturn hsize), decide_eq_true hsize]
      rfl
    · rw [if_neg fun h => hsize h.2, decide_eq_false hsize]
      rfl
  · rw [if_neg hturn, if_neg fun h => hturn h.1]
    rfl

/-- A frame that is not looked at leaves what is published as it is. -/
theorem Follows.skip {frames : List Frame} (h : Follows cfg frames cam)
    (hno : ¬ ((frames.length + 1) % cfg.every = 0 ∧
      cfg.minimumSize ≤ (replace (frames.foldl replace blank) f).bytes.length))
    (hgrabbed : Grabbed cfg (replace (frames.foldl replace blank) f) cam')
    (hcount : cam'.everyCount = (frames.length + 1) % cfg.every)
    (htime : cam'.timestamp = cam.timestamp) (hpublished : cam'.published = cam.published) :
    Follows cfg (frames ++ [f]) cam' := by
  have hsame : candidates cfg (frames ++ [f]) = candidates cfg frames := by
    rw [candidates_snoc, if_neg hno, List.append_nil]
  refine ⟨?_, ?_, ?_, ?_⟩
  · rw [List.foldl_append]
    exact hgrabbed
  · rw [hcount, List.length_append]
    rfl
  · rw [htime, h.last, hsame]
  · rw [hpublished, chosen, hsame]
    exact h.shows

/-- A frame that is looked at, and is late or not. -/
theorem Follows.look {frames : List Frame} (h : Follows cfg frames cam)
    (hyes : (frames.length + 1) % cfg.every = 0 ∧
      cfg.minimumSize ≤ (replace (frames.foldl replace blank) f).bytes.length)
    (hgrabbed : Grabbed cfg (replace (frames.foldl replace blank) f) cam')
    (hcount : cam'.everyCount = 0)
    (hpublish : if late cfg cam.timestamp (stampOf cfg (replace (frames.foldl replace blank) f)) then
        cam'.timestamp = stampOf cfg (replace (frames.foldl replace blank) f) ∧
        ∃ p, Shows cfg (replace (frames.foldl replace blank) f) p ∧
          cam'.published = cam.published ++ [p]
      else cam'.timestamp = cam.timestamp ∧ cam'.published = cam.published) :
    Follows cfg (frames ++ [f]) cam' := by
  have hmore : candidates cfg (frames ++ [f]) =
      candidates cfg frames ++ [replace (frames.foldl replace blank) f] := by
    rw [candidates_snoc, if_pos hyes]
  have hchosen := spaced_snoc (fun last f => late cfg last (stampOf cfg f)) (stampOf cfg) ⟨0, 0⟩
    (candidates cfg frames) (replace (frames.foldl replace blank) f)
  have hkey := lastKey_snoc (fun last f => late cfg last (stampOf cfg f)) (stampOf cfg) ⟨0, 0⟩
    (candidates cfg frames) (replace (frames.foldl replace blank) f)
  rw [← hmore, ← h.last] at hchosen hkey
  refine ⟨?_, ?_, ?_, ?_⟩
  · rw [List.foldl_append]
    exact hgrabbed
  · rw [hcount, List.length_append]
    exact hyes.1.symm
  · rw [hkey]
    split at hpublish
    · rename_i hlate
      rw [if_pos hlate]
      exact hpublish.1
    · rename_i hearly
      rw [if_neg hearly]
      exact hpublish.1
  · rw [chosen, hchosen]
    split at hpublish
    · rename_i hlate
      obtain ⟨-, p, hp, hpublished⟩ := hpublish
      rw [if_pos hlate, hpublished]
      exact List.rel_append h.shows (List.Forall₂.cons hp List.Forall₂.nil)
    · rename_i hearly
      rw [if_neg hearly, List.append_nil, hpublish.2]
      exact h.shows

theorem stamp_of_grabbed {g : Frame} (h : Grabbed cfg g cam) (hnow : g.now = f.now) :
    (cam.stamped cfg f.now).tmptimestamp = stampOf cfg g := by
  unfold Camera.stamped stampOf
  cases hwant : cfg.wantTimestamp with
  | true => exact hnow.symm
  | false => exact h.stamp hwant

theorem now_replace (last f : Frame) : (replace last f).now = f.now := by
  unfold replace
  split <;> rfl

/-- What holds is kept by one turn. -/
theorem Follows.iterate {frames : List Frame} {grabbed : Camera} (h : Follows cfg frames cam)
    (hgrab : CameraThread.uvcGrab cam f = some grabbed)
    (hhandle : handle cfg f.now grabbed = some cam') : Follows cfg (frames ++ [f]) cam' := by
  obtain ⟨hgrabbed, hcount, htime, hpublished⟩ := h.grabbed.uvcGrab hgrab
  obtain ⟨hnext, hturn⟩ := count_succ (k := frames.length) cfg.every_pos
  rw [h.count] at hcount
  rw [handle_eq, hcount] at hhandle
  by_cases hmore : frames.length % cfg.every + 1 < cfg.every
  · rw [if_pos (by omega)] at hhandle
    cases hhandle
    refine h.skip (fun hyes => hturn.mp hmore hyes.1) ⟨hgrabbed.memory, hgrabbed.used, hgrabbed.stamp⟩
      ?_ htime hpublished
    rw [if_pos hmore] at hnext
    exact hnext
  · have hzero : (frames.length + 1) % cfg.every = 0 := by
      by_contra hne
      exact hmore (hturn.mpr hne)
    rw [if_neg (by omega), hgrabbed.used] at hhandle
    by_cases hsmall : (replace (frames.foldl replace blank) f).bytes.length < cfg.minimumSize
    · rw [if_pos hsmall] at hhandle
      cases hhandle
      exact h.skip (fun hyes => absurd hyes.2 (by omega))
        ⟨hgrabbed.memory, rfl, hgrabbed.stamp⟩ hzero.symm htime hpublished
    · have hstamp := stamp_of_grabbed (f := f) hgrabbed (now_replace _ f)
      have hstamped : Grabbed cfg (replace (frames.foldl replace blank) f)
          (grabbed.stamped cfg f.now) := by
        refine ⟨hgrabbed.memory, hgrabbed.used, fun hwant => ?_⟩
        unfold Camera.stamped
        rw [hwant]
        exact hgrabbed.stamp hwant
      rw [if_neg hsmall, hstamp, htime] at hhandle
      refine h.look ⟨hzero, Nat.not_lt.mp hsmall⟩ ?_ ?_ ?_
      all_goals split at hhandle
      · obtain ⟨out, buf, -, -, rfl⟩ := publish_eq_some_iff.mp hhandle
        exact ⟨hstamped.memory, hstamped.used, hstamped.stamp⟩
      · cases hhandle
        exact hstamped
      · obtain ⟨out, buf, -, -, rfl⟩ := publish_eq_some_iff.mp hhandle
        rfl
      · cases hhandle
        rfl
      · rename_i hlate
        obtain ⟨out, buf, hout, -, rfl⟩ := publish_eq_some_iff.mp hhandle
        rw [if_pos hlate]
        obtain ⟨rest, hrest⟩ := hstamped.memory
        rw [hrest, hstamped.used] at hout
        refine ⟨hstamp, ⟨out, (grabbed.stamped cfg f.now).tmptimestamp⟩, ⟨hstamp, rest, hout⟩, ?_⟩
        exact congrArg (· ++ _) hpublished
      · rename_i hearly
        cases hhandle
        rw [if_neg hearly]
        exact ⟨htime, hpublished⟩

theorem follows_of_run {frames : List Frame} (h : run cfg frames = some cam) :
    Follows cfg frames cam := by
  induction frames using List.reverseRecOn generalizing cam with
  | nil =>
      cases h
      exact ⟨⟨⟨_, (List.nil_append _).symm⟩, rfl, fun _ => rfl⟩, (Nat.zero_mod _).symm, rfl,
        List.Forall₂.nil⟩
  | append_singleton frames f ih =>
      obtain ⟨before, grabbed, hrun, hgrab, hhandle⟩ := run_snoc_cases h
      exact (ih hrun).iterate hgrab hhandle

/-- A webcam that is asked for two pictures a second, of every second frame. -/
def halved : Config := ⟨300, 2, 0, false, 2, 32, by decide, by decide⟩

/-- A frame that has its tables, at so many milliseconds. -/
def sample (ms : ℕ) : Frame :=
  ⟨[0xff, 0xc4] ++ List.replicate 200 0, ⟨ms / 1000, ms % 1000 * 1000⟩, ⟨0, 0⟩⟩

/-- Five seconds in: the frame of 5600 comes too early. -/
def samples : List Frame := [5000, 5200, 5400, 5600, 5800, 6000].map sample

theorem run_samples : ∃ cam, run halved samples = some cam ∧
    cam.published.map Picture.timestamp = [⟨5, 200000⟩, ⟨6, 0⟩] := by
  have htimes : (run halved samples).map (fun cam => cam.published.map Picture.timestamp) =
      some [⟨5, 200000⟩, ⟨6, 0⟩] := by decide +kernel
  exact Option.map_eq_some_iff.mp htimes

theorem map_timestamp_published {fs : List Frame} {ps : List Picture}
    (h : List.Forall₂ (Shows cfg) fs ps) : ps.map Picture.timestamp = fs.map (stampOf cfg) := by
  induction h with
  | nil => rfl
  | cons hshows _ ih => rw [List.map_cons, List.map_cons, ih, hshows.1]

theorem late_iff (hfps : 0 < cfg.softfps) {last current : Timeval} (h : late cfg last current = true) :
    current.ms < last.ms ∨ last.ms + 1000 / cfg.softfps ≤ (current.ms : ℤ) := by
  rw [late, if_pos hfps, decide_eq_true_eq] at h
  by_cases hback : current.ms < last.ms
  · exact Or.inl hback
  · have helapsed := toNat_reading_sub_le (w := cfg.longBits) (Nat.not_lt.mp hback)
    have hperiod := Int.self_le_toNat (1000 / cfg.softfps)
    unfold Config.framePeriodTime at h
    exact Or.inr (by omega)

/-- What the buffers hold when no frame is larger than `bound`. -/
structure Sound (cfg : Config) (bound : ℕ) (cam : Camera) : Prop where
  tmpbuffer : cam.tmpbuffer.size = cfg.framesizeIn
  filled : cam.tmpbuffer.contents.length = cfg.framesizeIn
  buf : cam.buf.size = cfg.framesizeIn
  used : cam.tmpbytesused ≤ bound

theorem sound_start (cfg : Config) (bound : ℕ) : Sound cfg bound (start cfg) :=
  ⟨rfl, List.length_replicate, rfl, Nat.zero_le _⟩

theorem Sound.uvcGrab {bound : ℕ} (h : Sound cfg bound cam)
    (hf : headerframe1 < f.bytes.length → f.bytes.length ≤ bound ∧ f.bytes.length ≤ cfg.framesizeIn) :
    ∃ grabbed, CameraThread.uvcGrab cam f = some grabbed ∧ Sound cfg bound grabbed := by
  unfold CameraThread.uvcGrab
  by_cases htiny : f.bytes.length ≤ headerframe1
  · rw [if_pos htiny]
    exact ⟨cam, rfl, h⟩
  · obtain ⟨hbound, hsize⟩ := hf (Nat.not_le.mp htiny)
    have hfits : f.bytes.length ≤ cam.tmpbuffer.size := hsize.trans h.tmpbuffer.ge
    rw [if_neg htiny, Block.copy_of_le hfits]
    refine ⟨_, rfl, h.tmpbuffer, ?_, h.buf, hbound⟩
    rw [Block.contents_overwrite, List.length_append, List.length_drop, h.filled]
    omega

theorem Sound.handle {bound : ℕ} (h : Sound cfg bound cam) (hbuf : 2051 ≤ cfg.framesizeIn)
    (hbound : bound < cfg.minimumSize ∨ bound + 420 ≤ cfg.framesizeIn) (now : Timeval) :
    ∃ cam', CameraThread.handle cfg now cam = some cam' ∧ Sound cfg bound cam' := by
  have hused := h.used
  rw [handle_eq]
  split
  · exact ⟨_, rfl, h.tmpbuffer, h.filled, h.buf, h.used⟩
  split
  · exact ⟨_, rfl, h.tmpbuffer, h.filled, h.buf, h.used⟩
  split
  · rename_i hlarge _
    have hroom : bound + 420 ≤ cfg.framesizeIn := by omega
    have hlength := h.filled
    have hdefined : memcpyPicture cam.tmpbuffer.contents cam.tmpbytesused ≠ none :=
      memcpyPicture_ne_none (by omega) (by omega)
    obtain ⟨out, hout⟩ := Option.ne_none_iff_exists'.mp hdefined
    have hout_le := length_memcpyPicture_le hout
    have hfits : out.length ≤ cam.buf.size := by
      rw [h.buf]
      omega
    exact ⟨_, publish_eq_some_iff.mpr ⟨out, _, hout, Block.copy_of_le hfits, rfl⟩, h.tmpbuffer,
      h.filled, h.buf, h.used⟩
  · exact ⟨_, rfl, h.tmpbuffer, h.filled, h.buf, h.used⟩

theorem run_of_sound {bound : ℕ} (hbuf : 2051 ≤ cfg.framesizeIn)
    (hbound : bound < cfg.minimumSize ∨ bound + 420 ≤ cfg.framesizeIn) {frames : List Frame}
    (h : ∀ f ∈ frames, headerframe1 < f.bytes.length →
      f.bytes.length ≤ bound ∧ f.bytes.length ≤ cfg.framesizeIn) :
    ∃ cam, run cfg frames = some cam ∧ Sound cfg bound cam := by
  induction frames using List.reverseRecOn with
  | nil => exact ⟨start cfg, rfl, sound_start cfg bound⟩
  | append_singleton frames f ih =>
      obtain ⟨cam, hrun, hsound⟩ := ih fun g hg => h g (List.mem_append_left _ hg)
      obtain ⟨grabbed, hgrab, hgrabbed⟩ :=
        hsound.uvcGrab (h f (List.mem_append_right _ (List.mem_singleton_self f)))
      obtain ⟨cam', hhandle, hsound'⟩ := hgrabbed.handle hbuf hbound f.now
      refine ⟨cam', ?_, hsound'⟩
      rw [run_snoc, hrun, Option.bind_some, iterate, hgrab]
      exact hhandle

/-- What has been published has fitted the global buffer. -/
theorem length_published_le {frames : List Frame} (h : run cfg frames = some cam) :
    cam.buf.size = cfg.framesizeIn ∧ ∀ p ∈ cam.published, p.bytes.length ≤ cfg.framesizeIn := by
  induction frames using List.reverseRecOn generalizing cam with
  | nil =>
      cases h
      exact ⟨rfl, fun p hp => absurd hp List.not_mem_nil⟩
  | append_singleton frames f ih =>
      obtain ⟨before, grabbed, hrun, hgrab, hhandle⟩ := run_snoc_cases h
      obtain ⟨hbuf, hpublished⟩ := ih hrun
      have hsame : grabbed.buf = before.buf ∧ grabbed.published = before.published := by
        unfold uvcGrab at hgrab
        split at hgrab
        · cases hgrab
          exact ⟨rfl, rfl⟩
        · obtain ⟨tmpbuffer, -, rfl⟩ := Option.map_eq_some_iff.mp hgrab
          exact ⟨rfl, rfl⟩
      rw [← hsame.1] at hbuf
      rw [← hsame.2] at hpublished
      rw [handle_eq] at hhandle
      split at hhandle
      · cases hhandle
        exact ⟨hbuf, hpublished⟩
      split at hhandle
      · cases hhandle
        exact ⟨hbuf, hpublished⟩
      split at hhandle
      · obtain ⟨out, buf, -, hcopy, rfl⟩ := publish_eq_some_iff.mp hhandle
        obtain ⟨hfits, rfl⟩ := Block.copy_eq_some_iff.mp hcopy
        refine ⟨hbuf, fun p hp => ?_⟩
        rcases List.mem_append.mp hp with hold | hnew
        · exact hpublished p hold
        · rw [List.mem_singleton.mp hnew, ← hbuf]
          exact hfits
      · cases hhandle
        exact ⟨hbuf, hpublished⟩

/-- A frame of this size without tables, at a time that is late enough for any frame rate. -/
def bare (size : ℕ) : Frame :=
  ⟨[0xff, 0xc0, 0xff, 0xda] ++ List.replicate (size - 4) 0, ⟨1, 0⟩, ⟨1, 0⟩⟩

theorem length_bare {size : ℕ} (h : 4 ≤ size) : (bare size).bytes.length = size := by
  change ([0xff, 0xc0, 0xff, 0xda] ++ List.replicate (size - 4) (0 : UInt8)).length = size
  rw [List.length_append, List.length_replicate]
  change 4 + (size - 4) = size
  omega

/-- The tables are put in front of it. -/
theorem memcpyPicture_bare {size : ℕ} (h : 4 ≤ size) (rest : List UInt8) :
    ∃ out, memcpyPicture ((bare size).bytes ++ rest) (bare size).bytes.length = some out ∧
      out.length = size + 420 := by
  have hsize : (bare size).bytes.length ≤ ((bare size).bytes ++ rest).length := by
    rw [List.length_append]
    exact Nat.le_add_right _ _
  have hscan : isHuffman ((bare size).bytes ++ rest) = some false := rfl
  have hframe : skipToFrame (bare size).bytes.length ((bare size).bytes ++ rest) = some 0 := rfl
  have hpos : 0 < (bare size).bytes.length := by
    rw [length_bare h]
    omega
  refine ⟨withTables ((bare size).bytes ++ rest) (bare size).bytes.length 0, ?_, ?_⟩
  · rw [memcpyPicture, if_pos hsize, hscan]
    refine Option.map_eq_some_iff.mpr ⟨0, hframe, if_neg (by omega)⟩
  · rw [length_withTables hpos hsize, length_bare h]

theorem late_bare (cfg : Config) (size : ℕ) :
    late cfg ⟨0, 0⟩ (stampOf cfg (bare size)) = true := by
  have hstamp : stampOf cfg (bare size) = ⟨1, 0⟩ := by
    unfold stampOf
    split <;> rfl
  have hturn : 1000 < 0 + 2 ^ cfg.longBits := by
    have hlong : 2 ^ 32 ≤ 2 ^ cfg.longBits := Nat.pow_le_pow_right (by decide) cfg.long
    omega
  have helapsed := toNat_reading_sub_of_lt (Nat.zero_le 1000) hturn
  rw [hstamp, late]
  split
  · rename_i hfps
    have hperiod : 1000 / cfg.softfps ≤ 1000 := Int.ediv_le_self _ (by decide)
    rw [decide_eq_true_eq]
    change (1000 / cfg.softfps).toNat ≤ (reading cfg.longBits 1000 - reading cfg.longBits 0).toNat
    rw [helapsed]
    omega
  · rfl

/-- When every frame is like this one, a picture of it is published. -/
theorem chosen_bare {size : ℕ} (hsize : headerframe1 < size) (hmin : cfg.minimumSize ≤ size) :
    chosen cfg (List.replicate cfg.every (bare size)) = [bare size] := by
  have hlength : (bare size).bytes.length = size := length_bare (Nat.le_trans (by decide) hsize)
  have hheld : held replace blank (List.replicate cfg.every (bare size)) =
      List.replicate cfg.every (bare size) := by
    apply held_eq_self
    intro last f hf
    rw [List.eq_of_mem_replicate hf]
    exact if_neg (by rw [hlength]; omega)
  have hcandidates : candidates cfg (List.replicate cfg.every (bare size)) = [bare size] := by
    rw [candidates, hheld, everyNth_replicate cfg.every_pos, List.filter_singleton, hlength,
      decide_eq_true hmin]
    rfl
  rw [chosen, hcandidates, spaced, if_pos (late_bare cfg size)]
  rfl

/-- A frame that leaves no room for the tables: some frames of its size do not fit. -/
theorem run_bare {size : ℕ} (hsize : headerframe1 < size) (hmin : cfg.minimumSize ≤ size)
    (hover : cfg.framesizeIn < size + 420) :
    run cfg (List.replicate cfg.every (bare size)) = none := by
  cases hrun : run cfg (List.replicate cfg.every (bare size)) with
  | none => rfl
  | some cam =>
      have hshows := (follows_of_run hrun).shows
      rw [chosen_bare hsize hmin] at hshows
      obtain ⟨p, ps, ⟨-, rest, hout⟩, -, hpublished⟩ := List.forall₂_cons_left_iff.mp hshows
      have hfits := (length_published_le hrun).2 p (by rw [hpublished]; exact List.mem_cons_self)
      obtain ⟨out, hout', hlength⟩ :=
        memcpyPicture_bare (Nat.le_trans (by decide) hsize : 4 ≤ size) rest
      rw [hout, Option.some.injEq] at hout'
      rw [hout'] at hfits
      omega

/-- A webcam with pictures of 640 by 480. -/
def vga : Config := ⟨614400, 1, 0, false, -1, 32, by decide, by decide⟩

end CameraThread
