/-
# Pictures saved on request (`worker_thread` of `output_udp.c` and `output_rtsp.c`)

The worker takes a message from its socket, waits for the next picture of the input plugin, copies it,
saves it under the name in the message, if there is one, and sends the message back.  The two plugins
have the same worker, but for a pause at its end.

Messages come and pictures are published at any time, also between any two steps of the worker; a wait
for the condition may end without a reason.

* `replies_in_order`: the messages are answered in the order in which they came, none twice and none
  left out, unless a message fills the buffer without a zero: at that one the worker reads beyond it;
* `saved_fresh`: a picture that is saved for a message was published after the message was taken.
-/
import ProjectTank.MemoryBlock
import ProjectTank.Transition
import Mathlib.Logic.Function.Basic
import Mathlib.Tactic.Ring

namespace UdpPictures

/-! ## The worker -/

/-- The length of `udpbuffer`. -/
def bufferSize : ℕ := 1024

/-- What `recvfrom` takes of a message. -/
def cut (message : List UInt8) : List UInt8 := message.take bufferSize

/-- `udpbuffer` with a message in it. -/
def udpbuffer (message : List UInt8) : List UInt8 :=
  message ++ List.replicate (bufferSize - message.length) 0

/-- The file name in a message. -/
def name (message : List UInt8) : List UInt8 := (udpbuffer message).takeWhile (· ≠ 0)

/-- Where the worker is: in `recvfrom`; with a message, when so many pictures had been published;
waiting for the condition; woken; with a picture of so many bytes in `frame`; gone, since the file
cannot be opened; gone, since there is no end of the name in `udpbuffer`, or no room in `frame`. -/
inductive Stage
  | receiving
  | received (message : List UInt8) (since : ℕ)
  | waiting (message : List UInt8) (since : ℕ)
  | woken (message : List UInt8) (since : ℕ)
  | copied (message : List UInt8) (since frameSize : ℕ)
  | failed (message : List UInt8)
  | overrun (message : List UInt8)

/-- The message that the worker has taken and not answered. -/
def Stage.inHand : Stage → List (List UInt8)
  | .receiving => []
  | .received m _ | .waiting m _ | .woken m _ | .copied m _ _ | .failed m | .overrun m => [m]

/-- A picture that has been saved: its name, how many pictures had been published when the message was
taken, and its bytes. -/
structure Save where
  name : List UInt8
  since : ℕ
  picture : List UInt8

/-- The socket, the pictures published so far, of which the last is in the global buffer, the worker
with its buffer, the files; and what has happened: the messages that came, the replies, the saves. -/
structure System where
  incoming : List (List UInt8) := []
  published : List (List UInt8) := []
  worker : Stage := .receiving
  maxFrameSize : ℕ := 0
  frame : Block UInt8 := Block.malloc 0
  files : List UInt8 → Option (List UInt8) := fun _ => none
  arrived : List (List UInt8) := []
  replies : List (List UInt8) := []
  saves : List Save := []

/-- A message comes, a picture is published, the worker takes its next step (`opens`: the file can be
opened), the wait ends without a reason. -/
inductive Event
  | arrive (message : List UInt8)
  | publish (picture : List UInt8)
  | worker (opens : Bool)
  | spurious

/-- `pthread_cond_broadcast` -/
def Stage.wake : Stage → Stage
  | .waiting m since => .woken m since
  | stage => stage

/-- The copy of the global buffer, in a block that is enlarged if it is too small. -/
def System.copy (x : System) (message : List UInt8) (since : ℕ) : System :=
  let picture := x.published.getLast?.getD []
  let frameSize := picture.length
  let maxFrameSize := if frameSize > x.maxFrameSize then frameSize + 2 ^ 16 else x.maxFrameSize
  let frame := if frameSize > x.maxFrameSize then x.frame.realloc maxFrameSize else x.frame
  match frame.copy picture with
  | some frame =>
      { x with
        maxFrameSize := maxFrameSize, frame := frame, worker := .copied message since frameSize }
  | none => { x with worker := .overrun message }

/-- The picture is saved, if the message has a name, and the message sent back. -/
def System.finish (x : System) (message : List UInt8) (since frameSize : ℕ) (opens : Bool) : System :=
  if 0 ∉ udpbuffer message then { x with worker := .overrun message }
  else if name message = [] then
    { x with worker := .receiving, replies := x.replies ++ [message] }
  else if opens then
    let picture := x.frame.contents.take frameSize
    { x with
      worker := .receiving
      files := Function.update x.files (name message) (some picture)
      replies := x.replies ++ [message]
      saves := x.saves ++ [⟨name message, since, picture⟩] }
  else { x with worker := .failed message }

/-- The next step of the worker. -/
def stepWorker (x : System) (opens : Bool) : Option System :=
  match x.worker with
  | .receiving =>
      match x.incoming with
      | [] => none
      | m :: rest =>
          some { x with incoming := rest, worker := .received (cut m) x.published.length }
  | .received m since => some { x with worker := .waiting m since }
  | .woken m since => some (x.copy m since)
  | .copied m since frameSize => some (x.finish m since frameSize opens)
  | .waiting _ _ | .failed _ | .overrun _ => none

def step (x : System) : Event → Option System
  | .arrive m => some { x with incoming := x.incoming ++ [m], arrived := x.arrived ++ [m] }
  | .publish p => some { x with published := x.published ++ [p], worker := x.worker.wake }
  | .worker opens => stepWorker x opens
  | .spurious =>
      match x.worker with
      | .waiting m since => some { x with worker := .woken m since }
      | _ => none

def machine : Machine System Event := ⟨{}, step⟩

/-! ## What the steps do -/

/-- The picture in the global buffer. -/
def System.picture (x : System) : List UInt8 := x.published.getLast?.getD []

/-- What the worker can do in a step, as long as its frame is as large as `max_frame_size` says: take a
message, begin to wait, copy the picture, read beyond `udpbuffer`, answer a message without a name, save
the picture and answer, give up. -/
inductive Change (x : System) : System → Prop
  | take (m : List UInt8) (rest : List (List UInt8)) (hw : x.worker = .receiving)
      (hin : x.incoming = m :: rest) :
      Change x { x with incoming := rest, worker := .received (cut m) x.published.length }
  | wait (m : List UInt8) (since : ℕ) (hw : x.worker = .received m since) :
      Change x { x with worker := .waiting m since }
  | copy (m : List UInt8) (since : ℕ) (frame : Block UInt8) (hw : x.worker = .woken m since)
      (hframe : frame.contents.take x.picture.length = x.picture) :
      Change x { x with
        maxFrameSize := frame.size, frame := frame, worker := .copied m since x.picture.length }
  | overrun (m : List UInt8) (since frameSize : ℕ) (hw : x.worker = .copied m since frameSize)
      (hend : 0 ∉ udpbuffer m) : Change x { x with worker := .overrun m }
  | unnamed (m : List UInt8) (since frameSize : ℕ) (hw : x.worker = .copied m since frameSize)
      (hend : 0 ∈ udpbuffer m) (hname : name m = []) :
      Change x { x with worker := .receiving, replies := x.replies ++ [m] }
  | save (m : List UInt8) (since frameSize : ℕ) (hw : x.worker = .copied m since frameSize)
      (hend : 0 ∈ udpbuffer m) (hname : name m ≠ []) :
      Change x { x with
        worker := .receiving
        files := Function.update x.files (name m) (some (x.frame.contents.take frameSize))
        replies := x.replies ++ [m]
        saves := x.saves ++ [⟨name m, since, x.frame.contents.take frameSize⟩] }
  | fail (m : List UInt8) (since frameSize : ℕ) (hw : x.worker = .copied m since frameSize) :
      Change x { x with worker := .failed m }

variable {x x' : System}

/-- The frame is enlarged when it has to be, whatever the picture is. -/
theorem change_copy {m : List UInt8} {since : ℕ} (hroom : x.frame.size = x.maxFrameSize)
    (hw : x.worker = .woken m since) : Change x (x.copy m since) := by
  unfold System.copy
  by_cases hgrow : x.picture.length > x.maxFrameSize
  · have hfits : x.picture.length ≤ (x.frame.realloc (x.picture.length + 2 ^ 16)).size :=
      Nat.le_add_right _ _
    have hcopy := Block.copy_of_le hfits
    have hchange := Change.copy m since _ hw (Block.take_contents_of_copy hcopy)
    unfold System.picture at *
    simp only [if_pos hgrow, hcopy]
    exact hchange
  · have hfits : x.picture.length ≤ x.frame.size := by omega
    have hcopy := Block.copy_of_le hfits
    have hchange := Change.copy m since _ hw (Block.take_contents_of_copy hcopy)
    rw [Block.size_overwrite, hroom] at hchange
    unfold System.picture at *
    simp only [if_neg hgrow, hcopy]
    exact hchange

theorem change_finish {m : List UInt8} {since frameSize : ℕ} (opens : Bool)
    (hw : x.worker = .copied m since frameSize) : Change x (x.finish m since frameSize opens) := by
  unfold System.finish
  by_cases hend : 0 ∉ udpbuffer m
  · rw [if_pos hend]
    exact .overrun m since frameSize hw hend
  · rw [if_neg hend]
    by_cases hname : name m = []
    · rw [if_pos hname]
      exact .unnamed m since frameSize hw (not_not.mp hend) hname
    · rw [if_neg hname]
      cases opens with
      | true => exact .save m since frameSize hw (not_not.mp hend) hname
      | false => exact .fail m since frameSize hw

theorem Change.of_eq_some {opens : Bool} (hroom : x.frame.size = x.maxFrameSize)
    (h : stepWorker x opens = some x') : Change x x' := by
  unfold stepWorker at h
  split at h
  · rename_i hw
    split at h
    · cases h
    · rename_i m rest hin
      cases h
      exact .take m rest hw hin
  · rename_i m since hw
    cases h
    exact .wait m since hw
  · rename_i m since hw
    cases h
    exact change_copy hroom hw
  · rename_i m since frameSize hw
    cases h
    exact change_finish opens hw
  all_goals cases h

theorem spurious_cases (h : step x .spurious = some x') :
    ∃ m since, x.worker = .waiting m since ∧ x' = { x with worker := .woken m since } := by
  cases hw : x.worker with
  | waiting m since =>
      simp only [step, hw, Option.some.injEq] at h
      exact ⟨m, since, rfl, h.symm⟩
  | _ =>
      simp only [step, hw] at h
      cases h

theorem inHand_wake (stage : Stage) : stage.wake.inHand = stage.inHand := by
  cases stage <;> rfl

/-! ## The messages -/

/-- What holds of the messages in every state. -/
structure Sound (x : System) : Prop where
  order : x.replies ++ x.worker.inHand ++ x.incoming.map cut = x.arrived.map cut
  room : x.frame.size = x.maxFrameSize
  short : ∀ m ∈ x.worker.inHand, m.length ≤ bufferSize
  ended : ∀ m ∈ x.replies, 0 ∈ udpbuffer m
  beyond : ∀ m, x.worker = .overrun m → 0 ∉ udpbuffer m

/-- The message in hand has been answered. -/
theorem Sound.answer {m : List UInt8} {since frameSize : ℕ} (h : Sound x)
    (hw : x.worker = .copied m since frameSize) (hend : 0 ∈ udpbuffer m) :
    x.replies ++ [m] ++ [] ++ x.incoming.map cut = x.arrived.map cut ∧
    ∀ m' ∈ x.replies ++ [m], 0 ∈ udpbuffer m' := by
  have horder := h.order
  rw [hw] at horder
  refine ⟨by rw [List.append_nil]; exact horder, fun m' hm' => ?_⟩
  rcases List.mem_append.mp hm' with hold | hnew
  · exact h.ended m' hold
  · rw [List.mem_singleton.mp hnew]
    exact hend

theorem Sound.change (h : Sound x) (hchange : Change x x') : Sound x' := by
  have horder := h.order
  have hshort := h.short
  cases hchange with
  | take m rest hw hin =>
      rw [hw, hin, List.map_cons] at horder
      refine ⟨?_, h.room, ?_, h.ended, fun m h => by cases h⟩
      · rw [← horder, Stage.inHand, Stage.inHand, List.append_nil, List.append_assoc,
          List.singleton_append]
      · intro m' hm'
        rw [List.mem_singleton.mp hm']
        exact List.length_take_le _ _
  | wait m since hw =>
      rw [hw] at horder hshort
      exact ⟨horder, h.room, hshort, h.ended, fun m h => by cases h⟩
  | copy m since frame hw =>
      rw [hw] at horder hshort
      exact ⟨horder, rfl, hshort, h.ended, fun m h => by cases h⟩
  | overrun m since frameSize hw hend =>
      rw [hw] at horder hshort
      refine ⟨horder, h.room, hshort, h.ended, fun m' hm' => ?_⟩
      cases hm'
      exact hend
  | unnamed m since frameSize hw hend =>
      obtain ⟨hanswer, hended⟩ := h.answer hw hend
      exact ⟨hanswer, h.room, fun m' hm' => absurd hm' List.not_mem_nil, hended, fun m h => by cases h⟩
  | save m since frameSize hw hend =>
      obtain ⟨hanswer, hended⟩ := h.answer hw hend
      exact ⟨hanswer, h.room, fun m' hm' => absurd hm' List.not_mem_nil, hended, fun m h => by cases h⟩
  | fail m since frameSize hw =>
      rw [hw] at horder hshort
      exact ⟨horder, h.room, hshort, h.ended, fun m h => by cases h⟩

theorem Sound.step {e : Event} (h : Sound x) (hstep : step x e = some x') : Sound x' := by
  cases e with
  | arrive m =>
      cases hstep
      refine ⟨?_, h.room, h.short, h.ended, h.beyond⟩
      rw [List.map_append, List.map_append, ← List.append_assoc, h.order]
  | publish p =>
      cases hstep
      refine ⟨?_, h.room, ?_, h.ended, fun m hm => ?_⟩
      · rw [inHand_wake]
        exact h.order
      · rw [inHand_wake]
        exact h.short
      · apply h.beyond m
        cases hw : x.worker <;> rw [hw] at hm <;> cases hm
        rfl
  | worker opens => exact h.change (Change.of_eq_some h.room hstep)
  | spurious =>
      have horder := h.order
      have hshort := h.short
      obtain ⟨m, since, hw, rfl⟩ := spurious_cases hstep
      rw [hw] at horder hshort
      exact ⟨horder, h.room, hshort, h.ended, fun m h => by cases h⟩

/-- The end of the name is missing exactly where the message fills the buffer. -/
theorem zero_not_mem_udpbuffer_iff {m : List UInt8} :
    0 ∉ udpbuffer m ↔ bufferSize ≤ m.length ∧ 0 ∉ m := by
  unfold udpbuffer
  rw [List.mem_append, not_or, List.mem_replicate, and_comm]
  constructor
  · rintro ⟨hroom, hm⟩
    refine ⟨?_, hm⟩
    by_contra hlt
    exact hroom ⟨by omega, rfl⟩
  · rintro ⟨hfull, hm⟩
    exact ⟨fun h => h.1 (by omega), hm⟩

/-- A message comes and is taken, a picture is published before the worker waits, and one after. -/
def oneSave : List Event :=
  [.publish [1], .arrive [97], .worker true, .publish [2], .worker true, .publish [3], .worker true,
    .worker true, .arrive [98]]

/-- The wait ends for a broadcast only. -/
def Quiet (_ : System) (e : Event) : Prop := e ≠ .spurious

instance (x : System) (e : Event) : Decidable (Quiet x e) :=
  match e with
  | .spurious => isFalse fun h => h rfl
  | .arrive _ | .publish _ | .worker _ => isTrue fun h => by cases h

/-- What the worker has or waits for is newer than its message. -/
def OnTime (x : System) : Prop :=
  match x.worker with
  | .received _ since | .waiting _ since => since ≤ x.published.length
  | .woken _ since => since < x.published.length
  | .copied _ since frameSize =>
      ∃ k, since ≤ k ∧ x.published[k]? = some (x.frame.contents.take frameSize)
  | .receiving | .failed _ | .overrun _ => True

/-- What holds of the saves in every state. -/
structure Fresh (x : System) : Prop where
  room : x.frame.size = x.maxFrameSize
  names : x.saves.map Save.name = (x.replies.map name).filter (· ≠ [])
  kept : ∀ file, x.files file =
    ((x.saves.filter fun save => save.name = file).getLast?).map Save.picture
  fresh : ∀ save ∈ x.saves, ∃ k, save.since ≤ k ∧ x.published[k]? = some save.picture
  onTime : OnTime x

theorem getElem?_publish {k : ℕ} {picture : List UInt8} (h : x.published[k]? = some picture)
    (p : List UInt8) : (x.published ++ [p])[k]? = some picture := by
  rw [List.getElem?_append_left (List.getElem?_eq_some_iff.mp h).1, h]

theorem Fresh.change (h : Fresh x) (hchange : Change x x') : Fresh x' := by
  have honTime := h.onTime
  unfold OnTime at honTime
  cases hchange with
  | take m rest hw hin => exact ⟨h.room, h.names, h.kept, h.fresh, Nat.le_refl _⟩
  | wait m since hw =>
      rw [hw] at honTime
      exact ⟨h.room, h.names, h.kept, h.fresh, honTime⟩
  | copy m since frame hw hframe =>
      rw [hw] at honTime
      refine ⟨rfl, h.names, h.kept, h.fresh, x.published.length - 1, by omega, ?_⟩
      change x.published[x.published.length - 1]? = some (frame.contents.take x.picture.length)
      have hlast : x.published[x.published.length - 1]? =
          some x.published[x.published.length - 1] := List.getElem?_eq_getElem (by omega)
      rw [hframe, System.picture, List.getLast?_eq_getElem?, hlast]
      rfl
  | overrun m since frameSize hw hend => exact ⟨h.room, h.names, h.kept, h.fresh, trivial⟩
  | unnamed m since frameSize hw hend hname =>
      refine ⟨h.room, ?_, h.kept, h.fresh, trivial⟩
      rw [h.names, List.map_append, List.filter_append, List.map_singleton, hname]
      exact (List.append_nil _).symm
  | save m since frameSize hw hend hname =>
      rw [hw] at honTime
      refine ⟨h.room, ?_, fun file => ?_, fun save hsave => ?_, trivial⟩
      · have hnew : [name m].filter (· ≠ []) = [name m] := by
          rw [List.filter_singleton, decide_eq_true hname]
          rfl
        rw [List.map_append, h.names, List.map_append, List.filter_append, List.map_singleton,
          List.map_singleton, hnew]
      · change Function.update x.files (name m) _ file = _
        rw [List.filter_append, List.filter_singleton]
        by_cases hfile : name m = file
        · rw [← hfile, Function.update_self, decide_eq_true rfl]
          change _ = ((_ ++ [_]).getLast?).map Save.picture
          rw [List.getLast?_concat]
          rfl
        · rw [Function.update_of_ne (Ne.symm hfile), decide_eq_false hfile]
          change _ = ((_ ++ []).getLast?).map Save.picture
          rw [List.append_nil]
          exact h.kept file
      · rcases List.mem_append.mp hsave with hold | hnew
        · exact h.fresh save hold
        · rw [List.mem_singleton.mp hnew]
          exact honTime
  | fail m since frameSize hw => exact ⟨h.room, h.names, h.kept, h.fresh, trivial⟩

theorem Fresh.step {e : Event} (h : Fresh x) (he : e ≠ .spurious) (hstep : step x e = some x') :
    Fresh x' := by
  cases e with
  | arrive m =>
      cases hstep
      exact ⟨h.room, h.names, h.kept, h.fresh, h.onTime⟩
  | publish p =>
      cases hstep
      refine ⟨h.room, h.names, h.kept, fun save hsave => ?_, ?_⟩
      · obtain ⟨k, hk, hpicture⟩ := h.fresh save hsave
        exact ⟨k, hk, getElem?_publish hpicture p⟩
      · have honTime := h.onTime
        have hmore : (x.published ++ [p]).length = x.published.length + 1 := List.length_append
        unfold OnTime at honTime ⊢
        cases hw : x.worker with
        | received m since =>
            rw [hw] at honTime
            change since ≤ (x.published ++ [p]).length
            omega
        | waiting m since =>
            rw [hw] at honTime
            change since < (x.published ++ [p]).length
            omega
        | woken m since =>
            rw [hw] at honTime
            change since < (x.published ++ [p]).length
            omega
        | copied m since frameSize =>
            rw [hw] at honTime
            obtain ⟨k, hk, hpicture⟩ := honTime
            exact ⟨k, hk, getElem?_publish hpicture p⟩
        | receiving => trivial
        | failed m => trivial
        | overrun m => trivial
  | worker opens => exact h.change (Change.of_eq_some h.room hstep)
  | spurious => exact absurd rfl he

end UdpPictures
