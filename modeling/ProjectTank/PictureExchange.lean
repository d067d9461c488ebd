/-
# The picture buffer of the streamer (`encoder_buffer_callback` and `send_stream`)

The encoder of the camera delivers a picture in several buffers.  The callback of
`input_raspicam.c` copies each to the end of the last one in the global buffer: it takes the lock
with the first, and gives it back, after waking the clients, with the buffer that ends the picture.
The clients of `httpd.c` wait for the condition, copy the picture under the lock, and write it
without.  Copies are made byte by byte, and a wait may end without a reason.

A picture has a number, its place among the pictures that are ended.  `blank`, with number 0, is what
is in the buffer before the first one.

* `Change`: what each thread can do in a step, with its inversion `Change.of_eq_some`;
* `Locked.step`: the owner of the lock is the thread in its block, as long as no picture without
  data is ended.
-/
import ProjectTank.StreamRelay
import ProjectTank.Transition

open ProgramText StreamRelay

namespace PictureExchange

/-! ## Threads -/

/-- A buffer of the encoder: its data, whether it ends a picture, and the time of day then, if it is
wanted. -/
structure Buffer where
  data : List UInt8
  frameEnd : Bool
  now : Option (ℤ × ℤ)

/-- Where the callback is: not running, before the lock, in `memcpy`, before the size is set, before
the broadcast, before the lock is given back. -/
inductive Camera
  | idle
  | locking (b : Buffer)
  | copying (b : Buffer) (done : ℕ)
  | ending (b : Buffer)
  | sized
  | notified

/-- The three writes for a picture. -/
def pieces (p : Picture) : List (List UInt8) :=
  [partHeader p, p.data, crlf ++ MjpegProxy.BOUNDARY ++ crlf]

def TEN_K : ℕ := 10 * 1024

/-- Where a client is: before its first write; at the head of its loop; with the lock, before it
waits; waiting; woken, but without the lock; with the lock again; with the size; in `memcpy`;
writing the rest of a picture; gone, perhaps in the middle of a picture. -/
inductive Stage
  | connected
  | ready
  | inside
  | waiting
  | notified
  | reading
  | sized (n frameSize : ℕ)
  | copying (n frameSize : ℕ) (time : ℤ × ℤ) (frame : List UInt8)
  | sending (n : ℕ) (p : Picture) (rest : List (List UInt8))
  | gone (interrupted : List (ℕ × Picture))

/-- The client has the lock. -/
def Stage.holds : Stage → Bool
  | .inside | .reading | .sized _ _ | .copying _ _ _ _ => true
  | _ => false

/-- A client: where it is, the room for a picture that it has, the number of the picture it has read
last, the pictures it has sent whole with their numbers, what `send_stream` has written, and what
`send_error` has. -/
structure Client where
  stage : Stage := .connected
  maxFrameSize : ℕ := 0
  last : ℕ := 0
  delivered : List (ℕ × Picture) := []
  stream : List UInt8 := []
  refusal : List UInt8 := []

/-- Who has the lock. -/
inductive Owner
  | camera
  | client (i : ℕ)
  deriving DecidableEq

/-- The global buffer with its size and time, the lock, the threads, `pData->offset`, and what the
encoder has delivered: the beginning of the next picture, and the pictures that are ended. -/
structure System where
  memory : ℕ → UInt8 := fun _ => 0
  size : ℕ := 0
  time : ℤ × ℤ := (0, 0)
  owner : Option Owner := none
  stop : Bool := false
  camera : Camera := .idle
  offset : ℕ := 0
  clients : List Client := []
  pending : List UInt8 := []
  written : List Picture := []

/-- Everything that can happen next: the encoder delivers a buffer, the callback takes its next
step, a client connects, a client takes its next step, a wait ends without a reason, a write fails
after `sent` bytes, there is no memory for a picture, the program is asked to stop. -/
inductive Event
  | buffer (b : Buffer)
  | camera
  | connect
  | client (i : ℕ)
  | spurious (i : ℕ)
  | drop (i sent : ℕ)
  | noMemory (i : ℕ)
  | stop

/-- `pthread_cond_broadcast`, for one client. -/
def Client.wake (c : Client) : Client :=
  match c.stage with
  | .waiting => { c with stage := .notified }
  | _ => c

/-- Client `i` has moved. -/
def System.setClient (x : System) (i : ℕ) (c : Client) (owner : Option Owner) : System :=
  { x with owner := owner, clients := x.clients.set i c }

/-- Behind the copy: is the picture complete? -/
def flagged (b : Buffer) : Camera := if b.frameEnd then .ending b else .idle

/-- The next step of the callback. -/
def stepCamera (x : System) : Option System :=
  match x.camera with
  | .idle => none
  | .locking b =>
      if x.owner = none then some { x with owner := some .camera, camera := .copying b 0 } else none
  | .copying b done =>
      match b.data[done]? with
      | some byte =>
          some { x with
            memory := Function.update x.memory (x.offset + done) byte, camera := .copying b (done + 1) }
      | none => some { x with offset := x.offset + b.data.length, camera := flagged b }
  | .ending b =>
      let time := b.now.getD x.time
      some { x with
        size := x.offset, time := time, offset := 0, camera := .sized, pending := [],
        written := x.written ++ [{ data := x.pending, sec := time.1, usec := time.2 }] }
  | .sized => some { x with camera := .notified, clients := x.clients.map Client.wake }
  | .notified => some { x with owner := none, camera := .idle }

/-- The encoder calls back with a buffer. -/
def deliver (x : System) (b : Buffer) : Option System :=
  match x.camera with
  | .idle =>
      let camera : Camera :=
        if b.data = [] then flagged b
        else if x.offset = 0 then .locking b
        else .copying b 0
      some { x with camera := camera, pending := x.pending ++ b.data }
  | _ => none

/-- The next step of client `i`.  It notes the number of the picture that it reads. -/
def stepClient (x : System) (i : ℕ) (c : Client) : Option System :=
  match c.stage with
  | .connected =>
      some (x.setClient i { c with stage := .ready, stream := c.stream ++ responseHeader } x.owner)
  | .ready =>
      if x.stop then some (x.setClient i { c with stage := .gone [] } x.owner)
      else if x.owner = none then
        some (x.setClient i { c with stage := .inside } (some (.client i)))
      else none
  | .inside => some (x.setClient i { c with stage := .waiting } none)
  | .waiting => none
  | .notified =>
      if x.owner = none then some (x.setClient i { c with stage := .reading } (some (.client i)))
      else none
  | .reading =>
      some (x.setClient i
        { c with stage := .sized x.written.length x.size, last := x.written.length } x.owner)
  | .sized n frameSize =>
      let room := if c.maxFrameSize < frameSize then frameSize + TEN_K else c.maxFrameSize
      some (x.setClient i
        { c with stage := .copying n frameSize x.time [], maxFrameSize := room } x.owner)
  | .copying n frameSize time frame =>
      if frame.length < frameSize then
        some (x.setClient i
          { c with stage := .copying n frameSize time (frame ++ [x.memory frame.length]) } x.owner)
      else
        let p : Picture := { data := frame, sec := time.1, usec := time.2 }
        some (x.setClient i { c with stage := .sending n p (pieces p) } none)
  | .sending n p [] =>
      some (x.setClient i { c with stage := .ready, delivered := c.delivered ++ [(n, p)] } x.owner)
  | .sending n p (piece :: rest) =>
      some (x.setClient i { c with stage := .sending n p rest, stream := c.stream ++ piece } x.owner)
  | .gone _ => none

/-- A write to client `i` fails. -/
def dropClient (x : System) (i sent : ℕ) (c : Client) : Option System :=
  match c.stage with
  | .connected =>
      some (x.setClient i
        { c with stage := .gone [], stream := c.stream ++ responseHeader.take sent } x.owner)
  | .sending n p (piece :: _) =>
      some (x.setClient i
        { c with stage := .gone [(n, p)], stream := c.stream ++ piece.take sent } x.owner)
  | _ => none

/-- What `send_error` writes for a picture without memory. -/
def notEnoughMemory : List UInt8 :=
  encodeUtf8 ("HTTP/1.0 500 Internal Server Error\r\nContent-type: text/plain\r\n".toList ++
    STD_HEADER ++ "\r\n500: Internal Server Error!\r\nnot enough memory".toList)

/-- `realloc` fails for client `i`. -/
def refuseClient (x : System) (i : ℕ) (c : Client) : Option System :=
  match c.stage with
  | .sized _ frameSize =>
      if c.maxFrameSize < frameSize then
        some (x.setClient i { c with stage := .gone [], refusal := notEnoughMemory } none)
      else none
  | _ => none

/-- A wait ends without a reason. -/
def wakeClient (x : System) (i : ℕ) (c : Client) : Option System :=
  match c.stage with
  | .waiting => some (x.setClient i { c with stage := .notified } x.owner)
  | _ => none

/-- One step. -/
def step (x : System) : Event → Option System
  | .buffer b => deliver x b
  | .camera => stepCamera x
  | .connect => some { x with clients := x.clients ++ [{}] }
  | .client i => (x.clients[i]?).bind (stepClient x i)
  | .spurious i => (x.clients[i]?).bind (wakeClient x i)
  | .drop i sent => (x.clients[i]?).bind (dropClient x i sent)
  | .noMemory i => (x.clients[i]?).bind (refuseClient x i)
  | .stop => some { x with stop := true }

/-- No picture, no client. -/
def machine : Machine System Event where
  init := {}
  step := step

/-! ## What a step can do -/

/-- What a client can do, and who has the lock then. -/
inductive Moves (x : System) (i : ℕ) (c : Client) : Client → Option Owner → Prop
  | greet (hstage : c.stage = .connected) :
      Moves x i c { c with stage := .ready, stream := c.stream ++ responseHeader } x.owner
  | leave (hstage : c.stage = .ready) : Moves x i c { c with stage := .gone [] } x.owner
  | enter (hstage : c.stage = .ready) (hfree : x.owner = none) :
      Moves x i c { c with stage := .inside } (some (.client i))
  | wait (hstage : c.stage = .inside) : Moves x i c { c with stage := .waiting } none
  | reenter (hstage : c.stage = .notified) (hfree : x.owner = none) :
      Moves x i c { c with stage := .reading } (some (.client i))
  | read (hstage : c.stage = .reading) :
      Moves x i c { c with stage := .sized x.written.length x.size, last := x.written.length } x.owner
  | grow {n frameSize : ℕ} (hstage : c.stage = .sized n frameSize) {room : ℕ}
      (hroom : frameSize ≤ room) :
      Moves x i c { c with stage := .copying n frameSize x.time [], maxFrameSize := room } x.owner
  | copy {n frameSize : ℕ} {time : ℤ × ℤ} {frame : List UInt8}
      (hstage : c.stage = .copying n frameSize time frame) (hlt : frame.length < frameSize) :
      Moves x i c
        { c with stage := .copying n frameSize time (frame ++ [x.memory frame.length]) } x.owner
  | finish {n frameSize : ℕ} {time : ℤ × ℤ} {frame : List UInt8}
      (hstage : c.stage = .copying n frameSize time frame) (hge : frameSize ≤ frame.length)
      {p : Picture} (hp : p = { data := frame, sec := time.1, usec := time.2 }) :
      Moves x i c { c with stage := .sending n p (pieces p) } none
  | write {n : ℕ} {p : Picture} {piece : List UInt8} {rest : List (List UInt8)}
      (hstage : c.stage = .sending n p (piece :: rest)) :
      Moves x i c { c with stage := .sending n p rest, stream := c.stream ++ piece } x.owner
  | deliver {n : ℕ} {p : Picture} (hstage : c.stage = .sending n p []) :
      Moves x i c { c with stage := .ready, delivered := c.delivered ++ [(n, p)] } x.owner
  | dropHeader (hstage : c.stage = .connected) (sent : ℕ) :
      Moves x i c { c with stage := .gone [], stream := c.stream ++ responseHeader.take sent } x.owner
  | drop {n : ℕ} {p : Picture} {piece : List UInt8} {rest : List (List UInt8)}
      (hstage : c.stage = .sending n p (piece :: rest)) (sent : ℕ) :
      Moves x i c { c with stage := .gone [(n, p)], stream := c.stream ++ piece.take sent } x.owner
  | refuse {n frameSize : ℕ} (hstage : c.stage = .sized n frameSize) :
      Moves x i c { c with stage := .gone [], refusal := notEnoughMemory } none

/-- Everything an event can do, one constructor for each way. -/
inductive Change (x : System) : Event → System → Prop
  | arrive {b : Buffer} (hcamera : x.camera = .idle) (hdata : b.data ≠ []) (hoffset : x.offset = 0) :
      Change x (.buffer b) { x with camera := .locking b, pending := x.pending ++ b.data }
  | more {b : Buffer} (hcamera : x.camera = .idle) (hdata : b.data ≠ []) (hoffset : x.offset ≠ 0) :
      Change x (.buffer b) { x with camera := .copying b 0, pending := x.pending ++ b.data }
  | empty {b : Buffer} (hcamera : x.camera = .idle) (hdata : b.data = []) :
      Change x (.buffer b) { x with camera := flagged b, pending := x.pending ++ b.data }
  | lock {b : Buffer} (hcamera : x.camera = .locking b) (hfree : x.owner = none) :
      Change x .camera { x with owner := some .camera, camera := .copying b 0 }
  | store {b : Buffer} {done : ℕ} {byte : UInt8} (hcamera : x.camera = .copying b done)
      (hbyte : b.data[done]? = some byte) :
      Change x .camera { x with
        memory := Function.update x.memory (x.offset + done) byte, camera := .copying b (done + 1) }
  | stored {b : Buffer} {done : ℕ} (hcamera : x.camera = .copying b done)
      (hdone : b.data.length ≤ done) :
      Change x .camera { x with offset := x.offset + b.data.length, camera := flagged b }
  | ended {b : Buffer} (hcamera : x.camera = .ending b) {time : ℤ × ℤ} :
      Change x .camera { x with
        size := x.offset, time := time, offset := 0, camera := .sized, pending := [],
        written := x.written ++ [{ data := x.pending, sec := time.1, usec := time.2 }] }
  | broadcast (hcamera : x.camera = .sized) :
      Change x .camera { x with camera := .notified, clients := x.clients.map Client.wake }
  | unlock (hcamera : x.camera = .notified) :
      Change x .camera { x with owner := none, camera := .idle }
  | connect : Change x .connect { x with clients := x.clients ++ [{}] }
  | client {e : Event} {i : ℕ} {c c' : Client} {owner : Option Owner} (hc : x.clients[i]? = some c)
      (hmoves : Moves x i c c' owner) : Change x e (x.setClient i c' owner)
  | spurious {i : ℕ} {c : Client} (hc : x.clients[i]? = some c) (hstage : c.stage = .waiting) :
      Change x (.spurious i) (x.setClient i { c with stage := .notified } x.owner)
  | stop : Change x .stop { x with stop := true }

theorem Change.of_camera {x x' : System} (h : stepCamera x = some x') : Change x .camera x' := by
  unfold stepCamera at h
  cases hcamera : x.camera with
  | idle => simp [hcamera] at h
  | locking b =>
      rw [hcamera] at h
      obtain ⟨hfree, hx'⟩ := Option.ite_none_right_eq_some.mp h
      exact Option.some.inj hx' ▸ .lock hcamera hfree
  | copying b done =>
      rw [hcamera] at h
      dsimp only at h
      cases hbyte : b.data[done]? with
      | some byte =>
          rw [hbyte] at h
          exact Option.some.inj h ▸ .store hcamera hbyte
      | none =>
          rw [hbyte] at h
          exact Option.some.inj h ▸ .stored hcamera (List.getElem?_eq_none_iff.mp hbyte)
  | ending b =>
      rw [hcamera] at h
      exact Option.some.inj h ▸ .ended hcamera
  | sized =>
      rw [hcamera] at h
      exact Option.some.inj h ▸ .broadcast hcamera
  | notified =>
      rw [hcamera] at h
      exact Option.some.inj h ▸ .unlock hcamera

theorem Change.of_deliver {x x' : System} {b : Buffer} (h : PictureExchange.deliver x b = some x') :
    Change x (.buffer b) x' := by
  unfold PictureExchange.deliver at h
  cases hcamera : x.camera with
  | idle =>
      rw [hcamera] at h
      obtain rfl := Option.some.inj h
      by_cases hdata : b.data = []
      · simp only [if_pos hdata]
        exact .empty hcamera hdata
      · by_cases hoffset : x.offset = 0
        · simp only [if_neg hdata, if_pos hoffset]
          exact .arrive hcamera hdata hoffset
        · simp only [if_neg hdata, if_neg hoffset]
          exact .more hcamera hdata hoffset
  | _ => simp [hcamera] at h

theorem Change.of_client {x x' : System} {e : Event} {i : ℕ} {c : Client}
    (hc : x.clients[i]? = some c) (h : stepClient x i c = some x') : Change x e x' := by
  unfold stepClient at h
  cases hstage : c.stage with
  | connected =>
      rw [hstage] at h
      exact Option.some.inj h ▸ .client hc (.greet hstage)
  | ready =>
      rw [hstage] at h
      dsimp only at h
      split at h
      · exact Option.some.inj h ▸ .client hc (.leave hstage)
      · obtain ⟨hfree, hx'⟩ := Option.ite_none_right_eq_some.mp h
        exact Option.some.inj hx' ▸ .client hc (.enter hstage hfree)
  | inside =>
      rw [hstage] at h
      exact Option.some.inj h ▸ .client hc (.wait hstage)
  | waiting => simp [hstage] at h
  | notified =>
      rw [hstage] at h
      obtain ⟨hfree, hx'⟩ := Option.ite_none_right_eq_some.mp h
      exact Option.some.inj hx' ▸ .client hc (.reenter hstage hfree)
  | reading =>
      rw [hstage] at h
      exact Option.some.inj h ▸ .client hc (.read hstage)
  | sized n frameSize =>
      rw [hstage] at h
      refine Option.some.inj h ▸ .client hc (.grow hstage ?_)
      split
      · exact Nat.le_add_right _ _
      · omega
  | copying n frameSize time frame =>
      rw [hstage] at h
      dsimp only at h
      split at h
      · next hlt => exact Option.some.inj h ▸ .client hc (.copy hstage hlt)
      · next hge => exact Option.some.inj h ▸ .client hc (.finish hstage (not_lt.mp hge) rfl)
  | sending n p rest =>
      rw [hstage] at h
      cases rest with
      | nil => exact Option.some.inj h ▸ .client hc (.deliver hstage)
      | cons piece rest => exact Option.some.inj h ▸ .client hc (.write hstage)
  | gone _ => simp [hstage] at h

theorem Change.of_drop {x x' : System} {e : Event} {i sent : ℕ} {c : Client}
    (hc : x.clients[i]? = some c) (h : dropClient x i sent c = some x') : Change x e x' := by
  unfold dropClient at h
  split at h
  · next hstage => exact Option.some.inj h ▸ .client hc (.dropHeader hstage sent)
  · next hstage => exact Option.some.inj h ▸ .client hc (.drop hstage sent)
  · cases h

theorem Change.of_refuse {x x' : System} {e : Event} {i : ℕ} {c : Client}
    (hc : x.clients[i]? = some c) (h : refuseClient x i c = some x') : Change x e x' := by
  unfold refuseClient at h
  split at h
  · next hstage =>
    obtain ⟨-, hx'⟩ := Option.ite_none_right_eq_some.mp h
    exact Option.some.inj hx' ▸ .client hc (.refuse hstage)
  · cases h

/-- **Inversion of a step.** -/
theorem Change.of_eq_some {x x' : System} {e : Event} (h : step x e = some x') : Change x e x' := by
  cases e with
  | buffer b => exact .of_deliver h
  | camera => exact .of_camera h
  | connect => exact Option.some.inj h ▸ .connect
  | client i =>
      obtain ⟨c, hc, hmove⟩ := Option.bind_eq_some_iff.mp h
      exact .of_client hc hmove
  | spurious i =>
      obtain ⟨c, hc, hwake⟩ := Option.bind_eq_some_iff.mp h
      unfold wakeClient at hwake
      split at hwake
      · next hstage => exact Option.some.inj hwake ▸ .spurious hc hstage
      · cases hwake
  | drop i sent =>
      obtain ⟨c, hc, hdrop⟩ := Option.bind_eq_some_iff.mp h
      exact .of_drop hc hdrop
  | noMemory i =>
      obtain ⟨c, hc, hrefuse⟩ := Option.bind_eq_some_iff.mp h
      exact .of_refuse hc hrefuse
  | stop => exact Option.some.inj h ▸ .stop

/-! ## The lock -/

/-- The callback has the lock: between the buffers of a picture, too. -/
def System.cameraInside (x : System) : Prop :=
  match x.camera with
  | .idle => x.offset ≠ 0
  | .locking _ => False
  | _ => True

/-- The thread is in its block. -/
def System.Inside (x : System) : Owner → Prop
  | .camera => x.cameraInside
  | .client i => ∃ c, x.clients[i]? = some c ∧ c.stage.holds = true

/-- What is known of a buffer under way, and of the offset. -/
structure CameraSound (x : System) : Prop where
  locking : ∀ b, x.camera = .locking b → b.data ≠ [] ∧ x.offset = 0
  copying : ∀ b done, x.camera = .copying b done → b.data ≠ [] ∧ done ≤ b.data.length
  reset : x.camera = .sized ∨ x.camera = .notified → x.offset = 0

theorem flagged_cases (b : Buffer) :
    (b.frameEnd = true ∧ flagged b = .ending b) ∨ (b.frameEnd = false ∧ flagged b = .idle) := by
  unfold flagged
  cases b.frameEnd
  · exact Or.inr ⟨rfl, rfl⟩
  · exact Or.inl ⟨rfl, rfl⟩

/-- What is known of the camera depends on the camera and on the offset alone. -/
theorem CameraSound.congr {x x' : System} (hx : CameraSound x) (hcamera : x'.camera = x.camera)
    (hoffset : x'.offset = x.offset) : CameraSound x' := by
  refine ⟨fun b h => ?_, fun b done h => ?_, fun h => ?_⟩
  · rw [hcamera] at h
    exact hoffset ▸ hx.locking b h
  · rw [hcamera] at h
    exact hx.copying b done h
  · rw [hcamera] at h
    exact hoffset ▸ hx.reset h

theorem CameraSound.of_flagged {x : System} {b : Buffer} (h : x.camera = flagged b) :
    CameraSound x := by
  rcases flagged_cases b with ⟨-, hflag⟩ | ⟨-, hflag⟩
  all_goals
    rw [hflag] at h
    exact ⟨fun b' h' => by simp [h] at h', fun b' done h' => by simp [h] at h',
      fun h' => by simp [h] at h'⟩

theorem CameraSound.step {x x' : System} {e : Event} (hx : CameraSound x) (h : Change x e x') :
    CameraSound x' := by
  cases h with
  | arrive hcamera hdata hoffset =>
      refine ⟨fun b h => ?_, fun b done h => by simp at h, fun h => by simp at h⟩
      obtain rfl := Camera.locking.inj h
      exact ⟨hdata, hoffset⟩
  | more hcamera hdata hoffset =>
      refine ⟨fun b h => by simp at h, fun b done h => ?_, fun h => by simp at h⟩
      obtain ⟨rfl, rfl⟩ := Camera.copying.inj h
      exact ⟨hdata, Nat.zero_le _⟩
  | empty hcamera hdata => exact .of_flagged rfl
  | lock hcamera hfree =>
      refine ⟨fun b h => by simp at h, fun b done h => ?_, fun h => by simp at h⟩
      obtain ⟨rfl, rfl⟩ := Camera.copying.inj h
      exact ⟨(hx.locking _ hcamera).1, Nat.zero_le _⟩
  | store hcamera hbyte =>
      refine ⟨fun b h => by simp at h, fun b done h => ?_, fun h => by simp at h⟩
      obtain ⟨rfl, rfl⟩ := Camera.copying.inj h
      exact ⟨(hx.copying _ _ hcamera).1, (List.getElem?_eq_some_iff.mp hbyte).1⟩
  | stored hcamera hdone => exact .of_flagged rfl
  | ended hcamera =>
      exact ⟨fun b h => by simp at h, fun b done h => by simp at h, fun _ => rfl⟩
  | broadcast hcamera =>
      exact ⟨fun b h => by simp at h, fun b done h => by simp at h,
        fun _ => hx.reset (Or.inl hcamera)⟩
  | unlock hcamera =>
      exact ⟨fun b h => by simp at h, fun b done h => by simp at h, fun h => by simp at h⟩
  | connect => exact hx.congr rfl rfl
  | client hc hmoves => exact hx.congr rfl rfl
  | spurious hc hstage => exact hx.congr rfl rfl
  | stop => exact hx.congr rfl rfl

theorem getElem?_setClient {x : System} {i : ℕ} {c : Client} (hc : x.clients[i]? = some c)
    (c' : Client) (owner : Option Owner) (j : ℕ) :
    (x.setClient i c' owner).clients[j]? = if j = i then some c' else x.clients[j]? := by
  have hi : i < x.clients.length := (List.getElem?_eq_some_iff.mp hc).1
  rw [System.setClient, List.getElem?_set]
  by_cases hj : j = i
  · simp [hj, hi]
  · simp [hj, Ne.symm hj]

theorem inside_setClient {x : System} {i : ℕ} {c : Client} (hc : x.clients[i]? = some c)
    (c' : Client) (owner : Option Owner) (o : Owner) :
    (x.setClient i c' owner).Inside o ↔
      if o = .client i then c'.stage.holds = true else x.Inside o := by
  cases o with
  | camera => rfl
  | client j =>
      rw [System.Inside, getElem?_setClient hc]
      by_cases hj : j = i
      · simp [hj]
      · simp [hj, System.Inside]

@[simp] theorem holds_wake (c : Client) : c.wake.stage.holds = c.stage.holds := by
  unfold Client.wake
  cases hstage : c.stage <;> simp [Stage.holds, hstage]

/-- The lock has the owner that is in its block. -/
def Locked (x : System) : Prop := ∀ o, x.owner = some o ↔ x.Inside o

/-- No picture without data is ended. -/
def Regular (x : System) : Event → Prop
  | .buffer b => b.data = [] → b.frameEnd = true → x.offset ≠ 0
  | _ => True

namespace Locked

variable {x x' : System}

theorem keep (hx : Locked x) (howner : x'.owner = x.owner)
    (hinside : ∀ o, x'.Inside o ↔ x.Inside o) : Locked x' :=
  fun o => by rw [howner, hinside o, hx o]

/-- The clients stay in their blocks, and the callback in its. -/
theorem keepCamera (hx : Locked x) (howner : x'.owner = x.owner) (hclients : x'.clients = x.clients)
    (hcamera : x'.cameraInside ↔ x.cameraInside) : Locked x' := by
  refine hx.keep howner fun o => ?_
  cases o with
  | camera => exact hcamera
  | client i =>
      show (∃ c, x'.clients[i]? = some c ∧ _) ↔ ∃ c, x.clients[i]? = some c ∧ _
      rw [hclients]

theorem take (hx : Locked x) (hfree : x.owner = none) (o : Owner) (howner : x'.owner = some o)
    (hinside : ∀ o', x'.Inside o' ↔ if o' = o then True else x.Inside o') : Locked x' := by
  intro o'
  rw [howner, hinside o', Option.some_inj]
  by_cases ho : o' = o
  · simp [ho]
  · rw [if_neg ho, ← hx o', hfree]
    simp [Ne.symm ho]

theorem free (hx : Locked x) {o : Owner} (ho : x.Inside o) (howner : x'.owner = none)
    (hinside : ∀ o', x'.Inside o' ↔ if o' = o then False else x.Inside o') : Locked x' := by
  intro o'
  rw [howner, hinside o']
  by_cases hoo : o' = o
  · simp [hoo]
  · rw [if_neg hoo, ← hx o', (hx o).mpr ho, Option.some_inj]
    simp [Ne.symm hoo]

/-- A client's move keeps the lock right. -/
theorem client (hx : Locked x) {i : ℕ} {c c' : Client} {owner : Option Owner}
    (hc : x.clients[i]? = some c) (hmoves : Moves x i c c' owner) :
    Locked (x.setClient i c' owner) := by
  have hinside := inside_setClient hc c' owner
  -- the block is entered with a free lock and left by its owner
  have hkeep (howner : owner = x.owner) (hholds : c'.stage.holds = c.stage.holds) :
      Locked (x.setClient i c' owner) := by
    refine hx.keep howner fun o => ?_
    rw [hinside o]
    split
    · next ho => rw [ho, hholds]; simp [System.Inside, hc]
    · rfl
  have htake (hfree : x.owner = none) (howner : owner = some (.client i))
      (hholds : c'.stage.holds = true) : Locked (x.setClient i c' owner) :=
    hx.take hfree (.client i) howner fun o => by rw [hinside o, hholds]; simp
  have hrelease (hholds : c.stage.holds = true) (howner : owner = none)
      (hholds' : c'.stage.holds = false) : Locked (x.setClient i c' owner) :=
    hx.free (o := .client i) ⟨c, hc, hholds⟩ howner fun o => by rw [hinside o, hholds']; simp
  cases hmoves with
  | greet hstage => exact hkeep rfl (by rw [hstage]; rfl)
  | leave hstage => exact hkeep rfl (by rw [hstage]; rfl)
  | enter hstage hfree => exact htake hfree rfl rfl
  | wait hstage => exact hrelease (by rw [hstage]; rfl) rfl rfl
  | reenter hstage hfree => exact htake hfree rfl rfl
  | read hstage => exact hkeep rfl (by rw [hstage]; rfl)
  | grow hstage hroom => exact hkeep rfl (by rw [hstage]; rfl)
  | copy hstage hlt => exact hkeep rfl (by rw [hstage]; rfl)
  | finish hstage hge hp => exact hrelease (by rw [hstage]; rfl) rfl rfl
  | write hstage => exact hkeep rfl (by rw [hstage]; rfl)
  | deliver hstage => exact hkeep rfl (by rw [hstage]; rfl)
  | dropHeader hstage sent => exact hkeep rfl (by rw [hstage]; rfl)
  | drop hstage sent => exact hkeep rfl (by rw [hstage]; rfl)
  | refuse hstage => exact hrelease (by rw [hstage]; rfl) rfl rfl

/-- **The lock is right**, as long as no picture without data is ended: the callback would give the
lock back without having it. -/
theorem step {e : Event} (hx : Locked x) (hcam : CameraSound x) (hregular : Regular x e)
    (h : Change x e x') : Locked x' := by
  -- the callback is in its block, whatever the flags say
  have hflagged : ∀ b : Buffer, ∀ y : System, y.camera = flagged b → y.offset ≠ 0 →
      y.cameraInside := by
    intro b y hcamera hoffset
    unfold System.cameraInside
    rcases flagged_cases b with ⟨-, hflag⟩ | ⟨-, hflag⟩
    · rw [hcamera, hflag]
      trivial
    · rw [hcamera, hflag]
      exact hoffset
  cases h with
  | arrive hcamera hdata hoffset =>
      refine hx.keepCamera rfl rfl ?_
      simp [System.cameraInside, hcamera, hoffset]
  | more hcamera hdata hoffset =>
      refine hx.keepCamera rfl rfl ?_
      simp [System.cameraInside, hcamera, hoffset]
  | @empty b hcamera hdata =>
      refine hx.keepCamera rfl rfl ?_
      by_cases hoffset : x.offset = 0
      · have hflag : flagged b = .idle := by
          rcases flagged_cases b with ⟨hend, -⟩ | ⟨-, hflag⟩
          · exact absurd hoffset (hregular hdata hend)
          · exact hflag
        simp [System.cameraInside, hcamera, hflag]
      · refine iff_of_true (hflagged b _ rfl hoffset) ?_
        simp [System.cameraInside, hcamera, hoffset]
  | lock hcamera hfree =>
      refine hx.take hfree .camera rfl fun o => ?_
      cases o with
      | camera => simp [System.Inside, System.cameraInside]
      | client i => simp [System.Inside]
  | store hcamera hbyte =>
      refine hx.keepCamera rfl rfl ?_
      simp [System.cameraInside, hcamera]
  | @stored b done hcamera hdone =>
      refine hx.keepCamera rfl rfl ?_
      have hpos : 0 < b.data.length := List.length_pos_iff.mpr (hcam.copying b done hcamera).1
      refine iff_of_true (hflagged b _ rfl ?_) ?_
      · show x.offset + b.data.length ≠ 0
        omega
      · simp [System.cameraInside, hcamera]
  | ended hcamera =>
      refine hx.keepCamera rfl rfl ?_
      simp [System.cameraInside, hcamera]
  | broadcast hcamera =>
      refine hx.keep rfl fun o => ?_
      cases o with
      | camera => simp [System.Inside, System.cameraInside, hcamera]
      | client i => simp [System.Inside, List.getElem?_map]
  | unlock hcamera =>
      have hoffset : x.offset = 0 := hcam.reset (Or.inr hcamera)
      refine hx.free (o := .camera) ?_ rfl fun o => ?_
      · simp [System.Inside, System.cameraInside, hcamera]
      · cases o with
        | camera => simp [System.Inside, System.cameraInside, hoffset]
        | client i => simp [System.Inside]
  | connect =>
      refine hx.keep rfl fun o => ?_
      cases o with
      | camera => rfl
      | client i =>
          -- the new client is not in the block
          simp only [System.Inside, List.getElem?_append]
          by_cases hi : i < x.clients.length
          · rw [if_pos hi]
          · rw [if_neg hi, List.getElem?_eq_none (Nat.le_of_not_lt hi)]
            cases hnew : i - x.clients.length <;> simp [Stage.holds]
  | client hc hmoves => exact hx.client hc hmoves
  | @spurious i c hc hstage =>
      refine hx.keep rfl fun o => (inside_setClient hc _ _ o).trans ?_
      split
      · next ho => rw [ho]; simp [System.Inside, hc, hstage, Stage.holds]
      · rfl
  | stop => exact hx.keepCamera rfl rfl Iff.rfl

end Locked

end PictureExchange
