/-
# The frames of the camera (`StreamingOutput` and `/stream.mjpg` in `main/web.py`)

The camera thread stores a frame and wakes all waiting clients under the lock of a
condition variable; each client waits, reads the frame under the same lock, and sends it
without the lock.  A client that is busy sending misses notifications, and several
frames may be stored between a notification and the moment the client has the lock again.

A frame has a number, its place among the frames stored.  `wait` releases the lock and
waits in one step, only `notify_all` ends a wait, and a thread takes the lock when it is
free.

* `Change`: what each thread can do in a step, with its inversion `Change.of_eq_some`;
* `Locked.step`: the owner of the lock is the thread in its block.
-/
import ProjectTank.DecimalText
import ProjectTank.ProgramText
import ProjectTank.Transition

open ProgramText DecimalText

namespace StreamingOutput

/-! ## Frames -/

/-- A JPEG image. -/
abbrev Frame := List UInt8

/-- The four writes for a frame: the boundary, the headers, the frame, the end of line. -/
def pieces (frame : Frame) : List (List UInt8) :=
  [encodeUtf8 "--FRAME\r\n".toList,
    encodeUtf8 ("Content-Type: image/jpeg\r\nContent-Length: ".toList ++ natText frame.length ++
      "\r\n\r\n".toList),
    frame, encodeUtf8 "\r\n".toList]

/-- `frame` is the latest of the first `n` frames. -/
def IsNumber (written : List Frame) (n : ℕ) (frame : Frame) : Prop :=
  n ≤ written.length ∧ (written.take n).getLast? = some frame

/-! ## Threads -/

/-- Where a client is: at the head of its loop; in the block, before `wait`; waiting; woken, but
without the lock; in the block again, before it reads; in the block with the frame it has
read; sending the rest of a frame; ended by an exception. -/
inductive Stage
  | ready
  | inside
  | waiting
  | notified
  | reading
  | leaving (n : ℕ) (frame : Option Frame)
  | sending (n : ℕ) (frame : Frame) (rest : List (List UInt8))
  | gone

/-- The client has the lock. -/
def Stage.holds : Stage → Bool
  | .inside | .reading | .leaving _ _ => true
  | _ => false

/-- A client: where it is, the frames it has sent whole with their numbers, and all it has
sent. -/
structure Client where
  stage : Stage := .ready
  delivered : List (ℕ × Frame) := []
  stream : List UInt8 := []

/-- Where the camera thread is: not in `write`, before the lock, in the block, after the
assignment, after `notify_all`. -/
inductive Camera
  | idle
  | entering (buf : Frame)
  | inside (buf : Frame)
  | stored
  | notified

/-- The camera thread has the lock. -/
def Camera.holds : Camera → Bool
  | .inside _ | .stored | .notified => true
  | _ => false

/-- Who has the lock. -/
inductive Owner
  | camera
  | client (i : ℕ)
  deriving DecidableEq

/-- `output`, the lock, the threads, and all frames stored so far. -/
structure System where
  frame : Option Frame := none
  owner : Option Owner := none
  camera : Camera := .idle
  clients : List Client := []
  written : List Frame := []

/-- Everything that can happen next: the camera thread has a frame and calls `write`, it takes
its next step, a client connects, a client takes its next step, a write to a client
raises after `sent` bytes. -/
inductive Event
  | capture (buf : Frame)
  | camera
  | connect
  | client (i : ℕ)
  | drop (i sent : ℕ)

/-- `notify_all`, for one client. -/
def Client.wake (c : Client) : Client :=
  match c.stage with
  | .waiting => { c with stage := .notified }
  | _ => c

/-- Client `i` has moved. -/
def System.setClient (x : System) (i : ℕ) (c : Client) (owner : Option Owner) : System :=
  { x with owner := owner, clients := x.clients.set i c }

/-- The next step of the camera thread in `write`. -/
def stepCamera (x : System) : Option System :=
  match x.camera with
  | .idle => none
  | .entering buf =>
      if x.owner = none then some { x with owner := some .camera, camera := .inside buf } else none
  | .inside buf =>
      some { x with frame := some buf, camera := .stored, written := x.written ++ [buf] }
  | .stored => some { x with camera := .notified, clients := x.clients.map Client.wake }
  | .notified => some { x with owner := none, camera := .idle }

/-- The next step of client `i`.  It notes the number of the frame that it reads. -/
def stepClient (x : System) (i : ℕ) (c : Client) : Option System :=
  match c.stage with
  | .ready =>
      if x.owner = none then some (x.setClient i { c with stage := .inside } (some (.client i)))
      else none
  | .inside => some (x.setClient i { c with stage := .waiting } none)
  | .waiting => none
  | .notified =>
      if x.owner = none then some (x.setClient i { c with stage := .reading } (some (.client i)))
      else none
  | .reading => some (x.setClient i { c with stage := .leaving x.written.length x.frame } x.owner)
  | .leaving n (some frame) =>
      some (x.setClient i { c with stage := .sending n frame (pieces frame) } none)
  | .leaving _ none =>
      -- the boundary is written, then `len(frame)` raises
      some (x.setClient i
        { c with stage := .gone, stream := c.stream ++ encodeUtf8 "--FRAME\r\n".toList } none)
  | .sending n frame [] =>
      some (x.setClient i
        { c with stage := .ready, delivered := c.delivered ++ [(n, frame)] } x.owner)
  | .sending n frame (piece :: rest) =>
      some (x.setClient i
        { c with stage := .sending n frame rest, stream := c.stream ++ piece } x.owner)
  | .gone => none

/-- A write to client `i` raises. -/
def dropClient (x : System) (i sent : ℕ) (c : Client) : Option System :=
  match c.stage with
  | .sending _ _ (piece :: _) =>
      some (x.setClient i { c with stage := .gone, stream := c.stream ++ piece.take sent } x.owner)
  | _ => none

/-- One step. -/
def step (x : System) : Event → Option System
  | .capture buf =>
      match x.camera with
      | .idle => some { x with camera := .entering buf }
      | _ => none
  | .camera => stepCamera x
  | .connect => some { x with clients := x.clients ++ [{}] }
  | .client i => (x.clients[i]?).bind (stepClient x i)
  | .drop i sent => (x.clients[i]?).bind (dropClient x i sent)

/-- No frame, no client. -/
def machine : Machine System Event where
  init := {}
  step := step

/-! ## What a step can do -/

/-- What a client can do, and who has the lock then. -/
inductive Moves (x : System) (i : ℕ) (c : Client) : Client → Option Owner → Prop
  | enter (hstage : c.stage = .ready) (hfree : x.owner = none) :
      Moves x i c { c with stage := .inside } (some (.client i))
  | wait (hstage : c.stage = .inside) : Moves x i c { c with stage := .waiting } none
  | reenter (hstage : c.stage = .notified) (hfree : x.owner = none) :
      Moves x i c { c with stage := .reading } (some (.client i))
  | read (hstage : c.stage = .reading) :
      Moves x i c { c with stage := .leaving x.written.length x.frame } x.owner
  | leave {n : ℕ} {frame : Frame} (hstage : c.stage = .leaving n (some frame)) :
      Moves x i c { c with stage := .sending n frame (pieces frame) } none
  | raise {n : ℕ} (hstage : c.stage = .leaving n none) {stream : List UInt8} :
      Moves x i c { c with stage := .gone, stream := stream } none
  | write {n : ℕ} {frame : Frame} {piece : List UInt8} {rest : List (List UInt8)}
      (hstage : c.stage = .sending n frame (piece :: rest)) :
      Moves x i c { c with stage := .sending n frame rest, stream := c.stream ++ piece } x.owner
  | deliver {n : ℕ} {frame : Frame} (hstage : c.stage = .sending n frame []) :
      Moves x i c { c with stage := .ready, delivered := c.delivered ++ [(n, frame)] } x.owner
  | drop {n : ℕ} {frame : Frame} {piece : List UInt8} {rest : List (List UInt8)}
      (hstage : c.stage = .sending n frame (piece :: rest)) (sent : ℕ) :
      Moves x i c { c with stage := .gone, stream := c.stream ++ piece.take sent } x.owner

/-- Everything a step can do, one constructor for each way. -/
inductive Change (x : System) : System → Prop
  | capture (buf : Frame) (hcamera : x.camera = .idle) : Change x { x with camera := .entering buf }
  | enter {buf : Frame} (hcamera : x.camera = .entering buf) (hfree : x.owner = none) :
      Change x { x with owner := some .camera, camera := .inside buf }
  | store {buf : Frame} (hcamera : x.camera = .inside buf) :
      Change x { x with frame := some buf, camera := .stored, written := x.written ++ [buf] }
  | notify (hcamera : x.camera = .stored) :
      Change x { x with camera := .notified, clients := x.clients.map Client.wake }
  | release (hcamera : x.camera = .notified) : Change x { x with owner := none, camera := .idle }
  | connect : Change x { x with clients := x.clients ++ [{}] }
  | client {i : ℕ} {c c' : Client} {owner : Option Owner} (hc : x.clients[i]? = some c)
      (hmoves : Moves x i c c' owner) : Change x (x.setClient i c' owner)

theorem Change.of_client {x x' : System} {i : ℕ} {c : Client} (hc : x.clients[i]? = some c)
    (h : stepClient x i c = some x') : Change x x' := by
  unfold stepClient at h
  cases hstage : c.stage with
  | ready =>
      rw [hstage] at h
      obtain ⟨hfree, hx'⟩ := Option.ite_none_right_eq_some.mp h
      exact Option.some.inj hx' ▸ .client hc (.enter hstage hfree)
  | inside =>
      rw [hstage] at h
      exact Option.some.inj h ▸ .client hc (.wait hstage)
  | waiting => simp [hstage] at h
  | notified =>
      rw [hstage] at h
      obtain ⟨hfree, hx'⟩ := Option.ite_none_right_eq_some.mp h
      exact Option.some.inj hx' ▸ .client hc (.reenter hstage hfree)
  | reading =>
      rw [hstage] at h
      exact Option.some.inj h ▸ .client hc (.read hstage)
  | leaving n frame =>
      rw [hstage] at h
      cases frame with
      | none => exact Option.some.inj h ▸ .client hc (.raise hstage)
      | some frame => exact Option.some.inj h ▸ .client hc (.leave hstage)
  | sending n frame rest =>
      rw [hstage] at h
      cases rest with
      | nil => exact Option.some.inj h ▸ .client hc (.deliver hstage)
      | cons piece rest => exact Option.some.inj h ▸ .client hc (.write hstage)
  | gone => simp [hstage] at h

theorem Change.of_camera {x x' : System} (h : stepCamera x = some x') : Change x x' := by
  unfold stepCamera at h
  cases hcamera : x.camera with
  | idle => simp [hcamera] at h
  | entering buf =>
      rw [hcamera] at h
      obtain ⟨hfree, hx'⟩ := Option.ite_none_right_eq_some.mp h
      exact Option.some.inj hx' ▸ .enter hcamera hfree
  | inside buf =>
      rw [hcamera] at h
      exact Option.some.inj h ▸ .store hcamera
  | stored =>
      rw [hcamera] at h
      exact Option.some.inj h ▸ .notify hcamera
  | notified =>
      rw [hcamera] at h
      exact Option.some.inj h ▸ .release hcamera

/-- **Inversion of a step.** -/
theorem Change.of_eq_some {x x' : System} {e : Event} (h : step x e = some x') : Change x x' := by
  cases e with
  | capture buf =>
      simp only [step] at h
      cases hcamera : x.camera with
      | idle =>
          rw [hcamera] at h
          exact Option.some.inj h ▸ .capture buf hcamera
      | _ => simp [hcamera] at h
  | camera => exact .of_camera h
  | connect => exact Option.some.inj h ▸ .connect
  | client i =>
      obtain ⟨c, hc, hmove⟩ := Option.bind_eq_some_iff.mp h
      exact .of_client hc hmove
  | drop i sent =>
      obtain ⟨c, hc, hdrop⟩ := Option.bind_eq_some_iff.mp h
      unfold dropClient at hdrop
      split at hdrop
      · next hstage => exact Option.some.inj hdrop ▸ .client hc (.drop hstage sent)
      · exact absurd hdrop (by simp)

/-! ## The lock -/

/-- The thread is in its block. -/
def System.Inside (x : System) : Owner → Prop
  | .camera => x.camera.holds = true
  | .client i => ∃ c, x.clients[i]? = some c ∧ c.stage.holds = true

theorem getElem?_setClient {x : System} {i : ℕ} {c : Client} (hc : x.clients[i]? = some c)
    (c' : Client) (owner : Option Owner) (j : ℕ) :
    (x.setClient i c' owner).clients[j]? = if j = i then some c' else x.clients[j]? := by
  have hi : i < x.clients.length := (List.getElem?_eq_some_iff.mp hc).1
  rw [System.setClient, List.getElem?_set]
  by_cases hj : j = i
  · simp [hj, hi]
  · simp [hj, Ne.symm hj]

theorem mem_setClient {x : System} {i : ℕ} {c' c'' : Client} {owner : Option Owner}
    (h : c'' ∈ (x.setClient i c' owner).clients) : c'' = c' ∨ c'' ∈ x.clients :=
  (List.mem_or_eq_of_mem_set h).symm

theorem inside_setClient {x : System} {i : ℕ} {c : Client} (hc : x.clients[i]? = some c)
    (c' : Client) (owner : Option Owner) (o : Owner) :
    (x.setClient i c' owner).Inside o ↔
      if o = .client i then c'.stage.holds = true else x.Inside o := by
  cases o with
  | camera => rfl
  | client j =>
      rw [System.Inside, getElem?_setClient hc]
      by_cases hj : j = i
      · simp [hj]
      · simp [hj, System.Inside]

/-- While only the camera thread moves, the clients stay in their blocks. -/
theorem inside_moveCamera (x : System) (frame : Option Frame) (owner : Option Owner)
    (camera : Camera) (written : List Frame) (o : Owner) :
    System.Inside ⟨frame, owner, camera, x.clients, written⟩ o ↔
      if o = .camera then camera.holds = true else x.Inside o := by
  cases o with
  | camera => simp [System.Inside]
  | client i => simp [System.Inside]

@[simp] theorem holds_wake (c : Client) : c.wake.stage.holds = c.stage.holds := by
  unfold Client.wake
  cases hstage : c.stage <;> simp [Stage.holds, hstage]

@[simp] theorem delivered_wake (c : Client) : c.wake.delivered = c.delivered := by
  unfold Client.wake
  cases c.stage <;> rfl

theorem inside_wake (x : System) (camera : Camera) (hcamera : camera.holds = x.camera.holds)
    (o : Owner) :
    System.Inside { x with camera := camera, clients := x.clients.map Client.wake } o ↔
      x.Inside o := by
  cases o with
  | camera => simp [System.Inside, hcamera]
  | client i => simp [System.Inside, List.getElem?_map]

/-- A new client is not in the block. -/
theorem inside_connect (x : System) (o : Owner) :
    System.Inside { x with clients := x.clients ++ [{}] } o ↔ x.Inside o := by
  cases o with
  | camera => rfl
  | client i =>
      simp only [System.Inside, List.getElem?_append]
      by_cases hi : i < x.clients.length
      · rw [if_pos hi]
      · rw [if_neg hi, List.getElem?_eq_none (Nat.le_of_not_lt hi)]
        cases hnew : i - x.clients.length <;> simp [Stage.holds]

/-- The lock has the owner that is in its block. -/
def Locked (x : System) : Prop := ∀ o, x.owner = some o ↔ x.Inside o

namespace Locked

variable {x x' : System}

theorem keep (hx : Locked x) (howner : x'.owner = x.owner)
    (hinside : ∀ o, x'.Inside o ↔ x.Inside o) : Locked x' :=
  fun o => by rw [howner, hinside o, hx o]

theorem take (hx : Locked x) (hfree : x.owner = none) (o : Owner) (howner : x'.owner = some o)
    (hinside : ∀ o', x'.Inside o' ↔ if o' = o then True else x.Inside o') : Locked x' := by
  intro o'
  rw [howner, hinside o', Option.some_inj]
  by_cases ho : o' = o
  · simp [ho]
  · rw [if_neg ho, ← hx o', hfree]
    simp [Ne.symm ho]

theorem free (hx : Locked x) {o : Owner} (ho : x.Inside o) (howner : x'.owner = none)
    (hinside : ∀ o', x'.Inside o' ↔ if o' = o then False else x.Inside o') : Locked x' := by
  intro o'
  rw [howner, hinside o']
  by_cases hoo : o' = o
  · simp [hoo]
  · rw [if_neg hoo, ← hx o', (hx o).mpr ho, Option.some_inj]
    simp [Ne.symm hoo]

/-- A client's move keeps the lock right. -/
theorem client (hx : Locked x) {i : ℕ} {c c' : Client} {owner : Option Owner}
    (hc : x.clients[i]? = some c) (hmoves : Moves x i c c' owner) :
    Locked (x.setClient i c' owner) := by
  have hinside := inside_setClient hc c' owner
  -- the block is entered with a free lock and left by its owner
  have hkeep (howner : owner = x.owner) (hholds : c'.stage.holds = c.stage.holds) :
      Locked (x.setClient i c' owner) := by
    refine hx.keep howner fun o => ?_
    rw [hinside o]
    split
    · next ho => rw [ho, hholds]; simp [System.Inside, hc]
    · rfl
  have htake (hfree : x.owner = none) (howner : owner = some (.client i))
      (hholds : c'.stage.holds = true) : Locked (x.setClient i c' owner) :=
    hx.take hfree (.client i) howner fun o => by rw [hinside o, hholds]; simp
  have hrelease (hholds : c.stage.holds = true) (howner : owner = none)
      (hholds' : c'.stage.holds = false) : Locked (x.setClient i c' owner) :=
    hx.free (o := .client i) ⟨c, hc, hholds⟩ howner fun o => by rw [hinside o, hholds']; simp
  cases hmoves with
  | enter hstage hfree => exact htake hfree rfl rfl
  | wait hstage => exact hrelease (by rw [hstage]; rfl) rfl rfl
  | reenter hstage hfree => exact htake hfree rfl rfl
  | read hstage => exact hkeep rfl (by rw [hstage]; rfl)
  | leave hstage => exact hrelease (by rw [hstage]; rfl) rfl rfl
  | raise hstage => exact hrelease (by rw [hstage]; rfl) rfl rfl
  | write hstage => exact hkeep rfl (by rw [hstage]; rfl)
  | deliver hstage => exact hkeep rfl (by rw [hstage]; rfl)
  | drop hstage sent => exact hkeep rfl (by rw [hstage]; rfl)

theorem step (hx : Locked x) (h : Change x x') : Locked x' := by
  cases h with
  | capture buf hcamera =>
      refine hx.keep rfl fun o => (inside_moveCamera x _ _ _ _ o).trans ?_
      cases o <;> simp [System.Inside, hcamera, Camera.holds]
  | enter hcamera hfree =>
      exact hx.take hfree .camera rfl fun o =>
        (inside_moveCamera x _ _ _ _ o).trans (by simp [Camera.holds])
  | store hcamera =>
      refine hx.keep rfl fun o => (inside_moveCamera x _ _ _ _ o).trans ?_
      cases o <;> simp [System.Inside, hcamera, Camera.holds]
  | notify hcamera =>
      exact hx.keep rfl (inside_wake x .notified (by rw [hcamera]; rfl))
  | release hcamera =>
      refine hx.free (o := .camera) (by rw [System.Inside, hcamera]; rfl) rfl fun o =>
        (inside_moveCamera x _ _ _ _ o).trans (by simp [Camera.holds])
  | connect => exact hx.keep rfl (inside_connect x)
  | client hc hmoves => exact hx.client hc hmoves

end Locked

end StreamingOutput
