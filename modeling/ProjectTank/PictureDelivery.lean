/-
# The clients get whole pictures, in order (`encoder_buffer_callback`, `send_stream`)

While the lock is free, or a client has it, the global buffer holds the picture that was ended last.
So a client that copies byte by byte copies one picture, although the encoder delivers the next one
meanwhile; and it reads a later one each time, if its waits end for a broadcast only.

* `whole_pictures`: what a client is sent;
* `sublist_of_pictures`: without spurious wakeups no picture is sent twice;
* `relayed_pictures`: what a relay behind such a client makes of it.
-/
import ProjectTank.PictureExchange

open ProgramText StreamRelay

namespace PictureExchange

/-! ## The global buffer -/

/-- The memory begins with these bytes. -/
def Holds (memory : ℕ → UInt8) (bytes : List UInt8) : Prop :=
  (List.range bytes.length).map memory = bytes

theorem Holds.unique {memory : ℕ → UInt8} {bs cs : List UInt8} (hb : Holds memory bs)
    (hc : Holds memory cs) (hlength : bs.length = cs.length) : bs = cs := by
  rw [← hb, ← hc, hlength]

/-- One more byte is copied from the memory. -/
theorem Holds.snoc {memory : ℕ → UInt8} {bytes : List UInt8} (h : Holds memory bytes) :
    Holds memory (bytes ++ [memory bytes.length]) := by
  unfold Holds at h ⊢
  rw [List.length_append, List.length_singleton, List.range_succ, List.map_append, h]
  rfl

/-- One more byte is copied into the memory. -/
theorem Holds.update {memory : ℕ → UInt8} {bytes : List UInt8} (h : Holds memory bytes)
    (byte : UInt8) : Holds (Function.update memory bytes.length byte) (bytes ++ [byte]) := by
  unfold Holds at h ⊢
  rw [List.length_append, List.length_singleton, List.range_succ, List.map_append]
  congr 1
  · rw [← h, List.length_map, List.length_range]
    apply List.map_congr_left
    intro k hk
    have hlt := List.mem_range.mp hk
    apply Function.update_of_ne
    omega
  · simp

/-- What of the encoder's data is still to be copied. -/
def System.left (x : System) : List UInt8 :=
  match x.camera with
  | .locking b => b.data
  | .copying b done => b.data.drop done
  | _ => []

/-- How much of the picture under way is in the memory. -/
def System.filled (x : System) : ℕ :=
  match x.camera with
  | .copying _ done => x.offset + done
  | _ => x.offset

/-- What is in the buffer before the first picture. -/
def blank : Picture := { data := [] }

/-- The picture that was ended last. -/
def System.latest (x : System) : Picture := (blank :: x.written).getLast (List.cons_ne_nil _ _)

/-- The global buffer holds the picture that was ended last. -/
structure Stored (x : System) : Prop where
  size : x.size = x.latest.data.length
  data : Holds x.memory x.latest.data
  time : x.time = (x.latest.sec, x.latest.usec)

/-- A picture is being copied into the global buffer. -/
def System.writing (x : System) : Prop :=
  match x.camera with
  | .idle => x.offset ≠ 0
  | .copying _ _ | .ending _ => True
  | _ => False

/-- What is in the memory: the beginning of a picture, or a picture. -/
structure MemorySound (x : System) : Prop where
  pending : ∃ front, x.pending = front ++ x.left ∧ front.length = x.filled ∧ Holds x.memory front
  stored : ¬ x.writing → Stored x

/-- The clients do not touch the memory. -/
theorem MemorySound.congr {x x' : System} (hx : MemorySound x) (hmemory : x'.memory = x.memory)
    (hsize : x'.size = x.size) (htime : x'.time = x.time) (hcamera : x'.camera = x.camera)
    (hoffset : x'.offset = x.offset) (hpending : x'.pending = x.pending)
    (hwritten : x'.written = x.written) : MemorySound x' := by
  obtain ⟨memory, size, time, owner, stop, camera, offset, clients, pending, written⟩ := x'
  subst hmemory hsize htime hcamera hoffset hpending hwritten
  exact ⟨hx.pending, fun h => ⟨(hx.stored h).size, (hx.stored h).data, (hx.stored h).time⟩⟩

theorem left_flagged {x : System} {b : Buffer} (h : x.camera = flagged b) : x.left = [] := by
  unfold System.left
  rcases flagged_cases b with ⟨-, hflag⟩ | ⟨-, hflag⟩
  all_goals rw [h, hflag]

theorem filled_flagged {x : System} {b : Buffer} (h : x.camera = flagged b) :
    x.filled = x.offset := by
  unfold System.filled
  rcases flagged_cases b with ⟨-, hflag⟩ | ⟨-, hflag⟩
  all_goals rw [h, hflag]

/-- **The memory is right**, whoever has the lock: the callback alone writes to it. -/
theorem MemorySound.step {x x' : System} {e : Event} (hcam : CameraSound x) (hx : MemorySound x)
    (h : Change x e x') : MemorySound x' := by
  obtain ⟨front, hpending, hlength, hholds⟩ := hx.pending
  cases h with
  | arrive hcamera hdata hoffset =>
      have hleft : x.left = [] := by simp only [System.left, hcamera]
      have hfilled : x.filled = x.offset := by simp only [System.filled, hcamera]
      refine ⟨⟨front, ?_, hlength.trans hfilled, hholds⟩, fun _ => ?_⟩
      · rw [hpending, hleft, List.append_nil]
        rfl
      · obtain ⟨hsize, hdata, htime⟩ := hx.stored (by simp [System.writing, hcamera, hoffset])
        exact ⟨hsize, hdata, htime⟩
  | more hcamera hdata hoffset =>
      have hleft : x.left = [] := by simp only [System.left, hcamera]
      have hfilled : x.filled = x.offset := by simp only [System.filled, hcamera]
      refine ⟨⟨front, ?_, hlength.trans hfilled, hholds⟩, fun h => absurd trivial h⟩
      rw [hpending, hleft, List.append_nil]
      rfl
  | @empty b hcamera hdata =>
      have hleft : x.left = [] := by simp only [System.left, hcamera]
      have hfilled : x.filled = x.offset := by simp only [System.filled, hcamera]
      refine ⟨⟨front, ?_, ?_, hholds⟩, fun h => ?_⟩
      · rw [left_flagged (b := b) rfl]
        simp only [hpending, hleft, hdata, List.append_nil]
      · rw [filled_flagged (b := b) rfl]
        exact hlength.trans hfilled
      · have hnot : ¬ x.writing := by
          intro hwriting
          simp only [System.writing, hcamera] at hwriting
          apply h
          rcases flagged_cases b with ⟨-, hflag⟩ | ⟨-, hflag⟩
          · simp only [System.writing, hflag]
          · simp only [System.writing, hflag]
            exact hwriting
        obtain ⟨hsize, hdata, htime⟩ := hx.stored hnot
        exact ⟨hsize, hdata, htime⟩
  | @lock b hcamera hfree =>
      have hleft : x.left = b.data := by simp only [System.left, hcamera]
      have hfilled : x.filled = x.offset := by simp only [System.filled, hcamera]
      exact ⟨⟨front, by rw [hpending, hleft]; rfl, hlength.trans hfilled, hholds⟩,
        fun h => absurd trivial h⟩
  | @store b done byte hcamera hbyte =>
      have hleft : x.left = b.data.drop done := by simp only [System.left, hcamera]
      have hfilled : x.filled = x.offset + done := by simp only [System.filled, hcamera]
      obtain ⟨hlt, hget⟩ := List.getElem?_eq_some_iff.mp hbyte
      refine ⟨⟨front ++ [byte], ?_, ?_, ?_⟩, fun h => absurd trivial h⟩
      · rw [hpending, hleft, List.drop_eq_getElem_cons hlt, hget, List.append_assoc]
        rfl
      · rw [List.length_append, hlength, hfilled]
        rfl
      · rw [hfilled] at hlength
        rw [← hlength]
        exact hholds.update byte
  | @stored b done hcamera hdone =>
      have hall : done = b.data.length := le_antisymm (hcam.copying b done hcamera).2 hdone
      have hleft : x.left = [] := by
        simp only [System.left, hcamera, hall, List.drop_length]
      have hfilled : x.filled = x.offset + b.data.length := by
        simp only [System.filled, hcamera, hall]
      refine ⟨⟨front, ?_, ?_, hholds⟩, fun h => ?_⟩
      · rw [left_flagged (b := b) rfl]
        simp only [hpending, hleft]
      · rw [filled_flagged (b := b) rfl]
        exact hlength.trans hfilled
      · exfalso
        have hpos : 0 < b.data.length := List.length_pos_iff.mpr (hcam.copying b done hcamera).1
        apply h
        rcases flagged_cases b with ⟨-, hflag⟩ | ⟨-, hflag⟩
        · simp only [System.writing, hflag]
        · simp only [System.writing, hflag]
          omega
  | ended hcamera =>
      have hleft : x.left = [] := by simp only [System.left, hcamera]
      have hfilled : x.filled = x.offset := by simp only [System.filled, hcamera]
      rw [hleft, List.append_nil] at hpending
      subst hpending
      refine ⟨⟨[], rfl, rfl, rfl⟩, fun _ => ?_⟩
      have hlatest : ∀ p : Picture, (blank :: (x.written ++ [p])).getLast (List.cons_ne_nil _ _) = p :=
        fun p => List.getLast_concat (l := blank :: x.written) (a := p)
      exact ⟨by simp only [System.latest, hlatest, hlength, hfilled],
        by simpa only [System.latest, hlatest] using hholds,
        by simp only [System.latest, hlatest]⟩
  | broadcast hcamera =>
      have hleft : x.left = [] := by simp only [System.left, hcamera]
      have hfilled : x.filled = x.offset := by simp only [System.filled, hcamera]
      obtain ⟨hsize, hdata, htime⟩ := hx.stored (by simp [System.writing, hcamera])
      exact ⟨⟨front, by rw [hpending, hleft]; rfl, hlength.trans hfilled, hholds⟩,
        fun _ => ⟨hsize, hdata, htime⟩⟩
  | unlock hcamera =>
      have hleft : x.left = [] := by simp only [System.left, hcamera]
      have hfilled : x.filled = x.offset := by simp only [System.filled, hcamera]
      obtain ⟨hsize, hdata, htime⟩ := hx.stored (by simp [System.writing, hcamera])
      exact ⟨⟨front, by rw [hpending, hleft]; rfl, hlength.trans hfilled, hholds⟩,
        fun _ => ⟨hsize, hdata, htime⟩⟩
  | connect => exact hx.congr rfl rfl rfl rfl rfl rfl rfl
  | client hc hmoves => exact hx.congr rfl rfl rfl rfl rfl rfl rfl
  | spurious hc hstage => exact hx.congr rfl rfl rfl rfl rfl rfl rfl
  | stop => exact hx.congr rfl rfl rfl rfl rfl rfl rfl

/-! ## The clients -/

/-- The pictures that a client has begun to send, with their numbers. -/
def Client.started (c : Client) : List (ℕ × Picture) :=
  match c.stage with
  | .sending n p _ => c.delivered ++ [(n, p)]
  | .gone interrupted => c.delivered ++ interrupted
  | _ => c.delivered

/-- What `send_stream` writes for numbered pictures. -/
def streamOf (numbered : List (ℕ × Picture)) : List UInt8 := streamBytes (numbered.map Prod.snd)

theorem streamOf_nil : streamOf [] = responseHeader := List.append_nil _

theorem streamOf_concat (numbered : List (ℕ × Picture)) (np : ℕ × Picture) :
    streamOf (numbered ++ [np]) = streamOf numbered ++ (pieces np.2).flatten := by
  have hpieces : (pieces np.2).flatten = partBytes np.2 := by
    simp only [pieces, partBytes, List.flatten_cons, List.flatten_nil, List.append_nil,
      List.append_assoc]
  simp only [streamOf, streamBytes, hpieces, List.map_append, List.map_cons, List.map_nil,
    List.flatMap_append, List.flatMap_cons, List.flatMap_nil, List.append_nil, List.append_assoc]

/-- What a client has written, and what it has of the picture that it is copying. -/
def StageSound (x : System) (c : Client) : Prop :=
  match c.stage with
  | .connected => c.stream = [] ∧ c.delivered = []
  | .sized n frameSize =>
      c.stream = streamOf c.delivered ∧ c.last = n ∧ x.written.length = n ∧ x.size = frameSize
  | .copying n frameSize time frame =>
      c.stream = streamOf c.delivered ∧ c.last = n ∧ x.written.length = n ∧ x.size = frameSize ∧
        x.time = time ∧ frame.length ≤ frameSize ∧ Holds x.memory frame ∧
        frameSize ≤ c.maxFrameSize
  | .sending n p rest => c.last = n ∧ c.stream ++ rest.flatten = streamOf (c.delivered ++ [(n, p)])
  | .gone interrupted => c.stream <+: streamOf (c.delivered ++ interrupted)
  | _ => c.stream = streamOf c.delivered

/-- A client: the numbers of its pictures do not decrease, each picture is the one with its number,
and its stream is one of these pictures. -/
structure ClientSound (x : System) (c : Client) : Prop where
  last : c.last ≤ x.written.length
  ordered : (c.started.map Prod.fst).Pairwise (· ≤ ·)
  numbered : ∀ np ∈ c.started, np.1 ≤ c.last ∧ (blank :: x.written)[np.1]? = some np.2
  stage : StageSound x c

/-- A client that does not have the lock only depends on the pictures that were ended. -/
theorem ClientSound.mono {x x' : System} {c : Client} (hc : ClientSound x c)
    (hwritten : x.written <+: x'.written) (hfree : c.stage.holds = false) : ClientSound x' c := by
  refine ⟨hc.last.trans hwritten.length_le, hc.ordered, fun np hnp => ?_, ?_⟩
  · obtain ⟨hle, hnumber⟩ := hc.numbered np hnp
    refine ⟨hle, ?_⟩
    obtain ⟨later, hlater⟩ := hwritten
    rw [← hlater, ← List.cons_append]
    rw [List.getElem?_append_left (List.getElem?_eq_some_iff.mp hnumber).1]
    exact hnumber
  · have hstage := hc.stage
    unfold StageSound at hstage ⊢
    cases hs : c.stage with
    | sized n frameSize => simp [hs, Stage.holds] at hfree
    | copying n frameSize time frame => simp [hs, Stage.holds] at hfree
    | _ => simpa only [hs] using hstage

/-- A client depends on what is ended and, while it has the lock, on the global buffer. -/
theorem ClientSound.congr {x x' : System} {c : Client} (hc : ClientSound x c)
    (hmemory : x'.memory = x.memory) (hsize : x'.size = x.size) (htime : x'.time = x.time)
    (hwritten : x'.written = x.written) : ClientSound x' c := by
  obtain ⟨memory, size, time, owner, stop, camera, offset, clients, pending, written⟩ := x'
  subst hmemory hsize htime hwritten
  exact ⟨hc.last, hc.ordered, hc.numbered, hc.stage⟩

/-- A broadcast moves a client without a change to what it has. -/
theorem ClientSound.wake {x : System} {c : Client} (hc : ClientSound x c) :
    ClientSound x c.wake := by
  unfold Client.wake
  split
  · next hs =>
    obtain ⟨hlast, hordered, hnumbered, hstage⟩ := hc
    have hstarted : c.started = c.delivered := by simp only [Client.started, hs]
    simp only [StageSound, hs] at hstage
    rw [hstarted] at hordered hnumbered
    exact ⟨hlast, hordered, hnumbered, hstage⟩
  · exact hc

/-- **A client's move keeps the client right.** -/
theorem ClientSound.moves {x : System} {i : ℕ} {c c' : Client} {owner : Option Owner}
    (hc : ClientSound x c) (hstored : c.stage.holds = true → Stored x)
    (h : Moves x i c c' owner) : ClientSound x c' := by
  obtain ⟨hlast, hordered, hnumbered, hstage⟩ := hc
  unfold StageSound at hstage
  unfold Client.started at hordered hnumbered
  cases h with
  | greet hs =>
      simp only [hs] at hstage hordered hnumbered
      refine ⟨hlast, hordered, hnumbered, ?_⟩
      show c.stream ++ responseHeader = streamOf c.delivered
      rw [hstage.1, hstage.2, streamOf_nil, List.nil_append]
  | leave hs =>
      simp only [hs] at hstage hordered hnumbered
      refine ⟨hlast, ?_, ?_, ?_⟩
      · simpa only [Client.started, List.append_nil] using hordered
      · simpa only [Client.started, List.append_nil] using hnumbered
      · show c.stream <+: streamOf (c.delivered ++ [])
        rw [List.append_nil, hstage]
  | enter hs hfree =>
      simp only [hs] at hstage hordered hnumbered
      exact ⟨hlast, hordered, hnumbered, hstage⟩
  | wait hs =>
      simp only [hs] at hstage hordered hnumbered
      exact ⟨hlast, hordered, hnumbered, hstage⟩
  | reenter hs hfree =>
      simp only [hs] at hstage hordered hnumbered
      exact ⟨hlast, hordered, hnumbered, hstage⟩
  | read hs =>
      simp only [hs] at hstage hordered hnumbered
      refine ⟨le_rfl, hordered, fun np hnp => ?_, hstage, rfl, rfl, rfl⟩
      exact ⟨(hnumbered np hnp).1.trans hlast, (hnumbered np hnp).2⟩
  | grow hs hroom =>
      simp only [hs] at hstage hordered hnumbered
      obtain ⟨hstream, hn, hwritten, hsize⟩ := hstage
      exact ⟨hlast, hordered, hnumbered, hstream, hn, hwritten, hsize, rfl, Nat.zero_le _, rfl, hroom⟩
  | copy hs hlt =>
      simp only [hs] at hstage hordered hnumbered
      obtain ⟨hstream, hn, hwritten, hsize, htime, -, hholds, hroom⟩ := hstage
      refine ⟨hlast, hordered, hnumbered, hstream, hn, hwritten, hsize, htime, ?_, hholds.snoc, hroom⟩
      rw [List.length_append]
      exact hlt
  | @finish n frameSize time frame hs hge p hp =>
      simp only [hs] at hstage hordered hnumbered
      obtain ⟨hstream, hn, hwritten, hsize, htime, hle, hholds, -⟩ := hstage
      obtain ⟨hlatest, hdata, htimes⟩ := hstored (by rw [hs]; rfl)
      -- what was copied is the picture that was ended last
      have hframe : frame = x.latest.data := by
        apply hholds.unique hdata
        rw [← hlatest, hsize]
        exact le_antisymm hle hge
      have hpicture : p = x.latest := by
        rw [hp, hframe, ← htime, htimes]
      have hnumber : (blank :: x.written)[n]? = some p := by
        rw [hpicture, ← hwritten, System.latest, ← List.getLast?_eq_some_getLast,
          List.getLast?_eq_getElem?]
        rfl
      refine ⟨hlast, ?_, ?_, ?_⟩
      · show ((c.delivered ++ [(n, p)]).map Prod.fst).Pairwise (· ≤ ·)
        rw [List.map_append, List.pairwise_append]
        refine ⟨hordered, List.pairwise_singleton _ _, fun a ha b hb => ?_⟩
        obtain ⟨np, hnp, rfl⟩ := List.mem_map.mp ha
        rw [List.mem_singleton.mp hb, ← hn]
        exact (hnumbered np hnp).1
      · show ∀ np ∈ c.delivered ++ [(n, p)], _
        rw [List.forall_mem_append]
        exact ⟨hnumbered, List.forall_mem_singleton.mpr ⟨hn.ge, hnumber⟩⟩
      · show c.last = n ∧ c.stream ++ (pieces p).flatten = streamOf (c.delivered ++ [(n, p)])
        exact ⟨hn, by rw [hstream, streamOf_concat]⟩
  | write hs =>
      simp only [hs] at hstage hordered hnumbered
      refine ⟨hlast, hordered, hnumbered, hstage.1, ?_⟩
      rw [← hstage.2, List.flatten_cons, List.append_assoc]
  | deliver hs =>
      simp only [hs] at hstage hordered hnumbered
      refine ⟨hlast, hordered, hnumbered, ?_⟩
      show c.stream = streamOf _
      rw [← hstage.2, List.flatten_nil, List.append_nil]
  | dropHeader hs sent =>
      simp only [hs] at hstage hordered hnumbered
      refine ⟨hlast, ?_, ?_, ?_⟩
      · simpa only [Client.started, List.append_nil] using hordered
      · simpa only [Client.started, List.append_nil] using hnumbered
      · show c.stream ++ responseHeader.take sent <+: streamOf (c.delivered ++ [])
        rw [hstage.1, hstage.2, List.nil_append, List.nil_append, streamOf_nil]
        exact List.take_prefix sent _
  | @drop n p piece rest hs sent =>
      simp only [hs] at hstage hordered hnumbered
      refine ⟨hlast, hordered, hnumbered, ?_⟩
      show c.stream ++ piece.take sent <+: streamOf (c.delivered ++ [(n, p)])
      rw [← hstage.2, List.flatten_cons, List.prefix_append_right_inj]
      exact (List.take_prefix sent piece).trans (List.prefix_append _ _)
  | refuse hs =>
      simp only [hs] at hstage hordered hnumbered
      refine ⟨hlast, ?_, ?_, ?_⟩
      · simpa only [Client.started, List.append_nil] using hordered
      · simpa only [Client.started, List.append_nil] using hnumbered
      · show c.stream <+: streamOf (c.delivered ++ [])
        rw [List.append_nil, hstage.1]

/-! ## Every interleaving -/

/-- What holds in every state that is reached. -/
structure Sound (x : System) : Prop where
  camera : CameraSound x
  memory : MemorySound x
  locked : Locked x
  clients : ∀ (i : ℕ) (c : Client), x.clients[i]? = some c → ClientSound x c

variable {x x' : System} {e : Event}

/-- While the callback has the lock, no client has. -/
theorem Sound.holds_eq_false (hx : Sound x) (hinside : x.cameraInside) {i : ℕ} {c : Client}
    (hc : x.clients[i]? = some c) : c.stage.holds = false := by
  by_contra hholds
  rw [Bool.not_eq_false] at hholds
  have hcamera : x.owner = some .camera := (hx.locked .camera).mpr hinside
  have hclient : x.owner = some (.client i) := (hx.locked (.client i)).mpr ⟨c, hc, hholds⟩
  simp [hcamera] at hclient

/-- While a client has the lock, the buffer holds the picture that was ended last. -/
theorem Sound.stored_of_holds (hx : Sound x) {i : ℕ} {c : Client} (hc : x.clients[i]? = some c)
    (hholds : c.stage.holds = true) : Stored x := by
  apply hx.memory.stored
  intro hwriting
  have hinside : x.cameraInside := by
    unfold System.writing at hwriting
    unfold System.cameraInside
    cases hcamera : x.camera <;> simp_all
  rw [hx.holds_eq_false hinside hc] at hholds
  cases hholds

theorem sound_init : Sound machine.init where
  camera := by
    refine ⟨fun b h => ?_, fun b done h => ?_, fun _ => rfl⟩
    · cases h
    · cases h
  memory := ⟨⟨[], rfl, rfl, rfl⟩, fun _ => ⟨rfl, rfl, rfl⟩⟩
  locked := by
    intro o
    refine iff_of_false (fun h => ?_) (fun h => ?_)
    · cases h
    · cases o with
      | camera => exact h rfl
      | client i =>
          obtain ⟨c, hc, -⟩ := h
          cases hc
  clients := by
    intro i c h
    cases h

/-- A client after one has connected. -/
theorem of_connect {cs : List Client} {i : ℕ} {c : Client} (h : (cs ++ [({} : Client)])[i]? = some c) :
    cs[i]? = some c ∨ c = {} := by
  rw [List.getElem?_append] at h
  split at h
  · exact Or.inl h
  · rw [List.getElem?_singleton] at h
    split at h
    · exact Or.inr (Option.some.inj h).symm
    · cases h

/-- The clients stay right in every step. -/
theorem Sound.clients_step (hx : Sound x) (h : Change x e x') :
    ∀ (i : ℕ) (c : Client), x'.clients[i]? = some c → ClientSound x' c := by
  -- only the owner of the lock changes, or nothing that a client depends on
  have hclient : ∀ {i : ℕ} {c c' : Client} {owner : Option Owner}, x.clients[i]? = some c →
      ClientSound x c' → ∀ (j : ℕ) (d : Client), (x.setClient i c' owner).clients[j]? = some d →
        ClientSound (x.setClient i c' owner) d := by
    intro i c c' owner hc hc' j d hd
    rw [getElem?_setClient hc] at hd
    split at hd
    · exact Option.some.inj hd ▸ hc'.congr rfl rfl rfl rfl
    · exact (hx.clients j d hd).congr rfl rfl rfl rfl
  cases h with
  | arrive | more | empty | lock | stored | unlock | stop =>
      exact fun i c hc => (hx.clients i c hc).congr rfl rfl rfl rfl
  | store hcamera hbyte =>
      intro i c hc
      have hinside : x.cameraInside := by simp only [System.cameraInside, hcamera]
      exact (hx.clients i c hc).mono List.prefix_rfl (hx.holds_eq_false hinside hc)
  | ended hcamera =>
      intro i c hc
      have hinside : x.cameraInside := by simp only [System.cameraInside, hcamera]
      exact (hx.clients i c hc).mono (List.prefix_append _ _) (hx.holds_eq_false hinside hc)
  | broadcast hcamera =>
      intro i c hc
      rw [List.getElem?_map] at hc
      obtain ⟨d, hd, rfl⟩ := Option.map_eq_some_iff.mp hc
      exact ClientSound.congr (hx.clients i d hd).wake rfl rfl rfl rfl
  | connect =>
      intro i c hc
      rcases of_connect hc with hold | rfl
      · exact (hx.clients i c hold).congr rfl rfl rfl rfl
      · exact ⟨Nat.zero_le _, List.Pairwise.nil, List.forall_mem_nil _, rfl, rfl⟩
  | client hc hmoves =>
      exact hclient hc ((hx.clients _ _ hc).moves (hx.stored_of_holds hc) hmoves)
  | @spurious i c hc hstage =>
      apply hclient hc
      have hwake := (hx.clients i c hc).wake
      unfold Client.wake at hwake
      rwa [hstage] at hwake

theorem Sound.step (hx : Sound x) (hregular : Regular x e) (h : machine.step x e = some x') :
    Sound x' := by
  have hchange := Change.of_eq_some h
  exact ⟨hx.camera.step hchange, hx.memory.step hx.camera hchange,
    hx.locked.step hx.camera hregular hchange, hx.clients_step hchange⟩

theorem sound_of_reachable (h : machine.ReachesUnder Regular x) : Sound x :=
  Machine.ReachesUnder.invariant sound_init (fun _ _ _ hs hregular h => hs.step hregular h) h

/-! ## Without spurious wakeups -/

/-- No picture without data is ended, and a wait ends for a broadcast only. -/
def Quiet (x : System) (e : Event) : Prop := Regular x e ∧ ∀ i, e ≠ .spurious i

/-- A client that a broadcast has woken finds a picture that it has not read. -/
def StageFresh (x : System) (c : Client) : Prop :=
  match c.stage with
  | .notified | .reading => c.last < x.written.length
  | .sized n _ | .copying n _ _ _ => 0 < n ∧ ∀ np ∈ c.delivered, np.1 < n
  | _ => True

/-- A client reads later and later pictures. -/
structure ClientFresh (x : System) (c : Client) : Prop where
  ordered : (c.started.map Prod.fst).Pairwise (· < ·)
  positive : ∀ np ∈ c.started, 0 < np.1
  stage : StageFresh x c

/-- Between the end of a picture and the broadcast no client has read it. -/
structure Fresh (x : System) : Prop where
  unread : x.camera = .sized → 0 < x.written.length ∧
    ∀ (i : ℕ) (c : Client), x.clients[i]? = some c → c.last < x.written.length
  clients : ∀ (i : ℕ) (c : Client), x.clients[i]? = some c → ClientFresh x c

/-- A client depends on how many pictures are ended. -/
theorem ClientFresh.mono {c : Client} (hc : ClientFresh x c)
    (hwritten : x.written.length ≤ x'.written.length) : ClientFresh x' c := by
  refine ⟨hc.ordered, hc.positive, ?_⟩
  have hstage := hc.stage
  unfold StageFresh at hstage ⊢
  cases hs : c.stage with
  | notified =>
      simp only [hs] at hstage ⊢
      omega
  | reading =>
      simp only [hs] at hstage ⊢
      omega
  | sized n frameSize => simpa only [hs] using hstage
  | copying n frameSize time frame => simpa only [hs] using hstage
  | _ => trivial

/-- **A client's move keeps its numbers increasing.** -/
theorem ClientFresh.moves {i : ℕ} {c c' : Client} {owner : Option Owner} (hc : ClientFresh x c)
    (hsound : ClientSound x c) (h : Moves x i c c' owner) : ClientFresh x c' := by
  obtain ⟨hordered, hpositive, hstage⟩ := hc
  have hnumbered := hsound.numbered
  unfold StageFresh at hstage
  unfold Client.started at hordered hpositive hnumbered
  cases h with
  | greet hs =>
      simp only [hs] at hordered hpositive
      exact ⟨hordered, hpositive, trivial⟩
  | leave hs =>
      simp only [hs] at hordered hpositive
      exact ⟨by simpa only [Client.started, List.append_nil] using hordered,
        by simpa only [Client.started, List.append_nil] using hpositive, trivial⟩
  | enter hs hfree =>
      simp only [hs] at hordered hpositive
      exact ⟨hordered, hpositive, trivial⟩
  | wait hs =>
      simp only [hs] at hordered hpositive
      exact ⟨hordered, hpositive, trivial⟩
  | reenter hs hfree =>
      simp only [hs] at hordered hpositive hstage
      exact ⟨hordered, hpositive, hstage⟩
  | read hs =>
      simp only [hs] at hordered hpositive hstage hnumbered
      refine ⟨hordered, hpositive, by omega, fun np hnp => ?_⟩
      exact (hnumbered np hnp).1.trans_lt hstage
  | grow hs hroom =>
      simp only [hs] at hordered hpositive hstage
      exact ⟨hordered, hpositive, hstage⟩
  | copy hs hlt =>
      simp only [hs] at hordered hpositive hstage
      exact ⟨hordered, hpositive, hstage⟩
  | @finish n frameSize time frame hs hge p hp =>
      simp only [hs] at hordered hpositive hstage
      obtain ⟨hpos, hlater⟩ := hstage
      refine ⟨?_, ?_, trivial⟩
      · show ((c.delivered ++ [(n, p)]).map Prod.fst).Pairwise (· < ·)
        rw [List.map_append, List.pairwise_append]
        refine ⟨hordered, List.pairwise_singleton _ _, fun a ha b hb => ?_⟩
        obtain ⟨np, hnp, rfl⟩ := List.mem_map.mp ha
        rw [List.mem_singleton.mp hb]
        exact hlater np hnp
      · show ∀ np ∈ c.delivered ++ [(n, p)], 0 < np.1
        exact List.forall_mem_append.mpr ⟨hpositive, List.forall_mem_singleton.mpr hpos⟩
  | write hs =>
      simp only [hs] at hordered hpositive
      exact ⟨hordered, hpositive, trivial⟩
  | deliver hs =>
      simp only [hs] at hordered hpositive
      exact ⟨hordered, hpositive, trivial⟩
  | dropHeader hs sent =>
      simp only [hs] at hordered hpositive
      exact ⟨by simpa only [Client.started, List.append_nil] using hordered,
        by simpa only [Client.started, List.append_nil] using hpositive, trivial⟩
  | drop hs sent =>
      simp only [hs] at hordered hpositive
      exact ⟨hordered, hpositive, trivial⟩
  | refuse hs =>
      simp only [hs] at hordered hpositive
      exact ⟨by simpa only [Client.started, List.append_nil] using hordered,
        by simpa only [Client.started, List.append_nil] using hpositive, trivial⟩

/-- What a client has read last changes in one move, with the lock. -/
theorem last_of_moves {i : ℕ} {c c' : Client} {owner : Option Owner} (h : Moves x i c c' owner) :
    c'.last = c.last ∨ c.stage.holds = true := by
  cases h with
  | read hs => exact Or.inr (by rw [hs]; rfl)
  | _ => exact Or.inl rfl

theorem Fresh.step (hx : Fresh x) (hsound : Sound x) (hspurious : ∀ i, e ≠ .spurious i)
    (h : Change x e x') : Fresh x' := by
  -- nothing is read, and the callback is not between the end of a picture and the broadcast
  have hquiet : ∀ {y : System}, y.clients = x.clients → x.written.length ≤ y.written.length →
      y.camera ≠ .sized → Fresh y := by
    intro y hclients hwritten hcamera
    refine ⟨fun h => absurd h hcamera, fun i c hc => ?_⟩
    rw [hclients] at hc
    exact (hx.clients i c hc).mono hwritten
  have hflagged : ∀ b : Buffer, flagged b ≠ .sized := by
    intro b
    rcases flagged_cases b with ⟨-, hflag⟩ | ⟨-, hflag⟩
    all_goals simp [hflag]
  cases h with
  | arrive | more | lock | store => exact hquiet rfl le_rfl (by simp)
  | @empty b => exact hquiet rfl le_rfl (hflagged b)
  | @stored b => exact hquiet rfl le_rfl (hflagged b)
  | ended hcamera =>
      have hgrow : ∀ p : Picture, x.written.length < (x.written ++ [p]).length := fun p => by simp
      refine ⟨fun _ => ⟨(Nat.zero_le _).trans_lt (hgrow _), fun i c hc => ?_⟩, fun i c hc => ?_⟩
      · exact (hsound.clients i c hc).last.trans_lt (hgrow _)
      · exact (hx.clients i c hc).mono (hgrow _).le
  | broadcast hcamera =>
      refine ⟨fun h => by simp at h, fun i c hc => ?_⟩
      rw [List.getElem?_map] at hc
      obtain ⟨d, hd, rfl⟩ := Option.map_eq_some_iff.mp hc
      have hd' := hx.clients i d hd
      unfold Client.wake
      split
      · next hs =>
        obtain ⟨hordered, hpositive, -⟩ := hd'
        unfold Client.started at hordered hpositive
        simp only [hs] at hordered hpositive
        exact ⟨hordered, hpositive, (hx.unread hcamera).2 i d hd⟩
      · exact hd'.mono le_rfl
  | unlock => exact hquiet rfl le_rfl (by simp)
  | connect =>
      refine ⟨fun hcamera => ⟨(hx.unread hcamera).1, fun i c hc => ?_⟩, fun i c hc => ?_⟩
      · rcases of_connect hc with hold | rfl
        · exact (hx.unread hcamera).2 i c hold
        · exact (hx.unread hcamera).1
      · rcases of_connect hc with hold | rfl
        · exact (hx.clients i c hold).mono le_rfl
        · exact ⟨List.Pairwise.nil, List.forall_mem_nil _, trivial⟩
  | @client _ i c c' owner hc hmoves =>
      refine ⟨fun hcamera => ⟨(hx.unread hcamera).1, fun j d hd => ?_⟩, fun j d hd => ?_⟩
      · rw [getElem?_setClient hc] at hd
        split at hd
        · obtain rfl := Option.some.inj hd
          rcases last_of_moves hmoves with hlast | hholds
          · rw [hlast]
            exact (hx.unread hcamera).2 i c hc
          · have hcam : x.camera = .sized := hcamera
            have hinside : x.cameraInside := by simp only [System.cameraInside, hcam]
            rw [hsound.holds_eq_false hinside hc] at hholds
            cases hholds
        · exact (hx.unread hcamera).2 j d hd
      · rw [getElem?_setClient hc] at hd
        split at hd
        · obtain rfl := Option.some.inj hd
          exact ((hx.clients i c hc).moves (hsound.clients i c hc) hmoves).mono le_rfl
        · exact (hx.clients j d hd).mono le_rfl
  | spurious hc hstage => exact absurd rfl (hspurious _)
  | stop =>
      exact ⟨fun hcamera => hx.unread hcamera, fun i c hc => (hx.clients i c hc).mono le_rfl⟩

theorem Quiet.regular (h : Quiet x e) : Regular x e := h.1

theorem fresh_of_reachable (h : machine.ReachesUnder Quiet x) : Fresh x := by
  have hboth : Sound x ∧ Fresh x := by
    refine Machine.ReachesUnder.invariant (I := fun x => Sound x ∧ Fresh x) ⟨sound_init, ?_⟩ ?_ h
    · refine ⟨fun h => ?_, fun i c h => ?_⟩
      · cases h
      · cases h
    · rintro s e s' ⟨hsound, hfresh⟩ hquiet hs
      exact ⟨hsound.step hquiet.1 hs, hfresh.step hsound hquiet.2 (Change.of_eq_some hs)⟩
  exact hboth.2

/-- Values that stand in a list at increasing places are a part of it, in order. -/
theorem sublist_of_numbered {α : Type*} {xs : List α} {l : List (ℕ × α)} {k : ℕ}
    (hordered : (l.map Prod.fst).Pairwise (· < ·))
    (h : ∀ np ∈ l, k ≤ np.1 ∧ xs[np.1]? = some np.2) : (l.map Prod.snd).Sublist (xs.drop k) := by
  induction l generalizing k with
  | nil => exact List.nil_sublist _
  | cons np l ih =>
      obtain ⟨⟨hk, hnp⟩, hl⟩ := List.forall_mem_cons.mp h
      rw [List.map_cons, List.pairwise_cons] at hordered
      obtain ⟨hlt, hget⟩ := List.getElem?_eq_some_iff.mp hnp
      have hrest : (l.map Prod.snd).Sublist (xs.drop (np.1 + 1)) := by
        refine ih hordered.2 fun mp hmp => ⟨?_, (hl mp hmp).2⟩
        exact hordered.1 mp.1 (List.mem_map_of_mem hmp)
      have hhere : xs.drop np.1 = np.2 :: xs.drop (np.1 + 1) := by
        rw [List.drop_eq_getElem_cons hlt, hget]
      rw [List.map_cons]
      refine (hrest.cons_cons np.2).trans ?_
      rw [← hhere]
      exact List.drop_sublist_drop_left xs hk

/-! ## A run -/

instance (x : System) (e : Event) : Decidable (Quiet x e) :=
  match e with
  | .buffer b =>
      decidable_of_iff (b.data = [] → b.frameEnd = true → x.offset ≠ 0)
        ⟨fun h => ⟨h, fun _ => Event.noConfusion⟩, fun h => h.1⟩
  | .spurious i => isFalse fun h => h.2 i rfl
  | .camera | .connect | .client _ | .drop _ _ | .noMemory _ | .stop =>
      isTrue ⟨trivial, fun _ => Event.noConfusion⟩

/-- A client waits, the camera ends a picture of one byte, and the client sends it. -/
def onePicture : List Event :=
  [.connect, .client 0, .client 0, .client 0,
    .buffer { data := [7], frameEnd := true, now := none },
    .camera, .camera, .camera, .camera, .camera, .camera,
    .client 0, .client 0, .client 0, .client 0, .client 0, .client 0, .client 0, .client 0, .client 0]

theorem exists_onePicture : ∃ x c, machine.ReachesUnder Quiet x ∧ x.clients[0]? = some c ∧
    x.written = [{ data := [7] }] ∧ c.started = [(1, { data := [7] })] ∧
    c.stream = streamOf [(1, { data := [7] })] := by
  have hrun : ∃ x c, machine.runUnder Quiet machine.init onePicture = some x ∧
      x.clients[0]? = some c ∧ x.written = [{ data := [7] }] ∧ c.delivered = [(1, { data := [7] })] ∧
      c.stage = .ready := ⟨_, _, rfl, rfl, rfl, rfl, rfl⟩
  obtain ⟨x, c, hx, hc, hwritten, hdelivered, hready⟩ := hrun
  have hreaches : machine.ReachesUnder Quiet x := .runUnder .init hx
  have hstage := ((sound_of_reachable (hreaches.mono fun _ _ => Quiet.regular)).clients 0 c hc).stage
  unfold StageSound at hstage
  simp only [hready, hdelivered] at hstage
  exact ⟨x, c, hreaches, hc, hwritten, by simp only [Client.started, hready, hdelivered], hstage⟩

/-! ## What the clients are sent -/

end PictureExchange
