/-
# Frames for the clients

What a client of `/stream.mjpg` delivers, over every interleaving with the camera thread
and any number of other clients.

* `Inv.step`: a client that has been woken finds a frame newer than those it has
  delivered, and what it is sending is the frame of its number;
* `Due.step`: a client that waits while a frame is stored delivers that frame next, or a
  later one;
* `CanDeliver.of_onTheWay`: it is never stuck before it does;
* `frames_delivered_in_order`: all this, for every client of every run.
-/
import ProjectTank.StreamingOutput

open ProgramText DecimalText

namespace StreamingOutput

/-! ## What a client knows -/

theorem IsNumber.mono {written : List Frame} {n : ℕ} {frame : Frame}
    (h : IsNumber written n frame) (buf : Frame) : IsNumber (written ++ [buf]) n frame := by
  obtain ⟨hle, hlast⟩ := h
  refine ⟨by simp only [List.length_append]; omega, ?_⟩
  rw [List.take_append_of_le_length hle, hlast]

/-- Frame `n` is newer than all that `c` has delivered.  Number `0` is the initial `None`. -/
def Client.Newer (c : Client) (n : ℕ) : Prop := 0 < n ∧ ∀ d ∈ c.delivered, d.1 < n

/-- There is a frame that is newer than `None`. -/
theorem Client.Newer.exists_last {c : Client} {written : List Frame}
    (h : c.Newer written.length) : ∃ frame, written.getLast? = some frame := by
  refine Option.ne_none_iff_exists'.mp fun hnone => ?_
  rw [List.getLast?_eq_none_iff.mp hnone] at h
  exact Nat.lt_irrefl 0 h.1

/-- What a client at its place can rely on; `stored` says that the camera thread has stored a
frame and not woken the clients yet. -/
def Client.Knows (c : Client) (written : List Frame) (stored : Prop) : Prop :=
  match c.stage with
  | .waiting => stored → c.Newer written.length
  | .notified | .reading => c.Newer written.length
  | .leaving n frame? => ∃ frame, frame? = some frame ∧ IsNumber written n frame ∧ c.Newer n
  | .sending n frame _ => IsNumber written n frame ∧ c.Newer n
  | .ready | .inside | .gone => True

/-- What a client has sent for the frames that it has delivered. -/
def Client.whole (c : Client) : List UInt8 := c.delivered.flatMap fun d => (pieces d.2).flatten

/-- What a client has sent: whole frames, and a part of one more while it sends, or if that
was cut off. -/
def Client.Streams (c : Client) (written : List Frame) : Prop :=
  match c.stage with
  | .sending _ frame rest =>
      ∃ part, c.stream = c.whole ++ part ∧ part ++ rest.flatten = (pieces frame).flatten
  | .gone => ∃ n frame part, IsNumber written n frame ∧ c.Newer n ∧
      c.stream = c.whole ++ part ∧ part <+: (pieces frame).flatten
  | _ => c.stream = c.whole

/-- What holds for each client. -/
structure Client.Sound (c : Client) (written : List Frame) (stored : Prop) : Prop where
  increasing : c.delivered.Pairwise fun d d' => d.1 < d'.1
  numbers : ∀ d ∈ c.delivered, IsNumber written d.1 d.2
  knows : c.Knows written stored
  streams : c.Streams written

namespace Client.Sound

variable {c : Client} {written : List Frame} {stored : Prop}

/-- What a client knows while no frame is stored, it knows in any case. -/
theorem unstored (h : c.Sound written stored) {stored' : Prop} (hstored : stored' → stored) :
    c.Sound written stored' := by
  refine ⟨h.increasing, h.numbers, ?_, h.streams⟩
  have hknows := h.knows
  unfold Client.Knows at hknows ⊢
  cases hstage : c.stage with
  | waiting =>
      rw [hstage] at hknows
      exact fun hs => hknows (hstored hs)
  | _ =>
      rw [hstage] at hknows
      exact hknows

/-- A new frame is newer than all that any client has delivered. -/
theorem newer_length (h : c.Sound written stored) (buf : Frame) :
    c.Newer (written ++ [buf]).length := by
  rw [List.length_append, List.length_singleton]
  refine ⟨by omega, fun d hd => ?_⟩
  have := (h.numbers d hd).1
  omega

/-- A frame is stored. -/
theorem store (h : c.Sound written stored) (buf : Frame) (stored' : Prop) :
    c.Sound (written ++ [buf]) stored' := by
  have hnew := h.newer_length buf
  obtain ⟨hincreasing, hnumbers, hknows, hstreams⟩ := h
  refine ⟨hincreasing, fun d hd => (hnumbers d hd).mono buf, ?_, ?_⟩
  · unfold Client.Knows at hknows ⊢
    cases hstage : c.stage with
    | waiting => exact fun _ => hnew
    | notified => exact hnew
    | reading => exact hnew
    | leaving n frame =>
        rw [hstage] at hknows
        obtain ⟨frame, heq, hnumber, hnewer⟩ := hknows
        exact ⟨frame, heq, hnumber.mono buf, hnewer⟩
    | sending n frame rest =>
        rw [hstage] at hknows
        exact ⟨hknows.1.mono buf, hknows.2⟩
    | _ => trivial
  · unfold Client.Streams at hstreams ⊢
    cases hstage : c.stage with
    | gone =>
        rw [hstage] at hstreams
        obtain ⟨n, frame, part, hnumber, hrest⟩ := hstreams
        exact ⟨n, frame, part, hnumber.mono buf, hrest⟩
    | _ => simpa only [hstage] using hstreams

/-- `notify_all`. -/
theorem wake (h : c.Sound written True) (stored : Prop) : c.wake.Sound written stored := by
  cases hstage : c.stage with
  | waiting =>
      have hwake : c.wake = { c with stage := .notified } := by simp [Client.wake, hstage]
      obtain ⟨hincreasing, hnumbers, hknows, hstreams⟩ := h
      rw [hwake]
      simp only [Client.Knows, hstage] at hknows
      simp only [Client.Streams, hstage] at hstreams
      exact ⟨hincreasing, hnumbers, hknows trivial, hstreams⟩
  | _ =>
      have hwake : c.wake = c := by simp [Client.wake, hstage]
      rw [hwake]
      exact h.unstored fun _ => trivial

/-- A client that has just connected. -/
theorem connect (written : List Frame) (stored : Prop) :
    Client.Sound {} written stored :=
  ⟨List.Pairwise.nil, fun _ hd => absurd hd (List.not_mem_nil), trivial, rfl⟩

/-- A client that leaves its block has read a frame. -/
theorem leaving (h : c.Sound written stored) {n : ℕ} {frame? : Option Frame}
    (hstage : c.stage = .leaving n frame?) :
    ∃ frame, frame? = some frame ∧ IsNumber written n frame ∧ c.Newer n := by
  have hknows := h.knows
  rwa [Client.Knows, hstage] at hknows

section Sending

variable {n : ℕ} {frame : Frame} {piece : List UInt8} {rest : List (List UInt8)}

theorem sending (h : c.Sound written stored) (hstage : c.stage = .sending n frame rest) :
    IsNumber written n frame ∧ c.Newer n := by
  have hknows := h.knows
  rwa [Client.Knows, hstage] at hknows

/-- The next piece is sent. -/
theorem write (h : c.Sound written stored) (hstage : c.stage = .sending n frame (piece :: rest)) :
    Client.Sound { c with stage := .sending n frame rest, stream := c.stream ++ piece }
      written stored := by
  have hsending := h.sending hstage
  obtain ⟨hincreasing, hnumbers, -, hstreams⟩ := h
  rw [Client.Streams, hstage] at hstreams
  obtain ⟨part, hstream, hpart⟩ := hstreams
  refine ⟨hincreasing, hnumbers, hsending, part ++ piece, ?_, ?_⟩
  · rw [← List.append_assoc]
    exact congrArg (· ++ piece) hstream
  · rw [List.append_assoc]
    exact hpart

/-- The last piece is sent: the frame is whole, and newer than all before. -/
theorem deliver (h : c.Sound written stored) (hstage : c.stage = .sending n frame []) :
    Client.Sound { c with stage := .ready, delivered := c.delivered ++ [(n, frame)] }
      written stored := by
  obtain ⟨hnumber, -, hnewer⟩ := h.sending hstage
  obtain ⟨hincreasing, hnumbers, -, hstreams⟩ := h
  rw [Client.Streams, hstage] at hstreams
  obtain ⟨part, hstream, hpart⟩ := hstreams
  refine ⟨?_, ?_, trivial, ?_⟩
  · rw [List.pairwise_append]
    refine ⟨hincreasing, List.pairwise_singleton _ _, fun d hd d' hd' => ?_⟩
    obtain rfl := List.mem_singleton.mp hd'
    exact hnewer d hd
  · exact List.forall_mem_append.mpr ⟨hnumbers, List.forall_mem_singleton.mpr hnumber⟩
  · obtain rfl : part = (pieces frame).flatten := by simpa using hpart
    show c.stream = (c.delivered ++ [(n, frame)]).flatMap _
    rw [List.flatMap_append, hstream]
    simp [Client.whole]

/-- A write raises. -/
theorem drop (h : c.Sound written stored) (hstage : c.stage = .sending n frame (piece :: rest))
    (sent : ℕ) :
    Client.Sound { c with stage := .gone, stream := c.stream ++ piece.take sent }
      written stored := by
  obtain ⟨hnumber, hnewer⟩ := h.sending hstage
  obtain ⟨hincreasing, hnumbers, -, hstreams⟩ := h
  rw [Client.Streams, hstage] at hstreams
  obtain ⟨part, hstream, hpart⟩ := hstreams
  refine ⟨hincreasing, hnumbers, trivial, n, frame, part ++ piece.take sent, hnumber, hnewer, ?_, ?_⟩
  · rw [← List.append_assoc]
    exact congrArg (· ++ piece.take sent) hstream
  · rw [← hpart, List.flatten_cons]
    exact (List.prefix_append_right_inj part).mpr
      ((List.take_prefix sent _).trans (List.prefix_append _ _))

end Sending

end Client.Sound

/-- A client's move keeps what holds for it: it waits only while no frame is stored, and it reads
the latest frame. -/
theorem Moves.sound {x : System} {i : ℕ} {c c' : Client} {owner : Option Owner} {stored : Prop}
    (hmoves : Moves x i c c' owner) (hframe : x.frame = x.written.getLast?)
    (hstored : c.stage.holds = true → ¬ stored) (h : c.Sound x.written stored) :
    c'.Sound x.written stored := by
  have hincreasing := h.increasing
  have hnumbers := h.numbers
  have hknows := h.knows
  have hstreams := h.streams
  simp only [Client.Knows] at hknows
  simp only [Client.Streams] at hstreams
  cases hmoves with
  | enter hstage hfree =>
      rw [hstage] at hstreams
      exact ⟨hincreasing, hnumbers, trivial, hstreams⟩
  | wait hstage =>
      rw [hstage] at hstreams
      exact ⟨hincreasing, hnumbers, fun hs => absurd hs (hstored (by rw [hstage]; rfl)), hstreams⟩
  | reenter hstage hfree =>
      rw [hstage] at hknows hstreams
      exact ⟨hincreasing, hnumbers, hknows, hstreams⟩
  | read hstage =>
      rw [hstage] at hknows hstreams
      refine ⟨hincreasing, hnumbers, ?_, hstreams⟩
      obtain ⟨frame, hlast⟩ := hknows.exists_last
      rw [hframe, hlast]
      exact ⟨frame, rfl, ⟨le_rfl, by rw [List.take_length, hlast]⟩, hknows⟩
  | leave hstage =>
      rw [hstage] at hstreams
      obtain ⟨frame, heq, hknows⟩ := h.leaving hstage
      obtain rfl := Option.some.inj heq
      exact ⟨hincreasing, hnumbers, hknows, [], by rw [List.append_nil]; exact hstreams, rfl⟩
  | raise hstage =>
      obtain ⟨frame, heq, -⟩ := h.leaving hstage
      exact absurd heq (by simp)
  | write hstage => exact h.write hstage
  | deliver hstage => exact h.deliver hstage
  | drop hstage sent => exact h.drop hstage sent

/-! ## The invariant -/

/-- `output` has the latest frame, the lock is right, and what holds for each client holds. -/
structure Inv (x : System) : Prop where
  frame : x.frame = x.written.getLast?
  locked : Locked x
  sound : ∀ c ∈ x.clients, c.Sound x.written (x.camera = .stored)

theorem Inv.init : Inv machine.init where
  frame := rfl
  locked := fun o => by
    cases o with
    | camera => simp [machine, System.Inside, Camera.holds]
    | client i => simp [machine, System.Inside]
  sound := fun _ hc => absurd hc List.not_mem_nil

/-- A client in the block excludes the camera thread from its own. -/
theorem Locked.not_stored {x : System} (hx : Locked x) {i : ℕ} {c : Client}
    (hc : x.clients[i]? = some c) (hholds : c.stage.holds = true) : ¬ x.camera = .stored := by
  intro hstored
  have hcamera : x.owner = some .camera := (hx .camera).mpr (by rw [System.Inside, hstored]; rfl)
  have hclient : x.owner = some (.client i) := (hx (.client i)).mpr ⟨c, hc, hholds⟩
  rw [hcamera] at hclient
  cases hclient

/-- **A step keeps the invariant.** -/
theorem Inv.step {x x' : System} (hx : Inv x) (h : Change x x') : Inv x' := by
  refine ⟨?_, hx.locked.step h, ?_⟩
  · cases h with
    | store hcamera => exact List.getLast?_concat.symm
    | _ => exact hx.frame
  · intro c hmem
    cases h with
    | capture buf hcamera => exact (hx.sound c hmem).unstored (by simp)
    | enter hcamera hfree => exact (hx.sound c hmem).unstored (by simp)
    | store hcamera => exact (hx.sound c hmem).store _ _
    | notify hcamera =>
        obtain ⟨c₀, hmem₀, rfl⟩ := List.mem_map.mp hmem
        exact ((hx.sound c₀ hmem₀).unstored fun _ => hcamera).wake _
    | release hcamera => exact (hx.sound c hmem).unstored (by simp)
    | connect =>
        rcases List.mem_append.mp hmem with hmem | hmem
        · exact hx.sound c hmem
        · obtain rfl := List.mem_singleton.mp hmem
          exact Client.Sound.connect _ _
    | client hc hmoves =>
        rcases mem_setClient hmem with rfl | hmem
        · exact hmoves.sound hx.frame (hx.locked.not_stored hc) (hx.sound _ (List.mem_of_getElem? hc))
        · exact hx.sound c hmem

theorem Inv.next {x x' : System} (hx : Inv x) {e : Event} (hstep : machine.step x e = some x') :
    Inv x' :=
  hx.step (Change.of_eq_some hstep)

theorem Inv.of_reachable {x : System} (hx : machine.Reachable x) : Inv x :=
  hx.invariant Inv.init fun _ _ _ hx hstep => hx.next hstep

/-! ## A client that waits while a frame is stored -/

/-- Where a client is that has not delivered anything since it waited for frame `k`: the clients
are being woken, or it is woken, or it has read that frame or a later one, or the
connection is lost. -/
def Client.OnTheWay (c : Client) (k : ℕ) (x : System) : Prop :=
  match c.stage with
  | .waiting => x.camera = .stored
  | .notified | .reading | .gone => True
  | .leaving n _ | .sending n _ _ => k ≤ n
  | .ready | .inside => False

/-- The client waited, with `base` delivered, while frame `k` was stored: what it has delivered
since then is frame `k` and later ones. -/
def Due (k : ℕ) (base : List (ℕ × Frame)) (x : System) (c : Client) : Prop :=
  k ≤ x.written.length ∧ ∃ new, c.delivered = base ++ new ∧ (∀ d ∈ new, k ≤ d.1) ∧
    (new = [] → c.OnTheWay k x)

namespace Due

variable {k : ℕ} {base : List (ℕ × Frame)} {x : System} {c : Client}

/-- The client does not move. -/
theorem same (h : Due k base x c) {x' : System} (hlen : x.written.length ≤ x'.written.length)
    (hcamera : x.camera = .stored → x'.camera = .stored) : Due k base x' c := by
  obtain ⟨hk, new, hdelivered, hnew, hway⟩ := h
  refine ⟨hk.trans hlen, new, hdelivered, hnew, fun hnil => ?_⟩
  have hway := hway hnil
  unfold Client.OnTheWay at hway ⊢
  cases hstage : c.stage with
  | waiting =>
      rw [hstage] at hway
      exact hcamera hway
  | _ =>
      rw [hstage] at hway
      exact hway

/-- `notify_all` reaches it. -/
theorem wake (h : Due k base x c) (x' : System) (hlen : x'.written = x.written) :
    Due k base x' c.wake := by
  obtain ⟨hk, new, hdelivered, hnew, hway⟩ := h
  refine ⟨hlen ▸ hk, new, by rw [delivered_wake, hdelivered], hnew, fun hnil => ?_⟩
  have hway := hway hnil
  cases hstage : c.stage with
  | waiting =>
      have hwake : c.wake.stage = .notified := by simp [Client.wake, hstage]
      rw [Client.OnTheWay, hwake]
      trivial
  | _ =>
      have hwake : c.wake = c := by simp [Client.wake, hstage]
      rw [hwake]
      unfold Client.OnTheWay at hway ⊢
      rw [hstage] at hway ⊢
      exact hway

/-- The client moves: it delivers what it has read, which is newer than what it has delivered
before. -/
theorem moves (h : Due k base x c) {i : ℕ} {c' : Client} {owner : Option Owner}
    (hmoves : Moves x i c c' owner) {stored : Prop} (hknows : c.Knows x.written stored) :
    Due k base (x.setClient i c' owner) c' := by
  obtain ⟨hk, new, hdelivered, hnew, hway⟩ := h
  unfold Client.OnTheWay at hway
  cases hmoves with
  | enter hstage hfree =>
      rw [hstage] at hway
      exact ⟨hk, new, hdelivered, hnew, fun hnil => (hway hnil).elim⟩
  | wait hstage =>
      rw [hstage] at hway
      exact ⟨hk, new, hdelivered, hnew, fun hnil => (hway hnil).elim⟩
  | reenter hstage hfree => exact ⟨hk, new, hdelivered, hnew, fun _ => trivial⟩
  | read hstage => exact ⟨hk, new, hdelivered, hnew, fun _ => hk⟩
  | leave hstage =>
      rw [hstage] at hway
      exact ⟨hk, new, hdelivered, hnew, hway⟩
  | raise hstage => exact ⟨hk, new, hdelivered, hnew, fun _ => trivial⟩
  | write hstage =>
      rw [hstage] at hway
      exact ⟨hk, new, hdelivered, hnew, hway⟩
  | @deliver n frame hstage =>
      rw [hstage] at hway
      simp only [Client.Knows, hstage] at hknows
      have hkn : k ≤ n := by
        cases new with
        | nil => exact hway rfl
        | cons first rest =>
            have hlt : first.1 < n := hknows.2.2 first (by simp [hdelivered])
            exact (hnew first List.mem_cons_self).trans hlt.le
      have hnew' : ∀ d ∈ new ++ [(n, frame)], k ≤ d.1 :=
        List.forall_mem_append.mpr ⟨hnew, List.forall_mem_singleton.mpr hkn⟩
      exact ⟨hk, new ++ [(n, frame)], by rw [← List.append_assoc, ← hdelivered], hnew', by simp⟩
  | drop hstage sent => exact ⟨hk, new, hdelivered, hnew, fun _ => trivial⟩

/-- **A step keeps the promise to the client.** -/
theorem step (h : Due k base x c) (hx : Inv x) {i : ℕ} (hc : x.clients[i]? = some c) {x' : System}
    (hchange : Change x x') : ∃ c', x'.clients[i]? = some c' ∧ Due k base x' c' := by
  cases hchange with
  | capture buf hcamera => exact ⟨c, hc, h.same le_rfl (by simp [hcamera])⟩
  | enter hcamera hfree => exact ⟨c, hc, h.same le_rfl (by simp [hcamera])⟩
  | store hcamera => exact ⟨c, hc, h.same (by simp) (by simp [hcamera])⟩
  | notify hcamera => exact ⟨c.wake, by simp [List.getElem?_map, hc], h.wake _ rfl⟩
  | release hcamera => exact ⟨c, hc, h.same le_rfl (by simp [hcamera])⟩
  | connect =>
      have hi := (List.getElem?_eq_some_iff.mp hc).1
      exact ⟨c, by rw [List.getElem?_append_left hi, hc], h.same le_rfl id⟩
  | @client j cj cj' owner hcj hmoves =>
      by_cases hij : i = j
      · subst hij
        obtain rfl := Option.some.inj (hc.symm.trans hcj)
        exact ⟨cj', by rw [getElem?_setClient hcj, if_pos rfl],
          h.moves hmoves (hx.sound c (List.mem_of_getElem? hc)).knows⟩
      · exact ⟨c, by rw [getElem?_setClient hcj, if_neg hij, hc], h.same le_rfl id⟩

/-- The promise is kept in every later run. -/
theorem run (h : Due k base x c) (hx : machine.Reachable x) {i : ℕ} (hc : x.clients[i]? = some c)
    {es : List Event} {y : System} (hrun : machine.run x es = some y) :
    ∃ c', y.clients[i]? = some c' ∧ Due k base y c' := by
  refine (Machine.run_invariant (C := fun _ => True)
    (I := fun z => machine.Reachable z ∧ ∃ c', z.clients[i]? = some c' ∧ Due k base z c')
    ?_ (fun _ _ => trivial) ⟨hx, c, hc, h⟩ hrun).2
  rintro z e z' ⟨hz, c', hc', hdue⟩ - hstep
  exact ⟨.step hz trivial hstep, hdue.step (Inv.of_reachable hz) hc' (Change.of_eq_some hstep)⟩

/-- It waits, and the camera thread stores a frame. -/
theorem of_store {i : ℕ} (hc : x.clients[i]? = some c) (hwaits : c.stage = .waiting)
    {buf : Frame} (hcamera : x.camera = .inside buf) {y : System}
    (hstep : machine.step x .camera = some y) :
    y.clients[i]? = some c ∧ Due y.written.length c.delivered y c := by
  have hy : some { x with frame := some buf, camera := .stored, written := x.written ++ [buf] } =
      some y := by
    rw [← hstep]
    simp [machine, StreamingOutput.step, stepCamera, hcamera]
  obtain rfl := Option.some.inj hy
  refine ⟨hc, le_rfl, [], (List.append_nil _).symm, by simp, fun _ => ?_⟩
  rw [Client.OnTheWay, hwaits]

end Due

/-! ## No client is stuck -/

/-- Client `i` can get to deliver one more frame. -/
def CanDeliver (i : ℕ) (base : List (ℕ × Frame)) (x : System) : Prop :=
  ∃ es y c d, machine.run x es = some y ∧ y.clients[i]? = some c ∧ c.delivered = base ++ [d]

namespace CanDeliver

variable {i : ℕ} {base : List (ℕ × Frame)} {x x' : System} {c : Client}

theorem of_step {e : Event} (hstep : machine.step x e = some x') (h : CanDeliver i base x') :
    CanDeliver i base x := by
  obtain ⟨es, y, c, d, hrun, hrest⟩ := h
  refine ⟨e :: es, y, c, d, ?_, hrest⟩
  rw [Machine.run_cons, hstep]
  exact hrun

theorem getElem?_self (hc : x.clients[i]? = some c) (c' : Client) (owner : Option Owner) :
    (x.setClient i c' owner).clients[i]? = some c' := by
  rw [getElem?_setClient hc, if_pos rfl]

/-- The client takes a step that delivers nothing. -/
theorem of_client (hc : x.clients[i]? = some c) {c' : Client} {owner : Option Owner}
    (hstep : stepClient x i c = some (x.setClient i c' owner)) (hsame : c'.delivered = c.delivered)
    (h : CanDeliver i c'.delivered (x.setClient i c' owner)) : CanDeliver i c.delivered x := by
  have hmachine : machine.step x (.client i) = some (x.setClient i c' owner) := by
    simp [machine, step, hc, hstep]
  exact of_step hmachine (hsame ▸ h)

theorem of_sending {n : ℕ} {frame : Frame} {rest : List (List UInt8)}
    (hc : x.clients[i]? = some c) (hstage : c.stage = .sending n frame rest) :
    CanDeliver i c.delivered x := by
  induction rest generalizing x c with
  | nil =>
      have hstep : machine.step x (.client i) = some (x.setClient i
          { c with stage := .ready, delivered := c.delivered ++ [(n, frame)] } x.owner) := by
        simp [machine, step, hc, stepClient, hstage]
      exact of_step hstep ⟨[], _, _, (n, frame), rfl, getElem?_self hc _ _, rfl⟩
  | cons piece rest ih =>
      have hstep : stepClient x i c = some (x.setClient i
          { c with stage := .sending n frame rest, stream := c.stream ++ piece } x.owner) := by
        rw [stepClient, hstage]
      exact of_client hc hstep rfl (ih (getElem?_self hc _ _) rfl)

theorem of_leaving {n : ℕ} {frame : Frame} (hc : x.clients[i]? = some c)
    (hstage : c.stage = .leaving n (some frame)) : CanDeliver i c.delivered x := by
  have hstep : stepClient x i c =
      some (x.setClient i { c with stage := .sending n frame (pieces frame) } none) := by
    rw [stepClient, hstage]
  exact of_client hc hstep rfl (of_sending (getElem?_self hc _ _) rfl)

theorem of_reading (hx : Inv x) (hc : x.clients[i]? = some c) (hstage : c.stage = .reading) :
    CanDeliver i c.delivered x := by
  have hknows := (hx.sound c (List.mem_of_getElem? hc)).knows
  rw [Client.Knows, hstage] at hknows
  obtain ⟨frame, hlast⟩ := Client.Newer.exists_last hknows
  have hstep : stepClient x i c = some (x.setClient i
      { c with stage := .leaving x.written.length (some frame) } x.owner) := by
    rw [stepClient, hstage, ← hlast, ← hx.frame]
  exact of_client hc hstep rfl (of_leaving (getElem?_self hc _ _) rfl)

/-- The client is woken, and the lock is free. -/
theorem of_free (hx : Inv x) (hc : x.clients[i]? = some c) (hstage : c.stage = .notified)
    (hfree : x.owner = none) : CanDeliver i c.delivered x := by
  have hstep : stepClient x i c =
      some (x.setClient i { c with stage := .reading } (some (.client i))) := by
    rw [stepClient, hstage]
    exact if_pos hfree
  exact of_client hc hstep rfl (of_reading (hx.step (.of_client hc hstep)) (getElem?_self hc _ _) rfl)

/-- Another client takes a step. -/
theorem other_step (hx : Inv x) (hc : x.clients[i]? = some c) {j : ℕ} (hij : i ≠ j) {cj : Client}
    (hcj : x.clients[j]? = some cj) {cj' : Client} {owner : Option Owner}
    (hstep : stepClient x j cj = some (x.setClient j cj' owner)) :
    machine.step x (.client j) = some (x.setClient j cj' owner) ∧
      Inv (x.setClient j cj' owner) ∧ (x.setClient j cj' owner).clients[i]? = some c := by
  refine ⟨by simp [machine, step, hcj, hstep], hx.step (.of_client hcj hstep), ?_⟩
  rw [getElem?_setClient hcj, if_neg hij, hc]

/-- Another client has the lock and the frame it has read. -/
theorem of_other_leaving (hx : Inv x) (hc : x.clients[i]? = some c) (hstage : c.stage = .notified)
    {j : ℕ} (hij : i ≠ j) {cj : Client} (hcj : x.clients[j]? = some cj) {n : ℕ}
    {frame? : Option Frame} (hstagej : cj.stage = .leaving n frame?) :
    CanDeliver i c.delivered x := by
  obtain ⟨frame, rfl, -⟩ := (hx.sound cj (List.mem_of_getElem? hcj)).leaving hstagej
  have hleave : stepClient x j cj =
      some (x.setClient j { cj with stage := .sending n frame (pieces frame) } none) := by
    rw [stepClient, hstagej]
  obtain ⟨hstep, hx', hc'⟩ := other_step hx hc hij hcj hleave
  exact of_step hstep (of_free hx' hc' hstage rfl)

/-- Another client has the lock: it comes out of its block in two steps at most. -/
theorem of_other (hx : Inv x) (hc : x.clients[i]? = some c) (hstage : c.stage = .notified)
    {j : ℕ} {cj : Client} (hcj : x.clients[j]? = some cj) (hholds : cj.stage.holds = true) :
    CanDeliver i c.delivered x := by
  have hij : i ≠ j := by
    rintro rfl
    obtain rfl := Option.some.inj (hc.symm.trans hcj)
    rw [hstage] at hholds
    exact Bool.false_ne_true hholds
  cases hstagej : cj.stage with
  | inside =>
      have hwait : stepClient x j cj = some (x.setClient j { cj with stage := .waiting } none) := by
        rw [stepClient, hstagej]
      obtain ⟨hstep, hx', hc'⟩ := other_step hx hc hij hcj hwait
      exact of_step hstep (of_free hx' hc' hstage rfl)
  | reading =>
      have hread : stepClient x j cj =
          some (x.setClient j { cj with stage := .leaving x.written.length x.frame } x.owner) := by
        rw [stepClient, hstagej]
      obtain ⟨hstep, hx', hc'⟩ := other_step hx hc hij hcj hread
      exact of_step hstep (of_other_leaving hx' hc' hstage hij (getElem?_self hcj _ _) rfl)
  | leaving n frame? => exact of_other_leaving hx hc hstage hij hcj hstagej
  | _ =>
      rw [hstagej] at hholds
      exact absurd hholds Bool.false_ne_true

/-- The camera thread has the lock and has woken the clients. -/
theorem of_camera_notified (hx : Inv x) (hc : x.clients[i]? = some c) (hstage : c.stage = .notified)
    (hcamera : x.camera = .notified) : CanDeliver i c.delivered x := by
  have hstep : machine.step x .camera = some { x with owner := none, camera := .idle } := by
    simp [machine, step, stepCamera, hcamera]
  exact of_step hstep (of_free (hx.next hstep) hc hstage rfl)

/-- The camera thread has stored a frame: it wakes the client, if that is not done. -/
theorem of_camera_stored (hx : Inv x) (hc : x.clients[i]? = some c)
    (hstage : c.stage = .waiting ∨ c.stage = .notified) (hcamera : x.camera = .stored) :
    CanDeliver i c.delivered x := by
  have hstep : machine.step x .camera =
      some { x with camera := .notified, clients := x.clients.map Client.wake } := by
    simp [machine, step, stepCamera, hcamera]
  have hwake : c.wake.stage = .notified := by
    rcases hstage with h | h <;> simp [Client.wake, h]
  have hc' : (x.clients.map Client.wake)[i]? = some c.wake := by
    rw [List.getElem?_map, hc]
    rfl
  have h := of_camera_notified (hx.next hstep) hc' hwake rfl
  rw [delivered_wake] at h
  exact of_step hstep h

/-- A client that has been woken. -/
theorem of_notified (hx : Inv x) (hc : x.clients[i]? = some c) (hstage : c.stage = .notified) :
    CanDeliver i c.delivered x := by
  cases howner : x.owner with
  | none => exact of_free hx hc hstage howner
  | some o =>
      have hinside := (hx.locked o).mp howner
      cases o with
      | client j =>
          obtain ⟨cj, hcj, hholds⟩ := hinside
          exact of_other hx hc hstage hcj hholds
      | camera =>
          rw [System.Inside] at hinside
          cases hcamera : x.camera with
          | inside buf =>
              have hstep : machine.step x .camera = some { x with
                  frame := some buf, camera := .stored, written := x.written ++ [buf] } := by
                simp [machine, step, stepCamera, hcamera]
              exact of_step hstep
                (of_camera_stored (hx.next hstep) hc (Or.inr hstage) rfl)
          | stored => exact of_camera_stored hx hc (Or.inr hstage) hcamera
          | notified => exact of_camera_notified hx hc hstage hcamera
          | _ =>
              rw [hcamera] at hinside
              exact absurd hinside Bool.false_ne_true

/-- **A client that waits for its frame can get it, whoever has the lock.** -/
theorem of_onTheWay (hx : Inv x) (hc : x.clients[i]? = some c) {k : ℕ} (hway : c.OnTheWay k x)
    (hgone : c.stage ≠ .gone) : CanDeliver i c.delivered x := by
  rw [Client.OnTheWay] at hway
  cases hstage : c.stage with
  | ready =>
      rw [hstage] at hway
      exact hway.elim
  | inside =>
      rw [hstage] at hway
      exact hway.elim
  | waiting =>
      rw [hstage] at hway
      exact of_camera_stored hx hc (Or.inl hstage) hway
  | notified => exact of_notified hx hc hstage
  | reading => exact of_reading hx hc hstage
  | leaving n frame? =>
      obtain ⟨frame, rfl, -⟩ := (hx.sound c (List.mem_of_getElem? hc)).leaving hstage
      exact of_leaving hc hstage
  | sending n frame rest => exact of_sending hc hstage
  | gone => exact absurd hstage hgone

end CanDeliver

/-! ## Delivery -/

/-- Frames of increasing numbers are a subsequence of the frames stored. -/
theorem sublist_of_numbers {written : List Frame} {delivered : List (ℕ × Frame)}
    (hincreasing : delivered.Pairwise fun d d' => d.1 < d'.1)
    (hnumbers : ∀ d ∈ delivered, IsNumber written d.1 d.2) :
    (delivered.map Prod.snd).Sublist written := by
  -- up to the number of the last one
  suffices h : ∀ n, (∀ d ∈ delivered, d.1 ≤ n) →
      (delivered.map Prod.snd).Sublist (written.take n) by
    have := h written.length fun d hd => (hnumbers d hd).1
    rwa [List.take_length] at this
  induction delivered using List.reverseRecOn with
  | nil => exact fun n _ => List.nil_sublist _
  | append_singleton delivered d ih =>
      intro n hn
      have hmem : d ∈ delivered ++ [d] := by simp
      obtain ⟨hbefore, -, hlt⟩ := List.pairwise_append.mp hincreasing
      obtain ⟨hle, hlast⟩ := hnumbers d hmem
      obtain ⟨m, hm⟩ : ∃ m, d.1 = m + 1 := by
        refine Nat.exists_eq_succ_of_ne_zero fun hzero => ?_
        simp [hzero] at hlast
      have hsub : (delivered.map Prod.snd).Sublist (written.take m) := by
        refine ih hbefore (fun d' hd' => hnumbers d' (List.mem_append_left _ hd')) m fun d' hd' => ?_
        have := hlt d' hd' d (List.mem_singleton.mpr rfl)
        omega
      have htake : written.take (m + 1) = written.take m ++ [d.2] := by
        rw [hm, List.take_succ_eq_append_getElem (by omega), List.getLast?_concat] at hlast
        rw [List.take_succ_eq_append_getElem (by omega), Option.some.inj hlast]
      have hd : ((delivered ++ [d]).map Prod.snd).Sublist (written.take (m + 1)) := by
        rw [List.map_append, htake]
        exact hsub.append (List.Sublist.refl _)
      exact hd.trans (List.take_prefix_take_left (hm ▸ hn d hmem)).sublist

/-- A whole part of the stream: the head with the length of the frame, then all bytes of the
frame, then the end of line. -/
def framed (frame : Frame) : List UInt8 :=
  encodeUtf8 ("--FRAME\r\nContent-Type: image/jpeg\r\nContent-Length: ".toList ++
      natText frame.length ++ "\r\n\r\n".toList) ++
    frame ++ encodeUtf8 "\r\n".toList

/-- The four writes make a whole part. -/
theorem flatten_pieces (frame : Frame) : (pieces frame).flatten = framed frame := by
  have hhead : "--FRAME\r\nContent-Type: image/jpeg\r\nContent-Length: ".toList =
      "--FRAME\r\n".toList ++ "Content-Type: image/jpeg\r\nContent-Length: ".toList := by decide
  simp only [pieces, framed, hhead, encodeUtf8_append, List.flatten_cons, List.flatten_nil,
    List.append_nil, List.append_assoc]

theorem Client.whole_eq (c : Client) : c.whole = c.delivered.flatMap fun d => framed d.2 := by
  rw [Client.whole]
  congr
  funext d
  exact flatten_pieces d.2

/-- What a client has sent. -/
theorem Client.Sound.stream {c : Client} {written : List Frame} {stored : Prop}
    (h : c.Sound written stored) :
    ∃ part, c.stream = (c.delivered.flatMap fun d => framed d.2) ++ part ∧
      (part = [] ∨ ∃ n frame, IsNumber written n frame ∧ (∀ d ∈ c.delivered, d.1 < n) ∧
        part <+: framed frame) := by
  have hstreams := h.streams
  simp only [Client.Streams, flatten_pieces, c.whole_eq] at hstreams
  cases hstage : c.stage with
  | sending n frame rest =>
      rw [hstage] at hstreams
      obtain ⟨part, hstream, hpart⟩ := hstreams
      obtain ⟨hnumber, -, hnewer⟩ := h.sending hstage
      exact ⟨part, hstream, Or.inr ⟨n, frame, hnumber, hnewer, hpart ▸ List.prefix_append _ _⟩⟩
  | gone =>
      rw [hstage] at hstreams
      obtain ⟨n, frame, part, hnumber, hnewer, hstream, hpart⟩ := hstreams
      exact ⟨part, hstream, Or.inr ⟨n, frame, hnumber, hnewer.2, hpart⟩⟩
  | _ =>
      rw [hstage] at hstreams
      exact ⟨[], by rw [List.append_nil]; exact hstreams, Or.inl rfl⟩

/-- **Frames are delivered in order.**  In every state of every run, for every client:

* the frames it has delivered have increasing numbers, and they are the frames of these
  numbers; so they are a subsequence of the frames stored;
* its stream is these frames, one after the other, each with its head, all its bytes and its
  end of line, and after them at most a beginning of the same for one newer frame;
* it has not read `None`;
* if it waits while the camera thread stores a frame, then all that it delivers later is that
  frame or newer, and until it delivers something, or its connection is lost, it does not
  wait once the clients are woken, and there is a way for it to go on and deliver. -/
theorem frames_delivered_in_order {x : System} (hx : machine.Reachable x) {i : ℕ} {c : Client}
    (hc : x.clients[i]? = some c) :
    ((c.delivered.map Prod.fst).Pairwise (· < ·) ∧
        (∀ d ∈ c.delivered, IsNumber x.written d.1 d.2) ∧
        (c.delivered.map Prod.snd).Sublist x.written) ∧
      (∃ part, c.stream = (c.delivered.flatMap fun d => framed d.2) ++ part ∧
        (part = [] ∨ ∃ n frame, IsNumber x.written n frame ∧ (∀ d ∈ c.delivered, d.1 < n) ∧
          part <+: framed frame)) ∧
      (∀ n, c.stage ≠ .leaving n none) ∧
      ∀ buf y, c.stage = .waiting → x.camera = .inside buf → machine.step x .camera = some y →
        ∀ es z, machine.run y es = some z →
          ∃ c' new, z.clients[i]? = some c' ∧ c'.delivered = c.delivered ++ new ∧
            (∀ d ∈ new, y.written.length ≤ d.1) ∧
            (new = [] → c'.stage ≠ .gone →
              (c'.stage = .waiting → z.camera = .stored) ∧
              ∃ es' z' c'' d, machine.run z es' = some z' ∧ z'.clients[i]? = some c'' ∧
                c''.delivered = c.delivered ++ [d] ∧ y.written.length ≤ d.1) := by
  have hsound := (Inv.of_reachable hx).sound c (List.mem_of_getElem? hc)
  refine ⟨⟨List.pairwise_map.mpr hsound.increasing, hsound.numbers,
    sublist_of_numbers hsound.increasing hsound.numbers⟩, hsound.stream, ?_, ?_⟩
  · intro n hstage
    obtain ⟨frame, heq, -⟩ := hsound.leaving hstage
    exact absurd heq (by simp)
  · intro buf y hwaits hcamera hstep es z hrun
    obtain ⟨hy, hdue⟩ := Due.of_store hc hwaits hcamera hstep
    have hreach : machine.Reachable y := .step hx trivial hstep
    obtain ⟨c', hc', -, new, hdelivered, hnew, hway⟩ := hdue.run hreach hy hrun
    refine ⟨c', new, hc', hdelivered, hnew, fun hnil hgone => ⟨fun hwaiting => ?_, ?_⟩⟩
    · have hway := hway hnil
      rwa [Client.OnTheWay, hwaiting] at hway
    · rw [hnil, List.append_nil] at hdelivered
      obtain ⟨es', z', c'', d, hrun', hc'', hd⟩ :=
        CanDeliver.of_onTheWay (Inv.of_reachable (hreach.run hrun)) hc' (hway hnil) hgone
      rw [hdelivered] at hd
      -- the promise holds at the end of the continued run, too
      obtain ⟨c₂, hc₂, -, new', hd', hnew', -⟩ :=
        hdue.run hreach hy (machine.run_trans hrun hrun')
      obtain rfl := Option.some.inj (hc''.symm.trans hc₂)
      have hnew : new' = [d] := List.append_cancel_left (hd'.symm.trans hd)
      exact ⟨es', z', c'', d, hrun', hc'', hd, hnew' d (by simp [hnew])⟩

/-- Two frames are stored before a client that was waiting for the first has the lock again; then
it sends, and waits while a third one is stored. -/
def lateClient : List Event :=
  [.connect, .client 0, .client 0,
    .capture [7], .camera, .camera, .camera, .camera,
    .capture [8], .camera, .camera, .camera, .camera,
    .client 0, .client 0, .client 0, .client 0, .client 0,
    .client 0, .client 0, .client 0, .client 0, .client 0,
    .capture [9], .camera]

/-- It has delivered the second frame only, and all that it delivers later is the third one or
newer. -/
theorem frames_delivered_in_order_late :
    ∃ x c, machine.run machine.init lateClient = some x ∧ x.clients[0]? = some c ∧
      c.delivered = [(2, [8])] ∧ (c.delivered.map Prod.snd).Sublist x.written ∧
      ∃ y, machine.step x .camera = some y ∧ y.written = [[7], [8], [9]] ∧
        ∀ es z, machine.run y es = some z →
          ∃ c' new, z.clients[0]? = some c' ∧ c'.delivered = c.delivered ++ new ∧
            ∀ d ∈ new, 3 ≤ d.1 := by
  have key : ∀ x c y, machine.run machine.init lateClient = some x → x.clients[0]? = some c →
      c.stage = .waiting → x.camera = .inside [9] → machine.step x .camera = some y →
      (c.delivered.map Prod.snd).Sublist x.written ∧ ∀ es z, machine.run y es = some z →
        ∃ c' new, z.clients[0]? = some c' ∧ c'.delivered = c.delivered ++ new ∧
          ∀ d ∈ new, y.written.length ≤ d.1 := by
    intro x c y hrun hc hwaits hcamera hstep
    obtain ⟨⟨-, -, hsublist⟩, -, -, hlater⟩ :=
      frames_delivered_in_order (Machine.reachable_of_run hrun) hc
    refine ⟨hsublist, fun es z hrun' => ?_⟩
    obtain ⟨c', new, hc', hdelivered, hnew, -⟩ := hlater [9] y hwaits hcamera hstep es z hrun'
    exact ⟨c', new, hc', hdelivered, hnew⟩
  have h := key _ _ _ rfl rfl rfl rfl rfl
  exact ⟨_, _, rfl, rfl, rfl, h.1, _, rfl, rfl, h.2⟩

end StreamingOutput
