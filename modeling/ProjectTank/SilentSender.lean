/-
# The firmware when nobody sends any more

A hidden page clears its timer, a page that is left clears its timers and aborts its
request, `cleanup_gpio` closes the port and exits.  None of them sends a command: the
write of a stop command in `cleanup_gpio` is commented out.  The firmware keeps the
values of the last line it was sent and applies them in every iteration.

* `FirmwareInv`: the firmware has consumed whole lines, and its fields are what these
  lines assigned;
* `get_of_all_consumed`: when everything written has been consumed, the fields hold the
  values of the last line on the port;
* `silent_sender_keeps_last_command`: so they do for as long as the sender is silent,
  and the motors follow them;
* `moving_after_every_stop`: each of the three ways to stop sending can leave the motors
  running.
-/
import ProjectTank.CommandOrder

open ProgramText TankFirmware TankServer CommandLink WriterPool

namespace TankSystem

/-! ## What the firmware has read -/

/-- The lines `ls` have been read in the iterations `is`, and nothing else. -/
structure LinesRead (t₀ : ℕ) (board : Board) (x : System) (is : List Iteration)
    (ls : List (List UInt8)) : Prop where
  ran : x.tank = (Tank.boot t₀ board).run is
  received : is.filterMap Iteration.received = ls.map ofBytes
  whole : ∀ l ∈ ls, 10 ∉ l
  taken : x.server.out.take x.consumed = ls.flatMap (· ++ [10])
  within : x.consumed ≤ x.server.out.length

/-- The firmware has consumed whole lines from the port. -/
def FirmwareInv (t₀ : ℕ) (board : Board) (x : System) : Prop := ∃ is ls, LinesRead t₀ board x is ls

/-- More bytes on the port do not change what has been read. -/
theorem LinesRead.server_move {t₀ : ℕ} {board : Board} {x x' : System} {is : List Iteration}
    {ls : List (List UInt8)} (hr : LinesRead t₀ board x is ls) {added : List UInt8}
    (hout : x'.server.out = x.server.out ++ added) (htank : x'.tank = x.tank)
    (hconsumed : x'.consumed = x.consumed) : LinesRead t₀ board x' is ls where
  ran := htank.trans hr.ran
  received := hr.received
  whole := hr.whole
  taken := by
    rw [hout, hconsumed, List.take_append_of_le_length hr.within]
    exact hr.taken
  within := by
    have := hr.within
    rw [hout, hconsumed, List.length_append]
    omega

/-- One more line is read. -/
theorem LinesRead.read_line {t₀ : ℕ} {board : Board} {x x' : System} {is : List Iteration}
    {ls : List (List UInt8)} (hr : LinesRead t₀ board x is ls) {i : Iteration}
    {line rest : List UInt8} (hcut : SeparatedText.cut 10 x.rx = some (line, rest))
    (hserver : x'.server = x.server)
    (htank : x'.tank = x.tank.iterate { i with received := some (ofBytes line) })
    (hconsumed : x'.consumed = x.server.out.length - rest.length) :
    LinesRead t₀ board x' (is ++ [{ i with received := some (ofBytes line) }]) (ls ++ [line]) := by
  obtain ⟨hrx, hno⟩ := SeparatedText.eq_append_of_cut hcut
  have hout : x.server.out = (ls ++ [line]).flatMap (· ++ [10]) ++ rest := by
    rw [← List.take_append_drop x.consumed x.server.out, hr.taken]
    show ls.flatMap (· ++ [10]) ++ x.rx = _
    rw [hrx]
    simp
  have hlen : x'.consumed = ((ls ++ [line]).flatMap (· ++ [(10 : UInt8)])).length := by
    rw [hconsumed, hout, List.length_append, Nat.add_sub_cancel]
  constructor
  · rw [htank, hr.ran, Tank.run_concat]
  · rw [List.filterMap_append, hr.received, List.map_append]
    rfl
  · exact List.forall_mem_append.mpr ⟨hr.whole, List.forall_mem_singleton.mpr hno⟩
  · rw [hserver, hlen, hout, List.take_left]
  · rw [hserver, hlen, hout, List.length_append]
    exact Nat.le_add_right _ _

/-- **Every step keeps it so.** -/
theorem FirmwareInv.step {s : Setting} {t₀ : ℕ} {board : Board} {x x' : System} {e : Event}
    (h : step s x e = some x') (hi : FirmwareInv t₀ board x) : FirmwareInv t₀ board x' := by
  obtain ⟨is, ls, hr⟩ := hi
  cases Change.of_eq_some h with
  | idle i _ =>
      refine ⟨is ++ [{ i with received := none }], ls, ?_, ?_, hr.whole, hr.taken, hr.within⟩
      · show x.tank.iterate _ = _
        rw [hr.ran, Tank.run_concat]
      · rw [List.filterMap_append, hr.received]
        exact List.append_nil _
  | read i hcut => exact ⟨_, _, hr.read_line hcut rfl rfl rfl⟩
  | thread _ _ hserver =>
      obtain ⟨added, hout⟩ := hserver.out_append
      exact ⟨is, ls, hr.server_move hout rfl rfl⟩
  | _ => exact ⟨is, ls, hr.server_move (List.append_nil _).symm rfl rfl⟩

theorem FirmwareInv.of_reachable {s : Setting} {t₀ : ℕ} {board : Board} {x : System}
    (hx : (machine s t₀ board).Reachable x) : FirmwareInv t₀ board x := by
  refine hx.invariant (I := FirmwareInv t₀ board) ?_ fun _ _ _ hi h => hi.step h
  exact ⟨[], [], rfl, rfl, by simp, rfl, le_rfl⟩

/-! ## The fields when everything has been read -/

/-- The line of the controls `c`, as it is written. -/
def lineBytes (c : Controls) : List UInt8 := messageToSend (lineOf c.values)

theorem lineBytes_eq (c : Controls) : lineBytes c = encodeUtf8 (lineOf c.values) ++ [10] := by
  rw [lineBytes, messageToSend, encodeUtf8_append]
  rfl

/-- What the lines of commands assign, in the order in which they were read. -/
theorem lastAssigned_of_lines (cs : List Controls) (f : Field) :
    lastAssigned f (cs.flatMap fun c => parseEvents (Arduino.trim (lineOf c.values))) =
      cs.getLast?.map fun c => c.values f := by
  induction cs using List.reverseRecOn with
  | nil => rfl
  | append_singleton cs c ih =>
      rw [List.flatMap_append, List.flatMap_singleton, lastAssigned_append, trim_lineOf,
        lastAssigned_lineOf, Option.some_or, Arduino.clipLong_eq_self (c.fitsInt32_values f)]
      simp

/-- The events of a run are those of the lines received in it. -/
theorem flatMap_events (is : List Iteration) :
    is.flatMap Iteration.events =
      (is.filterMap Iteration.received).flatMap fun line => parseEvents (Arduino.trim line) := by
  induction is with
  | nil => rfl
  | cons i is ih =>
      rw [List.flatMap_cons, ih, List.filterMap_cons, Iteration.events]
      cases i.received <;> rfl

/-- The lines on the port are the lines of controls of the page. -/
theorem exists_controls_of_log {s : Setting} {t₀ : ℕ} {board : Board} {x : System}
    (hx : (machine s t₀ board).Reachable x) :
    ∃ cs : List Controls, x.server.log.map Prod.snd = cs.map lineBytes := by
  have hmem : x.server.log.map Prod.snd ∈ Set.range (List.map lineBytes) := by
    rw [Set.range_list_map]
    intro line hline
    obtain ⟨⟨i, l⟩, hl, rfl⟩ := List.mem_map.mp hline
    obtain ⟨r, -, -, c, -, hc⟩ := lineOfControls_of_mem_log hx hl
    refine ⟨c, ?_⟩
    rw [lineBytes, hc]
  obtain ⟨cs, hcs⟩ := hmem
  exact ⟨cs, hcs.symm⟩

/-- **When the firmware has consumed everything** and no line is being written, each
command field holds the value of the last line on the port. -/
theorem get_of_all_consumed {s : Setting} {t₀ : ℕ} {board : Board} {x : System}
    (hx : (machine s t₀ board).Reachable x)
    (hidle : x.server.holder = none ∨ x.server.holder = some .other)
    (hread : x.consumed = x.server.out.length) {cs : List Controls}
    (hcs : x.server.log.map Prod.snd = cs.map lineBytes) {f : Field} (hf : f ≠ .fireCannon) :
    x.tank.globals.get f = (cs.getLast?.map fun c => c.values f).getD 0 := by
  obtain ⟨is, ls, hr⟩ := FirmwareInv.of_reachable hx
  -- both the firmware and the server describe the same bytes
  have hout : x.server.out = ls.flatMap (· ++ [10]) := by
    rw [← hr.taken, hread, List.take_length]
  have hidle' : ∀ i, x.server.holder ≠ some (.writer i) := by
    intro i hi
    rcases hidle with h | h <;> rw [h] at hi <;> exact absurd hi (by simp)
  have hlog : x.server.out = (cs.map fun c => encodeUtf8 (lineOf c.values)).flatMap (· ++ [10]) := by
    rw [(ServerInv.of_reachable hx).sound.idle hidle', Pool.completed, hcs, List.flatMap_map,
      List.flatMap_def]
    exact congrArg List.flatten (List.map_congr_left fun c _ => lineBytes_eq c)
  have hlines : ls = cs.map fun c => encodeUtf8 (lineOf c.values) := by
    refine SeparatedText.eq_of_flatMap_terminated hr.whole ?_ (hout.symm.trans hlog)
    intro l hl
    obtain ⟨c, -, hc⟩ := List.mem_map.mp hl
    rw [← hc]
    exact newline_not_mem_bytes c.values
  have hreceived : is.filterMap Iteration.received = cs.map fun c => lineOf c.values := by
    rw [hr.received, hlines, List.map_map]
    refine List.map_congr_left fun c _ => ?_
    rw [Function.comp, ofBytes_encodeUtf8 (lineOf_ascii c.values)]
  rw [hr.ran, get_run_boot _ _ _ hf, lastReceived, flatMap_events, hreceived, List.flatMap_map,
    lastAssigned_of_lines]

/-! ## The ways to stop sending -/

/-- The page runs at most its main timer, which its cleanup knows. -/
structure TimersInv (p : Page) : Prop where
  main : ∀ id ∈ p.timers, p.mainIntervalId = some id
  known : ∀ id ∈ p.timers, id ∈ p.intervals

theorem TimersInv.of_nil {page : Page} (h : page.timers = []) : TimersInv page := by
  constructor
  · intro id hid
    rw [h] at hid
    exact absurd hid List.not_mem_nil
  · intro id hid
    rw [h] at hid
    exact absurd hid List.not_mem_nil

/-- Without a main timer there is none. -/
theorem TimersInv.timers_of_none {page : Page} (hi : TimersInv page)
    (hmain : page.mainIntervalId = none) : page.timers = [] := by
  rw [List.eq_nil_iff_forall_not_mem]
  intro id hid
  have := hi.main id hid
  rw [hmain] at this
  exact absurd this (by simp)

/-- Hiding the page clears its main timer, which is the only one. -/
theorem TimersInv.timers_hide {page : Page} (hi : TimersInv page) : page.hide.timers = [] := by
  unfold Page.hide
  split
  · next id hmain =>
      rw [List.eq_nil_iff_forall_not_mem]
      intro id' hid'
      obtain ⟨hmem, hne⟩ := List.mem_filter.mp hid'
      have := hi.main id' hmem
      rw [hmain, Option.some.injEq] at this
      exact absurd this.symm (by simpa using hne)
  · next hmain => exact hi.timers_of_none hmain

/-- The cleanup clears every timer. -/
theorem TimersInv.timers_cleanup {page : Page} (hi : TimersInv page) : page.cleanup.timers = [] := by
  rw [List.eq_nil_iff_forall_not_mem]
  intro id hid
  obtain ⟨hmem, hno⟩ := List.mem_filter.mp hid
  exact absurd (hi.known id hmem) (by simpa using hno)

theorem TimersInv.unhide {page : Page} (hi : TimersInv page) : TimersInv page.unhide := by
  unfold Page.unhide
  split
  · exact hi
  · next hmain =>
      have hnone : page.timers = [] := hi.timers_of_none hmain
      constructor
      · intro id hid
        rw [hnone, List.nil_append] at hid
        rw [List.mem_singleton.mp hid]
      · intro id hid
        rw [hnone, List.nil_append] at hid
        exact List.mem_append_right _ hid

theorem TimersInv.step {s : Setting} {x x' : System} {e : Event} (h : step s x e = some x')
    (hi : TimersInv x.page) : TimersInv x'.page := by
  cases Change.of_eq_some h with
  | hide => exact .of_nil hi.timers_hide
  | unhide => exact hi.unhide
  | unload => exact .of_nil hi.timers_cleanup
  | _ => exact ⟨hi.main, hi.known⟩

theorem TimersInv.of_reachable {s : Setting} {t₀ : ℕ} {board : Board} {x : System}
    (hx : (machine s t₀ board).Reachable x) : TimersInv x.page := by
  refine hx.invariant (I := fun x => TimersInv x.page) ⟨?_, fun _ h => h⟩ fun _ _ _ hi h => hi.step h
  intro id hid
  rw [List.mem_singleton.mp hid]
  rfl

/-- The events by which the code itself stops sending commands: the page is hidden, the
page is left, the steps of `cleanup_gpio`. -/
def IsStop : Event → Prop
  | .hide | .unload | .signal | .close | .exit => True
  | _ => False

/-- **No way to stop sends anything**: the requests, the threads and the port of the
server stay as they are, and so does the firmware. -/
theorem stop_sends_nothing {s : Setting} {x x' : System} {e : Event} (he : IsStop e)
    (h : step s x e = some x') : x'.server = x.server ∧ x'.tank = x.tank := by
  cases Change.of_eq_some h with
  | settle he' => rcases he' with rfl | rfl <;> exact ⟨rfl, rfl⟩
  | thread hmove => cases e <;> first | exact he.elim | simp [Event.move] at hmove
  | hide => exact ⟨rfl, rfl⟩
  | unload => exact ⟨rfl, rfl⟩
  | signal => exact ⟨rfl, rfl⟩
  | close => exact ⟨rfl, rfl⟩
  | exit => exact ⟨rfl, rfl⟩
  | _ => exact he.elim

/-- After the page has been hidden or left, no timer issues commands. -/
theorem timers_of_stop {s : Setting} {t₀ : ℕ} {board : Board} {x x' : System}
    (hx : (machine s t₀ board).Reachable x) {e : Event} (he : e = .hide ∨ e = .unload)
    (h : step s x e = some x') : x'.page.timers = [] := by
  have hi := TimersInv.of_reachable hx
  rcases he with rfl | rfl
  · exact Option.some.inj h ▸ hi.timers_hide
  · exact Option.some.inj h ▸ hi.timers_cleanup

/-- Nobody sends: no timer issues commands or the server is gone, no handler is on its way
to the lock or the server is gone, and no line is being written. -/
structure Silent (x : System) : Prop where
  noCommands : x.page.timers = [] ∨ x.phase = .exited
  noHandlers : x.phase = .exited ∨ ∀ w ∈ x.server.writers, w.stage.ahead = false
  noWrite : x.server.holder = none ∨ x.server.holder = some .other

instance (x : System) : Decidable (Silent x) :=
  decidable_of_iff (_ ∧ _ ∧ _) ⟨fun ⟨h1, h2, h3⟩ => ⟨h1, h2, h3⟩, fun ⟨h1, h2, h3⟩ => ⟨h1, h2, h3⟩⟩

/-- While no handler is ahead of the lock or inside its write, a thread can only be the
sensor thread, which writes nothing. -/
theorem thread_of_silent {s : Setting} {p p' : Pool Request UInt8} {mv : Move Request}
    (hs : Sound p) (hahead : ∀ w ∈ p.writers, w.stage.ahead = false)
    (hidle : p.holder = none ∨ p.holder = some .other) (hspawn : ∀ d, mv ≠ .spawn d)
    (h : Step (handler s) p mv p') :
    p'.writers = p.writers ∧ p'.log = p.log ∧ p'.out = p.out ∧
      (p'.holder = none ∨ p'.holder = some .other) := by
  have hno : ∀ {i : ℕ} {d : Request} {st : Stage UInt8}, p.writers[i]? = some ⟨d, st⟩ →
      st.ahead ≠ true := by
    intro i d st hw
    rw [hahead _ (List.mem_of_getElem? hw)]
    exact Bool.false_ne_true
  have hwrite : ∀ {i : ℕ} {d : Request} {sent rest : List UInt8},
      p.writers[i]? ≠ some ⟨d, .writing sent rest⟩ := by
    intro i d sent rest hw
    have hholder := hs.holds i d sent rest hw
    rcases hidle with h | h <;> rw [h] at hholder <;> exact absurd hholder (by simp)
  cases h with
  | spawn d => exact absurd rfl (hspawn d)
  | work hw _ => exact absurd rfl (hno hw)
  | ready hw _ => exact absurd rfl (hno hw)
  | quit hw _ => exact absurd rfl (hno hw)
  | acquire hw _ => exact absurd rfl (hno hw)
  | put hw => exact absurd hw hwrite
  | release hw => exact absurd hw hwrite
  | refuse hw hahead' => exact absurd hahead' (hno hw)
  | abort hw => exact absurd hw hwrite
  | lockOther _ => exact ⟨rfl, rfl, rfl, Or.inr rfl⟩
  | unlockOther _ => exact ⟨rfl, rfl, rfl, Or.inl rfl⟩

/-- Hiding the page starts no timer. -/
theorem timers_hide_of_nil {page : Page} (h : page.timers = []) : page.hide.timers = [] := by
  unfold Page.hide
  split
  · show page.timers.filter _ = []
    rw [h]
    rfl
  · exact h

/-- **Silence lasts until the page is shown again**: nothing more is written. -/
theorem Silent.step {s : Setting} {x x' : System} {e : Event} (hs : Silent x)
    (hi : ServerInv s x.server) (he : e ≠ .unhide) (h : step s x e = some x') :
    Silent x' ∧ x'.server.log = x.server.log ∧ x'.server.out = x.server.out := by
  cases Change.of_eq_some h with
  | issue htimer _ =>
      -- a timer that still runs talks to a server that is gone
      have hexited : x.phase = .exited := by
        rcases hs.noCommands with h | h
        · rw [h] at htimer
          exact absurd htimer List.not_mem_nil
        · exact h
      exact ⟨⟨Or.inr hexited, Or.inl hexited, hs.noWrite⟩, rfl, rfl⟩
  | hide =>
      refine ⟨⟨?_, hs.noHandlers, hs.noWrite⟩, rfl, rfl⟩
      rcases hs.noCommands with h | h
      · exact Or.inl (timers_hide_of_nil h)
      · exact Or.inr h
  | unhide => exact absurd rfl he
  | unload =>
      refine ⟨⟨?_, hs.noHandlers, hs.noWrite⟩, rfl, rfl⟩
      rcases hs.noCommands with h | h
      · left
        show x.page.timers.filter _ = []
        rw [h]
        rfl
      · exact Or.inr h
  | thread hmove hlive hserver =>
      have hahead := hs.noHandlers.resolve_left hlive
      obtain ⟨hwriters, hlog, hout, hholder⟩ := thread_of_silent hi.sound hahead hs.noWrite
        (Event.move_ne_spawn hmove) hserver
      exact ⟨⟨hs.noCommands, Or.inr (hwriters ▸ hahead), hholder⟩, hlog, hout⟩
  | signal hphase =>
      have hlive : x.phase ≠ .exited := by rw [hphase]; decide
      exact ⟨⟨Or.inl (hs.noCommands.resolve_right hlive),
        Or.inr (hs.noHandlers.resolve_left hlive), hs.noWrite⟩, rfl, rfl⟩
  | close hphase =>
      have hlive : x.phase ≠ .exited := by rw [hphase]; decide
      exact ⟨⟨Or.inl (hs.noCommands.resolve_right hlive),
        Or.inr (hs.noHandlers.resolve_left hlive), hs.noWrite⟩, rfl, rfl⟩
  | exit _ => exact ⟨⟨Or.inr rfl, Or.inl rfl, hs.noWrite⟩, rfl, rfl⟩
  | _ => exact ⟨⟨hs.noCommands, hs.noHandlers, hs.noWrite⟩, rfl, rfl⟩

/-! ## What the firmware does meanwhile -/

/-- The sender is silent and the firmware has consumed everything, the lines being `log`. -/
structure Quiet (s : Setting) (log : List (ℕ × List UInt8)) (x : System) : Prop where
  server : ServerInv s x.server
  silent : Silent x
  read : x.consumed = x.server.out.length
  log_eq : x.server.log = log

theorem Quiet.step {s : Setting} {log : List (ℕ × List UInt8)} {x x' : System} {e : Event}
    (hq : Quiet s log x) (he : e ≠ .unhide) (h : step s x e = some x') : Quiet s log x' := by
  obtain ⟨hsilent, hlog, hout⟩ := hq.silent.step hq.server he h
  refine ⟨hq.server.step h, hsilent, ?_, hlog.trans hq.log_eq⟩
  rw [hout, ← hq.read]
  cases Change.of_eq_some h with
  | read i hcut =>
      -- nothing is left to read
      have hrx : x.rx = [] := List.drop_eq_nil_of_le hq.read.ge
      rw [hrx] at hcut
      exact absurd hcut (by simp)
  | _ => rfl

theorem Quiet.run {s : Setting} {t₀ : ℕ} {board : Board} {log : List (ℕ × List UInt8)}
    {x x' : System} {es : List Event} (hq : Quiet s log x) (hes : ∀ e ∈ es, e ≠ .unhide)
    (h : (machine s t₀ board).run x es = some x') : Quiet s log x' :=
  Machine.run_invariant (I := Quiet s log) (C := fun e => e ≠ .unhide)
    (fun _ _ _ hq he h => hq.step he h) hes hq h

/-- An iteration on an empty line leaves the motors at the two drive fields. -/
theorem followsDrive_of_loop {s : Setting} {x x' : System} {i : Iteration}
    (h : step s x (.loop i) = some x') :
    x'.tank.board.FollowsDrive (x'.tank.globals.get .forwardReverse)
      (x'.tank.globals.get .leftRight) := by
  cases Change.of_eq_some h with
  | settle he => rcases he with he | he <;> exact absurd he (by simp)
  | thread he => exact absurd he (by simp [Event.move])
  | idle i _ => exact followsDrive_iterate _ _
  | read i _ => exact followsDrive_iterate _ _

/-- The drive fields in a quiet state, with these commands on the port. -/
theorem Quiet.drive_fields {s : Setting} {t₀ : ℕ} {board : Board} {log : List (ℕ × List UInt8)}
    {x : System} {cs : List Controls} (hx : (machine s t₀ board).Reachable x) (hq : Quiet s log x)
    (hcs : log.map Prod.snd = cs.map lineBytes) :
    x.tank.globals.get .forwardReverse = (cs.getLast?.map Controls.leftJoystickY).getD 0 ∧
      x.tank.globals.get .leftRight = (cs.getLast?.map Controls.leftJoystickX).getD 0 := by
  have hlog : x.server.log.map Prod.snd = cs.map lineBytes := by rw [hq.log_eq, hcs]
  exact ⟨get_of_all_consumed hx hq.silent.noWrite hq.read hlog (by decide),
    get_of_all_consumed hx hq.silent.noWrite hq.read hlog (by decide)⟩

/-- **When the sender goes silent the firmware keeps the last command.**  In every
reachable state of page, server and firmware: none of the ways to stop sending sends
anything, and after hiding or leaving the page no timer issues commands; and once the
sender is silent and the firmware has consumed every line, the drive fields hold the
values of the last line on the port (`0` when there is none), every later iteration,
until the page is shown again, drives the motors at these values, and all four inputs are
`0` exactly when both values are. -/
theorem silent_sender_keeps_last_command (s : Setting) (t₀ : ℕ) (board : Board) {x : System}
    (hx : (machine s t₀ board).Reachable x) :
    (∀ e x', IsStop e → step s x e = some x' →
      x'.server = x.server ∧ x'.tank = x.tank ∧
        ((e = .hide ∨ e = .unload) → x'.page.timers = []) ∧ (e = .exit → x'.phase = .exited)) ∧
      (Silent x → x.consumed = x.server.out.length →
        ∃ cs : List Controls, x.server.log.map Prod.snd = cs.map lineBytes ∧
          ∀ fr lr, fr = (cs.getLast?.map Controls.leftJoystickY).getD 0 →
            lr = (cs.getLast?.map Controls.leftJoystickX).getD 0 →
            x.tank.globals.forwardReverse = fr ∧ x.tank.globals.leftRight = lr ∧
              ∀ es x₁ i x₂, (∀ e ∈ es, e ≠ .unhide) → (machine s t₀ board).run x es = some x₁ →
                step s x₁ (.loop i) = some x₂ →
                x₂.tank.globals.forwardReverse = fr ∧ x₂.tank.globals.leftRight = lr ∧
                  x₂.tank.board.FollowsDrive fr lr ∧
                  ((x₂.tank.board.pwm .in1Pin = 0 ∧ x₂.tank.board.pwm .in2Pin = 0 ∧
                      x₂.tank.board.pwm .in3Pin = 0 ∧ x₂.tank.board.pwm .in4Pin = 0) ↔
                    fr = 0 ∧ lr = 0)) := by
  constructor
  · intro e x' he h
    obtain ⟨hserver, htank⟩ := stop_sends_nothing he h
    refine ⟨hserver, htank, fun hpage => timers_of_stop hx hpage h, ?_⟩
    rintro rfl
    obtain ⟨-, heq⟩ := Option.ite_none_right_eq_some.mp h
    exact Option.some.inj heq ▸ rfl
  · intro hsilent hread
    obtain ⟨cs, hcs⟩ := exists_controls_of_log hx
    refine ⟨cs, hcs, ?_⟩
    rintro fr lr rfl rfl
    have hquiet : Quiet s x.server.log x := ⟨ServerInv.of_reachable hx, hsilent, hread, rfl⟩
    obtain ⟨hfr, hlr⟩ := hquiet.drive_fields hx hcs
    refine ⟨hfr, hlr, ?_⟩
    intro es x₁ i x₂ hes hrun hloop
    have hx₁ : (machine s t₀ board).Reachable x₁ := hx.run hrun
    have hx₂ : (machine s t₀ board).Reachable x₂ := .step (l := .loop i) hx₁ trivial hloop
    have hquiet₂ : Quiet s x.server.log x₂ := (hquiet.run hes hrun).step (by simp) hloop
    obtain ⟨hfr₂, hlr₂⟩ := hquiet₂.drive_fields hx₂ hcs
    have hdrive := followsDrive_of_loop hloop
    rw [hfr₂, hlr₂] at hdrive
    exact ⟨hfr₂, hlr₂, hdrive, hdrive.all_zero_iff⟩

/-- A drive command from the page to the motors, and then nothing else. -/
def driveOnce : List Event :=
  [.control forwards, .tick 1, .handler 0] ++ afterHeaders 0 31 ++ [.arrive, .loop {}]

/-- After one drive command and a hidden page, everything read: the drive fields stay at the values
of that command, and every later iteration has the duty of `in2Pin` at `255`. -/
theorem silent_sender_keeps_drive_command :
    ∃ x, (machine openPort 0 {}).run (machine openPort 0 {}).init (driveOnce ++ [.hide]) = some x ∧
      Silent x ∧ x.tank.globals.forwardReverse = 7 ∧ x.tank.globals.leftRight = 0 ∧
        ∀ es x₁ i x₂, (∀ e ∈ es, e ≠ .unhide) → (machine openPort 0 {}).run x es = some x₁ →
          step openPort x₁ (.loop i) = some x₂ →
          x₂.tank.globals.forwardReverse = 7 ∧ x₂.tank.globals.leftRight = 0 ∧
            x₂.tank.board.pwm .in2Pin = 255 := by
  have hrun : ((machine openPort 0 {}).run (machine openPort 0 {}).init (driveOnce ++ [.hide])).map
      (fun x => (decide (Silent x), decide (x.consumed = x.server.out.length),
        x.tank.globals.forwardReverse, x.tank.globals.leftRight)) = some (true, true, 7, 0) := by
    decide
  obtain ⟨x, hx, hfacts⟩ := Option.map_eq_some_iff.mp hrun
  simp only [Prod.mk.injEq, decide_eq_true_eq] at hfacts
  obtain ⟨hsilent, hread, hfr, hlr⟩ := hfacts
  obtain ⟨cs, -, hlast⟩ := (silent_sender_keeps_last_command openPort 0 {}
    (Machine.reachable_of_run hx)).2 hsilent hread
  obtain ⟨hfr', hlr', hlater⟩ := hlast _ _ rfl rfl
  rw [← hfr', ← hlr', hfr, hlr] at hlater
  refine ⟨x, hx, hsilent, hfr, hlr, fun es x₁ i x₂ hes hrun' hloop => ?_⟩
  obtain ⟨hfr₂, hlr₂, hdrive, -⟩ := hlater es x₁ i x₂ hes hrun' hloop
  exact ⟨hfr₂, hlr₂, hdrive.1.2.trans (by decide)⟩

/-- A way to stop sending that stops the tank: whenever the sender is silent after it and
everything is read, the drive fields are `0`, and the next iteration switches `in2Pin` off. -/
def StopsTank (stop : List Event) : Prop :=
  ∀ (s : Setting) (t₀ : ℕ) (board : Board) (x x' : System),
    (machine s t₀ board).Reachable x → (machine s t₀ board).run x stop = some x' →
    Silent x' → x'.consumed = x'.server.out.length →
      x'.tank.globals.forwardReverse = 0 ∧ x'.tank.globals.leftRight = 0 ∧
        ∀ i x₁, step s x' (.loop i) = some x₁ → x₁.tank.board.pwm .in2Pin = 0

/-- The run after which a way to stop sending leaves the motors running. -/
def leavesMoving (stop : List Event) : Bool :=
  ((machine openPort 0 {}).run (machine openPort 0 {}).init driveOnce).any fun x =>
    ((machine openPort 0 {}).run x stop).any fun x' =>
      decide (Silent x') && decide (x'.consumed = x'.server.out.length) &&
        (step openPort x' (.loop {})).any fun x₁ => x₁.tank.board.pwm .in2Pin = 255

theorem not_stopsTank_of_leavesMoving {stop : List Event} (h : leavesMoving stop = true) :
    ¬ StopsTank stop := by
  intro hclaim
  obtain ⟨x, hx, hrest⟩ := (Option.any_eq_true _ _).mp h
  obtain ⟨x', hx', hfacts⟩ := (Option.any_eq_true _ _).mp hrest
  rw [Bool.and_eq_true, Bool.and_eq_true, decide_eq_true_eq, decide_eq_true_eq] at hfacts
  obtain ⟨⟨hsilent, hread⟩, hloop⟩ := hfacts
  obtain ⟨x₁, hstep, hduty⟩ := (Option.any_eq_true _ _).mp hloop
  have hoff := (hclaim openPort 0 {} x x' (Machine.reachable_of_run hx) hx' hsilent hread).2.2
    {} x₁ hstep
  rw [decide_eq_true_eq, hoff] at hduty
  exact absurd hduty (by decide)

/-- **None of the ways to stop sending stops the tank**: not hiding the page, not leaving it,
not the exit of the server.  After one drive command forwards `in2Pin` stays at full duty. -/
theorem moving_after_every_stop :
    ¬ StopsTank [.hide] ∧ ¬ StopsTank [.unload] ∧ ¬ StopsTank [.signal, .close, .exit] :=
  ⟨not_stopsTank_of_leavesMoving (by decide), not_stopsTank_of_leavesMoving (by decide),
    not_stopsTank_of_leavesMoving (by decide)⟩

end TankSystem
