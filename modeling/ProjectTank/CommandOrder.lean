/-
# The order of commands on the serial port

`repeatedTask` issues a request only when the previous one has been answered.  The
handler, however, sends the headers of its response before it parses and writes, so
`pendingRequest` becomes `null` while the command may still be on its way, and two
handlers can meet at `serial_lock` in either order.

* `commands_in_issue_order`: the lines reach the port in the order in which the page
  issued the commands, in every run in which no earlier handler is still on its way to
  the lock when a command is issued;
* `command_overtaken`: otherwise a later command can be written first.
-/
import ProjectTank.TankSystem

open ProgramText TankFirmware TankServer CommandLink WriterPool SerialLines

namespace TankSystem

/-! ## What holds in every reachable state -/

/-- The request is one that the page issued. -/
def FromPage (r : Request) : Prop := ∃ c : Controls, r.path = c.url

theorem keeps_fromPage (s : Setting) : (handler s).Keeps FromPage where
  prepare := by
    rintro r ⟨c, hc⟩
    exact ⟨c, (path_prepare s r).trans hc⟩
  finish := fun _ h => h
  fail := fun _ h => h

/-- The bytes that a request of the page may contribute: the line of its controls. -/
def LineOfControls (s : Setting) (r : Request) (line : List UInt8) : Prop :=
  s.serialOpen = true ∧ ∃ c : Controls, r.path = c.url ∧ line = messageToSend (lineOf c.values)

/-- The server finds in a request of the page the values of its controls. -/
theorem lineOfControls_of_lineOfRequest {s : Setting} {r : Request} {line : List UInt8}
    (hpage : FromPage r) (h : LineOfRequest s r line) : LineOfControls s r line := by
  obtain ⟨c, hc⟩ := hpage
  obtain ⟨hserial, -, v, hv, hline⟩ := h
  have hvalues : v = c.values := by
    funext f
    have hpage := parseTankCommand_tankCommandUrl s.unicode c.fitsInt32_values f
    have hstands := hv f
    rw [hc, ← parseTankCommand_eq_lastAccepted] at hstands
    exact Option.some.inj (hstands.symm.trans hpage)
  exact ⟨hserial, c, hc, hvalues ▸ hline⟩

/-- What the server's part of a reachable state satisfies. -/
structure ServerInv (s : Setting) (p : Pool Request UInt8) : Prop where
  sound : Sound p
  carries : Carries (LineOfRequest s) p
  fromPage : Each FromPage p

theorem ServerInv.empty (s : Setting) : ServerInv s {} :=
  ⟨Sound.empty, Carries.empty _, fun _ hw => absurd hw List.not_mem_nil⟩

theorem ServerInv.step {s : Setting} {x x' : System} {e : Event} (h : step s x e = some x')
    (hi : ServerInv s x.server) : ServerInv s x'.server := by
  rcases (Change.of_eq_some h).server with heq | ⟨mv, hmv, hspawn⟩
  · rw [heq]
    exact hi
  · refine ⟨hi.sound.step hmv, hi.carries.step (handler_writes s) hi.sound hmv,
      hi.fromPage.step (keeps_fromPage s) hmv fun d hd => ?_⟩
    exact ⟨x.page.controls, by rw [(hspawn d hd).1]⟩

theorem ServerInv.of_reachable {s : Setting} {t₀ : ℕ} {board : Board} {x : System}
    (hx : (machine s t₀ board).Reachable x) : ServerInv s x.server :=
  hx.invariant (I := fun x => ServerInv s x.server) (ServerInv.empty s) fun _ _ _ hi h => hi.step h

/-- Every line on the port is the line of the controls of its request. -/
theorem lineOfControls_of_mem_log {s : Setting} {t₀ : ℕ} {board : Board} {x : System}
    (hx : (machine s t₀ board).Reachable x) {i : ℕ} {line : List UInt8}
    (h : (i, line) ∈ x.server.log) :
    ∃ r, x.server.writers[i]? = some ⟨r, .finished⟩ ∧ LineOfControls s r line := by
  have hi := ServerInv.of_reachable hx
  obtain ⟨r, hr, hline⟩ := hi.carries.logged i line h
  exact ⟨r, hr, lineOfControls_of_lineOfRequest (hi.fromPage _ (List.mem_of_getElem? hr)) hline⟩

/-! ## Order -/

/-- When the page issues a command, no handler of an earlier one is still on its way to
`serial_lock`.  (Without a serial port no handler ever gets there.) -/
def IssuesInTurn (s : Setting) (x : System) : Event → Prop
  | .tick _ => x.page.pendingRequest = none → s.serialOpen = true →
      ∀ w ∈ x.server.writers, w.stage.ahead = false
  | _ => True

instance (s : Setting) (x : System) : ∀ e, Decidable (IssuesInTurn s x e)
  | .tick _ => inferInstanceAs (Decidable (_ → _ → _))
  | .control _ | .arrive | .reject | .hide | .unhide | .unload | .handler _ | .raise _ | .sensor
  | .signal | .close | .exit | .loop _ => isTrue trivial

/-- A step that issues in turn keeps the order. -/
theorem ordered_step {s : Setting} (hserial : s.serialOpen = true) {x x' : System} {e : Event}
    (hC : IssuesInTurn s x e) (h : step s x e = some x') (hs : Sound x.server)
    (ho : Ordered x.server) : Ordered x'.server := by
  rcases (Change.of_eq_some h).server with heq | ⟨mv, hmv, hspawn⟩
  · rw [heq]
    exact ho
  · refine ho.step hs hmv fun d hd => ?_
    obtain ⟨-, hpending, id, rfl⟩ := hspawn d hd
    exact hC hpending hserial

/-- **Commands reach the port in the order of issue**, in every run in which each command
is issued with no earlier handler still on its way to the lock.  Writer `i` of the server
is the handler of the `i`-th command that the page issued. -/
theorem commands_in_issue_order (s : Setting) (t₀ : ℕ) (board : Board) {x : System}
    (hx : (machine s t₀ board).ReachesUnder (IssuesInTurn s) x) :
    (x.server.log.map Prod.fst).Pairwise (· < ·) ∧
      ∀ i line, (i, line) ∈ x.server.log → ∃ (r : Request) (c : Controls),
        x.server.writers[i]? = some ⟨r, .finished⟩ ∧ r.path = c.url ∧
          line = messageToSend (lineOf c.values) := by
  constructor
  · by_cases hserial : s.serialOpen = true
    · have hboth : ServerInv s x.server ∧ Ordered x.server := by
        refine hx.invariant (I := fun x => ServerInv s x.server ∧ Ordered x.server)
          ⟨ServerInv.empty s, Ordered.empty⟩ ?_
        rintro y e y' ⟨hi, ho⟩ hC h
        exact ⟨hi.step h, ordered_step hserial hC h hi.sound ho⟩
      exact hboth.2.sorted
    · -- without a serial port nothing is ever written
      have hnil : x.server.log = [] := by
        rw [List.eq_nil_iff_forall_not_mem]
        rintro ⟨i, line⟩ hmem
        obtain ⟨r, -, hopen, -⟩ := lineOfControls_of_mem_log hx.reachable hmem
        exact hserial hopen
      rw [hnil]
      exact List.Pairwise.nil
  · intro i line h
    obtain ⟨r, hr, -, c, hc, hline⟩ := lineOfControls_of_mem_log hx.reachable h
    exact ⟨r, c, hr, hc, hline⟩

/-- The steps of the handler of a line of `n` bytes after its headers. -/
def afterHeaders (i n : ℕ) : List Event := List.replicate (n + 3) (.handler i)

/-- A setting with an open serial port. -/
def openPort : Setting := ⟨.bare, true, []⟩

/-- A drive command and a stop command. -/
def forwards : Controls := { leftJoystickY := 7 }

theorem fits_standing : FitsInt32 0 ∧ FitsInt32 0 ∧ FitsInt32 0 ∧ FitsInt32 0 := by decide

def standing : Controls := { fits := fits_standing }

/-- Two commands, each issued when the handler of the one before is done. -/
theorem commands_in_issue_order_of_two :
    ∃ x, (machine openPort 0 {}).runUnder (IssuesInTurn openPort) (machine openPort 0 {}).init
        ([.control forwards, .tick 1, .handler 0] ++ afterHeaders 0 31 ++
          [.arrive, .control standing, .tick 1, .handler 1] ++ afterHeaders 1 31) = some x ∧
      x.server.log.map Prod.fst = [0, 1] ∧ (x.server.log.map Prod.fst).Pairwise (· < ·) := by
  have hrun : ((machine openPort 0 {}).runUnder (IssuesInTurn openPort) (machine openPort 0 {}).init
      ([.control forwards, .tick 1, .handler 0] ++ afterHeaders 0 31 ++
        [.arrive, .control standing, .tick 1, .handler 1] ++ afterHeaders 1 31)).map
          (fun x => x.server.log.map Prod.fst) = some [0, 1] := by decide
  obtain ⟨x, hx, hlog⟩ := Option.map_eq_some_iff.mp hrun
  exact ⟨x, hx, hlog, (commands_in_issue_order openPort 0 {} (Machine.ReachesUnder.init.runUnder hx)).1⟩

/-- **A later command is written first.**  The headers of the drive command arrive before
its line is written, the page issues the stop command, and its handler takes the lock
first: the port ends with the drive command. -/
theorem command_overtaken :
    ¬ ∀ (s : Setting) (t₀ : ℕ) (board : Board) (x : System), (machine s t₀ board).Reachable x →
      (x.server.log.map Prod.fst).Pairwise (· < ·) := by
  intro hall
  have hrun : ((machine openPort 0 {}).run (machine openPort 0 {}).init
      ([.control forwards, .tick 1, .handler 0, .arrive, .control standing, .tick 1, .handler 1] ++
        afterHeaders 1 31 ++ afterHeaders 0 31)).map
          (fun x => x.server.log) =
        some [(1, messageToSend (lineOf standing.values)), (0, messageToSend (lineOf forwards.values))] := by
    decide
  obtain ⟨x, hx, hlog⟩ := Option.map_eq_some_iff.mp hrun
  have h := hall openPort 0 {} x (Machine.reachable_of_run hx)
  rw [hlog] at h
  exact absurd h (by decide)

end TankSystem
