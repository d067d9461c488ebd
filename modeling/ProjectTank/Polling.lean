/-
# Timers and requests of the page (`Guy/peter/index_fixed.html`)

Two intervals poll the server: `repeatedTask` sends the command, `readDataTask` fetches the
distance and the motor speeds.  A pending variable keeps a task from sending again too early;
the motor speeds have none of their own.  `cleanup` ends the intervals and aborts the requests,
but the listener of `visibilitychange` outlives it.

* `Kept`: what the timers, the pending variables and the abort controllers have in common;
* `good_step_iff`: which events keep the polling within its bounds;
* `polling_bounded_iff`: the same through a run;
* `motor_requests_pile_up`: a run with two requests for the motor speeds.
-/
import ProjectTank.IntervalTimers
import ProjectTank.Transition

open IntervalTimers

namespace Polling

/-! ## The page -/

/-- What the page requests: the two of its start, the two that are read, and the command. -/
inductive Endpoint
  | getTime
  | getLatency
  | getDistance
  | getMotorSpeeds
  | tankCommand
  deriving DecidableEq

/-- The promise of `fetch` is pending, or the body of the response is being read. -/
inductive Stage
  | waiting
  | reading
  deriving DecidableEq

/-- A request in flight; `aborted` says that its controller has been told to abort. -/
structure Request where
  endpoint : Endpoint
  stage : Stage := .waiting
  aborted : Bool := false
  deriving DecidableEq

/-- The two functions that intervals run. -/
inductive Task
  | repeatedTask
  | readDataTask
  deriving DecidableEq

/-- The variables that hold the numbers of the intervals. -/
inductive Handle
  | mainIntervalId
  | readIntervalId
  deriving DecidableEq

/-- The intervals and the abort controllers are those that `cleanupManager` knows; a controller is
named by its request. -/
structure Page where
  hidden : Bool
  timers : Timers Handle Task := {}
  intervals : List ℕ := []
  abortControllers : List ℕ := []
  requests : ℕ → Option Request := fun _ => none
  nextRequest : ℕ := 0
  pendingRequest : Option ℕ := none
  readPendingRequest : Option ℕ := none
  cleanedUp : Bool := false

namespace Page

/-- `h = setInterval(task, 50); cleanupManager.addInterval(h);`. -/
def startInterval (p : Page) (h : Handle) (task : Task) : Page :=
  { p with timers := p.timers.store h task, intervals := p.intervals ++ [p.timers.nextId] }

/-- `safeFetch`. -/
def safeFetch (p : Page) (endpoint : Endpoint) : Page :=
  { p with
    requests := Function.update p.requests p.nextRequest (some { endpoint := endpoint })
    abortControllers := p.abortControllers ++ [p.nextRequest]
    nextRequest := p.nextRequest + 1 }

/-- `readDataTask`: the distance and the motor speeds. -/
def readDataTask (p : Page) : Page :=
  if p.readPendingRequest ≠ none then p
  else
    let p := { p.safeFetch .getDistance with readPendingRequest := some p.nextRequest }
    -- no pending variable is looked at or set for the motor speeds
    p.safeFetch .getMotorSpeeds

/-- `repeatedTask`: the command, unless one is pending. -/
def repeatedTask (p : Page) : Page :=
  if p.pendingRequest ≠ none then p
  else { p.safeFetch .tankCommand with pendingRequest := some p.nextRequest }

/-- What an interval does when it fires. -/
def fire (p : Page) : Task → Page
  | .repeatedTask => p.repeatedTask
  | .readDataTask => p.readDataTask

/-- The listener of `visibilitychange`. -/
def visibilitychange (p : Page) : Page :=
  if p.hidden = true then { p with timers := p.timers.clear .mainIntervalId }
  else if p.timers.handle .mainIntervalId = none then
    p.startInterval .mainIntervalId .repeatedTask
  else p

/-- `cleanupManager.cleanup()`. -/
def cleanup (p : Page) : Page :=
  { p with
    -- the handles keep their values
    timers := { p.timers with live := fun id =>
      if id ∈ p.intervals then none else p.timers.live id }
    intervals := []
    requests := fun i => (p.requests i).map fun r =>
      if i ∈ p.abortControllers then { r with aborted := true } else r
    abortControllers := []
    cleanedUp := true }

/-- The `finally` of `safeFetch`. -/
def settled (p : Page) (i : ℕ) : Page :=
  { p with abortControllers := p.abortControllers.filter (· ≠ i) }

/-- The end of the promise chain of a request. -/
def finished (p : Page) (i : ℕ) (endpoint : Endpoint) : Page :=
  let p := { p with requests := Function.update p.requests i none }
  match endpoint with
  | .tankCommand => { p with pendingRequest := none }
  | .getDistance => { p with readPendingRequest := none }
  | _ => p

/-- The page when its script has run. -/
def load (hidden : Bool) : Page :=
  let p := ({ hidden := hidden } : Page).safeFetch .getTime
  let p := p.safeFetch .getLatency
  let p := p.startInterval .readIntervalId .readDataTask
  p.startInterval .mainIntervalId .repeatedTask

end Page

/-- The page is hidden or shown; an interval fires; a response arrives, `fetch` fails or is
aborted, a body has been read or fails; the page is about to be left. -/
inductive Event
  | visibilitychange
  | tick (id : ℕ)
  | response (i : ℕ)
  | failure (i : ℕ)
  | body (i : ℕ)
  | beforeunload

/-- One event.  The answer to a command is not read. -/
def step (p : Page) : Event → Option Page
  | .visibilitychange => some (Page.visibilitychange { p with hidden := !p.hidden })
  | .tick id => (p.timers.live id).map p.fire
  | .response i =>
      match p.requests i with
      | some { endpoint, stage := .waiting, aborted := false } =>
          -- the pending variable of the command is reset as soon as there is an answer
          if endpoint = .tankCommand then some ((p.settled i).finished i endpoint)
          else some { p.settled i with
            requests := Function.update p.requests i
              (some { endpoint := endpoint, stage := .reading }) }
      | _ => none
  | .failure i =>
      match p.requests i with
      | some { endpoint, stage := .waiting, aborted := _ } =>
          some ((p.settled i).finished i endpoint)
      | _ => none
  | .body i =>
      match p.requests i with
      | some { endpoint, stage := .reading, aborted := _ } => some (p.finished i endpoint)
      | _ => none
  | .beforeunload => some p.cleanup

def machine (hidden : Bool) : Machine Page Event where
  init := Page.load hidden
  step := step

/-! ## The bounds -/

/-- The promise of the request is pending. -/
def Unresolved (p : Page) (endpoint : Endpoint) (i : ℕ) : Prop :=
  ∃ aborted, p.requests i = some { endpoint := endpoint, stage := .waiting, aborted := aborted }

/-- The endpoints that the intervals poll. -/
def polled : List Endpoint := [.tankCommand, .getDistance, .getMotorSpeeds]

/-- The polling is within its bounds. -/
structure Good (p : Page) : Prop where
  oneTimer : ∀ id id', p.timers.live id = some .repeatedTask →
    p.timers.live id' = some .repeatedTask → id = id'
  oneRequest : ∀ endpoint ∈ polled, ∀ i j, Unresolved p endpoint i → Unresolved p endpoint j → i = j
  cleanedUp : p.cleanedUp = true → (∀ id, p.timers.live id = none) ∧
    ∀ i r, p.requests i = some r → r.stage = .waiting → r.aborted = true

/-- The distance is fetched again while a request for the motor speeds is unresolved, or the page is
shown again after its cleanup. -/
def PilesUp (p : Page) : Event → Prop
  | .tick id => p.timers.live id = some .readDataTask ∧ p.readPendingRequest = none ∧
      ∃ i, Unresolved p .getMotorSpeeds i
  | .visibilitychange => p.cleanedUp = true ∧ p.hidden = true ∧
      p.timers.handle .mainIntervalId = none
  | _ => False

/-- What the variables of the page have in common. -/
structure Kept (p : Page) : Prop where
  main : ∀ id, p.timers.live id = some .repeatedTask → p.timers.handle .mainIntervalId = some id
  registered : ∀ id, p.timers.live id ≠ none → id ∈ p.intervals
  fresh : ∀ i, p.requests i ≠ none → i < p.nextRequest
  controlled : ∀ i r, p.requests i = some r → r.stage = .waiting → r.aborted = false →
    i ∈ p.abortControllers
  pending : ∀ i r, p.requests i = some r → r.endpoint = .tankCommand → p.pendingRequest = some i
  readPending : ∀ i r, p.requests i = some r → r.endpoint = .getDistance →
    p.readPendingRequest = some i

/-! ## A new request -/

section Requests

variable {p : Page} {endpoint : Endpoint}

/-- The new request has the next number, the others stay. -/
theorem requests_safeFetch (i : ℕ) : (p.safeFetch endpoint).requests i =
    if i = p.nextRequest then some { endpoint := endpoint } else p.requests i :=
  Function.update_apply _ _ _ _

/-- A pending variable still names each request of its endpoint, if it was empty and stores the
new request whenever that is one of its endpoint. -/
theorem pending_safeFetch {stored stored' : Option ℕ} {own : Endpoint}
    (hold : ∀ i r, p.requests i = some r → r.endpoint = own → stored = some i)
    (hnew : if endpoint = own then stored = none ∧ stored' = some p.nextRequest
      else stored' = stored) {i : ℕ} {r : Request}
    (hi : (p.safeFetch endpoint).requests i = some r) (hr : r.endpoint = own) :
    stored' = some i := by
  rw [requests_safeFetch] at hi
  split_ifs at hi with hi'
  · obtain rfl := Option.some.inj hi
    rw [if_pos hr] at hnew
    rw [hnew.2, hi']
  · have hstored := hold i r hi hr
    split_ifs at hnew with hown
    · rw [hnew.1] at hstored
      cases hstored
    · rw [hnew, hstored]

/-- A new request keeps what the variables have in common, if the pending variable of its endpoint
was empty and stores it. -/
theorem Kept.safeFetch (h : Kept p) {pending readPending : Option ℕ}
    (hpending : if endpoint = .tankCommand then p.pendingRequest = none ∧
      pending = some p.nextRequest else pending = p.pendingRequest)
    (hread : if endpoint = .getDistance then p.readPendingRequest = none ∧
      readPending = some p.nextRequest else readPending = p.readPendingRequest) :
    Kept { p.safeFetch endpoint with
      pendingRequest := pending, readPendingRequest := readPending } := by
  refine ⟨h.main, h.registered, fun i hi => ?_, fun i r hi hstage haborted => ?_,
    fun i r hi hr => pending_safeFetch h.pending hpending hi hr,
    fun i r hi hr => pending_safeFetch h.readPending hread hi hr⟩
  · show i < p.nextRequest + 1
    by_cases hnew : i = p.nextRequest
    · omega
    · have hold := h.fresh i (by rwa [requests_safeFetch, if_neg hnew] at hi)
      omega
  · show i ∈ p.abortControllers ++ [p.nextRequest]
    by_cases hnew : i = p.nextRequest
    · simp [hnew]
    · rw [requests_safeFetch, if_neg hnew] at hi
      exact List.mem_append_left _ (h.controlled i r hi hstage haborted)

/-- Of its endpoint the new request is unresolved, and nothing else changes. -/
theorem unresolved_safeFetch {other : Endpoint} {i : ℕ} :
    Unresolved (p.safeFetch endpoint) other i ↔
      (i = p.nextRequest ∧ other = endpoint) ∨ (i ≠ p.nextRequest ∧ Unresolved p other i) := by
  unfold Unresolved
  rw [requests_safeFetch]
  by_cases hnew : i = p.nextRequest
  · simp [hnew, eq_comm]
  · simp [hnew]

/-- The number of a new request is not in use. -/
theorem Kept.not_unresolved_new (h : Kept p) : ¬ Unresolved p endpoint p.nextRequest := by
  rintro ⟨aborted, hreq⟩
  exact absurd (h.fresh p.nextRequest (by rw [hreq]; exact Option.some_ne_none _)) (lt_irrefl _)

/-- The bounds do not depend on the pending variables. -/
theorem Good.congr {p' : Page} (h : Good p) (htimers : p'.timers = p.timers)
    (hrequests : p'.requests = p.requests) (hcleaned : p'.cleanedUp = p.cleanedUp) : Good p' := by
  refine ⟨?_, ?_, ?_⟩
  · rw [htimers]
    exact h.oneTimer
  · unfold Unresolved
    rw [hrequests]
    exact h.oneRequest
  · rw [htimers, hrequests, hcleaned]
    exact h.cleanedUp

/-- **A new request is within the bounds** if and only if there is no other for its endpoint. -/
theorem Good.safeFetch_iff (hk : Kept p) (h : Good p) (hc : p.cleanedUp = false)
    (hpolled : endpoint ∈ polled) :
    Good (p.safeFetch endpoint) ↔ ∀ i, ¬ Unresolved p endpoint i := by
  constructor
  · intro hgood i hi
    have hold : i ≠ p.nextRequest := fun heq => hk.not_unresolved_new (heq ▸ hi)
    exact hold (hgood.oneRequest endpoint hpolled i p.nextRequest
      (unresolved_safeFetch.mpr (Or.inr ⟨hold, hi⟩)) (unresolved_safeFetch.mpr (Or.inl ⟨rfl, rfl⟩)))
  · intro hnone
    refine ⟨h.oneTimer, fun other hother i j hi hj => ?_, fun hclean => ?_⟩
    · rcases unresolved_safeFetch.mp hi with ⟨rfl, rfl⟩ | ⟨-, hi⟩ <;>
        rcases unresolved_safeFetch.mp hj with ⟨rfl, heq⟩ | ⟨-, hj⟩
      · rfl
      · exact absurd hj (hnone j)
      · exact absurd (heq ▸ hi) (hnone i)
      · exact h.oneRequest other hother i j hi hj
    · have hfalse : p.cleanedUp = true := hclean
      rw [hc] at hfalse
      cases hfalse

end Requests

/-! ## The two tasks -/

section Tasks

variable {p : Page}

/-- The command's pending variable is empty when a command is sent. -/
theorem Kept.repeatedTask (h : Kept p) : Kept p.repeatedTask := by
  unfold Page.repeatedTask
  split_ifs with hpending
  · exact h
  · exact h.safeFetch (if_pos rfl |>.mpr ⟨not_not.mp hpending, rfl⟩) rfl

/-- So is that of the distance; the motor speeds have none to keep. -/
theorem Kept.readDataTask (h : Kept p) : Kept p.readDataTask := by
  unfold Page.readDataTask
  split_ifs with hpending
  · exact h
  · have hdist : Kept { p.safeFetch .getDistance with readPendingRequest := some p.nextRequest } :=
      h.safeFetch rfl (if_pos rfl |>.mpr ⟨not_not.mp hpending, rfl⟩)
    exact hdist.safeFetch rfl rfl

/-- A command is only sent when no other is pending. -/
theorem Good.repeatedTask (hk : Kept p) (h : Good p) (hc : p.cleanedUp = false) :
    Good p.repeatedTask := by
  unfold Page.repeatedTask
  split_ifs with hpending
  · exact h
  · have hnone : ∀ i, ¬ Unresolved p .tankCommand i := by
      rintro i ⟨aborted, hi⟩
      exact hpending (by rw [hk.pending i _ hi rfl]; exact Option.some_ne_none i)
    exact ((h.safeFetch_iff hk hc (by decide)).mpr hnone).congr rfl rfl rfl

/-- The distance is only fetched when no other request for it is pending, but the motor speeds
with it. -/
theorem Good.readDataTask_iff (hk : Kept p) (h : Good p) (hc : p.cleanedUp = false) :
    Good p.readDataTask ↔
      ¬ (p.readPendingRequest = none ∧ ∃ i, Unresolved p .getMotorSpeeds i) := by
  unfold Page.readDataTask
  split_ifs with hpending
  · exact iff_of_true h fun hbad => hpending hbad.1
  · rw [ne_eq, not_not] at hpending
    have hnone : ∀ i, ¬ Unresolved p .getDistance i := by
      rintro i ⟨aborted, hi⟩
      have hstored := hk.readPending i _ hi rfl
      rw [hpending] at hstored
      cases hstored
    have hdist : Good { p.safeFetch .getDistance with readPendingRequest := some p.nextRequest } :=
      ((h.safeFetch_iff hk hc (by decide)).mpr hnone).congr rfl rfl rfl
    have hkept : Kept { p.safeFetch .getDistance with readPendingRequest := some p.nextRequest } :=
      hk.safeFetch rfl (if_pos rfl |>.mpr ⟨hpending, rfl⟩)
    rw [hdist.safeFetch_iff hkept hc (by decide)]
    constructor
    · rintro hmotor ⟨-, i, hi⟩
      have hold : i ≠ p.nextRequest := fun heq => hk.not_unresolved_new (heq ▸ hi)
      exact hmotor i (unresolved_safeFetch.mpr (Or.inr ⟨hold, hi⟩))
    · rintro hno i hi
      rcases unresolved_safeFetch.mp hi with ⟨-, hne⟩ | ⟨-, hi⟩
      · cases hne
      · exact hno ⟨hpending, i, hi⟩

end Tasks

/-! ## The end of a request -/

section Ends

variable {p : Page} {i : ℕ}

/-- Fewer pending promises are within the bounds. -/
theorem Good.of_subset {p' : Page} (h : Good p) (htimers : p'.timers = p.timers)
    (hcleaned : p'.cleanedUp = p.cleanedUp)
    (hsub : ∀ j r, p'.requests j = some r → r.stage = .waiting → p.requests j = some r) :
    Good p' := by
  refine ⟨?_, fun endpoint hpolled j k hj hk => ?_, fun hc => ?_⟩
  · rw [htimers]
    exact h.oneTimer
  · obtain ⟨aborted, hj⟩ := hj
    obtain ⟨aborted', hk⟩ := hk
    exact h.oneRequest endpoint hpolled j k ⟨aborted, hsub j _ hj rfl⟩ ⟨aborted', hsub k _ hk rfl⟩
  · obtain ⟨hlive, hwaiting⟩ := h.cleanedUp (hcleaned ▸ hc)
    rw [htimers]
    exact ⟨hlive, fun j r hj hr => hwaiting j r (hsub j r hj hr) hr⟩

/-- Only the controller of a request that waits no longer is given up. -/
theorem Kept.settled (h : Kept p) (hi : ∀ r, p.requests i = some r → r.stage ≠ .waiting) :
    Kept (p.settled i) := by
  refine ⟨h.main, h.registered, h.fresh, fun j r hj hr ha => ?_, h.pending, h.readPending⟩
  have hne : j ≠ i := by
    rintro rfl
    exact hi r hj hr
  exact List.mem_filter.mpr ⟨h.controlled j r hj hr ha, by simpa using hne⟩

/-- The request is gone, the others stay. -/
theorem requests_finished (endpoint : Endpoint) :
    (p.finished i endpoint).requests = Function.update p.requests i none := by
  cases endpoint <;> rfl

theorem requests_of_finished {endpoint : Endpoint} {j : ℕ} {r : Request}
    (hj : (p.finished i endpoint).requests j = some r) : j ≠ i ∧ p.requests j = some r := by
  rw [requests_finished, Function.update_apply] at hj
  split_ifs at hj with hji
  exact ⟨hji, hj⟩

/-- A pending variable that names each request of its endpoint is only emptied when no other is
left. -/
theorem pending_of_finished {stored : Option ℕ} {own : Endpoint}
    (hold : ∀ i r, p.requests i = some r → r.endpoint = own → stored = some i) {r : Request}
    (hi : p.requests i = some r) {j : ℕ} {r' : Request}
    (hj : (p.finished i r.endpoint).requests j = some r') (hr : r'.endpoint = own) :
    stored = some j ∧ r.endpoint ≠ own := by
  obtain ⟨hne, hj⟩ := requests_of_finished hj
  have hstored := hold j r' hj hr
  exact ⟨hstored, fun hown => hne (Option.some.inj (hstored.symm.trans (hold i r hi hown)))⟩

/-- The end of a request empties its own pending variable, which names no other. -/
theorem Kept.finished (h : Kept p) {r : Request} (hi : p.requests i = some r) :
    Kept (p.finished i r.endpoint) := by
  have hnext : (p.finished i r.endpoint).nextRequest = p.nextRequest := by cases r.endpoint <;> rfl
  have hctrl : (p.finished i r.endpoint).abortControllers = p.abortControllers := by
    cases r.endpoint <;> rfl
  have htimers : (p.finished i r.endpoint).timers = p.timers := by cases r.endpoint <;> rfl
  have hints : (p.finished i r.endpoint).intervals = p.intervals := by cases r.endpoint <;> rfl
  refine ⟨?_, ?_, fun j hj => ?_, fun j r' hj hr ha => ?_, fun j r' hj hr => ?_, fun j r' hj hr => ?_⟩
  · rw [htimers]
    exact h.main
  · rw [htimers, hints]
    exact h.registered
  · obtain ⟨r', hr'⟩ := Option.ne_none_iff_exists'.mp hj
    rw [hnext]
    exact h.fresh j (by rw [(requests_of_finished hr').2]; exact Option.some_ne_none r')
  · rw [hctrl]
    exact h.controlled j r' (requests_of_finished hj).2 hr ha
  · obtain ⟨hstored, hother⟩ := pending_of_finished h.pending hi hj hr
    rw [← hstored]
    cases hr' : r.endpoint <;> first | rfl | exact absurd hr' hother
  · obtain ⟨hstored, hother⟩ := pending_of_finished h.readPending hi hj hr
    rw [← hstored]
    cases hr' : r.endpoint <;> first | rfl | exact absurd hr' hother

/-- `fetch` has settled, and nothing is left to do. -/
theorem Kept.settled_finished (h : Kept p) {r : Request} (hi : p.requests i = some r) :
    Kept ((p.settled i).finished i r.endpoint) := by
  have hgone : ∀ r', (p.finished i r.endpoint).requests i = some r' → r'.stage ≠ .waiting := by
    intro r' hr'
    rw [requests_finished, Function.update_self] at hr'
    cases hr'
  have hswap : (p.settled i).finished i r.endpoint = (p.finished i r.endpoint).settled i := by
    cases r.endpoint <;> rfl
  rw [hswap]
  exact (h.finished hi).settled hgone

theorem Good.settled (h : Good p) : Good (p.settled i) := h.congr rfl rfl rfl

/-- The end of a request keeps the bounds. -/
theorem Good.finished (h : Good p) (endpoint : Endpoint) : Good (p.finished i endpoint) := by
  refine h.of_subset ?_ ?_ fun j r hj _ => ?_
  · cases endpoint <;> rfl
  · cases endpoint <;> rfl
  · exact (requests_of_finished hj).2

/-- The body of the response is read. -/
theorem Kept.reading (h : Kept p) {r : Request} (hi : p.requests i = some r) :
    Kept { p.settled i with
      requests := Function.update p.requests i (some { endpoint := r.endpoint, stage := .reading }) } := by
  have hold : ∀ {j r'}, Function.update p.requests i
      (some { endpoint := r.endpoint, stage := .reading }) j = some r' →
      (j = i ∧ r'.endpoint = r.endpoint ∧ r'.stage = .reading) ∨ (j ≠ i ∧ p.requests j = some r') := by
    intro j r' hj
    by_cases hji : j = i
    · rw [hji, Function.update_self] at hj
      obtain rfl := Option.some.inj hj
      exact Or.inl ⟨hji, rfl, rfl⟩
    · rw [Function.update_of_ne hji] at hj
      exact Or.inr ⟨hji, hj⟩
  refine ⟨h.main, h.registered, fun j hj => ?_, fun j r' hj hr ha => ?_, fun j r' hj hr => ?_,
    fun j r' hj hr => ?_⟩
  · obtain ⟨r', hr'⟩ := Option.ne_none_iff_exists'.mp hj
    rcases hold hr' with ⟨rfl, -⟩ | ⟨-, hj⟩
    · exact h.fresh j (by rw [hi]; exact Option.some_ne_none r)
    · exact h.fresh j (by rw [hj]; exact Option.some_ne_none r')
  · rcases hold hj with ⟨-, -, hreading⟩ | ⟨hne, hj⟩
    · rw [hreading] at hr
      cases hr
    · exact List.mem_filter.mpr ⟨h.controlled j r' hj hr ha, by simpa using hne⟩
  · rcases hold hj with ⟨rfl, hr', -⟩ | ⟨-, hj⟩
    · exact h.pending j r hi (hr' ▸ hr)
    · exact h.pending j r' hj hr
  · rcases hold hj with ⟨rfl, hr', -⟩ | ⟨-, hj⟩
    · exact h.readPending j r hi (hr' ▸ hr)
    · exact h.readPending j r' hj hr

/-- So does the beginning of its body: its promise is no longer pending. -/
theorem Good.reading (h : Good p) (endpoint : Endpoint) :
    Good { p.settled i with
      requests := Function.update p.requests i (some { endpoint := endpoint, stage := .reading }) } := by
  refine h.of_subset rfl rfl fun j r hj hr => ?_
  by_cases hji : j = i
  · rw [hji] at hj
    obtain rfl := Option.some.inj ((Function.update_self i _ p.requests).symm.trans hj)
    cases hr
  · exact (Function.update_of_ne hji _ p.requests).symm.trans hj

end Ends

/-! ## Hiding, showing and leaving the page -/

section Timers

variable {p : Page}

/-- The interval of the command is stored in its handle, so clearing the handle ends it. -/
theorem live_clear_main (h : Kept p) (id : ℕ) :
    (p.timers.clear .mainIntervalId).live id ≠ some .repeatedTask ∧
      ∀ task, (p.timers.clear .mainIntervalId).live id = some task →
        p.timers.live id = some task := by
  unfold Timers.clear
  cases hhandle : p.timers.handle .mainIntervalId with
  | none =>
      refine ⟨fun hid => ?_, fun _ hid => hid⟩
      rw [h.main id hid] at hhandle
      cases hhandle
  | some main =>
      have hlive : ∀ task, Function.update p.timers.live main none id = some task →
          id ≠ main ∧ p.timers.live id = some task := by
        intro task hid
        by_cases heq : id = main
        · rw [heq, Function.update_self] at hid
          cases hid
        · rw [Function.update_of_ne heq] at hid
          exact ⟨heq, hid⟩
      refine ⟨fun hid => ?_, fun task hid => (hlive task hid).2⟩
      obtain ⟨hne, hid⟩ := hlive _ hid
      exact hne (Option.some.inj ((h.main id hid).symm.trans hhandle))

/-- The page is hidden: the interval of the command is cleared. -/
theorem Kept.clearMain (h : Kept p) :
    Kept { p with timers := p.timers.clear .mainIntervalId } := by
  refine ⟨fun id hid => absurd hid (live_clear_main h id).1, fun id hid => ?_, h.fresh,
    h.controlled, h.pending, h.readPending⟩
  obtain ⟨task, htask⟩ := Option.ne_none_iff_exists'.mp hid
  refine h.registered id ?_
  rw [(live_clear_main h id).2 task htask]
  exact Option.some_ne_none task

/-- To clear an interval keeps the bounds. -/
theorem Good.clearMain (hk : Kept p) (h : Good p) :
    Good { p with timers := p.timers.clear .mainIntervalId } := by
  refine ⟨fun id _ hid => absurd hid (live_clear_main hk id).1, h.oneRequest, fun hc => ?_⟩
  refine ⟨fun id => ?_, (h.cleanedUp hc).2⟩
  cases hid : (p.timers.clear .mainIntervalId).live id with
  | none => rfl
  | some task =>
      have hold := (live_clear_main hk id).2 task hid
      rw [(h.cleanedUp hc).1 id] at hold
      cases hold

/-- A new interval is live under the next number. -/
theorem live_store (t : Timers Handle Task) (h : Handle) (task : Task) (id : ℕ) :
    (t.store h task).live id = if id = t.nextId then some task else t.live id :=
  Function.update_apply _ _ _ _

/-- The page is shown: the interval of the command is started when its handle is empty. -/
theorem Kept.startMain (h : Kept p) (hnone : p.timers.handle .mainIntervalId = none) :
    Kept (p.startInterval .mainIntervalId .repeatedTask) := by
  refine ⟨fun id hid => ?_, fun id hid => ?_, h.fresh, h.controlled, h.pending, h.readPending⟩
  · simp only [Page.startInterval, live_store] at hid
    split_ifs at hid with hnew
    · rw [hnew]
      exact Function.update_self Handle.mainIntervalId (some p.timers.nextId) p.timers.handle
    · rw [h.main id hid] at hnone
      cases hnone
  · simp only [Page.startInterval, live_store] at hid
    show id ∈ p.intervals ++ [p.timers.nextId]
    split_ifs at hid with hnew
    · simp [hnew]
    · exact List.mem_append_left _ (h.registered id hid)

/-- The interval of the command may be started when it is not live, and not after the cleanup. -/
theorem Good.startMain_iff (hk : Kept p) (h : Good p)
    (hnone : p.timers.handle .mainIntervalId = none) :
    Good (p.startInterval .mainIntervalId .repeatedTask) ↔ p.cleanedUp = false := by
  constructor
  · intro hgood
    by_contra hc
    have hlive := (hgood.cleanedUp (Bool.not_eq_false _ ▸ hc)).1 p.timers.nextId
    simp [Page.startInterval, live_store] at hlive
  · intro hc
    refine ⟨fun id id' hid hid' => ?_, h.oneRequest, fun hclean => ?_⟩
    · have hstored := (hk.startMain hnone).main
      exact Option.some.inj ((hstored id hid).symm.trans (hstored id' hid'))
    · have hfalse : p.cleanedUp = true := hclean
      rw [hc] at hfalse
      cases hfalse

/-- All intervals are known to the cleanup. -/
theorem live_cleanup (h : Kept p) (id : ℕ) : p.cleanup.timers.live id = none := by
  show (if id ∈ p.intervals then none else p.timers.live id) = none
  split_ifs with hid
  · rfl
  · by_contra hlive
    exact hid (h.registered id hlive)

/-- A request after the cleanup was there before it, and is aborted if its controller was known. -/
theorem requests_cleanup {i : ℕ} {r : Request} (hi : p.cleanup.requests i = some r) :
    ∃ r', p.requests i = some r' ∧ r.endpoint = r'.endpoint ∧ r.stage = r'.stage ∧
      (r.aborted = r'.aborted ∨ r.aborted = true) ∧ (i ∈ p.abortControllers → r.aborted = true) := by
  obtain ⟨r', hr', heq⟩ := Option.map_eq_some_iff.mp hi
  refine ⟨r', hr', ?_⟩
  subst heq
  split_ifs with hmem
  · exact ⟨rfl, rfl, Or.inr rfl, fun _ => rfl⟩
  · exact ⟨rfl, rfl, Or.inl rfl, fun h => absurd h hmem⟩

/-- All requests whose promise is pending are known to the cleanup. -/
theorem aborted_cleanup (h : Kept p) {i : ℕ} {r : Request} (hi : p.cleanup.requests i = some r)
    (hr : r.stage = .waiting) : r.aborted = true := by
  obtain ⟨r', hr', -, hstage, haborted, hmem⟩ := requests_cleanup hi
  by_contra hnot
  have hsame := haborted.resolve_right hnot
  refine hnot (hmem (h.controlled i r' hr' (hstage ▸ hr) ?_))
  rw [← hsame]
  exact Bool.eq_false_iff.mpr hnot

/-- The cleanup ends all intervals and leaves no request unaborted. -/
theorem Kept.cleanup (h : Kept p) : Kept p.cleanup := by
  refine ⟨fun id hid => ?_, fun id hid => absurd (live_cleanup h id) hid, fun i hi => ?_,
    fun i r hi hr ha => ?_, fun i r hi hr => ?_, fun i r hi hr => ?_⟩
  · rw [live_cleanup h id] at hid
    cases hid
  · obtain ⟨r, hr⟩ := Option.ne_none_iff_exists'.mp hi
    obtain ⟨r', hr', -⟩ := requests_cleanup hr
    exact h.fresh i (by rw [hr']; exact Option.some_ne_none r')
  · rw [aborted_cleanup h hi hr] at ha
    cases ha
  · obtain ⟨r', hr', hendpoint, -⟩ := requests_cleanup hi
    exact h.pending i r' hr' (hendpoint ▸ hr)
  · obtain ⟨r', hr', hendpoint, -⟩ := requests_cleanup hi
    exact h.readPending i r' hr' (hendpoint ▸ hr)

/-- The cleanup establishes its own bound and keeps the others. -/
theorem Good.cleanup (hk : Kept p) (h : Good p) : Good p.cleanup := by
  refine ⟨fun id id' hid _ => ?_, fun endpoint hpolled i j hi hj => ?_,
    fun _ => ⟨live_cleanup hk, fun i r hi hr => aborted_cleanup hk hi hr⟩⟩
  · rw [live_cleanup hk id] at hid
    cases hid
  · have hbefore : ∀ {k}, Unresolved p.cleanup endpoint k → Unresolved p endpoint k := by
      rintro k ⟨aborted, hk⟩
      obtain ⟨⟨endpoint', stage, aborted'⟩, hr', hendpoint, hstage, -⟩ := requests_cleanup hk
      obtain rfl : endpoint = endpoint' := hendpoint
      obtain rfl : Stage.waiting = stage := hstage
      exact ⟨aborted', hr'⟩
    exact h.oneRequest endpoint hpolled i j (hbefore hi) (hbefore hj)

/-- The listener starts the interval of the command only when its handle is empty. -/
theorem Kept.visibilitychange (h : Kept p) : Kept p.visibilitychange := by
  unfold Page.visibilitychange
  split_ifs with hhidden hnone
  · exact h.clearMain
  · exact h.startMain hnone
  · exact h

/-- Showing the page must not start an interval after the cleanup. -/
theorem Good.visibilitychange_iff (hk : Kept p) (h : Good p) :
    Good p.visibilitychange ↔ ¬ (p.cleanedUp = true ∧ p.hidden = false ∧
      p.timers.handle .mainIntervalId = none) := by
  unfold Page.visibilitychange
  split_ifs with hhidden hnone
  · refine iff_of_true (h.clearMain hk) fun hbad => ?_
    rw [hbad.2.1] at hhidden
    cases hhidden
  · rw [h.startMain_iff hk hnone]
    have hshown : p.hidden = false := Bool.eq_false_iff.mpr hhidden
    simp [hshown, hnone]
  · exact iff_of_true h fun hbad => hnone hbad.2.2

end Timers

/-! ## One event -/

variable {p p' : Page} {e : Event}

/-- **What an event does.** -/
theorem step_cases (hs : step p e = some p') :
    (e = .visibilitychange ∧ p' = Page.visibilitychange { p with hidden := !p.hidden }) ∨
    (∃ id task, e = .tick id ∧ p.timers.live id = some task ∧ p' = p.fire task) ∨
    (∃ i r, e = .response i ∧ p.requests i = some r ∧ r.stage = .waiting ∧ r.aborted = false ∧
      p' = if r.endpoint = .tankCommand then (p.settled i).finished i r.endpoint
        else { p.settled i with
          requests := Function.update p.requests i
            (some { endpoint := r.endpoint, stage := .reading }) }) ∨
    (∃ i r, e = .failure i ∧ p.requests i = some r ∧ r.stage = .waiting ∧
      p' = (p.settled i).finished i r.endpoint) ∨
    (∃ i r, e = .body i ∧ p.requests i = some r ∧ r.stage = .reading ∧
      p' = p.finished i r.endpoint) ∨
    (e = .beforeunload ∧ p' = p.cleanup) := by
  cases e with
  | visibilitychange => exact Or.inl ⟨rfl, (Option.some.inj hs).symm⟩
  | tick id =>
      obtain ⟨task, htask, rfl⟩ := Option.map_eq_some_iff.mp hs
      exact Or.inr (Or.inl ⟨id, task, rfl, htask, rfl⟩)
  | response i =>
      simp only [step] at hs
      split at hs
      · next endpoint hi =>
          refine Or.inr (Or.inr (Or.inl ⟨i, _, rfl, hi, rfl, rfl, ?_⟩))
          split_ifs at hs ⊢ <;> exact (Option.some.inj hs).symm
      · cases hs
  | failure i =>
      simp only [step] at hs
      split at hs
      · next endpoint aborted hi =>
          exact Or.inr (Or.inr (Or.inr (Or.inl ⟨i, _, rfl, hi, rfl, (Option.some.inj hs).symm⟩)))
      · cases hs
  | body i =>
      simp only [step] at hs
      split at hs
      · next endpoint aborted hi =>
          exact Or.inr (Or.inr (Or.inr (Or.inr (Or.inl
            ⟨i, _, rfl, hi, rfl, (Option.some.inj hs).symm⟩))))
      · cases hs
  | beforeunload =>
      exact Or.inr (Or.inr (Or.inr (Or.inr (Or.inr ⟨rfl, (Option.some.inj hs).symm⟩))))

/-- The variables do not depend on whether the page is hidden. -/
theorem Kept.setHidden (h : Kept p) (hidden : Bool) : Kept { p with hidden := hidden } :=
  ⟨h.main, h.registered, h.fresh, h.controlled, h.pending, h.readPending⟩

/-- **Every event** keeps what the variables have in common. -/
theorem Kept.step (h : Kept p) (hs : step p e = some p') : Kept p' := by
  rcases step_cases hs with ⟨-, rfl⟩ | ⟨id, task, -, -, rfl⟩ | ⟨i, r, -, hi, -, -, rfl⟩ |
    ⟨i, r, -, hi, -, rfl⟩ | ⟨i, r, -, hi, -, rfl⟩ | ⟨-, rfl⟩
  · exact (h.setHidden _).visibilitychange
  · cases task with
    | repeatedTask => exact h.repeatedTask
    | readDataTask => exact h.readDataTask
  · split_ifs
    · exact h.settled_finished hi
    · exact h.reading hi
  · exact h.settled_finished hi
  · exact h.finished hi
  · exact h.cleanup

/-- No interval fires after the cleanup. -/
theorem Good.not_cleanedUp (h : Good p) {id : ℕ} {task : Task}
    (hlive : p.timers.live id = some task) : p.cleanedUp = false := by
  by_contra hc
  rw [(h.cleanedUp (Bool.not_eq_false _ ▸ hc)).1 id] at hlive
  cases hlive

/-- **Which events keep the polling within its bounds.** -/
theorem good_step_iff (hk : Kept p) (h : Good p) (hs : step p e = some p') :
    Good p' ↔ ¬ PilesUp p e := by
  rcases step_cases hs with ⟨rfl, rfl⟩ | ⟨id, task, rfl, hlive, rfl⟩ | ⟨i, r, rfl, -, -, -, rfl⟩ |
    ⟨i, r, rfl, -, -, rfl⟩ | ⟨i, r, rfl, -, -, rfl⟩ | ⟨rfl, rfl⟩
  · have hgood : Good { p with hidden := !p.hidden } := ⟨h.oneTimer, h.oneRequest, h.cleanedUp⟩
    rw [hgood.visibilitychange_iff (hk.setHidden _), PilesUp, Bool.not_eq_false']
  · have hc := h.not_cleanedUp hlive
    cases task with
    | repeatedTask =>
        refine iff_of_true (h.repeatedTask hk hc) fun hbad => ?_
        rw [hbad.1] at hlive
        cases hlive
    | readDataTask =>
        simp only [Page.fire, PilesUp, hlive, true_and]
        exact h.readDataTask_iff hk hc
  -- the end of a request piles nothing up
  · refine iff_of_true ?_ id
    split_ifs
    · exact h.settled.finished r.endpoint
    · exact h.reading r.endpoint
  · exact iff_of_true (h.settled.finished r.endpoint) id
  · exact iff_of_true (h.finished r.endpoint) id
  · exact iff_of_true (h.cleanup hk) id

/-! ## Runs -/

/-- The two intervals of the start. -/
theorem live_load (hidden : Bool) (id : ℕ) : (Page.load hidden).timers.live id =
    if id = 2 then some .repeatedTask else if id = 1 then some .readDataTask else none := by
  simp only [Page.load, Page.startInterval, live_store]
  rfl

/-- The two requests of the start, both for what no interval polls. -/
theorem requests_load (hidden : Bool) (i : ℕ) : (Page.load hidden).requests i =
    if i = 1 then some { endpoint := .getLatency } else
      if i = 0 then some { endpoint := .getTime } else none := by
  simp only [Page.load, Page.startInterval, requests_safeFetch]
  rfl

/-- Nothing that the intervals poll has been requested yet. -/
theorem endpoint_load {hidden : Bool} {i : ℕ} {r : Request}
    (hi : (Page.load hidden).requests i = some r) : i < 2 ∧ r.endpoint ∉ polled := by
  rw [requests_load] at hi
  split_ifs at hi with h1 h0
  · obtain rfl := Option.some.inj hi
    exact ⟨by omega, by decide⟩
  · obtain rfl := Option.some.inj hi
    exact ⟨by omega, by decide⟩

theorem kept_load (hidden : Bool) : Kept (Page.load hidden) := by
  refine ⟨fun id hid => ?_, fun id hid => ?_, fun i hi => ?_, fun i r hi _ _ => ?_,
    fun i r hi hr => ?_, fun i r hi hr => ?_⟩
  · rw [live_load] at hid
    split_ifs at hid with h2
    · rw [h2]
      rfl
    · cases hid
  · rw [live_load] at hid
    split_ifs at hid with h2 h1
    · exact h2 ▸ (by decide : 2 ∈ [1, 2])
    · exact h1 ▸ (by decide : 1 ∈ [1, 2])
    · exact absurd rfl hid
  · obtain ⟨r, hr⟩ := Option.ne_none_iff_exists'.mp hi
    exact (endpoint_load hr).1
  · exact (by decide : ∀ j < 2, j ∈ [0, 1]) i (endpoint_load hi).1
  · exact absurd (hr ▸ (by decide : Endpoint.tankCommand ∈ polled)) (endpoint_load hi).2
  · exact absurd (hr ▸ (by decide : Endpoint.getDistance ∈ polled)) (endpoint_load hi).2

theorem good_load (hidden : Bool) : Good (Page.load hidden) := by
  have hkept := kept_load hidden
  refine ⟨fun id id' hid hid' => ?_, fun endpoint hpolled i j hi _ => ?_, fun hc => by cases hc⟩
  · exact Option.some.inj ((hkept.main id hid).symm.trans (hkept.main id' hid'))
  · obtain ⟨aborted, hi⟩ := hi
    exact absurd hpolled (endpoint_load hi).2

/-- **When the polling stays within its bounds**: exactly as long as no event makes it pile up. -/
theorem polling_bounded_iff (hidden : Bool) (events : List Event) :
    (machine hidden).Throughout Good events ↔ (machine hidden).Avoids PilesUp events :=
  Machine.throughout_iff_avoids (I := Kept) (kept_load hidden) (good_load hidden)
    (fun _ _ _ hk hs => hk.step hs) (fun _ _ _ hk h hs => good_step_iff hk h hs) events

/-- The distance is answered at once, the motor speeds are not, and the interval fires again. -/
theorem motor_requests_pile_up :
    ¬ ∀ (hidden : Bool) (events : List Event), (machine hidden).Throughout Good events := by
  intro h
  have hgood := h false [.tick 1, .response 2, .body 2, .tick 1] _ (List.prefix_refl _) _ rfl
  have hsame : 3 = 5 := hgood.oneRequest .getMotorSpeeds (by decide) 3 5 ⟨false, rfl⟩ ⟨false, rfl⟩
  exact absurd hsame (by decide)

end Polling
