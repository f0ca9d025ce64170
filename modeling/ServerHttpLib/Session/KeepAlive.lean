import ServerHttpLib.Session.Model

/-!
# The keep-alive timer

The session together with its timer.  A wait that is armed stays pending until its time has passed
or it is cancelled; either way its handler is queued, with success or with an error, and is run
later.  Bytes that arrive complete the outstanding read, whose handler is queued, too.  The handlers
that are queued may be run in any order.  Cancelling does not reach a wait whose handler is queued.

* `Punctual.step`        what holds as long as no bytes and no timeout cross;
* `closes_unused`        then the timer only closes connections on which nothing arrived.
-/

namespace ServerHttpLib
open Conn

inductive WaitState
  | pending
  /-- the time has passed; the handler is queued with success -/
  | due
  /-- the handler is queued with `operation_aborted` -/
  | aborted
  | done
  deriving DecidableEq

structure Wait where
  state : WaitState
  /-- the bytes that the session has received since the wait was armed -/
  received : Nat
  deriving DecidableEq

structure Timed (σ : Type) where
  conn : Conn σ
  /-- the bytes of a read that has completed and whose handler is queued -/
  arrived : Option Bytes
  /-- the waits in the order in which they were armed -/
  waits : List Wait
  /-- for each time that a wait has closed the socket, the bytes received since it was armed -/
  closes : List Nat

inductive TimedEvent
  /-- bytes arrive for the outstanding read -/
  | arrive (data : Bytes)
  /-- the handler of a read or a write is run -/
  | handle (e : Event)
  /-- the time of a wait has passed -/
  | expire (i : Nat)
  /-- the handler of a wait is run -/
  | wake (i : Nat)

/-! ## the timer -/

/-- `cancel`: it reaches the waits that are pending -/
def Wait.cancel (w : Wait) : Wait :=
  if w.state = .pending then { w with state := .aborted } else w

/-- what an action of the session does to the timer; `expires_after` cancels before it arms -/
def Action.onTimer (ws : List Wait) : Action → List Wait
  | .cancelTimer => ws.map Wait.cancel
  | .armTimer => ws.map Wait.cancel ++ [⟨.pending, 0⟩]
  | _ => ws

/-- the handler of a read is run with the bytes that arrived -/
def Event.fits (arrived : Option Bytes) : Event → Bool
  | .readOk data => arrived = some data
  | .readErr => arrived = none
  | _ => true

def Event.leaves (arrived : Option Bytes) : Event → Option Bytes
  | .readOk _ => none
  | _ => arrived

namespace Timed
variable {σ : Type}

def received (t : Timed σ) (data : Bytes) : Timed σ :=
  { t with
    arrived := some data
    waits := t.waits.map fun w => { w with received := w.received + data.length } }

/-- the session has run a handler; its actions since then reach the timer -/
def handled (t : Timed σ) (e : Event) (c : Conn σ) : Timed σ :=
  { t with
    conn := c
    arrived := e.leaves t.arrived
    waits := (c.trace.drop t.conn.trace.length).foldl Action.onTimer t.waits }

def put (t : Timed σ) (i : Nat) (w : Wait) : Timed σ := { t with waits := t.waits.set i w }

def step (srv : Server σ) (t : Timed σ) : TimedEvent → Option (Timed σ)
  | .arrive data =>
    if t.closes = [] ∧ t.arrived = none ∧ data ≠ [] then
      match t.conn.pendingRead with
      | none => none
      | some (off, size) => if off + data.length ≤ size then some (t.received data) else none
    else none
  | .handle e =>
    if e.fits t.arrived then (Conn.step srv t.conn e).map (t.handled e) else none
  | .expire i =>
    match t.waits[i]? with
    | none => none
    | some w => if w.state = .pending then some (t.put i { w with state := .due }) else none
  | .wake i =>
    match t.waits[i]? with
    | none => none
    | some w =>
      match w.state with
      | .due =>
        -- the socket is shut down and closed
        some { t.put i { w with state := .done } with closes := t.closes ++ [w.received] }
      | .aborted => some (t.put i { w with state := .done })
      | _ => none

def accept (clientIP : Bytes) (w : σ) : Timed σ := ⟨doRead (Conn.accept clientIP w), none, [], []⟩

def run (srv : Server σ) (clientIP : Bytes) (w : σ) (evs : List TimedEvent) : Option (Timed σ) :=
  Runs.runs (step srv) (accept clientIP w) evs

/-- bytes and timeouts do not cross: no bytes arrive while the handler of a timeout is queued, and
no wait expires while the handler of a read is queued -/
def Uncrossed (t : Timed σ) : TimedEvent → Prop
  | .arrive _ => ∀ w ∈ t.waits, w.state ≠ .due
  | .expire _ => t.arrived = none
  | _ => True

instance (t : Timed σ) : ∀ e, Decidable (t.Uncrossed e)
  | .arrive _ => inferInstanceAs (Decidable (∀ w ∈ t.waits, w.state ≠ .due))
  | .expire _ => inferInstanceAs (Decidable (t.arrived = none))
  | .handle _ => inferInstanceAs (Decidable True)
  | .wake _ => inferInstanceAs (Decidable True)

/-! ## what the handlers do to the timer -/

theorem Extends.doRead (c : Conn σ) : c.trace <+: (doRead c).trace := by
  unfold Conn.doRead
  cases c.s.ensureCapacity with
  | error f => exact List.prefix_refl _
  | ok s => exact List.prefix_append _ _

theorem Extends.processRequest (srv : Server σ) (header body : Bytes) (c : Conn σ) :
    c.trace <+: (processRequest srv header body c).trace :=
  (List.prefix_append _ _).trans (List.prefix_append _ _)

theorem Extends.extractAndHandle (srv : Server σ) (c : Conn σ) :
    c.trace <+: (extractAndHandle srv c).2.trace := by
  unfold Conn.extractAndHandle
  split
  · exact List.prefix_refl _
  · have hemit : c.trace <+: (c.emit (.extract c.s.headersLen c.s.contentLength c.s.used
        c.s.buf.length)).trace := List.prefix_append _ _
    simp only
    split
    · exact hemit
    · exact hemit.trans (Extends.processRequest srv _ _ _)

theorem Extends.tryParseAndHandle (srv : Server σ) (c : Conn σ) :
    c.trace <+: (tryParseAndHandle srv c).2.trace := by
  unfold Conn.tryParseAndHandle
  split
  · exact Extends.extractAndHandle srv c
  · split
    · exact List.prefix_refl _
    · next s _ =>
      split
      · exact List.prefix_append _ _
      · exact Extends.extractAndHandle srv { c with s := s }

/-- the handler of a read cancels the timer before anything else -/
theorem onRead_cancels (srv : Server σ) (c : Conn σ) (off : Nat) (data : Bytes) :
    c.trace ++ [.cancelTimer] <+: (onRead srv c off data).trace := by
  have h := Extends.tryParseAndHandle srv
    { c.emit .cancelTimer with s := (c.emit .cancelTimer).s.receive off data }
  unfold onRead
  simp only
  split
  · next c' he =>
    rw [he] at h
    exact h
  · next c' he =>
    rw [he] at h
    exact h.trans (Extends.doRead c')

theorem step_readOk {srv : Server σ} {c c' : Conn σ} {data : Bytes}
    (h : Conn.step srv c (.readOk data) = some c') :
    ∃ acts, c'.trace.drop c.trace.length = .cancelTimer :: acts := by
  unfold Conn.step at h
  split at h
  · exact absurd h (by simp)
  · simp only at h
    split at h
    · exact absurd h (by simp)
    · next off size _ =>
      split at h
      · rw [Option.some.injEq] at h
        obtain ⟨acts, ha⟩ := onRead_cancels srv (c.complete (.read off size)) off data
        refine ⟨acts, ?_⟩
        rw [← h, ← ha]
        show (c.trace ++ [Action.cancelTimer] ++ acts).drop c.trace.length = _
        rw [List.append_assoc, List.drop_left]
        rfl
      · exact absurd h (by simp)

/-! ## what a step can be -/

section
variable {srv : Server σ} {t t' : Timed σ}

theorem step_arrive {data : Bytes} (h : step srv t (.arrive data) = some t') :
    t' = t.received data := by
  simp only [Timed.step] at h
  split at h
  · split at h
    · exact absurd h (by simp)
    · split at h
      · exact (Option.some.inj h).symm
      · exact absurd h (by simp)
  · exact absurd h (by simp)

theorem step_handle {e : Event} (h : step srv t (.handle e) = some t') :
    ∃ c, Conn.step srv t.conn e = some c ∧ t' = t.handled e c := by
  simp only [Timed.step] at h
  split at h
  · obtain ⟨c, hc, rfl⟩ := Option.map_eq_some_iff.mp h
    exact ⟨c, hc, rfl⟩
  · exact absurd h (by simp)

theorem step_expire {i : Nat} (h : step srv t (.expire i) = some t') :
    ∃ w, t.waits[i]? = some w ∧ w.state = .pending ∧ t' = t.put i { w with state := .due } := by
  simp only [Timed.step] at h
  split at h
  · exact absurd h (by simp)
  · next w hw =>
    split at h
    · next hs => exact ⟨w, hw, hs, (Option.some.inj h).symm⟩
    · exact absurd h (by simp)

theorem step_wake {i : Nat} (h : step srv t (.wake i) = some t') : ∃ w, t.waits[i]? = some w ∧
    (w.state = .due ∧
        t' = { t.put i { w with state := .done } with closes := t.closes ++ [w.received] } ∨
      w.state = .aborted ∧ t' = t.put i { w with state := .done }) := by
  simp only [Timed.step] at h
  split at h
  · exact absurd h (by simp)
  · next w hw =>
    split at h
    · next hs => exact ⟨w, hw, .inl ⟨hs, (Option.some.inj h).symm⟩⟩
    · next hs => exact ⟨w, hw, .inr ⟨hs, (Option.some.inj h).symm⟩⟩
    · exact absurd h (by simp)

end

/-! ## waits -/

theorem cancel_state (w : Wait) : w.cancel.state ≠ .pending ∧ (w.cancel = w ∨
    w.cancel.state = .aborted) := by
  unfold Wait.cancel
  split
  · exact ⟨by simp, Or.inr rfl⟩
  · next h => exact ⟨h, Or.inl rfl⟩

/-- a wait behind an action of the session: a new one, an old one as it was, or an aborted one -/
theorem mem_onTimer {ws : List Wait} {a : Action} {w : Wait} (h : w ∈ a.onTimer ws) :
    w = ⟨.pending, 0⟩ ∨ w ∈ ws ∨ w.state = .aborted := by
  have hmap : w ∈ ws.map Wait.cancel → w ∈ ws ∨ w.state = .aborted := by
    intro hm
    obtain ⟨w', hw', rfl⟩ := List.mem_map.mp hm
    rcases (cancel_state w').2 with he | ha
    · exact Or.inl (he.symm ▸ hw')
    · exact Or.inr ha
  cases a with
  | cancelTimer => exact Or.inr (hmap h)
  | armTimer =>
    rcases List.mem_append.mp h with h | h
    · exact Or.inr (hmap h)
    · exact Or.inl (List.mem_singleton.mp h)
  | _ => exact Or.inr (Or.inl h)

theorem mem_foldl_onTimer {acts : List Action} {ws : List Wait} {w : Wait}
    (h : w ∈ acts.foldl Action.onTimer ws) :
    w = ⟨.pending, 0⟩ ∨ w ∈ ws ∨ w.state = .aborted := by
  induction acts generalizing ws with
  | nil => exact Or.inr (Or.inl h)
  | cons a acts ih =>
    rcases ih h with h | h | h
    · exact Or.inl h
    · exact mem_onTimer h
    · exact Or.inr (Or.inr h)

/-! ## runs without crossings -/

structure Punctual (t : Timed σ) : Prop where
  due : ∀ w ∈ t.waits, w.state = .due → w.received = 0
  /-- a wait on which bytes arrived is cancelled as soon as their handler is run -/
  pending : ∀ w ∈ t.waits, w.state = .pending → w.received = 0 ∨ t.arrived ≠ none
  closes : ∀ n ∈ t.closes, n = 0

theorem punctual_accept (clientIP : Bytes) (w : σ) : Punctual (accept clientIP w) :=
  ⟨fun _ h => absurd h List.not_mem_nil, fun _ h => absurd h List.not_mem_nil,
    fun _ h => absurd h List.not_mem_nil⟩

theorem Punctual.put {t : Timed σ} (h : Punctual t) {i : Nat} {w : Wait}
    (hdue : w.state = .due → w.received = 0) (hp : w.state ≠ .pending) : Punctual (t.put i w) := by
  refine ⟨?_, ?_, h.closes⟩
  · intro w' hw'
    rcases List.mem_or_eq_of_mem_set hw' with hm | rfl
    · exact h.due w' hm
    · exact hdue
  · intro w' hw' hs
    rcases List.mem_or_eq_of_mem_set hw' with hm | rfl
    · exact h.pending w' hm hs
    · exact absurd hs hp

theorem Punctual.received {t : Timed σ} (h : Punctual t) (hok : ∀ w ∈ t.waits, w.state ≠ .due)
    (data : Bytes) : Punctual (t.received data) := by
  refine ⟨?_, fun _ _ _ => Or.inr (by simp [Timed.received]), h.closes⟩
  intro w hw hs
  obtain ⟨w', hw', rfl⟩ := List.mem_map.mp hw
  exact absurd hs (hok w' hw')

theorem Punctual.handled {t : Timed σ} (h : Punctual t) {srv : Server σ} {e : Event} {c : Conn σ}
    (hstep : Conn.step srv t.conn e = some c) : Punctual (t.handled e c) := by
  refine ⟨?_, ?_, h.closes⟩
  · intro w hw hs
    rcases mem_foldl_onTimer hw with rfl | hm | ha
    · rfl
    · exact h.due w hm hs
    · exact absurd (hs.symm.trans ha) (by simp)
  · intro w hw hs
    rcases mem_foldl_onTimer hw with rfl | hm | ha
    · exact Or.inl rfl
    · cases e with
      | readOk data =>
        obtain ⟨acts, hacts⟩ := step_readOk hstep
        -- every wait from before is cancelled
        have hw : w ∈ acts.foldl Action.onTimer (t.waits.map Wait.cancel) := by
          have hw : w ∈ (c.trace.drop t.conn.trace.length).foldl Action.onTimer t.waits := hw
          rw [hacts] at hw
          exact hw
        rcases mem_foldl_onTimer hw with rfl | hm' | ha
        · exact Or.inl rfl
        · obtain ⟨w', -, rfl⟩ := List.mem_map.mp hm'
          exact absurd hs (cancel_state w').1
        · exact absurd (hs.symm.trans ha) (by simp)
      | readErr => exact h.pending w hm hs
      | responseDone ok => exact h.pending w hm hs
      | interimDone ok => exact h.pending w hm hs
    · exact absurd (hs.symm.trans ha) (by simp)

/-- **One step without a crossing** keeps the timer away from connections that are in use. -/
theorem Punctual.step {srv : Server σ} {t t' : Timed σ} {e : TimedEvent} (h : Punctual t)
    (hok : Uncrossed t e) (hstep : step srv t e = some t') : Punctual t' := by
  cases e with
  | arrive data =>
    obtain rfl := step_arrive hstep
    exact h.received hok data
  | handle e =>
    obtain ⟨c, hc, rfl⟩ := step_handle hstep
    exact h.handled hc
  | expire i =>
    obtain ⟨w, hw, hs, rfl⟩ := step_expire hstep
    have h0 : w.received = 0 :=
      (h.pending w (List.mem_of_getElem? hw) hs).resolve_right fun hn => hn hok
    exact h.put (fun _ => h0) (by simp)
  | wake i =>
    obtain ⟨w, hw, hcase⟩ := step_wake hstep
    have hput : Punctual (t.put i { w with state := .done }) := h.put (by simp) (by simp)
    rcases hcase with ⟨hs, rfl⟩ | ⟨-, rfl⟩
    · refine ⟨hput.due, hput.pending, fun n hn => ?_⟩
      rcases List.mem_append.mp hn with hn | hn
      · exact h.closes n hn
      · rw [List.mem_singleton.mp hn]
        exact h.due w (List.mem_of_getElem? hw) hs
    · exact hput

/-- **The timer only closes connections on which nothing arrived** since it was armed, in every run
in which no bytes arrive while a timeout waits for its handler, and no time passes while bytes wait
for theirs. -/
theorem closes_unused (srv : Server σ) (clientIP : Bytes) (w : σ) (evs : List TimedEvent)
    (t : Timed σ) (hrun : run srv clientIP w evs = some t)
    (hok : Runs.Along (step srv) Uncrossed (accept clientIP w) evs) : ∀ n ∈ t.closes, n = 0 :=
  (Runs.runs_along (fun _ _ _ h hok hs => h.step hok hs) (punctual_accept clientIP w) hok
    hrun).closes

/-- a request and its response, after which the timer is armed -/
def served : List TimedEvent :=
  [.arrive (str "GET / HTTP/1.1\r\n\r\n"), .handle (.readOk (str "GET / HTTP/1.1\r\n\r\n")),
    .handle (.responseDone true)]

/-- the connection stays unused until it is closed -/
def unusedRun : List TimedEvent := served ++ [.expire 0, .wake 0]

set_option maxRecDepth 100000 in
theorem closes_unused_once :
    ∃ t, run Server.empty [] () unusedRun = some t ∧ t.closes.length = 1 ∧
      ∀ n ∈ t.closes, n = 0 := by
  have hs : (run Server.empty [] () unusedRun).any (·.closes.length = 1) = true := by
    decide +kernel
  obtain ⟨t, hrun, ht⟩ := (Option.any_eq_true _ _).mp hs
  exact ⟨t, hrun, of_decide_eq_true ht,
    closes_unused Server.empty [] () unusedRun t hrun (by decide +kernel)⟩

/-- a second request arrives when the time has passed and the handler is queued -/
def crossedRun : List TimedEvent :=
  served ++ [.expire 0, .arrive (str "GET /b HTTP/1.1\r\n\r\n"),
    .handle (.readOk (str "GET /b HTTP/1.1\r\n\r\n")), .wake 0]

set_option maxRecDepth 100000 in
/-- the connection is closed while the response to the second request is being written -/
theorem live_request_closed :
    ∃ t, run Server.empty [] () crossedRun = some t ∧ Op.response ∈ t.conn.outstanding ∧
      ¬ ∀ n ∈ t.closes, n = 0 := by
  have hs : (run Server.empty [] () crossedRun).any
      (fun t => Op.response ∈ t.conn.outstanding ∧ ¬ ∀ n ∈ t.closes, n = 0) = true := by
    decide +kernel
  obtain ⟨t, hrun, ht⟩ := (Option.any_eq_true _ _).mp hs
  exact ⟨t, hrun, of_decide_eq_true ht⟩

end Timed
end ServerHttpLib
