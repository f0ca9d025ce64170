import ServerHttpLib.Exchange.Delivery
import ServerHttpLib.Server.Sessions

/-!
# Many clients and one server

Each client makes one call of `http::request` on a connection of its own, in any order and over
connections that may be lost at any moment; the sessions share the application.

* `exchanges_lawful`     exchanges are components over the application;
* `clients_linearized`   the clients see one sequence of handler calls, in which each of them occurs
                         at most once, and in the order of time.
-/

namespace ServerHttpLib
open Cutting Frames

namespace Exchange

variable {σ τ : Type} {fuel : Nat}

/-! ## the application of an exchange -/

/-- the exchange with another application behind it -/
def onto (x : Exchange σ) (w : τ) : Exchange τ where
  toSend := x.toSend
  up := x.up
  conn := x.conn.onto w
  toWrite := x.toWrite
  down := x.down
  closed := x.closed
  lost := x.lost
  segs := x.segs
  result := x.result

/-- exchanges, as components over the application -/
def exchangePart (fuel : Nat) : Sharing.Component Server Exchange Call Event where
  step := step fuel
  onto := onto
  state x := x.conn.world
  called x := sessionPart.called x.conn

theorem acts_handled {srv : Server σ} {x : Exchange σ} {e : Event} {ev : ServerHttpLib.Event}
    {c' : Conn σ} {up : Bytes} (hstep : Conn.step srv x.conn ev = some c')
    (he : ∀ {τ : Type} (srv' : Server τ) (w' : τ), (x.onto w').step fuel srv' e
      = (Conn.step srv' (x.conn.onto w') ev).map ((x.onto w').handled up)) :
    (exchangePart fuel).Acts handlerCalls srv e x (x.handled up c') := by
  cases sessions_lawful.acts hstep with
  | quiet hc hs h =>
    refine .quiet hc hs fun srv' w' => ?_
    exact (he srv' w').trans (congrArg (Option.map _) (h srv' w'))
  | call q hc hs h =>
    refine .call q hc hs fun srv' w' hr => ?_
    exact (he srv' w').trans (congrArg (Option.map _) (h srv' w' hr))

theorem acts_quiet {srv : Server σ} {x x' : Exchange σ} {e : Event} (hconn : x'.conn = x.conn)
    (he : ∀ {τ : Type} (srv' : Server τ) (w' : τ),
      (x.onto w').step fuel srv' e = some (x'.onto w')) :
    (exchangePart fuel).Acts handlerCalls srv e x x' :=
  .quiet (congrArg sessionPart.called hconn) (congrArg Conn.world hconn) he

theorem exchanges_lawful (fuel : Nat) : (exchangePart fuel).Lawful handlerCalls where
  onto_onto _ _ _ := rfl
  state_onto _ _ := rfl
  called_onto _ _ := rfl
  acts := by
    intro σ srv e x x' hstep
    have hstep : x.step fuel srv e = some x' := hstep
    cases e with
    | send n =>
      simp only [step, Option.ite_none_right_eq_some, Option.some.injEq] at hstep
      obtain ⟨hc, rfl⟩ := hstep
      exact acts_quiet rfl fun _ _ => if_pos hc
    | deliver n =>
      simp only [step, Option.ite_none_right_eq_some, Option.map_eq_some_iff] at hstep
      obtain ⟨hc, c', hs, rfl⟩ := hstep
      exact acts_handled hs fun _ _ => if_pos hc
    | write n =>
      simp only [step, Option.ite_none_right_eq_some, Option.some.injEq] at hstep
      obtain ⟨hc, rfl⟩ := hstep
      exact acts_quiet rfl fun _ _ => if_pos hc
    | written =>
      simp only [step, Option.ite_none_right_eq_some, Option.map_eq_some_iff,
        Option.bind_eq_some_iff] at hstep
      obtain ⟨hc, c', ⟨ev, hev, hs⟩, rfl⟩ := hstep
      refine acts_handled hs fun srv' w' => (if_pos hc).trans ?_
      have hev' : completeWrite (x.onto w').conn true = some ev := hev
      rw [hev']
      rfl
    | receive n =>
      simp only [step, Option.ite_none_right_eq_some, Option.some.injEq] at hstep
      obtain ⟨hc, rfl⟩ := hstep
      exact acts_quiet rfl fun _ _ => if_pos hc
    | finish =>
      simp only [step, Option.ite_none_right_eq_some, Option.map_eq_some_iff] at hstep
      obtain ⟨hc, response, hr, rfl⟩ := hstep
      refine acts_quiet rfl fun _ w' => (if_pos hc).trans ?_
      have hr' : readResponse fuel (x.onto w').segs = some response := hr
      rw [hr']
      rfl
    | lose n k =>
      simp only [step, Option.ite_none_right_eq_some, Option.some.injEq] at hstep
      obtain ⟨hc, rfl⟩ := hstep
      exact acts_quiet rfl fun _ _ => if_pos hc
    | serverError =>
      simp only [step, Option.ite_none_right_eq_some, Option.map_eq_some_iff] at hstep
      obtain ⟨hc, c', hs, rfl⟩ := hstep
      exact acts_handled hs fun _ _ => if_pos hc
    | sendError =>
      simp only [step, Option.ite_none_right_eq_some, Option.some.injEq] at hstep
      obtain ⟨hc, rfl⟩ := hstep
      exact acts_quiet rfl fun _ _ => if_pos hc

/-! ## the clients -/

def connected (q : Request) : Exchange Unit := start q.clientIP () q.text

def converse (fuel : Nat) (srv : Server σ) (w : σ) (es : List (Sharing.Event Request Event)) :
    Option (Sharing.System Exchange Call σ) :=
  Sharing.System.run (exchangePart fuel) connected srv w es

theorem called_connected (q : Request) : (exchangePart fuel).called (connected q) = [] := by
  have h : (connected q).conn = accepted q.clientIP := start_conn q.clientIP () q.text
  unfold exchangePart
  dsimp only
  rw [h]
  exact called_accepted q.clientIP

theorem run_connected (srv : Server σ) (q : Request) (w : σ) (es : List Event) :
    Runs.runs ((exchangePart fuel).step srv) ((exchangePart fuel).onto (connected q) w) es
      = run fuel srv q.clientIP w q.text es := by
  have h : (exchangePart fuel).onto (connected q) w = start q.clientIP w q.text := by
    show (connected q).onto w = _
    unfold connected start onto
    simp only [← doRead_onto]
    rfl
  rw [h]
  rfl

/-! ## the result -/

theorem respond_front_nil (srv : Server σ) (request : RequestIncoming) :
    respond srv.front request [] = (Response404, []) := by
  have h : srv.front.handlers.find? request.method = some srv.recall := by
    cases request.method <;> rfl
  unfold respond
  rw [show srv.front.endpoints.find? (endpointKey request) = none from rfl, h]
  rfl

theorem replyOf_front (srv : Server σ) (ip : Bytes) (w : σ) (ws : List σ) (r : Bytes × Bytes) :
    replyOf srv.front ip (w :: ws) r = replyOf srv ip w r :=
  congrArg Prod.fst (respond_front srv (requestOf ip r) w ws)

theorem plainReply_front {srv : Server σ} {ip : Bytes} {r : Bytes × Bytes}
    (h : ∀ w, PlainReply (replyOf srv ip w r)) (ws : List σ) :
    PlainReply (replyOf srv.front ip ws r) := by
  cases ws with
  | nil =>
    unfold replyOf
    rw [respond_front_nil]
    exact plainReply_404
  | cons w ws =>
    rw [replyOf_front]
    exact h w

/-- the responses of the server to the request of this client are plain -/
def AnswersPlainly (srv : Server σ) (q : Request) : Prop :=
  ∀ r w, Arrives q (requestOf q.clientIP r) → PlainReply (replyOf srv q.clientIP w r)

/-- a client that returned a response was answered by the handlers if its connection was not lost;
`log` are the calls that it made, and `r` its request -/
structure Served (fuel : Nat) (srv : Server σ) (q : Request) (log : List (Sharing.Entry Call σ))
    (x : Exchange Unit) (r : Bytes × Bytes) : Prop where
  text : q.text = r.1 ++ r.2
  arrives : Arrives q (requestOf q.clientIP r)
  /-- the request is handled at most once -/
  once : log = [] ∨ ∃ h, log = [h] ∧ h.call = (q.clientIP, r)
  /-- the result is that of `http::request` -/
  returned : ∀ res, x.result = some res → ∀ net, Reaches net q x →
    (request fuel q.order net q.url q.outgoing).map Prod.fst = some res
  answered : ∀ res, x.result = some res → x.lost = false →
    ∃ h, log = [h] ∧ res = (replyOf srv q.clientIP h.before r).asRead false 10
  /-- also if it was lost, another code than `0` and `-1` is that of the handlers -/
  part : ∀ res, x.result = some res → res = notSent ∨ res.code = 0 ∨
    ∃ h, log = [h] ∧ PartOf ((replyOf srv q.clientIP h.before r).asRead false 10) res

/-- without an entry in the log, a client has not been answered -/
theorem unanswered {srv : Server σ} {ip : Bytes} {r : Bytes × Bytes} {x : Exchange (List σ)}
    {res : Response} (hd : x.conn.dispatched = [])
    (hwhole : x.lost = false → res = (replyOf srv.front ip [] r).asRead false 10)
    (hcode : x.conn.dispatched = [r] ∨ res = notSent ∨ res.code = 0) :
    x.lost ≠ false ∧ (res = notSent ∨ res.code = 0) := by
  have hcode : res = notSent ∨ res.code = 0 :=
    hcode.resolve_left fun h => absurd (hd.symm.trans h) (by simp)
  refine ⟨fun hl => ?_, hcode⟩
  have h404 : res.code = 404 := by
    rw [hwhole hl]
    unfold replyOf
    rw [respond_front_nil]
    rfl
  rcases hcode with rfl | h0
  · exact absurd h404 (by decide)
  · exact absurd (h404.symm.trans h0) (by decide)

theorem Served.call {fuel : Nat} {srv : Server σ} {q : Request} {h : Sharing.Entry Call σ}
    {x : Exchange Unit} {r : Bytes × Bytes} (hs : Served fuel srv q [h] x r) :
    h.call = (q.clientIP, r) := by
  rcases hs.once with h0 | ⟨h', h1, hc⟩
  · exact absurd h0 (by simp)
  · obtain rfl : h = h' := List.singleton_inj.mp h1
    exact hc

theorem served_of_alone {srv : Server σ} {q : Request} (hplain : AnswersPlainly srv q)
    {es : List (Sharing.Event Request Event)} {g : Sharing.System Exchange Call σ} {i : Nat}
    {x : Exchange Unit}
    (ha : Sharing.Alone (exchangePart fuel) handlerCalls srv es g i (connected q) x) :
    ∃ r, Served fuel srv q (g.logOf i) x r := by
  obtain ⟨r, htext, harr, hr⟩ := q.arrives
  have hcalled := ha.called
  have hrun := ha.run []
  rw [List.append_nil, run_connected] at hrun
  have hreturned : ∀ res, x.result = some res → ∀ net, Reaches net q x →
      (request fuel q.order net q.url q.outgoing).map Prod.fst = some res :=
    fun _ hres _ hnet => request_eq hrun hres hnet
  rw [htext] at hrun
  generalize g.logOf i = log at hcalled hrun ⊢
  have hreply := plainReply_front (fun w => hplain r w harr) (log.map (·.before))
  have hip := run_clientIP hr hreply hrun
  obtain ⟨hd, hres⟩ := run_safe hr hreply hrun
  obtain ⟨hcall, hreqs⟩ := calls_eq hcalled hip
  refine ⟨r, ?_⟩
  rcases hd with ⟨hd, -⟩ | ⟨hd, -⟩
  · -- nothing was handled
    obtain rfl : log = [] := List.map_eq_nil_iff.mp (hreqs.symm.trans hd)
    have hun := fun res hr => unanswered hd (hres res hr).1 (hres res hr).2.2
    exact ⟨htext, harr, .inl rfl, hreturned, fun res hr hl => absurd hl (hun res hr).1,
      fun res hr => (hun res hr).2.imp_right .inl⟩
  · -- the request was handled, once
    obtain ⟨h, rfl, hh⟩ := List.map_eq_singleton_iff.mp (hreqs.symm.trans hd)
    have hfront : replyOf srv.front q.clientIP ([h].map (·.before)) r
        = replyOf srv q.clientIP h.before r := replyOf_front srv _ _ _ _
    rw [hfront] at hres
    refine ⟨htext, harr, .inr ⟨h, rfl, ?_⟩, hreturned,
      fun res hr hl => ⟨h, rfl, (hres res hr).1 hl⟩,
      fun res hr => (hres res hr).2.1.imp_right fun hp => .inr ⟨h, rfl, hp⟩⟩
    exact Prod.ext (hcall h List.mem_cons_self) hh

theorem run_clients {srv : Server σ} {w : σ} {es : List (Sharing.Event Request Event)}
    {g : Sharing.System Exchange Call σ} (hrun : converse fuel srv w es = some g) :
    Sharing.Linear (exchangePart fuel) handlerCalls connected srv w es g :=
  Sharing.run_linear (exchanges_lawful fuel) called_connected hrun

/-- each client is served as if it were alone -/
theorem run_served {srv : Server σ} {w : σ} {es : List (Sharing.Event Request Event)}
    {g : Sharing.System Exchange Call σ} (hrun : converse fuel srv w es = some g) {i : Nat}
    {q : Request} (hi : (Sharing.entered es)[i]? = some q) (hplain : AnswersPlainly srv q) :
    ∃ x r, g.parts[i]? = some x ∧ Served fuel srv q (g.logOf i) x r := by
  obtain ⟨x, hx, ha⟩ := (run_clients hrun).alone i q hi
  obtain ⟨r, hs⟩ := served_of_alone hplain ha
  exact ⟨x, r, hx, hs⟩

/-- **The clients see one sequence of handler calls.**  The log is that sequence: each entry met the
application that the entries before it leave, and what is in the log at some time stays in front of
what comes later.  A client has at most one entry, which is its request; a client that has returned
over a connection that was not lost has one, and returned the response of the handlers there. -/
theorem clients_linearized (fuel : Nat) (srv : Server σ) (w : σ)
    (es : List (Sharing.Event Request Event)) (g : Sharing.System Exchange Call σ)
    (hplain : ∀ q ∈ Sharing.entered es, AnswersPlainly srv q)
    (hrun : converse fuel srv w es = some g) :
    (∀ l h l', g.log = l ++ h :: l' → h.before = Sharing.replay handlerCalls srv w l) ∧
    g.state = Sharing.replay handlerCalls srv w g.log ∧
    (∀ h ∈ g.log, h.part < (Sharing.entered es).length) ∧
    (∀ es₁ es₂ g₁, es = es₁ ++ es₂ → converse fuel srv w es₁ = some g₁ → g₁.log <+: g.log) ∧
    ∀ i q, (Sharing.entered es)[i]? = some q → ∃ x r, g.parts[i]? = some x ∧
      Served fuel srv q (g.logOf i) x r := by
  have h := run_clients hrun
  refine ⟨h.before, h.state, fun e he => h.length ▸ h.parts e he, ?_, fun i q hi => ?_⟩
  · rintro es₁ es₂ g₁ rfl hrun₁
    have hsplit : (converse fuel srv w es₁).bind
        (fun s => Runs.runs (Sharing.System.step (exchangePart fuel) connected srv) s es₂)
          = some g := (Runs.runs_append _ _ _ _).symm.trans hrun
    rw [hrun₁, Option.bind_some] at hsplit
    exact Sharing.log_isPrefix hsplit
  · exact run_served hrun hi (hplain q (List.mem_of_getElem? hi))

/-- a request without a body, from the client `ip` -/
def pingFrom (ip : Bytes) : Request where
  clientIP := ip
  order := .inserted
  url := ⟨str "h", 80, str "/ping", false⟩
  calls := []
  setters := fun _ hq => absurd hq List.not_mem_nil
  endpoint_plain := by
    refine ⟨?_, ?_, ?_⟩
    · decide
    · decide
    · decide
  query := .inr rfl
  host_plain := by decide
  small := by decide +kernel

theorem plainReply_text {body : Bytes} (h : body.length ≤ maxSize) : PlainReply ⟨200, body, []⟩ :=
  ⟨show (0 : Int) ≤ 200 by decide, show (200 : Int) < 2 ^ 31 by decide, h,
    fun _ hf => absurd hf List.not_mem_nil⟩

theorem plainReply_counting (q : Request) : AnswersPlainly countingServer q := by
  intro r n _
  unfold replyOf respond
  rw [show countingServer.endpoints.find? _ = none from AssocMap.find?_empty _]
  dsimp only
  cases hm : countingServer.handlers.find? (requestOf q.clientIP r).method with
  | none => exact plainReply_404
  | some handler =>
    have hcount : handler = counting := by
      rw [show countingServer.handlers = AssocMap.empty.insertOrAssign .get counting from rfl,
        AssocMap.find?_insertOrAssign] at hm
      split at hm
      · exact (Option.some.inj hm).symm
      · exact absurd hm (by simp [AssocMap.find?_empty])
    rw [hcount]
    apply plainReply_text
    split
    · decide
    · decide

/-- the second client that connects is answered first -/
def twoPings : List (Sharing.Event (Request) Event) :=
  [.enter (pingFrom (str "a")), .enter (pingFrom (str "b")), .act 0 (.send 50), .act 1 (.send 50),
    .act 1 (.deliver 50), .act 0 (.deliver 50), .act 0 (.write 62), .act 0 (.receive 62),
    .act 0 .finish, .act 1 (.write 62), .act 1 (.receive 62), .act 1 .finish]

set_option maxRecDepth 100000 in
theorem clients_linearized_two :
    ∃ g, converse 0 countingServer 0 twoPings = some g ∧
      g.log.map (fun h => (h.part, h.before)) = [(1, 0), (0, 1)] ∧
      g.parts.map (fun x => x.result.map (·.body)) = [some (str "later"), some (str "first")] ∧
      ∀ i q, (Sharing.entered twoPings)[i]? = some q → ∃ x r, g.parts[i]? = some x ∧
        Served 0 countingServer q (g.logOf i) x r := by
  have hs : (converse 0 countingServer 0 twoPings).any
      (fun g => g.log.map (fun h => (h.part, h.before)) = [(1, 0), (0, 1)] ∧
        g.parts.map (fun x => x.result.map (·.body))
          = [some (str "later"), some (str "first")]) = true := by decide +kernel
  obtain ⟨g, hrun, hg⟩ := (Option.any_eq_true _ _).mp hs
  obtain ⟨h1, h2⟩ := of_decide_eq_true hg
  exact ⟨g, hrun, h1, h2, (clients_linearized 0 countingServer 0
    twoPings g (fun q _ => plainReply_counting q) hrun).2.2.2.2⟩

end Exchange
end ServerHttpLib
