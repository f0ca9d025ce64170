import ServerHttpLib.Lib.Sharing
import ServerHttpLib.Session.Exchanges

/-!
# Many sessions over one application

A server accepts connections and runs a session for each of them; the handlers share the state of
the application.  One completion handler is run at a time here, with the callbacks that it calls, as
one worker thread does it; the completions of the sessions come in any order.

* `step_onto`              what a completion handler does does not depend on the application, apart
                           from the response;
* `sessions_lawful`        sessions are components over the application;
* `sessions_linearized`    the responses of all sessions are those of one sequence of handler calls.
-/

namespace ServerHttpLib
open Cutting Frames Conn

variable {σ τ : Type}

/-! ## the application of a session -/

def Conn.onto (c : Conn σ) (w : τ) : Conn τ :=
  ⟨c.s, w, c.outstanding, c.trace, c.fault⟩

/-- what one handler does that may dispatch a request: `c` before it and `c'` behind it, and
`F srv' w'` what it does to the same session over the application `w'` of another server -/
inductive Acts (srv : Server σ) (c c' : Conn σ)
    (F : ∀ {τ : Type}, Server τ → τ → Conn τ) : Prop
  | quiet (hd : c'.dispatched = c.dispatched) (hw : c'.world = c.world)
      (hip : c'.s.clientIP = c.s.clientIP)
      (hF : ∀ {τ : Type} (srv' : Server τ) (w' : τ), F srv' w' = c'.onto w')
  | dispatch (b : Bytes × Bytes) (hd : c'.dispatched = c.dispatched ++ [b])
      (hip : c'.s.clientIP = c.s.clientIP)
      (hw : c'.world = (respond srv (requestOf c.s.clientIP b) c.world).2)
      (hF : ∀ {τ : Type} (srv' : Server τ) (w' : τ),
        (respond srv' (requestOf c.s.clientIP b) w').1
            = (respond srv (requestOf c.s.clientIP b) c.world).1 →
          F srv' w' = c'.onto (respond srv' (requestOf c.s.clientIP b) w').2)

theorem processRequest_acts (srv : Server σ) (c : Conn σ) (header body : Bytes) :
    Acts srv c (processRequest srv header body c)
      fun srv' w' => processRequest srv' header body (c.onto w') := by
  refine .dispatch (header, body) ?_ rfl rfl fun srv' w' hr => ?_
  · unfold processRequest
    simp only
    rw [dispatched_start _ _ _ (by simp)]
    simp [emit, dispatched, List.filterMap_append]
  · unfold processRequest Conn.onto Conn.start emit
    have hr : (respond srv' (request c.s header body) w').1
        = (respond srv (request c.s header body) c.world).1 := hr
    simp only [hr]
    rfl

theorem Acts.of_same {srv : Server σ} {c₀ c c' : Conn σ}
    {F : ∀ {τ : Type}, Server τ → τ → Conn τ} (h : Acts srv c c' F)
    (hd : c.dispatched = c₀.dispatched) (hw : c.world = c₀.world)
    (hip : c.s.clientIP = c₀.s.clientIP) : Acts srv c₀ c' F := by
  cases h with
  | quiet h1 h2 h3 h4 => exact .quiet (h1.trans hd) (h2.trans hw) (h3.trans hip) h4
  | dispatch b h1 h2 h3 h4 =>
    rw [hd] at h1
    rw [hip, hw] at h3
    refine .dispatch b h1 (h2.trans hip) h3 fun srv' w' => ?_
    rw [← hip, ← hw]
    exact h4 srv' w'

theorem doRead_frame (c : Conn σ) : (doRead c).dispatched = c.dispatched ∧
    (doRead c).world = c.world ∧ (doRead c).s.clientIP = c.s.clientIP := by
  unfold doRead
  cases hcap : c.s.ensureCapacity with
  | error f => exact ⟨rfl, rfl, rfl⟩
  | ok s =>
    refine ⟨dispatched_start _ _ _ (by simp), rfl, ?_⟩
    show s.clientIP = c.s.clientIP
    rw [ensureCapacity_frame hcap]

theorem doRead_onto (c : Conn σ) (w' : τ) : doRead (c.onto w') = (doRead c).onto w' := by
  have hs : (c.onto w').s = c.s := rfl
  unfold doRead
  rw [hs]
  cases c.s.ensureCapacity with
  | error f => rfl
  | ok s => rfl

theorem Acts.doRead {srv : Server σ} {c c' : Conn σ} {F : ∀ {τ : Type}, Server τ → τ → Conn τ}
    (h : Acts srv c c' F) : Acts srv c (doRead c') fun srv' w' => Conn.doRead (F srv' w') := by
  obtain ⟨hd, hw, hip⟩ := doRead_frame c'
  cases h with
  | quiet h1 h2 h3 h4 =>
    refine .quiet (hd.trans h1) (hw.trans h2) (hip.trans h3) fun srv' w' => ?_
    rw [h4, doRead_onto]
  | dispatch b h1 h2 h3 h4 =>
    refine .dispatch b (hd.trans h1) (hip.trans h2) (hw.trans h3) fun srv' w' hr => ?_
    rw [h4 srv' w' hr, doRead_onto]

/-- the three ways in which `try_parse_and_handle` ends behind its length test -/
theorem extract_eq (srv : Server σ) (c : Conn σ) : extractAndHandle srv c
    = if c.s.used < sizeT (c.s.headersLen + c.s.contentLength) then (false, c)
      else match c.s.copyOut with
        | .error f => (true, (c.emit (.extract c.s.headersLen c.s.contentLength c.s.used
            c.s.buf.length)).throw f)
        | .ok (header, body) => (true, processRequest srv header body (extracted c)) := rfl

theorem extractAndHandle_acts (srv : Server σ) (c : Conn σ) :
    (∀ {τ : Type} (srv' : Server τ) (w' : τ),
        (extractAndHandle srv' (c.onto w')).1 = (extractAndHandle srv c).1) ∧
      Acts srv c (extractAndHandle srv c).2
        fun srv' w' => (extractAndHandle srv' (c.onto w')).2 := by
  have hs : ∀ {τ : Type} (w' : τ), (c.onto w').s = c.s := fun _ => rfl
  have he : ∀ {τ : Type} (w' : τ), extracted (c.onto w') = (extracted c).onto w' := fun _ => rfl
  have hx : (c.emit (.extract c.s.headersLen c.s.contentLength c.s.used
      c.s.buf.length)).dispatched = c.dispatched := dispatched_emit c _ (by simp)
  simp only [extract_eq, hs, he]
  by_cases hlen : c.s.used < sizeT (c.s.headersLen + c.s.contentLength)
  · simp only [if_pos hlen]
    exact ⟨fun _ _ => trivial, .quiet rfl rfl rfl fun _ _ => rfl⟩
  · simp only [if_neg hlen]
    cases c.s.copyOut with
    | error f => exact ⟨fun _ _ => rfl, .quiet hx rfl rfl fun _ _ => rfl⟩
    | ok b =>
      refine ⟨fun _ _ => rfl, ?_⟩
      exact (processRequest_acts srv (extracted c) b.1 b.2).of_same hx rfl rfl

theorem parseHead_clientIP (s : SslSession) : s.parseHead.2.clientIP = s.clientIP := by
  unfold SslSession.parseHead
  split
  · rfl
  · dsimp only
    split
    · rfl
    · rfl

theorem tryParse_acts (srv : Server σ) (c : Conn σ) :
    (∀ {τ : Type} (srv' : Server τ) (w' : τ),
        (tryParseAndHandle srv' (c.onto w')).1 = (tryParseAndHandle srv c).1) ∧
      Acts srv c (tryParseAndHandle srv c).2
        fun srv' w' => (tryParseAndHandle srv' (c.onto w')).2 := by
  have hs : ∀ {τ : Type} (w' : τ), (c.onto w').s = c.s := fun _ => rfl
  unfold tryParseAndHandle
  simp only [hs]
  by_cases hh : c.s.haveHeaders = true
  · simp only [if_pos hh]
    exact extractAndHandle_acts srv c
  · simp only [if_neg hh]
    have hip := parseHead_clientIP c.s
    generalize c.s.parseHead = p at hip ⊢
    obtain ⟨ok, s⟩ := p
    cases ok with
    | false => exact ⟨fun _ _ => rfl, .quiet rfl rfl hip fun _ _ => rfl⟩
    | true =>
      by_cases hx : s.expectContinue = true
      · simp only [if_pos hx]
        exact ⟨fun _ _ => trivial, .quiet (dispatched_start _ _ _ (by simp)) rfl hip fun _ _ => rfl⟩
      · simp only [if_neg hx]
        obtain ⟨h1, h2⟩ := extractAndHandle_acts srv { c with s := s }
        exact ⟨h1, h2.of_same rfl rfl hip⟩

/-! ## the completion handlers -/

theorem parseOrRead_eq (srv : Server σ) (c : Conn σ) : parseOrRead srv c
    = if (tryParseAndHandle srv c).1 then (tryParseAndHandle srv c).2
      else doRead (tryParseAndHandle srv c).2 := by
  unfold parseOrRead
  obtain ⟨ok, c'⟩ := tryParseAndHandle srv c
  cases ok with
  | false => rfl
  | true => rfl

theorem parseOrRead_acts (srv : Server σ) (c : Conn σ) :
    Acts srv c (parseOrRead srv c) fun srv' w' => parseOrRead srv' (c.onto w') := by
  obtain ⟨h1, h2⟩ := tryParse_acts srv c
  simp only [parseOrRead_eq, h1]
  by_cases hok : (tryParseAndHandle srv c).1 = true
  · simp only [if_pos hok]
    exact h2
  · simp only [if_neg hok]
    exact h2.doRead

theorem onResponseDone_acts (srv : Server σ) (c : Conn σ) :
    Acts srv c (onResponseDone c) fun _ w' => onResponseDone (c.onto w') := by
  have hs : ∀ {τ : Type} (w' : τ), (c.onto w').s = c.s := fun _ => rfl
  have he : ∀ {τ : Type} (w' : τ), ((c.onto w').emit .cancelTimer).emit .armTimer
      = ((c.emit .cancelTimer).emit .armTimer).onto w' := fun _ => rfl
  have hd : ((c.emit .cancelTimer).emit .armTimer).dispatched = c.dispatched :=
    (dispatched_emit _ _ (by simp)).trans (dispatched_emit _ _ (by simp))
  unfold onResponseDone
  simp only [hs, he]
  by_cases hka : c.s.keepAlive = true
  · simp only [if_pos hka]
    exact (@Acts.quiet _ srv _ _ _ hd rfl rfl fun _ _ => rfl).doRead
  · simp only [if_neg hka]
    exact .quiet (dispatched_emit _ _ (by simp)) rfl rfl fun _ _ => rfl

theorem onInterimDone_acts (srv : Server σ) (c : Conn σ) (ok : Bool) :
    Acts srv c (onInterimDone srv c ok) fun srv' w' => onInterimDone srv' (c.onto w') ok := by
  have hs : ∀ {τ : Type} (w' : τ), (c.onto w').s = c.s := fun _ => rfl
  unfold onInterimDone
  simp only [hs]
  by_cases hok : (!ok) = true
  · simp only [if_pos hok]
    exact .quiet rfl rfl rfl fun _ _ => rfl
  · simp only [if_neg hok]
    by_cases hlen : sizeT (c.s.headersLen + c.s.contentLength) ≤ c.s.used
    · simp only [if_pos hlen]
      exact (tryParse_acts srv c).2
    · simp only [if_neg hlen]
      exact (@Acts.quiet _ srv _ _ _ rfl rfl rfl fun _ _ => rfl).doRead

/-- **What a completion handler does does not depend on the application**, apart from the response
of the request that it may dispatch. -/
theorem step_onto {srv : Server σ} {c c' : Conn σ} {e : Event} (hstep : step srv c e = some c') :
    ∃ F : ∀ {τ : Type}, Server τ → τ → Conn τ, Acts srv c c' F ∧
      ∀ {τ : Type} (srv' : Server τ) (w' : τ), step srv' (c.onto w') e = some (F srv' w') := by
  have hf : c.fault.isSome = false := by
    cases hf : c.fault.isSome with
    | false => rfl
    | true =>
      unfold step at hstep
      rw [if_pos hf] at hstep
      exact absurd hstep (by simp)
  have hf' : ∀ {τ : Type} (w' : τ), (c.onto w').fault.isSome = false := fun _ => hf
  have hp : ∀ {τ : Type} (w' : τ), (c.onto w').pendingRead = c.pendingRead := fun _ => rfl
  have ho : ∀ {τ : Type} (w' : τ), (c.onto w').outstanding = c.outstanding := fun _ => rfl
  have hc : ∀ {τ : Type} (w' : τ) (op : Op), (c.onto w').complete op = (c.complete op).onto w' :=
    fun _ _ => rfl
  unfold step at hstep ⊢
  simp only [hf, hf', hp, ho, hc, Bool.false_eq_true, if_false] at hstep ⊢
  cases e with
  | readOk data =>
    cases hpr : c.pendingRead with
    | none =>
      rw [hpr] at hstep
      exact absurd hstep (by simp)
    | some p =>
      simp only [hpr, Option.ite_none_right_eq_some, Option.some.injEq] at hstep
      obtain ⟨hle, rfl⟩ := hstep
      have ha := parseOrRead_acts srv ({ (c.complete (.read p.1 p.2)).emit .cancelTimer with
        s := c.s.receive p.1 data })
      exact ⟨_, ha.of_same (dispatched_emit _ _ (by simp)) rfl rfl, fun _ _ => if_pos hle⟩
  | readErr =>
    rw [Option.map_eq_some_iff] at hstep
    obtain ⟨p, hpr, rfl⟩ := hstep
    refine ⟨fun _ w' => (c.complete (.read p.1 p.2)).onto w', .quiet rfl rfl rfl fun _ _ => rfl,
      fun _ w' => ?_⟩
    simp only [hpr, Option.map_some]
  | responseDone ok =>
    simp only [Option.ite_none_right_eq_some, Option.some.injEq] at hstep
    obtain ⟨hm, rfl⟩ := hstep
    exact ⟨_, (onResponseDone_acts srv (c.complete .response)).of_same rfl rfl rfl,
      fun _ _ => if_pos hm⟩
  | interimDone ok =>
    simp only [Option.ite_none_right_eq_some, Option.some.injEq] at hstep
    obtain ⟨hm, rfl⟩ := hstep
    exact ⟨_, (onInterimDone_acts srv (c.complete .interim) ok).of_same rfl rfl rfl,
      fun _ _ => if_pos hm⟩

/-! ## the server -/

/-- a handler that answers as `srv` would over the next application of a list -/
def Server.recall (srv : Server σ) : Handler (List σ) := fun request ws =>
  match ws with
  | [] => (.ret Response404, [])
  | w :: ws => (.ret (respond srv request w).1, ws)

def Server.front (srv : Server σ) : Server (List σ) where
  endpoints := .empty
  handlers := [Method.get, .post, .put, .del, .create, .options].foldl
    (fun m method => m.insertOrAssign method srv.recall) .empty

theorem respond_front (srv : Server σ) (request : RequestIncoming) (w : σ) (ws : List σ) :
    respond srv.front request (w :: ws) = ((respond srv request w).1, ws) := by
  have h : srv.front.handlers.find? request.method = some srv.recall := by
    cases request.method <;> rfl
  unfold respond
  rw [show srv.front.endpoints.find? (endpointKey request) = none from rfl, h]
  rfl

/-- a request as it is passed to the handlers: the client, the header and the body -/
abbrev Call := Bytes × Bytes × Bytes

def handlerCalls : Sharing.Service Server Call Response where
  apply srv q w := respond srv (requestOf q.1 q.2) w
  front := Server.front
  apply_front srv q w ws := respond_front srv (requestOf q.1 q.2) w ws

/-- sessions, as components over the application -/
def sessionPart : Sharing.Component Server Conn Call Event where
  step := Conn.step
  onto := Conn.onto
  state := Conn.world
  called c := c.dispatched.map fun r => (c.s.clientIP, r)

theorem sessions_lawful : sessionPart.Lawful handlerCalls where
  onto_onto _ _ _ := rfl
  state_onto _ _ := rfl
  called_onto _ _ := rfl
  acts := by
    intro σ srv e c c' hstep
    obtain ⟨F, ha, hF⟩ := step_onto hstep
    cases ha with
    | quiet hd hw hip hq =>
      refine .quiet ?_ hw fun srv' w' => (hF srv' w').trans (congrArg some (hq srv' w'))
      show c'.dispatched.map _ = c.dispatched.map _
      rw [hd, hip]
    | dispatch b hd hip hw hq =>
      refine .call (c.s.clientIP, b) ?_ hw fun srv' w' hr =>
        (hF srv' w').trans (congrArg some (hq srv' w' hr))
      show c'.dispatched.map _ = c.dispatched.map _ ++ _
      rw [hd, hip, List.map_append]
      rfl

def accepted (clientIP : Bytes) : Conn Unit := doRead (Conn.accept clientIP ())

/-- a server that accepts connections, and whose sessions run handlers -/
def serve (srv : Server σ) (w : σ) (es : List (Sharing.Event Bytes Event)) :
    Option (Sharing.System Conn Call σ) :=
  Sharing.System.run sessionPart accepted srv w es

theorem called_accepted (ip : Bytes) : sessionPart.called (accepted ip) = [] := by
  have h : (accepted ip).dispatched = [] := (doRead_frame (Conn.accept ip ())).1
  unfold sessionPart
  dsimp only
  rw [h]
  rfl

theorem run_accepted (srv : Server σ) (ip : Bytes) (w : σ) (evs : List Event) :
    Runs.runs (sessionPart.step srv) (sessionPart.onto (accepted ip) w) evs
      = Conn.run srv ip w evs := by
  have h : sessionPart.onto (accepted ip) w = doRead (Conn.accept ip w) :=
    (doRead_onto (Conn.accept ip ()) w).symm
  rw [h]
  rfl

/-! ## the result -/

theorem exchanges_front (srv : Server σ) (ip : Bytes) (log : List (Sharing.Entry Call σ)) :
    (exchanges srv.front ip (log.map fun h => h.call.2) (log.map (·.before))).1
      = log.flatMap fun h => interimFor h.call.2.1 ++ [(replyTo srv ip h.call.2 h.before).1] := by
  induction log with
  | nil => rfl
  | cons h log ih =>
    have hr : replyTo srv.front ip h.call.2 (h.before :: log.map (·.before))
        = ((replyTo srv ip h.call.2 h.before).1, log.map (·.before)) := by
      unfold replyTo
      rw [respond_front]
    rw [List.map_cons, List.map_cons, exchanges, hr, List.flatMap_cons, ← ih,
      List.append_assoc, List.singleton_append]

/-- a session that has made the calls of a log -/
theorem calls_eq {c : Conn Unit} {ip : Bytes} {log : List (Sharing.Entry Call σ)}
    (hc : sessionPart.called c = log.map (·.call)) (hip : c.s.clientIP = ip) :
    (∀ h ∈ log, h.call.1 = ip) ∧ c.dispatched = log.map fun h => h.call.2 := by
  have hc : c.dispatched.map (fun r => (c.s.clientIP, r)) = log.map (·.call) := hc
  rw [hip] at hc
  constructor
  · intro h hh
    have hm : h.call ∈ log.map (·.call) := List.mem_map_of_mem hh
    rw [← hc] at hm
    obtain ⟨r, -, hr⟩ := List.mem_map.mp hm
    rw [← hr]
  · have h2 := congrArg (List.map Prod.snd) hc
    rw [List.map_map, List.map_map] at h2
    exact (List.map_id _).symm.trans h2

/-- **The responses of all sessions are those of one sequence of handler calls**, whatever the order
of their completions.  The log is that sequence: each entry met the application that the entries
before it leave.  Session by session, its entries are the first requests of the bytes that this
session received; and what it wrote are the responses of these entries, in order, each with the
interim response that its request expects, and none of another session. -/
theorem sessions_linearized (srv : Server σ) (w : σ) (es : List (Sharing.Event Bytes Event))
    (g : Sharing.System Conn Call σ) (hrun : serve srv w es = some g) :
    (∀ l h l', g.log = l ++ h :: l' → h.before = Sharing.replay handlerCalls srv w l) ∧
    g.state = Sharing.replay handlerCalls srv w g.log ∧
    ∀ i ip, (Sharing.entered es)[i]? = some ip → ∃ c, g.parts[i]? = some c ∧
      (∀ h ∈ g.logOf i, h.call.1 = ip) ∧
      (requestReader scannedLength).Takes (received (Sharing.eventsOf i es))
        ((g.logOf i).map fun h => h.call.2) c.s.pending ∧
      c.writes = (g.logOf i).flatMap (fun h =>
          interimFor h.call.2.1 ++ [(replyTo srv ip h.call.2 h.before).1])
        ++ c.currentHead.toList.flatMap interimFor := by
  have h := Sharing.run_linear sessions_lawful called_accepted hrun
  refine ⟨h.before, h.state, fun i ip hi => ?_⟩
  obtain ⟨c, hc, ha⟩ := h.alone i ip hi
  -- the session as it would be alone
  have hlocal : Conn.run srv.front ip ((g.logOf i).map (·.before)) (Sharing.eventsOf i es)
      = some (c.onto []) := by
    rw [← run_accepted, ← List.append_nil ((g.logOf i).map _)]
    exact ha.run []
  have hsettled := run_settled srv.front hlocal
  obtain ⟨hip, hd⟩ := calls_eq ha.called hsettled.talk.clientIP
  refine ⟨c, hc, hip, ?_, ?_⟩
  · rw [← hd]
    exact hsettled.takes
  · have hd' : (c.onto ([] : List σ)).dispatched = (g.logOf i).map fun h => h.call.2 := hd
    have hw := hsettled.talk.writes
    rw [hd', exchanges_front] at hw
    exact hw

/-- tells the first request from the others -/
def counting : Handler Nat := fun _ n =>
  (.ret ⟨200, if n = 0 then str "first" else str "later", []⟩, n + 1)

def countingServer : Server Nat := Server.empty.addHandler .get counting

/-- two clients; the second one's request is read first, and the first one's in two pieces -/
def twoClients : List (Sharing.Event Bytes Event) :=
  [.enter (str "a"), .enter (str "b"), .act 0 (.readOk (str "GET /x HTTP/1.1\r\n")),
    .act 1 (.readOk (str "GET /y HTTP/1.1\r\n\r\n")), .act 0 (.readOk (str "\r\n")),
    .act 1 (.responseDone true)]

set_option maxRecDepth 100000 in
theorem sessions_linearized_two :
    ∃ g, serve countingServer 0 twoClients = some g ∧
      g.log.map (fun h => (h.part, h.before)) = [(1, 0), (0, 1)] ∧
      (∀ l h l', g.log = l ++ h :: l' →
        h.before = Sharing.replay handlerCalls countingServer 0 l) ∧
      g.state = Sharing.replay handlerCalls countingServer 0 g.log ∧
      ∀ i ip, (Sharing.entered twoClients)[i]? = some ip → ∃ c, g.parts[i]? = some c ∧
        (∀ h ∈ g.logOf i, h.call.1 = ip) ∧
        (requestReader scannedLength).Takes (received (Sharing.eventsOf i twoClients))
          ((g.logOf i).map fun h => h.call.2) c.s.pending ∧
        c.writes = (g.logOf i).flatMap (fun h =>
            interimFor h.call.2.1 ++ [(replyTo countingServer ip h.call.2 h.before).1])
          ++ c.currentHead.toList.flatMap interimFor := by
  have hs : (serve countingServer 0 twoClients).any
      (fun g => g.log.map (fun h => (h.part, h.before)) = [(1, 0), (0, 1)]) = true := by
    decide +kernel
  obtain ⟨g, hrun, hg⟩ := (Option.any_eq_true _ _).mp hs
  exact ⟨g, hrun, of_decide_eq_true hg, sessions_linearized countingServer 0 twoClients g hrun⟩

end ServerHttpLib
