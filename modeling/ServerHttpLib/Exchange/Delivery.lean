import ServerHttpLib.Exchange.Invariant
import ServerHttpLib.Exchange.Requests
import ServerHttpLib.Lib.Progress

/-!
# The exchange delivers the response

Whatever the order in which client, server and connection act: the request is dispatched at most
once, and behind its last byte; the client returns the response of the handler, or, if the
connection was lost, a part of it or the code `-1`.  And it does return: every run is finite, and
one that cannot be continued has returned.

* `draining`             the measure, and an event as long as the client has not returned;
* `exchange_safe`        what holds in every state of every run;
* `exchange_ends`        the bound on the length of a run, and how it ends.
-/

namespace ServerHttpLib
open Cutting Frames

namespace Exchange

variable {σ : Type} {fuel : Nat} {srv : Server σ} {ip : Bytes} {w : σ} {r : Bytes × Bytes}
  {x x' : Exchange σ}

/-! ## the exchange comes to an end -/

/-- what the session may still do for a response of `L` bytes -/
def work (L : Nat) (c : Conn σ) : Nat :=
  if c.outstanding = [] then 0 else if c.dispatched = [] then 2 * L + 2 else 1

/-- the client may return once, and the connection be lost once -/
def chances (result : Option Response) (lost : Bool) : Nat :=
  (if result.isNone then 1 else 0) + if lost then 0 else 1

/-- a byte of the request is handed over and delivered, one of the response written and received -/
def measure (L : Nat) (x : Exchange σ) : Nat :=
  3 * x.toSend.length + 2 * x.up.length + (work L x.conn + 2 * x.toWrite.length) + x.down.length
    + chances x.result x.lost

theorem work_received (hr : ClosingRequest ip r) {evs : List ServerHttpLib.Event} {c : Conn σ}
    (hrun : Conn.run srv ip w evs = some c) (hs : received evs <+: r.1 ++ r.2) :
    work (wholeText srv ip w r).length c + 2 * c.writeText.length
      ≤ 2 * (wholeText srv ip w r).length + 2 := by
  have hstage := run_serving srv hr hrun hs
  unfold work
  by_cases ho : c.outstanding = [.response]
  · have hd : c.dispatched = [r] := by
      cases hstage with
      | waiting _ ho' _ _ => exact absurd (ho.symm.trans ho') (by simp)
      | failed _ ho' _ => exact absurd (ho.symm.trans ho') (by simp)
      | responding hd _ _ => exact hd
      | closed hd _ _ => exact hd
    rw [if_neg (by simp [ho]), if_neg (by simp [hd]), reply_written hr hrun hs hd ho]
    unfold wholeText
    omega
  · rw [writeText_idle hstage ho, List.length_nil]
    split
    · omega
    · split
      · omega
      · omega

theorem Inv.work_responded (hr : ClosingRequest ip r) (h : Inv srv ip w r x) {ok : Bool}
    {c : Conn σ} (hstep : Conn.step srv x.conn (.responseDone ok) = some c) (L : Nat) :
    work L c < work L x.conn ∧ c.writeText = [] := by
  obtain ⟨hd, -, ho'⟩ := h.responded_conn hr hstep
  have ho : x.conn.outstanding ≠ [] := by
    intro h0
    unfold Conn.step at hstep
    rw [h0] at hstep
    simp at hstep
  constructor
  · unfold work
    rw [if_pos ho', if_neg ho, if_neg (by simp [hd])]
    exact Nat.one_pos
  · simp [Conn.writeText, ho']

/-- **Every event lowers the measure.** -/
theorem Inv.drops (hr : ClosingRequest ip r) (h : Inv srv ip w r x) {e : Event}
    (hstep : x.step fuel srv e = some x') :
    measure (wholeText srv ip w r).length x' < measure (wholeText srv ip w r).length x := by
  unfold measure
  cases e with
  | send n =>
    simp only [Exchange.step, Option.ite_none_right_eq_some, Option.some.injEq] at hstep
    obtain ⟨⟨-, hn⟩, rfl⟩ := hstep
    simp only [List.length_append, List.length_take, List.length_drop]
    omega
  | deliver n =>
    simp only [Exchange.step, Option.ite_none_right_eq_some, Option.map_eq_some_iff] at hstep
    obtain ⟨hn, c, hc, rfl⟩ := hstep
    obtain ⟨evs, hrun, hup, hs, -, -⟩ := h.stage hr
    obtain ⟨hd, ho⟩ := waiting_of_readOk hr hrun hs hc
    have hs' : received (evs ++ [.readOk (x.up.take n)]) <+: r.1 ++ r.2 := by
      refine List.IsPrefix.trans ⟨x.up.drop n, ?_⟩ hup
      rw [received_snoc, Event.bytes, List.append_assoc, List.take_append_drop]
    have hleft := work_received hr ((Runs.runs_snoc _).mpr ⟨_, hrun, hc⟩) hs'
    have hwork : work (wholeText srv ip w r).length x.conn
        = 2 * (wholeText srv ip w r).length + 2 := by
      unfold work
      rw [if_neg ho, if_pos hd]
    simp only [handled, List.length_drop]
    omega
  | write n =>
    simp only [Exchange.step, Option.ite_none_right_eq_some, Option.some.injEq] at hstep
    obtain ⟨⟨-, hn⟩, rfl⟩ := hstep
    simp only [List.length_append, List.length_take, List.length_drop]
    omega
  | written =>
    simp only [Exchange.step, Option.ite_none_right_eq_some, Option.map_eq_some_iff,
      Option.bind_eq_some_iff] at hstep
    obtain ⟨⟨-, hw⟩, c, ⟨e, he, hc⟩, rfl⟩ := hstep
    rcases h.completeWrite hr true with h0 | h0
    · rw [h0] at he
      exact absurd he (by simp)
    · rw [h0, Option.some.injEq] at he
      obtain ⟨hlt, hidle⟩ := h.work_responded hr (he ▸ hc) (wholeText srv ip w r).length
      simp only [handled, hidle, List.length_nil]
      omega
  | receive n =>
    simp only [Exchange.step, Option.ite_none_right_eq_some, Option.some.injEq] at hstep
    obtain ⟨hn, rfl⟩ := hstep
    simp only [List.length_drop]
    omega
  | finish =>
    simp only [Exchange.step, Option.ite_none_right_eq_some, Option.map_eq_some_iff] at hstep
    obtain ⟨⟨hread, -⟩, res, -, rfl⟩ := hstep
    have hnone : x.result.isNone = true := (of_decide_eq_true hread).2
    simp [chances, hnone]
  | lose n k =>
    simp only [Exchange.step, Option.ite_none_right_eq_some, Option.some.injEq] at hstep
    obtain ⟨hl, rfl⟩ := hstep
    simp only [chances, hl, List.length_take, if_true, Bool.false_eq_true, if_false]
    omega
  | serverError =>
    simp only [Exchange.step, Option.ite_none_right_eq_some, Option.map_eq_some_iff] at hstep
    obtain ⟨hl, c, hc, rfl⟩ := hstep
    rcases h.completeWrite hr false with h0 | h0
    · rw [h0] at hc
      obtain ⟨-, ho, ho'⟩ := h.readFailed_conn hr hc
      have hidle : c.writeText = [] := by simp [Conn.writeText, ho']
      have hlt : work (wholeText srv ip w r).length c
          < work (wholeText srv ip w r).length x.conn := by
        unfold work
        rw [if_pos ho', if_neg ho]
        split
        · omega
        · omega
      simp only [handled, hidle, List.length_nil]
      omega
    · rw [h0] at hc
      obtain ⟨hlt, hidle⟩ := h.work_responded hr hc (wholeText srv ip w r).length
      simp only [handled, hidle, List.length_nil]
      omega
  | sendError =>
    simp only [Exchange.step, Option.ite_none_right_eq_some, Option.some.injEq] at hstep
    obtain ⟨⟨-, -, hnone⟩, rfl⟩ := hstep
    simp [chances, hnone]

/-- the session can be given one byte, or its write can complete -/
theorem Inv.session_moves (hr : ClosingRequest ip r) (h : Inv srv ip w r x)
    (hl : x.lost = false) (hsend : x.toSend = []) (hopen : x.conn.outstanding ≠ []) :
    ∃ e x', x.step fuel srv e = some x' := by
  obtain ⟨evs, hrun, -, hs, hstage, hall⟩ := h.stage hr
  obtain ⟨herr, hrest⟩ := hall hl
  cases hstage with
  | waiting hd ho hf hu =>
    have hup : 0 < x.up.length := by
      refine List.length_pos_iff.mpr fun h0 => ?_
      rw [h0, hsend, List.append_nil, List.append_nil] at hrest
      have hone := (serving_received hr hrun hs).mpr hrest
      exact absurd (hd.symm.trans hone) (by simp)
    have hlen : (x.up.take 1).length = 1 := by
      rw [List.length_take]
      omega
    have hconn : ∃ c, Conn.step srv x.conn (.readOk (x.up.take 1)) = some c := by
      unfold Conn.step
      simp only [hf, Option.isSome_none, Bool.false_eq_true, if_false, pendingRead_eq x.conn ho,
        hlen]
      exact ⟨_, if_pos hu⟩
    obtain ⟨c, hc⟩ := hconn
    refine ⟨.deliver 1, x.handled (x.up.drop 1) c, ?_⟩
    simp only [Exchange.step, hc, Option.map_some]
    exact if_pos ⟨Nat.one_pos, hup⟩
  | failed _ ho _ => exact absurd ho hopen
  | responding hd ho hf =>
    by_cases hw : x.toWrite = []
    · have hconn : ∃ c, Conn.step srv x.conn (.responseDone true) = some c := by
        unfold Conn.step
        simp only [hf, ho, Option.isSome_none, Bool.false_eq_true, if_false, List.mem_singleton,
          if_true]
        exact ⟨_, rfl⟩
      obtain ⟨c, hc⟩ := hconn
      have hwrite : Exchange.completeWrite x.conn true = some (.responseDone true) := by
        simp [Exchange.completeWrite, ho]
      refine ⟨.written, x.handled x.up c, ?_⟩
      simp only [Exchange.step, hwrite, Option.bind_some, hc, Option.map_some]
      exact if_pos ⟨hl, hw⟩
    · exact ⟨.write 1, _, if_pos ⟨hl, Nat.one_pos, List.length_pos_iff.mpr hw⟩⟩
  | closed _ ho _ => exact absurd ho hopen

/-- **As long as the client has not returned there is an event.** -/
theorem Inv.moves (hr : ClosingRequest ip r) (hreply : PlainReply (replyOf srv ip w r))
    (h : Inv srv ip w r x) (hnone : x.result = none) : ∃ e x', x.step fuel srv e = some x' := by
  by_cases hsend : x.toSend = []
  · have hread : x.isReading = true := by
      unfold isReading
      rw [hsend, hnone]
      rfl
    have hfinish : wantsMore x.segs.flatten = false ∨ x.down = [] ∧ x.closed = true →
        ∃ e x', x.step fuel srv e = some x' := by
      intro hend
      obtain ⟨res, hres, -⟩ := readResponse_part hreply false 10 x.segs
        ((List.prefix_append _ _).trans h.sent)
      refine ⟨.finish, { x with result := some res }, ?_⟩
      simp only [Exchange.step, hres, Option.map_some]
      exact if_pos ⟨hread, hend⟩
    by_cases hw : wantsMore x.segs.flatten = false
    · exact hfinish (Or.inl hw)
    · by_cases hdown : x.down = []
      · by_cases hc : x.closed = true
        · exact hfinish (Or.inr ⟨hdown, hc⟩)
        · rw [h.closed, Bool.or_eq_true, not_or] at hc
          exact h.session_moves hr (by simpa using hc.1) hsend (by simpa using hc.2)
      · have hw : wantsMore x.segs.flatten = true := by simpa using hw
        exact ⟨.receive 1, _, if_pos ⟨hread, hw, Nat.one_pos, List.length_pos_iff.mpr hdown⟩⟩
  · cases hl : x.lost with
    | true => exact ⟨.sendError, _, if_pos ⟨hl, hsend, by rw [hnone]; rfl⟩⟩
    | false => exact ⟨.send 1, _, if_pos ⟨hl, Nat.one_pos, List.length_pos_iff.mpr hsend⟩⟩

theorem draining (fuel : Nat) (hr : ClosingRequest ip r)
    (hreply : PlainReply (replyOf srv ip w r)) :
    Runs.Draining (step fuel srv) (Inv srv ip w r) (fun x => x.result.isSome = true)
      (measure (wholeText srv ip w r).length) where
  keeps := fun h hstep => h.step hr hreply hstep
  drops := fun h hstep => h.drops hr hstep
  moves := fun h hnone => h.moves hr hreply (by simpa using hnone)

theorem measure_start (hr : ClosingRequest ip r) (srv : Server σ) (L : Nat) :
    measure L (start ip w (r.1 ++ r.2) : Exchange σ) = 3 * (r.1 ++ r.2).length + 2 * L + 4 := by
  obtain ⟨hnone, hopen⟩ := start_waiting (w := w) hr srv (r.1 ++ r.2)
  have hwork : work L (start ip w (r.1 ++ r.2)).conn = 2 * L + 2 := by
    unfold work
    rw [if_neg hopen, if_pos hnone]
  unfold measure
  rw [hwork]
  show 3 * (r.1 ++ r.2).length + 0 + (2 * L + 2 + 0) + 0 + 2 = _
  omega

/-! ## the results -/

theorem run_clientIP (hr : ClosingRequest ip r) (hreply : PlainReply (replyOf srv ip w r))
    {es : List Event} (hrun : run fuel srv ip w (r.1 ++ r.2) es = some x) :
    x.conn.s.clientIP = ip := by
  have h := (draining fuel hr hreply).runs_inv (inv_start hr) hrun
  obtain ⟨evs, hconn, -⟩ := h.stage hr
  exact (run_settled srv hconn).talk.clientIP

/-- what an exchange of a single request leads to, in every state of every run -/
theorem run_safe (hr : ClosingRequest ip r) (hreply : PlainReply (replyOf srv ip w r))
    {es : List Event} (hrun : run fuel srv ip w (r.1 ++ r.2) es = some x) :
    (x.conn.dispatched = [] ∧ x.conn.world = w ∨
      x.conn.dispatched = [r] ∧ x.conn.world = (respond srv (requestOf ip r) w).2) ∧
    ∀ res, x.result = some res →
      (x.lost = false → res = (replyOf srv ip w r).asRead false 10) ∧
      (res = notSent ∨ PartOf ((replyOf srv ip w r).asRead false 10) res) ∧
      (x.conn.dispatched = [r] ∨ res = notSent ∨ res.code = 0) := by
  have h := (draining fuel hr hreply).runs_inv (inv_start hr) hrun
  obtain ⟨evs, hconn, -, hpre, -⟩ := h.stage hr
  obtain ⟨hw, hw'⟩ := world_after hconn
  constructor
  · exact (dispatched_le_single hr hconn hpre).imp (fun hd => ⟨hd, hw hd⟩) fun hd => ⟨hd, hw' hd⟩
  · intro res hres
    obtain ⟨h1, h2⟩ := h.result res hres
    refine ⟨fun hl => ?_, ?_, h2⟩
    · rcases h1 with h1 | ⟨h1, -⟩
      · exact h1
      · exact absurd (h1.symm.trans hl) (by simp)
    · rcases h1 with rfl | ⟨-, h1⟩
      · exact Or.inr ⟨Or.inl rfl, List.prefix_refl _, List.prefix_refl _⟩
      · exact h1

/-- what the socket has given the client: the segments that it read, or an exception -/
def outcome (x : Exchange σ) : Option (List Bytes) :=
  if x.toSend = [] then some x.segs else none

/-- what a client that has returned made of the outcome -/
theorem run_returned {text : Bytes} {es : List Event} (hrun : run fuel srv ip w text es = some x)
    {res : Response} (hres : x.result = some res) :
    x.toSend = [] ∧ readResponse fuel x.segs = some res ∨
      x.lost = true ∧ x.toSend ≠ [] ∧ res = notSent := by
  refine Runs.runs_induction (step fuel srv) (start ip w text) (fun _ (x : Exchange σ) =>
    ∀ res, x.result = some res → x.toSend = [] ∧ readResponse fuel x.segs = some res ∨
      x.lost = true ∧ x.toSend ≠ [] ∧ res = notSent) (fun res h => ?_)
    (fun es x e x' _ ih hstep res hres => ?_) hrun res hres
  · exact absurd h (by simp [start])
  · cases e with
    | send n =>
      simp only [step, Option.ite_none_right_eq_some, Option.some.injEq] at hstep
      obtain ⟨⟨hl, hn, hle⟩, rfl⟩ := hstep
      rcases ih res hres with ⟨hs, -⟩ | ⟨hl', -⟩
      · rw [hs, List.length_nil] at hle
        omega
      · exact absurd (hl.symm.trans hl') (by simp)
    | deliver n =>
      simp only [step, Option.ite_none_right_eq_some, Option.map_eq_some_iff] at hstep
      obtain ⟨-, c, -, rfl⟩ := hstep
      exact ih res hres
    | write n =>
      simp only [step, Option.ite_none_right_eq_some, Option.some.injEq] at hstep
      obtain ⟨-, rfl⟩ := hstep
      exact ih res hres
    | written =>
      simp only [step, Option.ite_none_right_eq_some, Option.map_eq_some_iff] at hstep
      obtain ⟨-, c, -, rfl⟩ := hstep
      exact ih res hres
    | receive n =>
      simp only [step, Option.ite_none_right_eq_some, Option.some.injEq] at hstep
      obtain ⟨⟨hread, -⟩, rfl⟩ := hstep
      have hnone : x.result.isNone = true := (of_decide_eq_true hread).2
      have hres : x.result = some res := hres
      exact absurd hres (by rw [Option.isNone_iff_eq_none.mp hnone]; simp)
    | finish =>
      simp only [step, Option.ite_none_right_eq_some, Option.map_eq_some_iff] at hstep
      obtain ⟨⟨hread, -⟩, res', hr', rfl⟩ := hstep
      obtain rfl := Option.some.inj hres
      exact Or.inl ⟨(of_decide_eq_true hread).1, hr'⟩
    | lose n k =>
      simp only [step, Option.ite_none_right_eq_some, Option.some.injEq] at hstep
      obtain ⟨-, rfl⟩ := hstep
      exact (ih res hres).imp_right fun h => ⟨rfl, h.2⟩
    | serverError =>
      simp only [step, Option.ite_none_right_eq_some, Option.map_eq_some_iff] at hstep
      obtain ⟨-, c, -, rfl⟩ := hstep
      exact ih res hres
    | sendError =>
      simp only [step, Option.ite_none_right_eq_some, Option.some.injEq] at hstep
      obtain ⟨⟨hl, hne, -⟩, rfl⟩ := hstep
      exact Or.inr ⟨hl, hne, (Option.some.inj hres).symm⟩

def Reaches (net : Network) (q : Request) (x : Exchange σ) : Prop :=
  net.resolves q.url.transport.2 q.url.port = true ∧
    net.exchange q.url.transport.1 q.url.transport.2 q.url.port q.text = x.outcome

/-- **`http::request` returns the result of the exchange**, if the peer is the server. -/
theorem request_eq {q : Request} {es : List Event}
    (hrun : run fuel srv q.clientIP w q.text es = some x) {res : Response}
    (hres : x.result = some res) {net : Network} (hnet : Reaches net q x) :
    (request fuel q.order net q.url q.outgoing).map Prod.fst = some res := by
  have hex : net.exchange q.url.transport.1 q.url.transport.2 q.url.port
      ((q.outgoing.setPath q.url.endpoint).getHttpBody q.order q.url.transport.2).1
        = x.outcome := hnet.2
  unfold request
  simp only [hnet.1, if_true, hex, outcome]
  rcases run_returned hrun hres with ⟨hs, hr⟩ | ⟨-, hs, rfl⟩
  · simp only [if_pos hs, hr]
    rfl
  · simp only [if_neg hs]
    rfl

/-- **An exchange is safe.**  In every state of every run the application has handled the request
not at all, or once, and then it was the request that the client composed.  If the client has
returned and the connection was not lost, it returns the response of the handler, with the
connection fields behind its headers.  If the connection was lost it returns a part of that
response, or the code `-1`; and another code than `0` and `-1` only if the request was handled. -/
theorem exchange_safe (srv : Server σ) (w : σ) (q : Request) :
    ∃ r : Bytes × Bytes, q.text = r.1 ++ r.2 ∧ Arrives q (requestOf q.clientIP r) ∧
      (PlainReply (replyOf srv q.clientIP w r) → ∀ fuel es x,
        run fuel srv q.clientIP w q.text es = some x →
        (x.conn.dispatched = [] ∧ x.conn.world = w ∨
          x.conn.dispatched = [r] ∧
            x.conn.world = (respond srv (requestOf q.clientIP r) w).2) ∧
        ∀ res, x.result = some res →
          (∀ net, Reaches net q x →
            (request fuel q.order net q.url q.outgoing).map Prod.fst = some res) ∧
          (x.lost = false → res = (replyOf srv q.clientIP w r).asRead false 10) ∧
          (res = notSent ∨ PartOf ((replyOf srv q.clientIP w r).asRead false 10) res) ∧
          (x.conn.dispatched = [r] ∨ res = notSent ∨ res.code = 0)) := by
  obtain ⟨r, htext, harr, hr⟩ := q.arrives
  refine ⟨r, htext, harr, fun hreply fuel es x hrun => ?_⟩
  have hrun' := hrun
  rw [htext] at hrun'
  obtain ⟨hd, hsafe⟩ := run_safe hr hreply hrun'
  exact ⟨hd, fun res hres => ⟨fun net hnet => request_eq hrun hres hnet, hsafe res hres⟩⟩

/-- a form that is sent with a parameter and a header of its own -/
def saveForm : Request where
  clientIP := str "a"
  order := .inserted
  url := ⟨str "http://h", 80, str "/list", false⟩
  calls := [.setMethod .post, .setParams (str "page") (str "2"),
    .addHeader traceHeader.name traceHeader.value, .setPostParams (str "k") (str "v")]
  setters := by
    intro q hq
    simp only [List.mem_cons, List.not_mem_nil, or_false] at hq
    rcases hq with rfl | rfl | rfl | rfl
    · trivial
    · trivial
    · exact ⟨traceHeader, rfl⟩
    · trivial
  endpoint_plain := by unfold PlainTarget; decide
  query := .inl (by decide)
  host_plain := by decide
  small := by decide +kernel

/-- the bytes of the request arrive in two pieces, and those of the response too -/
def saveRun : List Event :=
  [.send 100, .deliver 60, .send 43, .deliver 83, .write 60, .receive 20, .write 11, .receive 51,
    .finish, .written]

theorem replyOf_empty (ip : Bytes) (r : Bytes × Bytes) :
    replyOf Server.empty ip () r = Response404 := by
  unfold replyOf respond
  rw [show (Server.empty : Server Unit).endpoints.find? _ = none from AssocMap.find?_empty _]
  simp only [show (Server.empty : Server Unit).handlers.find? _ = none from AssocMap.find?_empty _]

theorem plainReply_404 : PlainReply Response404 :=
  ⟨by decide, by decide, by decide, fun _ hf => absurd hf List.not_mem_nil⟩

set_option maxRecDepth 100000 in
theorem exchange_safe_save :
    ∃ r x res, run 0 Server.empty saveForm.clientIP () saveForm.text saveRun = some x ∧
      x.result = some res ∧ x.conn.dispatched = [r] ∧
      res = (replyOf Server.empty saveForm.clientIP () r).asRead false 10 := by
  obtain ⟨r, -, -, h⟩ := exchange_safe Server.empty () saveForm
  have hreply : PlainReply (replyOf Server.empty saveForm.clientIP () r) := by
    rw [replyOf_empty]
    exact plainReply_404
  have hs : (run 0 Server.empty saveForm.clientIP () saveForm.text saveRun).any
      (fun x => x.result.any (fun res => res.code = 404) ∧ x.lost = false) = true := by
    decide +kernel
  obtain ⟨x, hrun, hx⟩ := (Option.any_eq_true _ _).mp hs
  obtain ⟨hsome, hl⟩ := of_decide_eq_true hx
  obtain ⟨res, hres, hcode⟩ := (Option.any_eq_true _ _).mp hsome
  have hcode : res.code = 404 := of_decide_eq_true hcode
  obtain ⟨-, hwhole, -, hd⟩ := (h hreply 0 saveRun x hrun).2 res hres
  refine ⟨r, x, res, hrun, hres, hd.resolve_right ?_, hwhole hl⟩
  rintro (rfl | h0)
  · exact absurd hcode (by decide)
  · exact absurd (h0.symm.trans hcode) (by decide)

/-- **An exchange comes to an end.**  No run is longer than three events for each byte of the
request and two for each byte of the response, and four more; a run that cannot be continued has
given the client its response, and every run can be continued to one that has. -/
theorem exchange_ends (srv : Server σ) (w : σ) (q : Request) :
    ∃ r : Bytes × Bytes, q.text = r.1 ++ r.2 ∧
      (PlainReply (replyOf srv q.clientIP w r) → ∀ fuel es x,
        run fuel srv q.clientIP w q.text es = some x →
        es.length ≤ 3 * q.text.length
          + 2 * (replyText (replyOf srv q.clientIP w r) false 10).length + 4 ∧
        ((∀ e, x.step fuel srv e = none) → x.result.isSome = true) ∧
        ∃ es' x', Runs.runs (step fuel srv) x es' = some x' ∧ x'.result.isSome = true) := by
  obtain ⟨r, htext, -, hr⟩ := q.arrives
  refine ⟨r, htext, fun hreply fuel es x hrun => ?_⟩
  rw [htext] at hrun ⊢
  have hdrain := draining fuel hr hreply
  refine ⟨?_, hdrain.maximal (inv_start hr) hrun, ?_⟩
  · have hle := hdrain.length_le (inv_start hr) hrun
    rw [measure_start hr srv] at hle
    exact (Nat.le_add_right _ _).trans hle
  · exact hdrain.completes (hdrain.runs_inv (inv_start hr) hrun)

set_option maxRecDepth 100000 in
theorem exchange_ends_save :
    ∃ es x, Runs.runs (step 0 Server.empty) (start saveForm.clientIP () saveForm.text) es = some x ∧
      x.result.isSome = true := by
  obtain ⟨r, -, h⟩ := exchange_ends Server.empty () saveForm
  have hreply : PlainReply (replyOf Server.empty saveForm.clientIP () r) := by
    rw [replyOf_empty]
    exact plainReply_404
  exact (h hreply 0 [] _ (Runs.runs_nil _ _)).2.2

end Exchange
end ServerHttpLib
