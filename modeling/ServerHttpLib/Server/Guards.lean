import ServerHttpLib.Server.Routing

/-!
# The two guard paths

A guard can be registered with the server (`Server::add_endpoint`, run by `process_request`) or
with a `RequestHandler` (`set_sequire`, run by the lambda of `ServerApp::add_endpoint`).  How often
the handler behind the guard was executed is counted in the state of the application:

* `respond_addEndpoint`      the response of the server path, by what the guard returned;
* `respond_addAppEndpoint`   the same of the application path;
* `guards_agree_iff`         the two paths agree, and only let a request pass that the guard
                             passed, exactly if the guard does not deny with code 404.
-/

namespace ServerHttpLib

variable {σ : Type}

/-! ## counting the executions of a handler -/

def counted (h : Handler σ) : Handler (σ × Nat) := fun request w =>
  ((h request w.1).1, ((h request w.1).2, w.2 + 1))

/-- `g`, leaving the counter alone -/
def lifted (g : Handler σ) : Handler (σ × Nat) := fun request w =>
  ((g request w.1).1, ((g request w.1).2, w.2))

/-- the response to a request together with the number of executions of the endpoint handler -/
def answer (srv : Server (σ × Nat)) (request : RequestIncoming) (w : σ) : Response × Nat :=
  ((respond srv request (w, 0)).1, (respond srv request (w, 0)).2.2)

def HandlerResult.passes : HandlerResult → Prop
  | .ret r => r.code = ResponseNone.code
  | _ => False

def HandlerResult.deniesAs404 : HandlerResult → Prop
  | .ret r => r.code = Response404.code
  | _ => False

/-! ## the two ways to register -/

theorem find?_addEndpoint {srv : Server σ} {path : Bytes} {method : Method}
    (hfree : srv.endpoints.find? ⟨path, method⟩ = none) (h : Handler σ) (g : Option (Handler σ)) :
    (srv.addEndpoint path method h g).endpoints.find? ⟨path, method⟩ = some (h, g) := by
  unfold Server.addEndpoint
  rw [AssocMap.find?_eq_some_iff, AssocMap.insert_of_none _ hfree]
  exact List.mem_append_right _ (List.mem_singleton_self _)

theorem respond_addEndpoint {srv : Server σ} {request : RequestIncoming}
    (hfree : srv.endpoints.find? (endpointKey request) = none) (h : Handler σ)
    (g : Option (Handler σ)) (w : σ) :
    respond (srv.addEndpoint request.path request.method h g) request w
      = respondEndpoint (h, g) request w := by
  unfold respond
  rw [endpointKey, find?_addEndpoint hfree]

theorem respond_addAppEndpoint {srv : Server σ} {request : RequestIncoming}
    (hfree : srv.endpoints.find? (endpointKey request) = none) (h : RequestHandler σ) (w : σ) :
    respond (srv.addAppEndpoint request.path request.method h) request w
      = (catchInto Response404 (h.guarded request w).1, (h.guarded request w).2) := by
  unfold Server.addAppEndpoint
  rw [respond_addEndpoint hfree]
  show runEndpoint h.guarded request Response404 w = _
  unfold runEndpoint
  rw [if_pos (Or.inr rfl)]

/-- the server path: the handler runs behind a response with code 0 or 404 -/
theorem answer_addEndpoint {srv : Server (σ × Nat)} {request : RequestIncoming}
    (hfree : srv.endpoints.find? (endpointKey request) = none) (h g : Handler σ) (w : σ) :
    answer (srv.addEndpoint request.path request.method (counted h) (some (lifted g))) request w
      = match g request w with
        | (.ret r, w') =>
          if r.code = ResponseNone.code ∨ r.code = Response404.code then
            (catchInto r (h request w').1, 1)
          else (r, 0)
        | (e, _) => (catchInto Response404 e, 0) := by
  unfold answer
  rw [respond_addEndpoint hfree]
  simp only [respondEndpoint, lifted]
  obtain ⟨x, w'⟩ := g request w
  cases x with
  | ret r =>
    simp only [runEndpoint, counted]
    by_cases hc : r.code = ResponseNone.code ∨ r.code = Response404.code
    · rw [if_pos hc, if_pos hc]
    · rw [if_neg hc, if_neg hc]
  | responseException code body => rfl
  | stdException what => rfl
  | otherException => rfl

/-- the application path: the handler runs behind a response with code 0 -/
theorem answer_addAppEndpoint {srv : Server (σ × Nat)} {request : RequestIncoming}
    (hfree : srv.endpoints.find? (endpointKey request) = none) (h g : Handler σ) (w : σ) :
    answer (srv.addAppEndpoint request.path request.method ⟨counted h, some (lifted g)⟩) request w
      = match g request w with
        | (.ret r, w') =>
          if r.code = ResponseNone.code then (catchInto Response404 (h request w').1, 1)
          else (r, 0)
        | (e, _) => (catchInto Response404 e, 0) := by
  unfold answer
  rw [respond_addAppEndpoint hfree]
  simp only [RequestHandler.guarded, lifted]
  obtain ⟨x, w'⟩ := g request w
  cases x with
  | ret r =>
    dsimp only
    by_cases hc : r.code = ResponseNone.code
    · have h0 : ¬ r.code ≠ 0 := not_not_intro hc
      rw [if_pos hc, if_neg h0]
      rfl
    · have h0 : r.code ≠ 0 := hc
      rw [if_neg hc, if_pos h0]
      rfl
  | responseException code body => rfl
  | stdException what => rfl
  | otherException => rfl

theorem catchInto_code_body (r r' : Response) (x : HandlerResult) :
    (catchInto r x).code = (catchInto r' x).code ∧
      (catchInto r x).body = (catchInto r' x).body := by
  cases x <;> exact ⟨rfl, rfl⟩

/-! ## when they agree -/

/-- both ways send the same code and body, and in both the handler is executed if and only if the
guard returned the pass value -/
def GuardsAgree (srv : Server (σ × Nat)) (g h : Handler σ) (request : RequestIncoming) (w : σ) :
    Prop :=
  let a := answer (srv.addEndpoint request.path request.method (counted h) (some (lifted g)))
    request w
  let b := answer (srv.addAppEndpoint request.path request.method ⟨counted h, some (lifted g)⟩)
    request w
  a.1.code = b.1.code ∧ a.1.body = b.1.body ∧ (0 < a.2 ↔ (g request w).1.passes) ∧
    (0 < b.2 ↔ (g request w).1.passes)

/-- **The two guard paths agree** exactly if the guard does not deny with code 404; with 404 the
server path executes the handler. -/
theorem guards_agree_iff (srv : Server (σ × Nat)) (g h : Handler σ) (request : RequestIncoming)
    (w : σ) (hfree : srv.endpoints.find? (endpointKey request) = none) :
    GuardsAgree srv g h request w ↔ ¬ (g request w).1.deniesAs404 := by
  unfold GuardsAgree
  simp only [answer_addEndpoint hfree, answer_addAppEndpoint hfree]
  obtain ⟨x, w'⟩ := g request w
  cases x with
  | ret r =>
    dsimp only
    by_cases h0 : r.code = ResponseNone.code
    · have h4 : ¬ r.code = Response404.code := by
        rw [h0]
        decide
      have hp : 0 < 1 ↔ (HandlerResult.ret r).passes := iff_of_true Nat.one_pos h0
      rw [if_pos (Or.inl h0), if_pos h0]
      exact iff_of_true
        ⟨(catchInto_code_body _ _ _).1, (catchInto_code_body _ _ _).2, hp, hp⟩ h4
    · by_cases h4 : r.code = Response404.code
      · -- the handler has run although the guard denied
        refine iff_of_false (fun hc => ?_) (not_not_intro h4)
        rw [if_pos (Or.inr h4)] at hc
        exact h0 (hc.2.2.1.mp Nat.one_pos)
      · rw [if_neg (not_or.mpr ⟨h0, h4⟩), if_neg h0]
        have hn : 0 < 0 ↔ (HandlerResult.ret r).passes := iff_of_false (lt_irrefl 0) h0
        exact iff_of_true ⟨rfl, rfl, hn, hn⟩ h4
  | responseException code body =>
    exact iff_of_true ⟨rfl, rfl, by simp [HandlerResult.passes], by simp [HandlerResult.passes]⟩
      not_false
  | stdException what =>
    exact iff_of_true ⟨rfl, rfl, by simp [HandlerResult.passes], by simp [HandlerResult.passes]⟩
      not_false
  | otherException =>
    exact iff_of_true ⟨rfl, rfl, by simp [HandlerResult.passes], by simp [HandlerResult.passes]⟩
      not_false

def answering (r : Response) : Handler Unit := fun _ w => (.ret r, w)

/-- a request to the endpoint of the examples -/
def secureRequest : RequestIncoming := .new (str "GET /secure HTTP/1.1\r\nHost: h\r\n\r\n")

theorem guards_agree_iff_403 :
    GuardsAgree Server.empty (answering Response403) (answering ResponseOk) secureRequest () ↔
      ¬ ((answering Response403) secureRequest ()).1.deniesAs404 :=
  guards_agree_iff Server.empty _ _ _ _ (AssocMap.find?_empty _)

/-- a guard that denies with 404 does not keep the request from the handler -/
theorem guard_404_bypassed :
    ¬ GuardsAgree Server.empty (answering Response404) (answering ResponseOk) secureRequest () ∧
      (answer (Server.empty.addEndpoint secureRequest.path .get (counted (answering ResponseOk))
        (some (lifted (answering Response404)))) secureRequest ()).1.code = 200 ∧
      (answer (Server.empty.addAppEndpoint secureRequest.path .get ⟨counted (answering ResponseOk),
        some (lifted (answering Response404))⟩) secureRequest ()).1.code = 404 := by
  refine ⟨fun hc => ?_, by decide +kernel, by decide +kernel⟩
  have hran : 0 < (answer (Server.empty.addEndpoint secureRequest.path secureRequest.method
      (counted (answering ResponseOk)) (some (lifted (answering Response404))))
      secureRequest ()).2 := by decide +kernel
  have hdenied : ¬ ((answering Response404) secureRequest ()).1.passes := by
    simp [answering, HandlerResult.passes, Response404, ResponseNone]
  exact hdenied (hc.2.2.1.mp hran)

end ServerHttpLib
