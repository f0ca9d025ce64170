import ServerHttpLib.Exchange.Clients

/-!
# Which handler answers a request

A server is built by any sequence of registrations.  `emplace` keeps the first endpoint for a path
and a method, the assignment to `_handlers` the last handler for a method:

* `endpoints_registered`, `handlers_registered`   what the tables hold behind the registrations;
* `respond_registered`                            so the response is that of the route;
* `clients_routed`                                and it is what a client of `http::request` gets.
-/

namespace ServerHttpLib

variable {σ : Type}

/-- a call that registers a handler with the server or with the application -/
inductive Registration (σ : Type) where
  | addEndpoint (path : Bytes) (method : Method) (handler : Handler σ)
      (sequire : Option (Handler σ))
  | addAppEndpoint (path : Bytes) (method : Method) (handler : RequestHandler σ)
  | addHandler (method : Method) (handler : Handler σ)

def Server.register (srv : Server σ) : Registration σ → Server σ
  | .addEndpoint path method handler sequire => srv.addEndpoint path method handler sequire
  | .addAppEndpoint path method h => srv.addAppEndpoint path method h
  | .addHandler method handler => srv.addHandler method handler

def registered (regs : List (Registration σ)) : Server σ := regs.foldl Server.register .empty

/-- the endpoint that a registration asks for; the application registers its guard inside of the
handler -/
def Registration.endpointEntry : Registration σ →
    Option (EndpointKey × (Handler σ × Option (Handler σ)))
  | .addEndpoint path method handler sequire => some (⟨path, method⟩, handler, sequire)
  | .addAppEndpoint path method h => some (⟨path, method⟩, h.guarded, none)
  | .addHandler _ _ => none

def Registration.handlerEntry : Registration σ → Option (Method × Handler σ)
  | .addHandler method handler => some (method, handler)
  | _ => none

def endpointsOf (regs : List (Registration σ)) :
    List (EndpointKey × (Handler σ × Option (Handler σ))) :=
  regs.filterMap Registration.endpointEntry

def handlersOf (regs : List (Registration σ)) : List (Method × Handler σ) :=
  regs.filterMap Registration.handlerEntry

/-- the first endpoint for a path and a method, else the last handler for the method, else 404 -/
def route (regs : List (Registration σ)) (key : EndpointKey) (request : RequestIncoming) (w : σ) :
    Response × σ :=
  match AssocMap.firstOf (endpointsOf regs) key, AssocMap.lastOf (handlersOf regs) key.method with
  | some endpoint, _ => respondEndpoint endpoint request w
  | none, some handler => (catchInto Response404 (handler request w).1, (handler request w).2)
  | none, none => (Response404, w)

/-! ## the tables -/

theorem registered_snoc (regs : List (Registration σ)) (reg : Registration σ) :
    registered (regs ++ [reg]) = (registered regs).register reg := by
  unfold registered
  rw [List.foldl_append]
  rfl

theorem endpoints_registered (regs : List (Registration σ)) (key : EndpointKey) :
    (registered regs).endpoints.find? key = AssocMap.firstOf (endpointsOf regs) key := by
  induction regs using List.reverseRecOn generalizing key with
  | nil => rfl
  | append_singleton regs reg ih =>
    have hlist : endpointsOf (regs ++ [reg]) = endpointsOf regs ++ reg.endpointEntry.toList :=
      filterMap_snoc _ _ _
    rw [registered_snoc, hlist]
    cases reg with
    | addEndpoint path method handler sequire => exact AssocMap.find?_insert_firstOf ih _ _ key
    | addAppEndpoint path method h => exact AssocMap.find?_insert_firstOf ih _ _ key
    | addHandler method handler =>
      show (registered regs).endpoints.find? key = AssocMap.firstOf (endpointsOf regs ++ []) key
      rw [List.append_nil, ih]

theorem handlers_registered (regs : List (Registration σ)) (method : Method) :
    (registered regs).handlers.find? method = AssocMap.lastOf (handlersOf regs) method := by
  induction regs using List.reverseRecOn generalizing method with
  | nil => rfl
  | append_singleton regs reg ih =>
    have hlist : handlersOf (regs ++ [reg]) = handlersOf regs ++ reg.handlerEntry.toList :=
      filterMap_snoc _ _ _
    rw [registered_snoc, hlist]
    cases reg with
    | addEndpoint path m handler sequire =>
      show (registered regs).handlers.find? method = AssocMap.lastOf (handlersOf regs ++ []) method
      rw [List.append_nil, ih]
    | addAppEndpoint path m h =>
      show (registered regs).handlers.find? method = AssocMap.lastOf (handlersOf regs ++ []) method
      rw [List.append_nil, ih]
    | addHandler m handler =>
      show ((registered regs).handlers.insertOrAssign m handler).find? method
        = AssocMap.lastOf (handlersOf regs ++ [(m, handler)]) method
      rw [AssocMap.find?_insertOrAssign, AssocMap.lastOf_snoc, ih]

/-- **The response is that of the route**, in any order of the registrations. -/
theorem respond_registered (regs : List (Registration σ)) (request : RequestIncoming) (w : σ) :
    respond (registered regs) request w = route regs (endpointKey request) request w := by
  have hm : request.method = (endpointKey request).method := rfl
  unfold respond route
  rw [endpoints_registered, handlers_registered, hm]
  cases AssocMap.firstOf (endpointsOf regs) (endpointKey request) with
  | some endpoint => rfl
  | none =>
    cases AssocMap.lastOf (handlersOf regs) (endpointKey request).method with
    | some handler => rfl
    | none => rfl

namespace Exchange
open RequestOutgoming

def Request.key (q : Request) : EndpointKey :=
  ⟨(splitEndpoint q.url.endpoint).1, methodOf q.calls⟩

theorem Arrives.endpointKey {q : Request} {got : RequestIncoming} (h : Arrives q got) :
    endpointKey got = q.key := by
  unfold ServerHttpLib.endpointKey Request.key
  rw [h.path, h.method]

/-- the route of the request answers it with plain responses -/
def RoutedPlainly (regs : List (Registration σ)) (q : Request) : Prop :=
  ∀ got w, Arrives q got → PlainReply (route regs q.key got w).1

theorem replyOf_registered (regs : List (Registration σ)) {q : Request} {r : Bytes × Bytes}
    (harr : Arrives q (requestOf q.clientIP r)) (w : σ) :
    replyOf (registered regs) q.clientIP w r
      = (route regs q.key (requestOf q.clientIP r) w).1 := by
  unfold replyOf
  rw [respond_registered, harr.endpointKey]

theorem RoutedPlainly.answers {regs : List (Registration σ)} {q : Request}
    (h : RoutedPlainly regs q) : AnswersPlainly (registered regs) q := by
  intro r w harr
  rw [replyOf_registered regs harr]
  exact h _ w harr

def saying (body : Bytes) : Handler Nat := fun _ n => (.ret ⟨200, body, []⟩, n)

/-- an endpoint that is registered twice, behind a handler for its method -/
def pingTwice : List (Registration Nat) :=
  [.addHandler .get counting, .addEndpoint (str "/ping") .get (saying (str "one")) none,
    .addEndpoint (str "/ping") .get (saying (str "two")) none]

end Exchange
end ServerHttpLib
