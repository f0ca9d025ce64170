import ServerHttpLib.Http.Request

/-!
# Endpoints, guards and the response to one request

A handler is a callback: it sees the request, may change the state `σ` of the application and
returns a response or throws.  `respond` is the part of `SslSession::process_request` that chooses
and calls the callbacks; the two `addEndpoint` are the two ways to register an endpoint with a
guard.
-/

namespace ServerHttpLib

/-- how a callback ends -/
inductive HandlerResult where
  | ret (r : Response)
  | responseException (code : Int) (body : Bytes)
  | stdException (what : Bytes)
  | otherException

abbrev Handler (σ : Type) := RequestIncoming → σ → HandlerResult × σ

structure EndpointKey where
  path : Bytes
  method : Method
  deriving DecidableEq

structure Server (σ : Type) where
  /-- an endpoint: its handler and its guard (`sequire`) -/
  endpoints : AssocMap EndpointKey (Handler σ × Option (Handler σ))
  handlers : AssocMap Method (Handler σ)

namespace Server
variable {σ : Type}

def empty : Server σ := ⟨.empty, .empty⟩

def addEndpoint (srv : Server σ) (path : Bytes) (method : Method) (handler : Handler σ)
    (sequire : Option (Handler σ)) : Server σ :=
  { srv with endpoints := srv.endpoints.insert ⟨path, method⟩ (handler, sequire) }

def addHandler (srv : Server σ) (method : Method) (handler : Handler σ) : Server σ :=
  { srv with handlers := srv.handlers.insertOrAssign method handler }

end Server

/-- a `RequestHandler`: its `handle` and what `set_sequire` stored -/
structure RequestHandler (σ : Type) where
  handle : Handler σ
  sequireHandler : Option (Handler σ)

section
variable {σ : Type}

/-- the lambda that `ServerApp::add_endpoint` registers -/
def RequestHandler.guarded (h : RequestHandler σ) : Handler σ := fun request w =>
  match h.sequireHandler with
  | none => h.handle request w
  | some sequire =>
    match sequire request w with
    | (.ret response, w') => if response.code ≠ 0 then (.ret response, w') else h.handle request w'
    | (e, w') => (e, w')

def Server.addAppEndpoint (srv : Server σ) (path : Bytes) (method : Method)
    (h : RequestHandler σ) : Server σ :=
  srv.addEndpoint path method h.guarded none

def nonStdException : Bytes :=
  str "non std Exception on SslSession::process_request, _endpoints"

/-- the end of a `try` block of `process_request`: a returned response is kept, the catch clauses
overwrite code and body of the response as it was before -/
def catchInto (response : Response) : HandlerResult → Response
  | .ret r => r
  | .responseException code body => { response with code := code, body := body }
  | .stdException what => { response with code := 500, body := what }
  | .otherException => { response with code := 500, body := nonStdException }

/-- the handler call of the endpoint branch, behind the guard -/
def runEndpoint (handler : Handler σ) (request : RequestIncoming) (response : Response) (w : σ) :
    Response × σ :=
  if response.code = ResponseNone.code ∨ response.code = Response404.code then
    let r := handler request w
    (catchInto response r.1, r.2)
  else (response, w)

/-- guard and handler of an endpoint; `Response404` is the value before the guard ran -/
def respondEndpoint (endpoint : Handler σ × Option (Handler σ)) (request : RequestIncoming)
    (w : σ) : Response × σ :=
  match endpoint.2 with
  | none => runEndpoint endpoint.1 request Response404 w
  | some sequire =>
    match sequire request w with
    | (.ret response, w') => runEndpoint endpoint.1 request response w'
    | (e, w') => (catchInto Response404 e, w')

def endpointKey (request : RequestIncoming) : EndpointKey := ⟨request.path, request.method⟩

/-- the response of `process_request` to a request -/
def respond (srv : Server σ) (request : RequestIncoming) (w : σ) : Response × σ :=
  match srv.endpoints.find? (endpointKey request) with
  | some endpoint => respondEndpoint endpoint request w
  | none =>
    match srv.handlers.find? request.method with
    | some handler =>
      let r := handler request w
      (catchInto Response404 r.1, r.2)
    | none => (Response404, w)

end
end ServerHttpLib
