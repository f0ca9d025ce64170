import ServerHttpLib.Client.Model
import ServerHttpLib.Session.RoundTrip

/-!
# Sending a request (`http::request`, `send`)

The name resolution, the connection and what the peer sends back are the `Network`; everything
that throws on the way to the peer ends in the response with the code `-1`.
-/

namespace ServerHttpLib
open Cutting

structure Url where
  host : Bytes
  port : Int
  endpoint : Bytes
  /-- `https`, what holds for a host without a scheme -/
  https : Bool

/-- what an attempt to reach a peer leads to -/
structure Network where
  /-- `resolver.resolve` does not throw -/
  resolves : Bytes → Int → Bool
  /-- the segments that are read behind the request text sent to a host and a port, over TLS or not;
  `none` if connecting, the handshake or the write throws -/
  exchange : Bool → Bytes → Int → Bytes → Option (List Bytes)

/-- `use_tls` and the host without its scheme -/
def Url.transport (url : Url) : Bool × Bytes :=
  if str "https://" <+: url.host then (true, url.host.drop 8)
  else if str "http://" <+: url.host then (false, url.host.drop 7)
  else (url.https, url.host)

def notSent : Response := ⟨-1, [], []⟩

/-- `request(url, request)`: the response and the object that `get_http_body` may have changed -/
def request (fuel : Nat) (o : AssocMap.Order Bytes Bytes) (net : Network) (url : Url)
    (r : RequestOutgoming) : Option (Response × RequestOutgoming) :=
  let t := url.transport
  if net.resolves t.2 url.port then
    let req := (r.setPath url.endpoint).getHttpBody o t.2
    match net.exchange t.1 t.2 url.port req.1 with
    | none => some (notSent, req.2)
    | some segs => (readResponse fuel segs).map fun response => (response, req.2)
  else some (notSent, r)

def sendRequest (m : Method) (body : Bytes) (headers : List (Bytes × Bytes)) : RequestOutgoming :=
  ((headers.foldl (fun r h => r.addHeader h.1 h.2)
    ({} : RequestOutgoming)).setData body).setMethod m

def send (fuel : Nat) (o : AssocMap.Order Bytes Bytes) (net : Network) (m : Method) (host : Bytes)
    (port : Int) (path body : Bytes) (headers : List (Bytes × Bytes)) : Option Response :=
  (request fuel o net ⟨host, port, path, false⟩ (sendRequest m body headers)).map Prod.fst

def httpGet (fuel : Nat) (o : AssocMap.Order Bytes Bytes) (net : Network) (host : Bytes)
    (port : Int) (path body : Bytes) (headers : List (Bytes × Bytes)) : Option Response :=
  send fuel o net .get host port path body headers

end ServerHttpLib
