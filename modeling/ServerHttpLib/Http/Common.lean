import ServerHttpLib.Http.Utils
import ServerHttpLib.Lib.AssocMap

/-!
# Methods, parameters and responses (`http_common`)

`get_http_header` is declared `const` and appends to the header list of the object it is called
on; here it returns the changed response beside the text.
-/

namespace ServerHttpLib

inductive Method where
  | get | post | put | del | create | options
  deriving DecidableEq, Repr

def CONTENT_TYPE : Bytes := str "Content-Type"
def CONTENT_LENGTH : Bytes := str "Content-Length"

def isEqualLower (a bInLower : Bytes) : Bool := a.map asciiLower == bInLower

def strToMethod (s : Bytes) : Method :=
  if isEqualLower s (str "get") then .get
  else if isEqualLower s (str "post") then .post
  else if isEqualLower s (str "put") then .put
  else if isEqualLower s (str "delete") then .del
  else if isEqualLower s (str "create") then .create
  else if isEqualLower s (str "options") then .options
  else .get

def methodToStr : Method → Bytes
  | .get => str "GET"
  | .post => str "POST"
  | .put => str "PUT"
  | .del => str "DELETE"
  | .create => str "CREATE"
  | .options => str "OPTIONS"

theorem strToMethod_methodToStr (m : Method) : strToMethod (methodToStr m) = m := by
  cases m <;> decide

/-! ## parameters -/

/-- an unordered map of views together with the length counter `_len`, a `size_t` -/
structure Params where
  len : Nat
  params : AssocMap Bytes Bytes

namespace Params

def empty : Params := ⟨0, .empty⟩
def isEmpty (p : Params) : Bool := p.params.isEmpty
def has (p : Params) (name : Bytes) : Bool := p.params.contains name
def get (p : Params) (name : Bytes) : Bytes := (p.params.find? name).getD []
def set (p : Params) (name value : Bytes) : Params :=
  ⟨sizeT (p.len + (name.length + value.length + 1)), p.params.insertOrAssign name value⟩

/-- `to_url_encoded`, for an order in which the map yields its entries -/
def toUrlEncoded (p : Params) (o : AssocMap.Order Bytes Bytes) : Bytes :=
  [ch '&'].intercalate ((o.list p.params).map fun e => urlEncode e.1 ++ [ch '='] ++ urlEncode e.2)

theorem get_set (p : Params) (name name' value : Bytes) :
    (p.set name value).get name' = if name' = name then value else p.get name' := by
  unfold get set
  rw [AssocMap.find?_insertOrAssign]
  split <;> rfl

end Params

/-! ## responses -/

structure Response where
  code : Int
  body : Bytes
  headers : List (Bytes × Bytes)

def ResponseNone : Response := ⟨0, [], []⟩
def ResponseOk : Response := ⟨200, str "Ok", []⟩
def Response403 : Response := ⟨403, str "403 Forbidden", []⟩
def Response404 : Response := ⟨404, str "404 Not Found", []⟩

/-- drops a header spelled exactly `Content-Length` -/
def Response.addHeader (r : Response) (name value : Bytes) : Response :=
  if name = str "Content-Length" then r else { r with headers := r.headers ++ [(name, value)] }

/-- the value of the first header of that name -/
def Response.getHeader (r : Response) (name : Bytes) : Bytes := (r.headers.lookup name).getD []

def headerLine (h : Bytes × Bytes) : Bytes := h.1 ++ str ": " ++ h.2 ++ crlf

def Response.getHttpHeader (r : Response) (keepAlive : Bool) (keepAliveTimeout : Nat) :
    Bytes × Response :=
  let r' := { r with headers := r.headers ++ [(str "Content-Length", decimal r.body.length)] }
  let footer :=
    if keepAlive then
      str "Connection: keep-alive\r\nKeep-Alive: timeout=" ++ decimal keepAliveTimeout
        ++ str "\r\n\r\n"
    else str "Connection: close\r\n\r\n"
  (str "HTTP/1.1 " ++ decimalInt r.code ++ str " OK\r\n" ++ r'.headers.flatMap headerLine ++ footer,
    r')

end ServerHttpLib
