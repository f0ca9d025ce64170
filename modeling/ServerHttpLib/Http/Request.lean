import ServerHttpLib.Http.Common

/-!
# Requests: `RequestIncoming` and `RequestOutgoming`

The lazily parsed parts of a request (`_headers`, `_post_data_params`) are fields that the parsing
functions fill, as in the source.  `get_http_body` is `const` in the source and adds headers to the
object; here it returns the changed object too.
-/

namespace ServerHttpLib
open Cutting

/-! ## incoming requests -/

structure RequestIncoming where
  userIp : Bytes := []
  header : Bytes
  decodedParams : AssocMap Bytes Bytes := .empty
  decodedPostDataParams : AssocMap Bytes Bytes := .empty
  /-- `none` is the initial `-1` -/
  headersPos : Option Nat := none
  postDataParamsParsed : Bool := false
  /-- indeterminate until `parse_header` meets a line end -/
  method : Method := .get
  params : Params := .empty
  headers : Params := .empty
  postDataParams : Params := .empty
  cookieParams : Params := .empty
  postData : Bytes := []
  path : Bytes := []

/-- one `name=value` token of a query or a form; the value of a token without `=` is empty -/
def decodeToken (token : Bytes) : Bytes × Bytes :=
  match cut [ch '='] token with
  | none => (urlDecode token, [])
  | some (k, v) => (urlDecode k, urlDecode v)

/-- the token loop of `parse_header` and `parse_post_data_params`: empty tokens are skipped, a
repeated name is assigned again -/
def decodeTokens (s : Bytes) (m : AssocMap Bytes Bytes) : AssocMap Bytes Bytes :=
  ((s.splitOn (ch '&')).filter (· ≠ [])).foldl
    (fun m t => m.insertOrAssign (decodeToken t).1 (decodeToken t).2) m

/-- the loop that copies the decoded parameters to the view map; their names are distinct, so its
order does not matter -/
def copyParams (m : AssocMap Bytes Bytes) (p : Params) : Params :=
  m.entries.foldl (fun p e => p.set e.1 e.2) p

/-- method and target of the request line -/
def requestLine (line : Bytes) : Bytes × Bytes :=
  match cut [sp] line with
  | none => (line, [])
  | some (m, rest) =>
    match cut [sp] rest with
    | none => (m, [])
    | some (target, _) => (m, target)

namespace RequestIncoming

/-- the path and query part of `parse_header` -/
def setTarget (r : RequestIncoming) (target : Bytes) : RequestIncoming :=
  if target = [] then r
  else match cut [ch '?'] target with
    | none => { r with path := target }
    | some (path, query) =>
      let decoded := decodeTokens query r.decodedParams
      { r with path := path, decodedParams := decoded, params := copyParams decoded r.params }

def parseHeader (r : RequestIncoming) : RequestIncoming :=
  match cut [lf] r.header with
  | none => r
  | some (line, _) =>
    let ml := requestLine (dropCr line)
    let r := { r with method := strToMethod ml.1 }
    { r.setTarget ml.2 with headersPos := some line.length }

def new (header : Bytes) : RequestIncoming := parseHeader { header := header }

/-- one header line: split at the first colon, blanks around name and value removed -/
def setHeaderLine (p : Params) (line : Bytes) : Params :=
  match cut [ch ':'] line with
  | none => p
  | some (name, value) => p.set (svStrip name) (svStrip value)

/-- reads header lines up to the first empty one -/
def parseHeaders (r : RequestIncoming) : RequestIncoming :=
  match r.headersPos with
  | none => r
  | some nl =>
    if r.header.length ≤ nl then r
    else
      let lines := ((lfLines (r.header.drop (nl + 1))).map dropCr).takeWhile (· ≠ [])
      { r with headers := lines.foldl setHeaderLine r.headers }

def getHeaders (r : RequestIncoming) : Params :=
  if r.headers.isEmpty then r.parseHeaders.headers else r.headers

def setData (r : RequestIncoming) (value : Bytes) : RequestIncoming := { r with postData := value }
def setUserIp (r : RequestIncoming) (value : Bytes) : RequestIncoming := { r with userIp := value }

def parsePostDataParams (r : RequestIncoming) : RequestIncoming :=
  if r.postDataParamsParsed then r
  else
    let decoded := decodeTokens r.postData r.decodedPostDataParams
    { r with
      postDataParamsParsed := true
      decodedPostDataParams := decoded
      postDataParams := copyParams decoded r.postDataParams }

end RequestIncoming

/-! ## outgoing requests -/

structure RequestOutgoming where
  method : Method := .get
  path : Bytes := []
  postData : Bytes := []
  /-- the maps that own the strings -/
  ownParams : AssocMap Bytes Bytes := .empty
  ownHeaders : AssocMap Bytes Bytes := .empty
  ownPostParams : AssocMap Bytes Bytes := .empty
  /-- the maps of views inherited from `Request` -/
  params : Params := .empty
  headers : Params := .empty
  postDataParams : Params := .empty

namespace RequestOutgoming

def setMethod (r : RequestOutgoming) (m : Method) : RequestOutgoming := { r with method := m }
def setPath (r : RequestOutgoming) (v : Bytes) : RequestOutgoming := { r with path := v }
def setData (r : RequestOutgoming) (v : Bytes) : RequestOutgoming := { r with postData := v }

/-- `insert` keeps the value of a name that is there already; the view shows what is kept -/
def addHeader (r : RequestOutgoming) (name value : Bytes) : RequestOutgoming :=
  let own := r.ownHeaders.insert name value
  { r with ownHeaders := own, headers := r.headers.set name ((own.find? name).getD []) }

def setContentType (r : RequestOutgoming) (value : Bytes) : RequestOutgoming :=
  r.addHeader CONTENT_TYPE value

def setParams (r : RequestOutgoming) (name value : Bytes) : RequestOutgoming :=
  let own := r.ownParams.insert name value
  { r with ownParams := own, params := r.params.set name ((own.find? name).getD []) }

def setPostParams (r : RequestOutgoming) (name value : Bytes) : RequestOutgoming :=
  { r with
    ownPostParams := r.ownPostParams.insertOrAssign name value
    postDataParams := r.postDataParams.set name value }

/-- the body that is sent: the form parameters if there are any, else the data -/
def bodyToSend (r : RequestOutgoming) (o : AssocMap.Order Bytes Bytes) : Bytes :=
  if r.ownPostParams.isEmpty then r.postData else r.postDataParams.toUrlEncoded o

/-- the headers that `get_http_body` adds to the object when there is a body -/
def addBodyHeaders (r : RequestOutgoming) (postData : Bytes) : RequestOutgoming :=
  if postData = [] then r
  else
    let r :=
      if r.headers.has CONTENT_TYPE then r
      else r.addHeader CONTENT_TYPE
        (if r.ownPostParams.isEmpty then r.headers.get CONTENT_TYPE
         else str "application/x-www-form-urlencoded")
    if r.headers.has CONTENT_LENGTH then r
    else r.addHeader CONTENT_LENGTH (decimal postData.length)

def getHttpBody (r : RequestOutgoming) (o : AssocMap.Order Bytes Bytes) (host : Bytes) :
    Bytes × RequestOutgoming :=
  let postData := r.bodyToSend o
  let r := r.addBodyHeaders postData
  let headers := (o.list r.headers.params).flatMap headerLine
  let query := if r.params.isEmpty then [] else ch '?' :: r.params.toUrlEncoded o
  (methodToStr r.method ++ str " " ++ r.path ++ query ++ str " HTTP/1.1\r\nHost: " ++ host ++ crlf
    ++ headers ++ str "Connection: close\r\n\r\n" ++ postData, r)

end RequestOutgoming
end ServerHttpLib
