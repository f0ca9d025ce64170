import ServerHttpLib.Server.Routing
import ServerHttpLib.Lib.Runs

/-!
# The server session (`SslSession`)

One connection: the fields of the session, the asynchronous operations it has started and not yet
seen complete, and a trace of what it did.  An event is the completion of an outstanding
operation; `step` runs the completion handler.  Memory is unbounded except where the library
checks a length: `std::string` and `std::vector` throw `length_error` above `maxSize`.  An
exception that leaves a completion handler ends the session (`fault`).
-/

namespace ServerHttpLib

/-- what can go wrong in a completion handler -/
inductive Fault where
  /-- `std::length_error` of a string constructor or of `assign` -/
  | lengthError
  /-- a copy that reads past the buffer -/
  | outOfRange
  /-- `std::length_error` of `vector::resize` -/
  | resizeError
  deriving DecidableEq, Repr

structure SslSession where
  buf : Bytes
  used : Nat
  httpHeader : Bytes
  httpBody : Bytes
  clientIP : Bytes
  keepAlive : Bool
  keepAliveTimeout : Nat
  haveHeaders : Bool
  headersLen : Nat
  contentLength : Nat
  expectContinue : Bool

/-- an outstanding asynchronous operation; a read remembers the part of the buffer it was given -/
inductive Op where
  | read (off size : Nat)
  | response
  | interim
  deriving DecidableEq, Repr

inductive Action where
  /-- `async_read_some` into the bytes from `off` up to `size` of the buffer -/
  | read (off size : Nat)
  /-- `try_parse_and_handle` got past its length test -/
  | extract (headersLen contentLength used size : Nat)
  /-- `process_request` is entered -/
  | dispatch (header body : Bytes)
  | writeInterim
  | writeResponse (header body : Bytes)
  | cancelTimer
  | armTimer
  | shutdown
  deriving DecidableEq, Repr

structure Conn (σ : Type) where
  s : SslSession
  /-- the state of the application behind the handlers -/
  world : σ
  outstanding : List Op
  trace : List Action
  fault : Option Fault

inductive Event where
  | readOk (data : Bytes)
  | readErr
  | responseDone (ok : Bool)
  | interimDone (ok : Bool)
  deriving DecidableEq, Repr

/-! ## the header scan -/

/-- the loop of `find_header_end`, with `i` bytes before the list -/
def findCrlf2 (i : Nat) : Bytes → Option Nat
  | a :: b :: c :: d :: rest =>
    if a = cr ∧ b = lf ∧ c = cr ∧ d = lf then some (i + 3)
    else findCrlf2 (i + 1) (b :: c :: d :: rest)
  | _ => none

def SslSession.findHeaderEnd (s : SslSession) : Option Nat :=
  if s.used < 4 then none else findCrlf2 0 (s.buf.take s.used)

def expectsContinue (v : Bytes) : Bool := ciStartsWith (v.dropWhile isBlank) (str "100-continue")

/-- one line of the header scan, on `(_content_length, _expect_continue)` -/
def scanLine (acc : Nat × Bool) (line : Bytes) : Nat × Bool :=
  let l := dropCr line
  if l = [] then acc
  else if ciStartsWith l (str "Content-Length:") then
    (lengthValue (l.drop (str "Content-Length:").length), acc.2)
  else if ciStartsWith l (str "Expect:") then
    (acc.1, acc.2 || expectsContinue (l.drop (str "Expect:").length))
  else acc

/-- the lines behind the request line -/
def scanLines (lines : List Bytes) : Nat × Bool := lines.foldl scanLine (0, false)

/-- the block `if (!_have_headers)`; `false` where it returns -/
def SslSession.parseHead (s : SslSession) : Bool × SslSession :=
  match s.findHeaderEnd with
  | none => (false, s)
  | some e =>
    let s := { s with headersLen := e + 1, contentLength := 0, expectContinue := false }
    match lfLines (s.buf.take s.headersLen) with
    | [] => (false, s)
    | _ :: lines =>
      let acc := scanLines lines
      (true, { s with contentLength := acc.1, expectContinue := acc.2, haveHeaders := true })

/-! ## taking a request out of the buffer -/

/-- `std::string(buf + off, n)` and `assign(buf + off, n)` -/
def copyFrom (buf : Bytes) (off n : Nat) : Except Fault Bytes :=
  if maxSize < n then .error .lengthError
  else if buf.length < off + n then .error .outOfRange
  else .ok ((buf.drop off).take n)

def SslSession.copyOut (s : SslSession) : Except Fault (Bytes × Bytes) := do
  let header ← copyFrom s.buf 0 s.headersLen
  let body ← if s.contentLength ≠ 0 then copyFrom s.buf s.headersLen s.contentLength else .ok []
  return (header, body)

/-- moves the bytes behind the request to the front and forgets the parse; the length test before
it makes the subtraction exact -/
def SslSession.shift (s : SslSession) : SslSession :=
  let consumed := sizeT (s.headersLen + s.contentLength)
  let left := s.used - consumed
  { s with
    buf := if 0 < left then (s.buf.drop consumed).take left ++ s.buf.drop left else s.buf
    used := left
    haveHeaders := false
    headersLen := 0
    contentLength := 0
    expectContinue := false }

def SslSession.pending (s : SslSession) : Bytes := s.buf.take s.used

/-- the bytes `data` were written at `off` and are counted -/
def SslSession.receive (s : SslSession) (off : Nat) (data : Bytes) : SslSession :=
  { s with
    buf := s.buf.take off ++ data ++ s.buf.drop (off + data.length)
    used := s.used + data.length }

/-- `_connection != "close" || connection == "keep-alive"` -/
def keepsAlive (request : RequestIncoming) : Bool :=
  let connection := request.getHeaders.get (str "Connection")
  connection ≠ str "close" || connection = str "keep-alive"

def SslSession.ensureCapacity (s : SslSession) : Except Fault SslSession :=
  let buf := if s.buf.isEmpty then List.replicate 8192 0 else s.buf
  if s.used = buf.length then
    if maxSize < buf.length * 2 then .error .resizeError
    else .ok { s with buf := buf ++ List.replicate buf.length 0 }
  else .ok { s with buf := buf }

/-! ## the completion handlers -/

namespace Conn
variable {σ : Type}

def emit (c : Conn σ) (a : Action) : Conn σ := { c with trace := c.trace ++ [a] }
def start (c : Conn σ) (op : Op) (a : Action) : Conn σ :=
  { c with outstanding := op :: c.outstanding, trace := c.trace ++ [a] }
def throw (c : Conn σ) (f : Fault) : Conn σ := { c with fault := some f }

def doRead (c : Conn σ) : Conn σ :=
  match c.s.ensureCapacity with
  | .error f => c.throw f
  | .ok s => { c with s := s }.start (.read s.used s.buf.length) (.read s.used s.buf.length)

/-- the request that `process_request` builds -/
def request (s : SslSession) (header body : Bytes) : RequestIncoming :=
  ((RequestIncoming.new header).setUserIp s.clientIP).setData body

def processRequest (srv : Server σ) (header body : Bytes) (c : Conn σ) : Conn σ :=
  let request := request c.s header body
  let r := respond srv request c.world
  let keepAlive := keepsAlive request
  let httpHeader := (r.1.getHttpHeader keepAlive c.s.keepAliveTimeout).1
  let s := { c.s with keepAlive := keepAlive, httpHeader := httpHeader, httpBody := r.1.body }
  -- do_write
  ({ c with s := s, world := r.2 }.emit (.dispatch header body)).start .response
    (.writeResponse httpHeader r.1.body)

/-- `try_parse_and_handle` from its length test on; an exception ends the callback like a handled
request, nothing is started behind it -/
def extractAndHandle (srv : Server σ) (c : Conn σ) : Bool × Conn σ :=
  if c.s.used < sizeT (c.s.headersLen + c.s.contentLength) then (false, c)
  else
    let c := c.emit (.extract c.s.headersLen c.s.contentLength c.s.used c.s.buf.length)
    match c.s.copyOut with
    | .error f => (true, c.throw f)
    | .ok (header, body) => (true, processRequest srv header body { c with s := c.s.shift })

def tryParseAndHandle (srv : Server σ) (c : Conn σ) : Bool × Conn σ :=
  if c.s.haveHeaders then extractAndHandle srv c
  else
    match c.s.parseHead with
    | (false, s) => (false, { c with s := s })
    | (true, s) =>
      if s.expectContinue then (true, { c with s := s }.start .interim .writeInterim)
      else extractAndHandle srv { c with s := s }

/-- the read handler: `data` arrived at `off` -/
def onRead (srv : Server σ) (c : Conn σ) (off : Nat) (data : Bytes) : Conn σ :=
  let c := c.emit .cancelTimer
  match tryParseAndHandle srv { c with s := c.s.receive off data } with
  | (true, c) => c
  | (false, c) => doRead c

/-- the handler of the response write; it does not look at the error code -/
def onResponseDone (c : Conn σ) : Conn σ :=
  if c.s.keepAlive then doRead ((c.emit .cancelTimer).emit .armTimer) else c.emit .shutdown

/-- the handler of the interim write -/
def onInterimDone (srv : Server σ) (c : Conn σ) (ok : Bool) : Conn σ :=
  if !ok then c
  else if sizeT (c.s.headersLen + c.s.contentLength) ≤ c.s.used then (tryParseAndHandle srv c).2
  else doRead c

def complete (c : Conn σ) (op : Op) : Conn σ := { c with outstanding := c.outstanding.erase op }

def pendingRead (c : Conn σ) : Option (Nat × Nat) :=
  c.outstanding.findSome? fun
    | .read off size => some (off, size)
    | _ => none

/-- the effect of an event; `none` if it cannot happen -/
def step (srv : Server σ) (c : Conn σ) (e : Event) : Option (Conn σ) :=
  if c.fault.isSome then none
  else match e with
    | .readOk data =>
      match c.pendingRead with
      | none => none
      | some (off, size) =>
        if off + data.length ≤ size then
          some (onRead srv (c.complete (.read off size)) off data)
        else none
    | .readErr => c.pendingRead.map fun p => c.complete (.read p.1 p.2)
    | .responseDone _ =>
      if Op.response ∈ c.outstanding then some (onResponseDone (c.complete .response)) else none
    | .interimDone ok =>
      if Op.interim ∈ c.outstanding then some (onInterimDone srv (c.complete .interim) ok)
      else none

def accept (clientIP : Bytes) (w : σ) : Conn σ where
  s :=
    { buf := List.replicate 8192 0, used := 0, httpHeader := [], httpBody := [],
      clientIP := clientIP, keepAlive := false, keepAliveTimeout := 10, haveHeaders := false,
      headersLen := 0, contentLength := 0, expectContinue := false }
  world := w
  outstanding := []
  trace := []
  fault := none

/-- the state behind `start()` and the events of a run -/
def run (srv : Server σ) (clientIP : Bytes) (w : σ) (evs : List Event) : Option (Conn σ) :=
  Runs.runs (step srv) (doRead (accept clientIP w)) evs

def dispatched (c : Conn σ) : List (Bytes × Bytes) :=
  c.trace.filterMap fun
    | .dispatch header body => some (header, body)
    | _ => none

end Conn

def reads (evs : List Event) : List Bytes :=
  evs.filterMap fun
    | .readOk data => some data
    | _ => none

def received (evs : List Event) : Bytes := (reads evs).flatten

end ServerHttpLib
