import ServerHttpLib.Exchange.Serving
import ServerHttpLib.Client.Request
import ServerHttpLib.Client.Demand

/-!
# One exchange between client and server

The client half of `http::request`, from the write of the request text on, and a session of the
server, with the bytes that are under way in both directions.  Either side may hand over, and be
given, any part of what there is; the connection may be lost at any moment, with any part of the
bytes that are under way.  A client that waits for a read that failed goes on as at the end of the
file; a write that fails throws, and the response is the one with the code `-1`.
-/

namespace ServerHttpLib

structure Exchange (σ : Type) where
  /-- the part of the request that `asio::write` has not handed over -/
  toSend : Bytes
  up : Bytes
  conn : Conn σ
  /-- the part of the outstanding write of the session that is not handed over -/
  toWrite : Bytes
  down : Bytes
  /-- nothing is added to `down` any more -/
  closed : Bool
  lost : Bool
  /-- what the calls of `read_some` returned -/
  segs : List Bytes
  result : Option Response

namespace Exchange

inductive Event where
  /-- the client hands over `n` bytes of the request -/
  | send (n : Nat)
  /-- the outstanding read of the session completes with `n` bytes -/
  | deliver (n : Nat)
  /-- the session hands over `n` bytes of its outstanding write -/
  | write (n : Nat)
  /-- the outstanding write of the session completes -/
  | written
  /-- `read_some` of the client returns `n` bytes -/
  | receive (n : Nat)
  /-- the client returns -/
  | finish
  /-- the connection is lost; `n` and `k` bytes of those under way still arrive -/
  | lose (n k : Nat)
  /-- the outstanding operation of the session completes with an error -/
  | serverError
  /-- the write of the client throws -/
  | sendError
  deriving DecidableEq, Repr

variable {σ : Type}

/-- the session has run a handler; without an outstanding operation it is destroyed, and its socket
is closed -/
def handled (x : Exchange σ) (up : Bytes) (c : Conn σ) : Exchange σ :=
  { x with
    up := up
    conn := c
    toWrite := c.writeText
    closed := x.closed || c.outstanding.isEmpty }

/-- the completion of the outstanding write; `none` if there is none -/
def completeWrite (c : Conn σ) (ok : Bool) : Option ServerHttpLib.Event :=
  if .response ∈ c.outstanding then some (.responseDone ok)
  else if .interim ∈ c.outstanding then some (.interimDone ok)
  else none

def isReading (x : Exchange σ) : Bool := x.toSend = [] ∧ x.result.isNone

/-- `fuel` bounds the iterations of the client -/
def step (fuel : Nat) (srv : Server σ) (x : Exchange σ) : Event → Option (Exchange σ)
  | .send n =>
    if x.lost = false ∧ 0 < n ∧ n ≤ x.toSend.length then
      some { x with toSend := x.toSend.drop n, up := x.up ++ x.toSend.take n }
    else none
  | .deliver n =>
    if 0 < n ∧ n ≤ x.up.length then
      (Conn.step srv x.conn (.readOk (x.up.take n))).map (x.handled (x.up.drop n))
    else none
  | .write n =>
    if x.lost = false ∧ 0 < n ∧ n ≤ x.toWrite.length then
      some { x with toWrite := x.toWrite.drop n, down := x.down ++ x.toWrite.take n }
    else none
  | .written =>
    if x.lost = false ∧ x.toWrite = [] then
      ((completeWrite x.conn true).bind (Conn.step srv x.conn)).map (x.handled x.up)
    else none
  | .receive n =>
    if x.isReading ∧ wantsMore x.segs.flatten ∧ 0 < n ∧ n ≤ x.down.length then
      some { x with segs := x.segs ++ [x.down.take n], down := x.down.drop n }
    else none
  | .finish =>
    if x.isReading ∧ (wantsMore x.segs.flatten = false ∨ x.down = [] ∧ x.closed) then
      (readResponse fuel x.segs).map fun response => { x with result := some response }
    else none
  | .lose n k =>
    if x.lost = false then
      some { x with lost := true, closed := true, up := x.up.take n, down := x.down.take k }
    else none
  | .serverError =>
    if x.lost then
      (((completeWrite x.conn false).getD .readErr : ServerHttpLib.Event) |>
        Conn.step srv x.conn).map (x.handled x.up)
    else none
  | .sendError =>
    if x.lost ∧ x.toSend ≠ [] ∧ x.result.isNone then some { x with result := some notSent }
    else none

def start (ip : Bytes) (w : σ) (text : Bytes) : Exchange σ where
  toSend := text
  up := []
  conn := Conn.doRead (Conn.accept ip w)
  toWrite := []
  down := []
  closed := false
  lost := false
  segs := []
  result := none

def run (fuel : Nat) (srv : Server σ) (ip : Bytes) (w : σ) (text : Bytes) (es : List Event) :
    Option (Exchange σ) :=
  Runs.runs (step fuel srv) (start ip w text) es

end Exchange
end ServerHttpLib
