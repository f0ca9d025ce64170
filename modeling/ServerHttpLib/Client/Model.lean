import ServerHttpLib.Http.Common
import ServerHttpLib.Lib.Refill

/-!
# The client side: reading a response

What the peer sends arrives in segments, one for each `read_some` that succeeds; behind the last
one every read returns end-of-file.  A loop of the source that leaves only on what it reads takes
a bound on its iterations, and `none` means that the bound was reached.  Strings grow without
limit by the bytes that are read.  Where the source passes `append` or `reserve` a number of the
peer that no received bytes stand behind, the `length_error` above `max_size` is modelled;
`request` catches it and keeps the response as it is then.
-/

namespace ServerHttpLib
open Cutting Refill

/-! ## lines and counted reads -/

def tryGetLine (stash : Bytes) : Option (Bytes × Bytes) := cut crlf stash

/-- `while (!try_get_line(stash, line))` with `read_more`: the line, if there is one before
end-of-file, and the stash and the segments behind it -/
def fillLine (stash : Bytes) (segs : List Bytes) : Option Bytes × Bytes × List Bytes :=
  let r := refill (fun stash => (tryGetLine stash).isSome) stash segs
  match tryGetLine r.1 with
  | some (line, stash) => (some line, stash, r.2)
  | none => (none, r.1, r.2)

/-- `while (stash.size() < n)` with `read_more` -/
def fillTo (n : Nat) (stash : Bytes) (segs : List Bytes) : Bytes × List Bytes :=
  refill (fun stash => decide (n ≤ stash.length)) stash segs

/-! ## chunked bodies -/

/-- the digit loop of `parse_hex_size_line`, on `val` and `any`; `none` is `return false` -/
def hexScan : Nat × Bool → Bytes → Option (Nat × Bool)
  | acc, [] => some acc
  | acc, c :: line =>
    if c = ch ';' then some acc
    else match hexVal c with
      | some d => hexScan (sizeT (acc.1 * 16 + d), true) line
      | none => if isBlank c then hexScan acc line else none

def parseHexSizeLine (line : Bytes) : Option Nat :=
  match hexScan (0, false) (line.dropWhile isBlank) with
  | some (val, true) => some val
  | _ => none

/-- how `read_response_body_chunked` ends, with the body it leaves -/
inductive Outcome where
  | returned (body : Bytes)
  /-- `append` throws `length_error` -/
  | threw (body : Bytes)
  deriving DecidableEq, Repr

/-- the trailer loop; at end-of-file `line` keeps what was read last -/
def trailerLoop : Nat → Bytes → Bytes → List Bytes → Option Unit
  | 0, _, _, _ => none
  | fuel + 1, line, stash, segs =>
    let r := fillLine stash segs
    let line := r.1.getD line
    if line = [] then some () else trailerLoop fuel line r.2.1 r.2.2

/-- the loop of `read_response_body_chunked` over the chunks -/
def chunkedLoop : Nat → Bytes → Bytes → List Bytes → Option Outcome
  | 0, _, _, _ => none
  | fuel + 1, body, stash, segs =>
    match fillLine stash segs with
    | (none, _, _) => some (.returned body)
    | (some line, stash, segs) =>
      match parseHexSizeLine line with
      | none => some (.returned body)
      | some chunkSize =>
        if chunkSize = 0 then (trailerLoop fuel line stash segs).map fun _ => .returned body
        else
          let r := fillTo (sizeT (chunkSize + 2)) stash segs
          if r.1.length < sizeT (chunkSize + 2) then some (.returned body)
          -- the sum wrapped: `append` of a size above `max_size`
          else if 2 ^ 64 ≤ chunkSize + 2 then some (.threw body)
          else
            let body := body ++ r.1.take chunkSize
            -- end-of-file before the two bytes leaves the loop as other bytes do
            let r := fillTo 2 (r.1.drop chunkSize) r.2
            if r.1.take 2 = crlf then chunkedLoop fuel body (r.1.drop 2) r.2
            else some (.returned body)

def readResponseBodyChunked (fuel : Nat) (stash : Bytes) (segs : List Bytes) : Option Outcome :=
  chunkedLoop fuel [] stash segs

/-! ## the header -/

/-- `read_response_header`: the bytes read until they hold a CRLFCRLF, or until end-of-file.  The
source tests behind each read; the empty string it starts with holds no CRLFCRLF. -/
def readResponseHeader (segs : List Bytes) : Bytes × List Bytes :=
  refill (fun header => (cut crlf2 header).isSome) [] segs

/-- `ieq_prefix`, which compares up to the shorter of the two -/
def ieqPrefix (s lit : Bytes) : Bool :=
  (s.take lit.length).map asciiLower == (lit.take s.length).map asciiLower

/-- an `unsigned` assigned to an `int` -/
def toInt (n : Nat) : Int := if n < 2 ^ 31 then n else (n : Int) - 2 ^ 32

/-- the digits between the first two blanks of the status line -/
def statusCode (status : Bytes) : Nat :=
  match cut [sp] status with
  | none => 0
  | some (_, rest) =>
    match cut [sp] rest with
    | none => 0
    | some (code, _) =>
      ((code.takeWhile isDigit).map digitVal).foldl (fun c d => (c * 10 + d) % 2 ^ 32) 0

/-- what `parse_response_header` returns, with the response that it fills -/
structure ParsedHeader where
  response : Response
  contentLength : Nat := 0
  chunked : Bool := false
  leftover : Bytes := []

/-- the field of a line with a colon -/
def ParsedHeader.addField (p : ParsedHeader) (line : Bytes) : ParsedHeader :=
  match cut [ch ':'] line with
  | none => p
  | some (name, value) =>
    { p with response := p.response.addHeader name (value.dropWhile isBlank) }

/-- `Content-Length:`; a value that was read and is not `0` stays -/
def ParsedHeader.addLength (p : ParsedHeader) (line : Bytes) : ParsedHeader :=
  if p.contentLength = 0 ∧ 15 ≤ line.length ∧ ieqPrefix line (str "content-length:") = true then
    { p with contentLength := lengthValue (line.drop 15) }
  else p

/-- `Transfer-Encoding:` with `chunked` anywhere in the value -/
def ParsedHeader.addEncoding (p : ParsedHeader) (line : Bytes) : ParsedHeader :=
  if 18 ≤ line.length ∧ ieqPrefix line (str "transfer-encoding:") = true
      ∧ str "chunked" <:+: (line.drop 18).map asciiLower then
    { p with chunked := true }
  else p

/-- the line loop: `rest` begins at `line_start`, and `limit` bytes of it belong to the header -/
def headerLoop (limit : Nat) (rest : Bytes) (p : ParsedHeader) : ParsedHeader :=
  if limit = 0 then p
  else match _h : cut crlf rest with
    | none => p
    | some (line, rest') =>
      if limit < line.length ∨ line = [] then p
      else headerLoop (limit - (line.length + 2)) rest'
        (((p.addField line).addLength line).addEncoding line)
termination_by rest.length
decreasing_by
  have h := cut_length _h
  simp only [crlf, List.length_cons, List.length_nil] at h
  omega

/-- the part of the received bytes that belongs to the header, and what follows it -/
def splitHeader (raw : Bytes) : Bytes × Bytes :=
  match cut crlf2 raw with
  | none => (raw, [])
  | some (head, rest) => (head ++ crlf2, rest)

def parseResponseHeader (response : Response) (raw : Bytes) : ParsedHeader :=
  let headersLen := (splitHeader raw).1.length
  let leftover := (splitHeader raw).2
  match cut crlf raw with
  | none =>
    { response := { response with code := toInt (statusCode raw) }, leftover := leftover }
  | some (status, rest) =>
    headerLoop (headersLen - (status.length + 2)) rest
      { response := { response with code := toInt (statusCode status) }, leftover := leftover }

/-! ## the body -/

def readCounted (n : Nat) : Bytes → List Bytes → Bytes
  | body, [] => body
  | body, seg :: segs =>
    if body.length < n then readCounted n (body ++ seg.take (n - body.length)) segs else body

def readResponseBody (fuel contentLength : Nat) (chunked : Bool) (leftover : Bytes)
    (segs : List Bytes) : Option Outcome :=
  if chunked then readResponseBodyChunked fuel leftover segs
  else if 0 < contentLength then
    if maxSize < contentLength then some (.threw [])
    else some (.returned (readCounted contentLength (leftover.take contentLength) segs))
  else some (.returned (leftover ++ segs.flatten))

/-- the body that a response keeps, also when an exception was caught -/
def Outcome.body : Outcome → Bytes
  | returned body => body
  | threw body => body

/-- the part of `request` that reads: header, parse, body -/
def readResponse (fuel : Nat) (segs : List Bytes) : Option Response :=
  let r := readResponseHeader segs
  let ph := parseResponseHeader ⟨-1, [], []⟩ r.1
  (readResponseBody fuel ph.contentLength ph.chunked ph.leftover r.2).map fun o =>
    { ph.response with body := o.body }

end ServerHttpLib
