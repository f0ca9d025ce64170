import ServerHttpLib.Client.ResponseRoundTrip

/-!
# Interim responses

A server may send header blocks with a status 1xx before the response to a request, as `SslSession`
does for a request with `Expect: 100-continue`.  The client reads one header block: it returns the
response if no interim block stands before it, and else the first interim block, with all the
bytes behind it for its body.

* `InterimBlock.parsed`, `FinalResponse.parsed`   what the parser makes of the two kinds of blocks;
* `InterimBlock.read`, `FinalResponse.read`       and what the client returns for them;
* `reads_first_block`                             the client takes the first block it receives.
-/

namespace ServerHttpLib
open Cutting

/-! ## blocks -/

structure StatusLine where
  version : Bytes
  code : Nat
  reason : Bytes
  version_sp : sp ∉ version
  version_cr : cr ∉ version
  reason_cr : cr ∉ reason
  code_lt : code < 2 ^ 31

def StatusLine.text (l : StatusLine) : Bytes :=
  l.version ++ sp :: decimal l.code ++ sp :: l.reason

/-- a header block of an interim response, which has no body -/
structure InterimBlock where
  line : StatusLine
  interim : 100 ≤ line.code ∧ line.code < 200
  fields : List (Bytes × Bytes)
  plain : ∀ f ∈ fields, ReplyHeader f

def InterimBlock.text (b : InterimBlock) : Bytes := headText b.line.text b.fields

/-- a response with a `Content-Length`, spelled in any case, and its body -/
structure FinalResponse where
  line : StatusLine
  final : ¬ (100 ≤ line.code ∧ line.code < 200)
  before : List (Bytes × Bytes)
  lengthName : Bytes
  after : List (Bytes × Bytes)
  body : Bytes
  plain : ∀ f ∈ before ++ after, ReplyHeader f
  isLength : isLengthName lengthName
  fits : body.length ≤ maxSize

namespace FinalResponse

def fields (f : FinalResponse) : List (Bytes × Bytes) :=
  f.before ++ (f.lengthName, decimal f.body.length) :: f.after

def text (f : FinalResponse) : Bytes := headText f.line.text f.fields ++ f.body

/-- the client drops a header that is spelled exactly `Content-Length` -/
def headers (f : FinalResponse) : List (Bytes × Bytes) :=
  f.fields.filter fun h => h.1 ≠ str "Content-Length"

def response (f : FinalResponse) : Response := ⟨f.line.code, f.body, f.headers⟩

end FinalResponse

/-! ## what the client makes of them -/

theorem StatusLine.cr_text (l : StatusLine) : cr ∉ l.text := by
  simp only [StatusLine.text, List.mem_append, List.mem_cons, not_or]
  exact ⟨⟨l.version_cr, by decide, not_mem_decimal (by decide)⟩, by decide, l.reason_cr⟩

theorem StatusLine.statusCode_text (l : StatusLine) : toInt (statusCode l.text) = l.code := by
  have h1 : cut [sp] l.text = some (l.version, decimal l.code ++ sp :: l.reason) := by
    unfold StatusLine.text
    rw [List.append_assoc, List.cons_append]
    exact cut_of_mem_free l.version_sp _
  have h2 : cut [sp] (decimal l.code ++ sp :: l.reason) = some (decimal l.code, l.reason) :=
    cut_of_mem_free (not_mem_decimal (by decide)) _
  have hvalue := Numeral.value_foldl_mod 10 (2 ^ 32) ((decimal l.code).map digitVal)
  have hlt := l.code_lt
  rw [value_decimal] at hvalue
  unfold statusCode
  simp only [h1, h2, takeWhile_decimal, hvalue]
  rw [Nat.mod_eq_of_lt (by omega), toInt, if_pos hlt]

theorem InterimBlock.parsed (b : InterimBlock) (rest : Bytes) :
    parseResponseHeader ⟨-1, [], []⟩ (b.text ++ rest)
      = { response := ⟨b.line.code, [], b.fields⟩, leftover := rest } := by
  unfold InterimBlock.text
  rw [parse_headText b.line.cr_text (fun f hf => (b.plain f hf).cr_fieldText),
    b.line.statusCode_text, addLine_replies b.plain, List.nil_append]

theorem FinalResponse.headers_eq (f : FinalResponse) : f.headers
    = f.before ++ (if f.lengthName = str "Content-Length" then []
        else [(f.lengthName, decimal f.body.length)]) ++ f.after := by
  have hkeep : ∀ l : List (Bytes × Bytes), (∀ h ∈ l, ReplyHeader h) →
      l.filter (fun h => h.1 ≠ str "Content-Length") = l := by
    intro l hl
    rw [List.filter_eq_self]
    intro h hh
    refine decide_eq_true fun he => (hl h hh).no_length ?_
    rw [he]
    decide
  unfold FinalResponse.headers FinalResponse.fields
  rw [List.filter_append, List.filter_cons, hkeep _ fun h hh => f.plain h (by simp [hh]),
    hkeep _ fun h hh => f.plain h (by simp [hh])]
  by_cases hn : f.lengthName = str "Content-Length"
  · simp [hn]
  · simp [hn]

theorem FinalResponse.parsed (f : FinalResponse) :
    parseResponseHeader ⟨-1, [], []⟩ f.text
      = { response := ⟨f.line.code, [], f.headers⟩
          contentLength := sizeT f.body.length
          leftover := f.body } := by
  have hbefore : ∀ h ∈ f.before, ReplyHeader h := fun h hh => f.plain h (by simp [hh])
  have hafter : ∀ h ∈ f.after, ReplyHeader h := fun h hh => f.plain h (by simp [hh])
  have hname : cr ∉ f.lengthName := by
    intro h
    have hm := List.mem_map_of_mem (f := asciiLower) h
    rw [f.isLength] at hm
    exact absurd hm (by decide)
  have hlines : ∀ h ∈ f.fields, cr ∉ fieldText h := by
    intro h hh
    rcases List.mem_append.mp hh with hh | hh
    · exact (hbefore h hh).cr_fieldText
    · rcases List.mem_cons.mp hh with rfl | hh
      · simp only [fieldText, List.mem_append, not_or]
        exact ⟨⟨hname, by decide⟩, not_mem_decimal (by decide)⟩
      · exact (hafter h hh).cr_fieldText
  unfold FinalResponse.text
  rw [parse_headText f.line.cr_text hlines, f.line.statusCode_text, FinalResponse.fields,
    List.foldl_append, List.foldl_cons, addLine_replies hbefore, addLine_length f.isLength _ rfl,
    addLine_replies hafter, f.headers_eq]
  unfold Response.addHeader
  split
  · simp
  · simp

theorem InterimBlock.read (b : InterimBlock) (rest : Bytes) (fuel : Nat) :
    readResponse fuel [b.text ++ rest] = some ⟨b.line.code, rest, b.fields⟩ := by
  have hread : readResponseHeader [b.text ++ rest] = (b.text ++ rest, []) := rfl
  unfold readResponse
  simp only [hread, b.parsed]
  unfold readResponseBody
  rw [if_neg (by simp), if_neg (by simp)]
  simp [Outcome.body]

theorem FinalResponse.read (f : FinalResponse) (fuel : Nat) :
    readResponse fuel [f.text] = some f.response := by
  have hread : readResponseHeader [f.text] = (f.text, []) := rfl
  have hfits := f.fits
  have hsize : sizeT f.body.length = f.body.length := by
    refine sizeT_of_lt ?_
    unfold maxSize at hfits
    omega
  unfold readResponse
  simp only [hread, f.parsed, hsize]
  unfold readResponseBody
  rw [if_neg (by simp)]
  by_cases hempty : f.body = []
  · rw [if_neg (by simp [hempty])]
    simp [hempty, FinalResponse.response, Outcome.body]
  · rw [if_pos (List.length_pos_iff.mpr hempty), if_neg (by omega), readCounted_eq,
      List.flatten_nil, List.take_nil, List.append_nil, List.take_length]
    rfl

/-- the response that the client returns for the blocks of one stream -/
def firstResponse : List InterimBlock → FinalResponse → Response
  | [], final => final.response
  | b :: rest, final => ⟨b.line.code, rest.flatMap InterimBlock.text ++ final.text, b.fields⟩

/-- **The client takes the first block it receives**, however the bytes arrive: the final response,
if no interim block stands before it; else the code and the fields of the first interim block, with
everything behind it as the body. -/
theorem reads_first_block (blocks : List InterimBlock) (final : FinalResponse) (segs : List Bytes)
    (hsegs : segs.flatten = blocks.flatMap InterimBlock.text ++ final.text) (fuel : Nat) :
    readResponse fuel segs = some (firstResponse blocks final) := by
  rw [readResponse_joined, hsegs]
  cases blocks with
  | nil =>
    rw [List.flatMap_nil, List.nil_append]
    exact final.read fuel
  | cons b rest =>
    rw [List.flatMap_cons, List.append_assoc]
    exact b.read _ fuel

/-- what `SslSession` sends for `Expect: 100-continue` -/
def continueBlock : InterimBlock where
  line := ⟨str "HTTP/1.1", 100, str "Continue", by decide, by decide, by decide, by decide⟩
  interim := by decide
  fields := []
  plain := by simp

def okResponse : FinalResponse where
  line := ⟨str "HTTP/1.1", 200, str "OK", by decide, by decide, by decide, by decide⟩
  final := by decide
  before := []
  lengthName := str "Content-Length"
  after := []
  body := str "hi"
  plain := by simp
  isLength := by decide
  fits := by decide

example : continueBlock.text = str "HTTP/1.1 100 Continue\r\n\r\n" := by decide

theorem reads_first_block_continue :
    readResponse 0 [str "HTTP/1.1 100 Cont", str "inue\r\n\r\nHTTP/1.1 200 OK\r\nConte",
        str "nt-Length: 2\r\n\r\nhi"] = some (firstResponse [continueBlock] okResponse) :=
  reads_first_block [continueBlock] okResponse _ (by decide +kernel) 0

/-- the client returns `100 Continue` and not the final response behind it -/
theorem interim_returned : continueBlock.text ++ okResponse.text
      = str "HTTP/1.1 100 Continue\r\n\r\nHTTP/1.1 200 OK\r\nContent-Length: 2\r\n\r\nhi" ∧
    ∀ fuel, readResponse fuel [continueBlock.text ++ okResponse.text]
      ≠ some okResponse.response := by
  refine ⟨by decide +kernel, fun fuel h => ?_⟩
  rw [continueBlock.read okResponse.text fuel, Option.some.injEq] at h
  exact absurd (congrArg Response.code h) (by decide)

end ServerHttpLib
