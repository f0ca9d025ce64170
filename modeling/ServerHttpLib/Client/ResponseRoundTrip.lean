import ServerHttpLib.Client.Segmentation
import ServerHttpLib.Session.HeaderView

/-!
# A response from the server to the client

`get_http_header` writes a head text: a status line, the headers of the response, its length and
the fields that manage the connection (`getHttpHeader_eq`).  The client finds the same lines in it
and keeps all fields but the length.

* `headerLoop_fields`     the line loop handles one field after the other;
* `parse_getHttpHeader`   what `parse_response_header` makes of the text;
* `response_round_trip`   code, headers and body are read back, however the bytes arrive.
-/

namespace ServerHttpLib
open Cutting Frames

/-- a header that the client reads back as it is -/
structure ReplyHeader (f : Bytes × Bytes) : Prop where
  colon : ch ':' ∉ f.1
  name_cr : cr ∉ f.1
  name_lf : lf ∉ f.1
  value_cr : cr ∉ f.2
  value_lf : lf ∉ f.2
  value_head : ∀ b, f.2.head? = some b → isBlank b = false
  no_length : f.1.map asciiLower ≠ str "content-length"
  no_encoding : f.1.map asciiLower ≠ str "transfer-encoding"

theorem replyHeader_iff (f : Bytes × Bytes) : ReplyHeader f ↔
    (ch ':' ∉ f.1 ∧ cr ∉ f.1 ∧ lf ∉ f.1) ∧ (cr ∉ f.2 ∧ lf ∉ f.2) ∧
      (f.2.head?.all fun b => !isBlank b) = true ∧
      f.1.map asciiLower ≠ str "content-length" ∧ f.1.map asciiLower ≠ str "transfer-encoding" := by
  have hhead : (f.2.head?.all fun b => !isBlank b) = true ↔
      ∀ b, f.2.head? = some b → isBlank b = false := by
    rw [Option.all_eq_true]
    simp only [Bool.not_eq_true']
  rw [hhead]
  constructor
  · intro h
    exact ⟨⟨h.colon, h.name_cr, h.name_lf⟩, ⟨h.value_cr, h.value_lf⟩, h.value_head, h.no_length,
      h.no_encoding⟩
  · rintro ⟨⟨h1, h2, h3⟩, ⟨h4, h5⟩, h6, h7, h8⟩
    exact ⟨h1, h2, h3, h4, h5, h6, h7, h8⟩

instance : DecidablePred ReplyHeader := fun f => decidable_of_iff _ (replyHeader_iff f).symm

/-- a response that was built and not encoded yet -/
def freshResponse (code : Int) (body : Bytes) (headers : List (Bytes × Bytes)) : Response :=
  headers.foldl (fun r f => r.addHeader f.1 f.2) ⟨code, body, []⟩

/-- the fields that `get_http_header` writes last -/
def connectionFields (keepAlive : Bool) (keepAliveTimeout : Nat) : List (Bytes × Bytes) :=
  if keepAlive then
    [(str "Connection", str "keep-alive"),
      (str "Keep-Alive", str "timeout=" ++ decimal keepAliveTimeout)]
  else [(str "Connection", str "close")]

theorem mem_connectionFields {keepAlive : Bool} {keepAliveTimeout : Nat} {f : Bytes × Bytes}
    (hf : f ∈ connectionFields keepAlive keepAliveTimeout) :
    f = (str "Connection", str "close") ∨ f = (str "Connection", str "keep-alive") ∨
      f = (str "Keep-Alive", str "timeout=" ++ decimal keepAliveTimeout) := by
  unfold connectionFields at hf
  cases keepAlive with
  | true =>
    simp only [if_true, List.mem_cons, List.not_mem_nil, or_false] at hf
    exact .inr hf
  | false =>
    simp only [Bool.false_eq_true, if_false, List.mem_singleton] at hf
    exact .inl hf

def lengthField (n : Nat) : Bytes × Bytes := (str "Content-Length", decimal n)

def statusLine (code : Int) : Bytes := str "HTTP/1.1 " ++ decimalInt code ++ str " OK"

/-! ## the text -/

theorem addHeader_reply {f : Bytes × Bytes} (hf : f.1.map asciiLower ≠ str "content-length")
    (r : Response) : r.addHeader f.1 f.2 = { r with headers := r.headers ++ [f] } := by
  have hne : f.1 ≠ str "Content-Length" := by
    intro h
    rw [h] at hf
    exact hf (by decide)
  unfold Response.addHeader
  rw [if_neg hne]

theorem freshResponse_eq (code : Int) (body : Bytes) {hs : List (Bytes × Bytes)}
    (hhs : ∀ f ∈ hs, ReplyHeader f) : freshResponse code body hs = ⟨code, body, hs⟩ := by
  have key : ∀ (as : List (Bytes × Bytes)), hs.foldl (fun r f => r.addHeader f.1 f.2)
      (⟨code, body, as⟩ : Response) = ⟨code, body, as ++ hs⟩ := by
    induction hs with
    | nil => simp
    | cons f hs ih =>
      intro as
      rw [List.foldl_cons, addHeader_reply (hhs f List.mem_cons_self).no_length,
        ih fun g hg => hhs g (List.mem_cons_of_mem _ hg)]
      simp
  exact key []

theorem getHttpHeader_eq (r : Response) (keepAlive : Bool) (keepAliveTimeout : Nat) :
    (r.getHttpHeader keepAlive keepAliveTimeout).1
      = headText (statusLine r.code)
          (r.headers ++ lengthField r.body.length
            :: connectionFields keepAlive keepAliveTimeout) := by
  have e1 : str " OK\r\n" = str " OK" ++ crlf := by decide
  have e2 : str "Connection: close\r\n\r\n"
      = headerLine (str "Connection", str "close") ++ crlf := by decide
  have e3 : str "Connection: keep-alive\r\nKeep-Alive: timeout="
      = headerLine (str "Connection", str "keep-alive") ++ (str "Keep-Alive" ++ str ": "
          ++ str "timeout=") := by decide
  have e4 : str "\r\n\r\n" = crlf ++ crlf := by decide
  unfold Response.getHttpHeader headText statusLine connectionFields lengthField
  cases keepAlive with
  | true =>
    simp only [if_true, e1, e3, e4, headerLine, List.flatMap_append, List.flatMap_cons,
      List.flatMap_nil, List.append_nil, List.append_assoc]
  | false =>
    simp only [Bool.false_eq_true, if_false, e1, e2, headerLine, List.flatMap_append,
      List.flatMap_cons, List.flatMap_nil, List.append_nil, List.append_assoc]

/-! ## the lines -/

/-- what the line loop does with one line -/
def ParsedHeader.addLine (p : ParsedHeader) (line : Bytes) : ParsedHeader :=
  ((p.addField line).addLength line).addEncoding line

theorem cut_crlf_line {l : Bytes} (hl : cr ∉ l) (s : Bytes) :
    cut crlf (l ++ crlf ++ s) = some (l, s) := by
  apply cut_of_not_isInfix unbordered_crlf
  intro hi
  exact hl (hi.subset List.mem_cons_self)

variable {fields : List (Bytes × Bytes)}

/-- the line loop handles one field after the other and stops at the empty line -/
theorem headerLoop_fields (hf : ∀ f ∈ fields, cr ∉ fieldText f) (b : Bytes) (p : ParsedHeader) :
    headerLoop (fields.flatMap headerLine ++ crlf).length
        (fields.flatMap headerLine ++ crlf ++ b) p
      = fields.foldl (fun p f => p.addLine (fieldText f)) p := by
  induction fields generalizing p with
  | nil =>
    have hc : cut crlf (crlf ++ b) = some ([], b) := cut_crlf_line List.not_mem_nil b
    show headerLoop 2 (crlf ++ b) p = p
    rw [headerLoop_line (by simp) hc, if_pos (Or.inr rfl)]
  | cons f fs ih =>
    have hc := cut_crlf_line (hf f List.mem_cons_self) (fs.flatMap headerLine ++ crlf ++ b)
    have e1 : (f :: fs).flatMap headerLine ++ crlf ++ b
        = fieldText f ++ crlf ++ (fs.flatMap headerLine ++ crlf ++ b) := by
      simp only [List.flatMap_cons, headerLine_eq, List.append_assoc]
    have e2 : ((f :: fs).flatMap headerLine ++ crlf).length
        = (fieldText f).length + 2 + (fs.flatMap headerLine ++ crlf).length := by
      simp only [List.flatMap_cons, headerLine_eq, List.length_append, crlf, List.length_cons,
        List.length_nil]
      omega
    have hlimit : ¬ ((fieldText f).length + 2 + (fs.flatMap headerLine ++ crlf).length
        < (fieldText f).length ∨ fieldText f = []) := by
      rintro (h | h)
      · omega
      · exact fieldText_ne_nil f h
    rw [e1, e2, headerLoop_line (by omega) hc, if_neg hlimit, Nat.add_sub_cancel_left,
      ih fun g hg => hf g (List.mem_cons_of_mem _ hg)]
    rfl

theorem ieqPrefix_eq {s lit : Bytes} (h : lit.length ≤ s.length) :
    ieqPrefix s lit = ciStartsWith s lit := by
  unfold ieqPrefix ciStartsWith
  rw [if_neg (by omega), List.take_of_length_le h]

/-- a field line starts with a name and a colon only if that is its name -/
theorem not_ieqPrefix {f : Bytes × Bytes} (hc : ch ':' ∉ f.1) {name : Bytes}
    (hname : ch ':' ∉ name) (hne : f.1.map asciiLower ≠ name.map asciiLower) :
    ¬ ((name ++ [ch ':']).length ≤ (fieldText f).length
      ∧ ieqPrefix (fieldText f) (name ++ [ch ':']) = true) := by
  rintro ⟨hle, hp⟩
  rw [ieqPrefix_eq hle, ciStartsWith_field hname, cut_fieldText hc] at hp
  obtain ⟨g, hg, hn⟩ := hp
  rw [Option.some.injEq] at hg
  exact hne (by rw [← hn, ← hg])

theorem addField_fieldText {f : Bytes × Bytes} (hc : ch ':' ∉ f.1) (p : ParsedHeader) :
    p.addField (fieldText f)
      = { p with response := p.response.addHeader f.1 (f.2.dropWhile isBlank) } := by
  unfold ParsedHeader.addField
  rw [cut_fieldText hc]
  show { p with response := p.response.addHeader f.1 ((sp :: f.2).dropWhile isBlank) } = _
  rw [List.dropWhile_cons_of_pos (by decide)]

theorem addEncoding_fieldText {f : Bytes × Bytes} (hc : ch ':' ∉ f.1)
    (hne : f.1.map asciiLower ≠ str "transfer-encoding") (p : ParsedHeader) :
    p.addEncoding (fieldText f) = p := by
  have hname : ch ':' ∉ str "transfer-encoding" := by decide
  have h := not_ieqPrefix hc hname fun h => hne (h.trans (by decide))
  unfold ParsedHeader.addEncoding
  rw [if_neg fun h' => h ⟨h'.1, h'.2.1⟩]

theorem addLine_reply {f : Bytes × Bytes} (hf : ReplyHeader f) (p : ParsedHeader) :
    p.addLine (fieldText f)
      = { p with response := { p.response with headers := p.response.headers ++ [f] } } := by
  have hv : f.2.dropWhile isBlank = f.2 := by
    cases he : f.2 with
    | nil => rfl
    | cons b v => rw [List.dropWhile_cons_of_neg (by simp [hf.value_head b (by rw [he]; rfl)])]
  have hname : ch ':' ∉ str "content-length" := by decide
  have hlen := not_ieqPrefix hf.colon hname fun h => hf.no_length (h.trans (by decide))
  have hadd : ∀ q : ParsedHeader, q.addLength (fieldText f) = q := by
    intro q
    unfold ParsedHeader.addLength
    rw [if_neg fun h => hlen h.2]
  unfold ParsedHeader.addLine
  rw [addField_fieldText hf.colon, hv, addHeader_reply hf.no_length, hadd,
    addEncoding_fieldText hf.colon hf.no_encoding]

/-- the length is taken from a field of that name in any case -/
theorem addLine_length {name : Bytes} (hn : isLengthName name) (n : Nat) {p : ParsedHeader}
    (h0 : p.contentLength = 0) : p.addLine (fieldText (name, decimal n))
      = { p with response := p.response.addHeader name (decimal n), contentLength := sizeT n } := by
  have hcolon : ch ':' ∉ str "content-length" := by decide
  have hlower : (str "content-length").map asciiLower = str "content-length" := by decide
  have hsame : name.map asciiLower = (str "content-length").map asciiLower := hn.trans hlower.symm
  have hc : ch ':' ∉ name := by
    intro h
    have hm := List.mem_map_of_mem (f := asciiLower) h
    rw [hn] at hm
    exact absurd hm (by decide)
  have hlong : (str "content-length:").length ≤ (fieldText (name, decimal n)).length := by
    have hlen : name.length = (str "content-length").length := by
      rw [← List.length_map asciiLower, hn]
    have h2 : (str ": ").length = 2 := rfl
    simp only [fieldText, List.length_append, hlen, h2]
    have h15 : (str "content-length:").length = (str "content-length").length + 1 := by decide
    omega
  have hstart : ieqPrefix (fieldText (name, decimal n)) (str "content-length:") = true := by
    rw [ieqPrefix_eq hlong]
    exact (ciStartsWith_field hcolon _).mpr ⟨_, cut_fieldText hc, hsame⟩
  have hcut : cut [ch ':'] (fieldText (name, decimal n)) = some (name, sp :: decimal n) :=
    cut_fieldText hc
  have hdrop : (fieldText (name, decimal n)).drop 15 = sp :: decimal n := drop_name hcut hsame
  have hvalue : lengthValue ((fieldText (name, decimal n)).drop 15) = sizeT n := by
    rw [lengthValue_eq, hdrop, exactValue_decimal]
  have hne : name.map asciiLower ≠ str "transfer-encoding" := by
    rw [hn]
    decide
  unfold ParsedHeader.addLine
  rw [addField_fieldText hc, dropWhile_isBlank_decimal, ParsedHeader.addLength,
    if_pos ⟨h0, hlong, hstart⟩, hvalue, addEncoding_fieldText hc hne]

theorem reply_connectionFields (keepAlive : Bool) (keepAliveTimeout : Nat) :
    ∀ f ∈ connectionFields keepAlive keepAliveTimeout, ReplyHeader f := by
  intro f hf
  rcases mem_connectionFields hf with rfl | rfl | rfl
  · decide +kernel
  · decide +kernel
  · have hc : ch ':' ∉ str "Keep-Alive" := by decide
    have hcr : cr ∉ str "Keep-Alive" := by decide
    have hlf : lf ∉ str "Keep-Alive" := by decide
    have hlength : (str "Keep-Alive").map asciiLower ≠ str "content-length" := by decide
    have hencoding : (str "Keep-Alive").map asciiLower ≠ str "transfer-encoding" := by decide
    refine ⟨hc, hcr, hlf, ?_, ?_, ?_, hlength, hencoding⟩
    · show cr ∉ str "timeout=" ++ decimal keepAliveTimeout
      exact not_mem_append_decimal (by decide) (by decide) _
    · show lf ∉ str "timeout=" ++ decimal keepAliveTimeout
      exact not_mem_append_decimal (by decide) (by decide) _
    · intro b hb
      have hb : some (ch 't') = some b := hb
      rw [← Option.some.inj hb]
      decide

theorem ReplyHeader.cr_fieldText {f : Bytes × Bytes} (hf : ReplyHeader f) : cr ∉ fieldText f := by
  simp only [fieldText, List.mem_append, not_or]
  exact ⟨⟨hf.name_cr, by decide⟩, hf.value_cr⟩

theorem addLine_replies {hs : List (Bytes × Bytes)} (hhs : ∀ f ∈ hs, ReplyHeader f)
    (p : ParsedHeader) : hs.foldl (fun p f => p.addLine (fieldText f)) p
      = { p with response := { p.response with headers := p.response.headers ++ hs } } := by
  induction hs generalizing p with
  | nil => simp
  | cons f hs ih =>
    rw [List.foldl_cons, addLine_reply (hhs f List.mem_cons_self),
      ih fun g hg => hhs g (List.mem_cons_of_mem _ hg)]
    simp

/-! ## the status line -/

theorem decimalInt_eq {code : Int} (h : 0 ≤ code) : decimalInt code = decimal code.toNat := by
  unfold decimalInt
  rw [if_neg (by omega), ← Int.toNat_of_nonneg h, Int.natAbs_natCast, Int.toNat_natCast]

theorem cut_statusLine {code : Int} (h : 0 ≤ code) :
    cut [sp] (statusLine code) = some (str "HTTP/1.1", decimal code.toNat ++ str " OK") := by
  have e : statusLine code = str "HTTP/1.1" ++ sp :: (decimal code.toNat ++ str " OK") := by
    unfold statusLine
    rw [decimalInt_eq h, show str "HTTP/1.1 " = str "HTTP/1.1" ++ [sp] by decide]
    simp
  rw [e]
  exact cut_of_mem_free (by decide) _

theorem cut_codeText (n : Nat) :
    cut [sp] (decimal n ++ str " OK") = some (decimal n, str "OK") := by
  rw [show str " OK" = sp :: str "OK" by decide]
  exact cut_of_mem_free (not_mem_decimal (by decide)) _

theorem statusCode_statusLine {code : Int} (h0 : 0 ≤ code) (hlt : code < 2 ^ 31) :
    toInt (statusCode (statusLine code)) = code := by
  have hvalue := Numeral.value_foldl_mod 10 (2 ^ 32) ((decimal code.toNat).map digitVal)
  rw [value_decimal] at hvalue
  unfold statusCode
  simp only [cut_statusLine h0, cut_codeText, takeWhile_decimal, hvalue]
  rw [Nat.mod_eq_of_lt (by omega), toInt, if_pos (by omega)]
  omega

theorem cr_statusLine {code : Int} (h0 : 0 ≤ code) : cr ∉ statusLine code := by
  unfold statusLine
  rw [decimalInt_eq h0]
  simp only [List.mem_append, not_or]
  exact ⟨⟨by decide, not_mem_decimal (by decide)⟩, by decide⟩

/-! ## the response -/

/-- what `parse_response_header` makes of a head text and the bytes behind it -/
theorem parse_headText {line : Bytes} (hl : cr ∉ line) (hf : ∀ f ∈ fields, cr ∉ fieldText f)
    (r : Response) (rest : Bytes) : parseResponseHeader r (headText line fields ++ rest)
      = fields.foldl (fun p f => p.addLine (fieldText f))
          { response := { r with code := toInt (statusCode line) }, leftover := rest } := by
  have hsplit : splitHeader (headText line fields ++ rest) = (headText line fields, rest) := by
    obtain ⟨⟨a, b⟩, hc, he⟩ := Option.map_eq_some_iff.mp (blockHead_headText hl hf rest)
    rw [splitHeader_of_cut hc]
    exact he
  have hcut : cut crlf (headText line fields ++ rest)
      = some (line, fields.flatMap headerLine ++ crlf ++ rest) := by
    unfold headText
    rw [List.append_assoc]
    exact cut_crlf_line hl _
  have hlimit : (headText line fields).length - (line.length + 2)
      = (fields.flatMap headerLine ++ crlf).length := by
    simp only [headText, List.length_append, crlf, List.length_cons, List.length_nil]
    omega
  unfold parseResponseHeader
  simp only [hsplit, hcut, hlimit]
  exact headerLoop_fields hf rest _

/-- **What the client makes of the text**: code and headers, and the length of the body. -/
theorem parse_getHttpHeader {code : Int} (h0 : 0 ≤ code) (hlt : code < 2 ^ 31) (body : Bytes)
    {hs : List (Bytes × Bytes)} (hhs : ∀ f ∈ hs, ReplyHeader f) (keepAlive : Bool)
    (keepAliveTimeout : Nat) :
    parseResponseHeader ⟨-1, [], []⟩
        (((freshResponse code body hs).getHttpHeader keepAlive keepAliveTimeout).1 ++ body)
      = { response := ⟨code, [], hs ++ connectionFields keepAlive keepAliveTimeout⟩
          contentLength := sizeT body.length
          leftover := body } := by
  rw [getHttpHeader_eq, freshResponse_eq code body hhs]
  generalize hfields : hs ++ lengthField body.length :: connectionFields keepAlive keepAliveTimeout
    = fields
  have hlines : ∀ f ∈ fields, cr ∉ fieldText f := by
    intro f hf
    rw [← hfields] at hf
    rcases List.mem_append.mp hf with hf | hf
    · exact (hhs f hf).cr_fieldText
    · rcases List.mem_cons.mp hf with rfl | hf
      · simp only [fieldText, lengthField, List.mem_append, not_or]
        exact ⟨⟨by decide, by decide⟩, not_mem_decimal (by decide)⟩
      · exact (reply_connectionFields _ _ f hf).cr_fieldText
  have hlength : isLengthName (str "Content-Length") := by decide
  rw [parse_headText (cr_statusLine h0) hlines, statusCode_statusLine h0 hlt, ← hfields,
    List.foldl_append, List.foldl_cons, addLine_replies hhs, lengthField, addLine_length hlength _
    rfl, addLine_replies (reply_connectionFields _ _)]
  simp [Response.addHeader]

/-- **Response round trip.**  The client reads back the code, the body and the headers of a fresh
response, followed by the connection fields of the server, however the bytes arrive. -/
theorem response_round_trip (code : Int) (hcode : 0 ≤ code ∧ code < 2 ^ 31) (body : Bytes)
    (hbody : body.length ≤ maxSize) (hs : List (Bytes × Bytes)) (hhs : ∀ f ∈ hs, ReplyHeader f)
    (keepAlive : Bool) (keepAliveTimeout : Nat) (segs : List Bytes)
    (hsegs : segs.flatten
      = ((freshResponse code body hs).getHttpHeader keepAlive keepAliveTimeout).1 ++ body)
    (fuel : Nat) : readResponse fuel segs
      = some ⟨code, body, hs ++ connectionFields keepAlive keepAliveTimeout⟩ := by
  have hparse := parse_getHttpHeader hcode.1 hcode.2 body hhs keepAlive keepAliveTimeout
  have hread : ∀ text : Bytes, readResponseHeader [text] = (text, []) := fun _ => rfl
  have hsize : sizeT body.length = body.length := by
    refine sizeT_of_lt ?_
    unfold maxSize at hbody
    omega
  rw [readResponse_joined, hsegs]
  unfold readResponse
  simp only [hread, hparse, hsize]
  unfold readResponseBody
  rw [if_neg (by simp)]
  by_cases hempty : body = []
  · rw [if_neg (by simp [hempty]), hempty]
    rfl
  · have hpos : 0 < body.length := List.length_pos_iff.mpr hempty
    rw [if_pos hpos, if_neg (by omega), readCounted_eq, List.flatten_nil, List.take_nil,
      List.append_nil, List.take_length]
    rfl

/-- a response with two headers, one of them without a value, in three segments -/
def replySegments : List Bytes :=
  [str "HTTP/1.1 404 OK\r\nX-A: 1\r\nX-B: \r\nConte", str "nt-Length: 4\r\nConnection: close\r\n\r",
    str "\nno", str "pe"]

theorem response_round_trip_404 :
    readResponse 0 replySegments
      = some ⟨404, str "nope", [(str "X-A", str "1"), (str "X-B", [])]
          ++ connectionFields false 10⟩ := by
  refine response_round_trip 404 (by decide) (str "nope") (by decide) _ ?_ false 10 replySegments
    (by decide +kernel) 0
  intro f hf
  simp only [List.mem_cons, List.not_mem_nil, or_false] at hf
  rcases hf with rfl | rfl
  · decide +kernel
  · decide +kernel

end ServerHttpLib
