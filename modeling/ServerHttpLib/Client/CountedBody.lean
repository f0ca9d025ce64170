import ServerHttpLib.Client.ResponseRoundTrip

/-!
# A body with a `Content-Length`

The length of a body comes from the one line of the header that announces it; a value of `0` is the
same for `read_response_body` as no such line.  On a connection that stays open a read behind the
last segment does not return, so here it is said which bodies are complete without one.

* `readBodyOpen_returns`   what is returned on an open connection is returned whatever follows;
* `headerLoop_lines`       the line loop as a fold over the lines of the header;
* `parse_countedBlock`     the parser finds the length, in any spelling of the name and the number;
* `readsExactly_iff`       exactly the lengths from 1 to `max_size` are read as they should be.
-/

namespace ServerHttpLib
open Cutting

/-! ## an open connection -/

/-- `readCounted` on a connection that stays open; `none`: it waits behind the last segment -/
def readCountedOpen (n : Nat) : Bytes → List Bytes → Option Bytes
  | body, [] => if body.length < n then none else some body
  | body, seg :: segs =>
    if body.length < n then readCountedOpen n (body ++ seg.take (n - body.length)) segs
    else some body

/-- what `read_response_body` does without `chunked` on a connection that stays open; without a
length it waits for the end of the connection -/
def readBodyOpen (contentLength : Nat) (leftover : Bytes) (segs : List Bytes) : Option Outcome :=
  if 0 < contentLength then
    if maxSize < contentLength then some (.threw [])
    else (readCountedOpen contentLength (leftover.take contentLength) segs).map .returned
  else none

theorem readCountedOpen_returns {n : Nat} {body b : Bytes} {segs : List Bytes}
    (h : readCountedOpen n body segs = some b) (more : List Bytes) :
    readCounted n body (segs ++ more) = b := by
  induction segs generalizing body with
  | nil =>
    rw [readCountedOpen] at h
    split at h
    · exact absurd h (by simp)
    · rename_i hge
      rw [Option.some.injEq] at h
      rw [readCounted_eq, show n - body.length = 0 by omega, List.take_zero, List.append_nil, h]
  | cons seg segs ih =>
    rw [readCountedOpen] at h
    rw [List.cons_append, readCounted]
    split at h
    · rename_i hlt
      rw [if_pos hlt]
      exact ih h
    · rename_i hge
      rw [if_neg hge]
      exact Option.some.inj h

/-- **What an open connection returns is returned whatever follows**: more segments, or the end -/
theorem readBodyOpen_returns {contentLength : Nat} {leftover : Bytes} {segs : List Bytes}
    {o : Outcome} (h : readBodyOpen contentLength leftover segs = some o) (fuel : Nat)
    (more : List Bytes) :
    readResponseBody fuel contentLength false leftover (segs ++ more) = some o := by
  unfold readBodyOpen at h
  unfold readResponseBody
  rw [if_neg Bool.false_ne_true]
  split at h
  · rename_i hpos
    rw [if_pos hpos]
    split at h
    · rename_i hmax
      rw [if_pos hmax]
      exact h
    · rename_i hmax
      obtain ⟨b, hb, rfl⟩ := Option.map_eq_some_iff.mp h
      rw [if_neg hmax, readCountedOpen_returns hb]
  · exact absurd h (by simp)

theorem readCountedOpen_eq {n : Nat} {body : Bytes} {segs : List Bytes}
    (h : n ≤ body.length + segs.flatten.length) :
    readCountedOpen n body segs = some (body ++ segs.flatten.take (n - body.length)) := by
  induction segs generalizing body with
  | nil =>
    have hn : n ≤ body.length := h
    rw [readCountedOpen, if_neg (by omega), List.flatten_nil, List.take_nil, List.append_nil]
  | cons seg segs ih =>
    rw [List.flatten_cons, List.length_append] at h
    rw [readCountedOpen]
    by_cases hlt : body.length < n
    · have hlen : (body ++ seg.take (n - body.length)).length
          = body.length + min (n - body.length) seg.length := by
        rw [List.length_append, List.length_take]
      rw [if_pos hlt, ih (by rw [hlen]; omega), hlen, List.flatten_cons, List.append_assoc,
        List.take_append]
      congr 4
      omega
    · rw [if_neg hlt, show n - body.length = 0 by omega, List.take_zero, List.append_nil]

/-- a length from 1 to `max_size`, with all its bytes sent -/
theorem readBodyOpen_eq {n : Nat} (h0 : 0 < n) (hmax : n ≤ maxSize) (leftover : Bytes)
    (segs : List Bytes) (h : n ≤ (leftover ++ segs.flatten).length) :
    readBodyOpen n leftover segs = some (.returned ((leftover ++ segs.flatten).take n)) := by
  rw [List.length_append] at h
  have hlen : (leftover.take n).length = min n leftover.length := List.length_take
  rw [readBodyOpen, if_pos h0, if_neg (by omega), readCountedOpen_eq (by rw [hlen]; omega),
    Option.map_some, hlen, List.take_append]
  congr 4
  omega

/-! ## the lines of a header -/

/-- the lines that end in CRLF, without it -/
def crlfLines (s : Bytes) : List Bytes :=
  match _h : cut crlf s with
  | none => []
  | some (line, rest) => line :: crlfLines rest
termination_by s.length
decreasing_by
  have h := cut_length _h
  simp only [crlf, List.length_cons, List.length_nil] at h
  omega

/-- the lines behind the status line, up to the empty one -/
def headerLines (block : Bytes) : List Bytes := (crlfLines block).tail.takeWhile (· ≠ [])

theorem crlfLines_none {s : Bytes} (h : cut crlf s = none) : crlfLines s = [] := by
  rw [crlfLines]
  split
  · rfl
  · rename_i h'
    rw [h] at h'
    exact absurd h' (by simp)

theorem crlfLines_some {s line rest : Bytes} (h : cut crlf s = some (line, rest)) :
    crlfLines s = line :: crlfLines rest := by
  rw [crlfLines]
  split
  · rename_i h'
    rw [h] at h'
    exact absurd h' (by simp)
  · rename_i h'
    obtain ⟨rfl, rfl⟩ := cut_inj h h'
    rfl

/-- **The line loop** handles the lines up to the empty one. -/
theorem headerLoop_lines (s : Bytes) (p : ParsedHeader) :
    headerLoop s.length s p
      = ((crlfLines s).takeWhile (· ≠ [])).foldl ParsedHeader.addLine p := by
  induction hn : s.length using Nat.strong_induction_on generalizing s p with
  | _ n ih =>
    cases hc : cut crlf s with
    | none =>
      rw [headerLoop_none hc, crlfLines_none hc]
      rfl
    | some r =>
      obtain ⟨line, rest⟩ := r
      have hl := cut_length hc
      simp only [crlf, List.length_cons, List.length_nil] at hl
      rw [headerLoop_line (by omega) hc, crlfLines_some hc]
      by_cases hline : line = []
      · rw [if_pos (Or.inr hline), List.takeWhile_cons_of_neg (by simp [hline])]
        rfl
      · have hlimit : ¬ (n < line.length ∨ line = []) := by
          rintro (h | h)
          · omega
          · exact hline h
        have hrest : n - (line.length + 2) = rest.length := by omega
        rw [if_neg hlimit, List.takeWhile_cons_of_pos (by simp [hline]), List.foldl_cons, hrest]
        exact ih rest.length (by omega) rest _ rfl

theorem parse_lines {raw head rest : Bytes} (h : cut crlf2 raw = some (head, rest))
    (response : Response) : ∃ code, parseResponseHeader response raw
      = ((headerLines (head ++ crlf2)).foldl ParsedHeader.addLine
          { response := { response with code := code } }).withLeftover rest := by
  have hblock : head ++ crlf2 = head ++ crlf ++ crlf := by
    rw [List.append_assoc]
    rfl
  obtain ⟨⟨status, lines⟩, hc⟩ := Option.isSome_iff_exists.mp (cut_isSome_of_eq hblock)
  have hl := cut_length hc
  simp only [crlf, List.length_cons, List.length_nil] at hl
  have hlim : (head ++ crlf2).length - (status.length + 2) = lines.length := by omega
  refine ⟨toInt (statusCode status), ?_⟩
  rw [parseResponseHeader_block h, headerLines, crlfLines_some hc, List.tail_cons,
    ← headerLoop_lines]
  unfold parseResponseHeader
  rw [splitHeader_of_cut (cut_block h), hc]
  simp only [hlim]

/-! ## the length among the lines -/

/-- the line is a field of this name, in any case; `name` is in lower case -/
def isField (name line : Bytes) : Prop :=
  ∃ f, cut [ch ':'] line = some f ∧ f.1.map asciiLower = name

instance (name line : Bytes) : Decidable (isField name line) :=
  decidable_of_iff ((cut [ch ':'] line).any fun f => f.1.map asciiLower = name) (by
    simp only [Option.any_eq_true, decide_eq_true_eq]
    rfl)

/-- the line is `Content-Length: n`: the name in any case, digits with the value `n`, and blanks
around them -/
def isLength (n : Nat) (line : Bytes) : Prop :=
  ∃ name value, cut [ch ':'] line = some (name, value) ∧ isLengthName name ∧
    svStrip value ≠ [] ∧ (∀ b ∈ svStrip value, isDigit b = true) ∧
    Numeral.value 10 ((svStrip value).map digitVal) = n

/-- a header block with the one line `Content-Length: n` and no `Transfer-Encoding` -/
structure CountedBlock (n : Nat) (block : Bytes) : Prop where
  length : ∃ before line after, headerLines block = before ++ line :: after ∧ isLength n line ∧
    ∀ l ∈ before ++ after, ¬ isField (str "content-length") l
  encoding : ∀ l ∈ headerLines block, ¬ isField (str "transfer-encoding") l

section
variable (p : ParsedHeader) {line : Bytes}

theorem starts_iff (line : Bytes) {name : Bytes} (hname : ch ':' ∉ name)
    (hlower : name.map asciiLower = name) :
    (name ++ [ch ':']).length ≤ line.length ∧ ieqPrefix line (name ++ [ch ':']) = true ↔
      isField name line := by
  have hci := ciStartsWith_field hname line
  rw [hlower] at hci
  constructor
  · exact fun h => hci.mp (ieqPrefix_eq h.1 ▸ h.2)
  · intro h
    have hs := hci.mpr h
    have hle : (name ++ [ch ':']).length ≤ line.length := by
      unfold ciStartsWith at hs
      split at hs
      · exact absurd hs (by simp)
      · omega
    exact ⟨hle, (ieqPrefix_eq hle).trans hs⟩

theorem addField_frame (line : Bytes) : (p.addField line).contentLength = p.contentLength ∧
    (p.addField line).chunked = p.chunked := by
  unfold ParsedHeader.addField
  split
  · exact ⟨rfl, rfl⟩
  · exact ⟨rfl, rfl⟩

theorem addEncoding_none (h : ¬ isField (str "transfer-encoding") line) :
    p.addEncoding line = p := by
  have hname : ch ':' ∉ str "transfer-encoding" := by decide
  have hs := starts_iff line hname (by decide)
  unfold ParsedHeader.addEncoding
  rw [if_neg fun h' => h (hs.mp ⟨h'.1, h'.2.1⟩)]

theorem addLength_none (h : ¬ isField (str "content-length") line) : p.addLength line = p := by
  have hname : ch ':' ∉ str "content-length" := by decide
  have hs := starts_iff line hname (by decide)
  unfold ParsedHeader.addLength
  rw [if_neg fun h' => h (hs.mp h'.2)]

theorem addLine_other (hl : ¬ isField (str "content-length") line)
    (he : ¬ isField (str "transfer-encoding") line) :
    (p.addLine line).contentLength = p.contentLength ∧
      (p.addLine line).chunked = p.chunked := by
  rw [ParsedHeader.addLine, addEncoding_none _ he, addLength_none _ hl]
  exact addField_frame p line

theorem lengthValue_of_digits {value : Bytes} {n : Nat}
    (hd : ∀ b ∈ svStrip value, isDigit b = true)
    (hv : Numeral.value 10 ((svStrip value).map digitVal) = n) : lengthValue value = sizeT n := by
  rw [lengthValue_eq, ← exactValue_svStrip, exactValue, lengthDigits,
    dropWhile_isBlank_of_digits hd, List.takeWhile_eq_self_iff.mpr hd, hv]

theorem addLine_isLength {n : Nat} (h : isLength n line)
    (he : ¬ isField (str "transfer-encoding") line) (h0 : p.contentLength = 0) :
    (p.addLine line).contentLength = sizeT n ∧ (p.addLine line).chunked = p.chunked := by
  obtain ⟨name, value, hc, hn, -, hd, hv⟩ := h
  have hlower : (str "content-length").map asciiLower = str "content-length" := by decide
  have hs := (starts_iff line (by decide) hlower).mpr ⟨_, hc, hn⟩
  have hdrop : line.drop 15 = value := drop_name hc (hn.trans hlower.symm)
  obtain ⟨hf1, hf2⟩ := addField_frame p line
  rw [ParsedHeader.addLine, addEncoding_none _ he, ParsedHeader.addLength, if_pos ⟨hf1.trans h0,
    hs⟩, hdrop, lengthValue_of_digits hd hv]
  exact ⟨rfl, hf2⟩

end

theorem addLines_other {lines : List Bytes}
    (hl : ∀ l ∈ lines, ¬ isField (str "content-length") l)
    (he : ∀ l ∈ lines, ¬ isField (str "transfer-encoding") l) (p : ParsedHeader) :
    (lines.foldl ParsedHeader.addLine p).contentLength = p.contentLength ∧
      (lines.foldl ParsedHeader.addLine p).chunked = p.chunked := by
  induction lines generalizing p with
  | nil => exact ⟨rfl, rfl⟩
  | cons l lines ih =>
    obtain ⟨h1, h2⟩ := addLine_other p (hl l List.mem_cons_self) (he l List.mem_cons_self)
    obtain ⟨h3, h4⟩ := ih (fun x hx => hl x (List.mem_cons_of_mem _ hx))
      (fun x hx => he x (List.mem_cons_of_mem _ hx)) (p.addLine l)
    exact ⟨h3.trans h1, h4.trans h2⟩

/-- **The parser finds the length** and hands on what follows the header. -/
theorem parse_countedBlock {n : Nat} (hn : n < 2 ^ 64) {raw head rest : Bytes}
    (h : cut crlf2 raw = some (head, rest)) (hb : CountedBlock n (head ++ crlf2))
    (response : Response) :
    (parseResponseHeader response raw).contentLength = n ∧
      (parseResponseHeader response raw).chunked = false ∧
      (parseResponseHeader response raw).leftover = rest := by
  obtain ⟨before, line, after, hlines, hlength, hother⟩ := hb.length
  have henc := hb.encoding
  rw [hlines] at henc
  have hbefore : ∀ l ∈ before, l ∈ before ++ line :: after := fun l hl => List.mem_append_left _ hl
  have hafter : ∀ l ∈ after, l ∈ before ++ line :: after := fun l hl =>
    List.mem_append_right _ (List.mem_cons_of_mem _ hl)
  obtain ⟨code, hp⟩ := parse_lines h response
  have h1 := addLines_other (fun l hl => hother l (List.mem_append_left _ hl))
    (fun l hl => henc l (hbefore l hl)) { response := { response with code := code } }
  generalize hq : before.foldl ParsedHeader.addLine
    { response := { response with code := code } } = q at h1
  have h2 := addLine_isLength q hlength (henc line (by simp)) h1.1
  have h3 := addLines_other (fun l hl => hother l (List.mem_append_right _ hl))
    (fun l hl => henc l (hafter l hl)) (q.addLine line)
  rw [hp, hlines, List.foldl_append, List.foldl_cons, hq]
  exact ⟨h3.1.trans (h2.1.trans (sizeT_of_lt hn)), h3.2.trans (h2.2.trans h1.2), rfl⟩

/-! ## the body -/

/-- the body behind a header is set to the `n` bytes it should be: whatever follows on the
connection, and without a read behind what has been received -/
structure ReadsExactly (n : Nat) (response : Response) (segs : List Bytes) (rest : Bytes) :
    Prop where
  body : ∀ fuel more,
    readResponseBody fuel
        (parseResponseHeader response (readResponseHeader segs).1).contentLength
        (parseResponseHeader response (readResponseHeader segs).1).chunked
        (parseResponseHeader response (readResponseHeader segs).1).leftover
        ((readResponseHeader segs).2 ++ more)
      = some (.returned (rest.take n))
  /-- on a connection that stays open it does not wait -/
  returns : (parseResponseHeader response (readResponseHeader segs).1).chunked = false ∧
    readBodyOpen (parseResponseHeader response (readResponseHeader segs).1).contentLength
        (parseResponseHeader response (readResponseHeader segs).1).leftover
        (readResponseHeader segs).2
      = some (.returned (rest.take n))

/-- **A body with a length is read exactly if its length is at least 1 and at most `max_size`.** -/
theorem readsExactly_iff (n : Nat) (hn : n < 2 ^ 64) (response : Response) (segs : List Bytes)
    (head rest : Bytes) (hsegs : cut crlf2 segs.flatten = some (head, rest))
    (hb : CountedBlock n (head ++ crlf2)) (hrest : n ≤ rest.length) :
    ReadsExactly n response segs rest ↔ 0 < n ∧ n ≤ maxSize := by
  rcases readResponseHeader_cases segs with
    ⟨hnone, _⟩ | ⟨head', rest', raw, segs', leftover, hc, he, hraw, hj⟩
  · rw [hsegs] at hnone
    exact absurd hnone (by simp)
  rw [hsegs, Option.some.injEq, Prod.mk.injEq] at hc
  obtain ⟨rfl, rfl⟩ := hc
  obtain ⟨hlen, hchunked, hleft⟩ := parse_countedBlock hn hraw hb response
  constructor
  · rintro ⟨-, -, hopen⟩
    rw [he, hlen, hleft, readBodyOpen] at hopen
    split at hopen
    · rename_i hpos
      split at hopen
      · exact absurd hopen (by simp)
      · exact ⟨hpos, by omega⟩
    · exact absurd hopen (by simp)
  · rintro ⟨h0, hmax⟩
    have hopen := readBodyOpen_eq h0 hmax leftover segs' (by rw [hj]; omega)
    rw [hj] at hopen
    refine ⟨fun fuel more => ?_, ?_⟩
    · rw [he, hlen, hchunked, hleft]
      exact readBodyOpen_returns hopen fuel more
    · rw [he, hlen, hchunked, hleft]
      exact ⟨rfl, hopen⟩

def fourBytes : List Bytes :=
  [str "HTTP/1.1 200 OK\r\nX-A: 1\r\nCONTENT-length:  04 \r\n\r\nbo", str "dyHTTP/1.1 "]

theorem readsExactly_iff_four :
    ReadsExactly 4 ⟨-1, [], []⟩ fourBytes (str "bodyHTTP/1.1 ") ↔ 0 < 4 ∧ 4 ≤ maxSize := by
  have hlength : isLength 4 (str "CONTENT-length:  04 ") :=
    ⟨str "CONTENT-length", str "  04 ", by decide, by decide, by decide, by decide +kernel,
      by decide⟩
  exact readsExactly_iff 4 (by decide) _ fourBytes
    (str "HTTP/1.1 200 OK\r\nX-A: 1\r\nCONTENT-length:  04 ") _ (by decide +kernel)
    ⟨⟨[str "X-A: 1"], _, [], by decide +kernel, hlength, by decide +kernel⟩, by decide +kernel⟩
    (by decide)

def emptyBody : Bytes := str "HTTP/1.1 200 OK\r\nContent-Length: 0\r\n\r\n"

/-- the client waits behind a body of length 0, and takes what follows for the body -/
theorem zero_length_waits : CountedBlock 0 emptyBody ∧
    readBodyOpen 0 [] [] = none ∧
    ¬ ReadsExactly 0 ⟨-1, [], []⟩ [emptyBody] [] := by
  have hlength : isLength 0 (str "Content-Length: 0") :=
    ⟨str "Content-Length", str " 0", by decide, by decide, by decide, by decide +kernel, by decide⟩
  refine ⟨⟨⟨[], _, [], by decide +kernel, hlength, by decide +kernel⟩, by decide +kernel⟩, rfl,
    fun h => ?_⟩
  have hbody := h.body 0 [str "HTTP/1.1 404 "]
  exact absurd hbody (by decide +kernel)

end ServerHttpLib
