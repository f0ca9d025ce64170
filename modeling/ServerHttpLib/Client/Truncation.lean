import ServerHttpLib.Client.ResponseRoundTrip
import ServerHttpLib.Client.Demand

/-!
# A response that is cut short

The connection may be lost at any byte of a response.  The client parses the part it has: it
never reports a code other than that of the response or `0`, and what it reports of the headers and
of the body is a first part of them.

* `headerLoop_isPrefix`   the line loop keeps the fields whose lines are complete;
* `readResponse_part`     the response read from a first part of the text.
-/

namespace ServerHttpLib
open Cutting Frames

structure PlainReply (r : Response) : Prop where
  code_nonneg : 0 ≤ r.code
  code_lt : r.code < 2 ^ 31
  body : r.body.length ≤ maxSize
  headers : ∀ f ∈ r.headers, ReplyHeader f

def replyText (r : Response) (keepAlive : Bool) (keepAliveTimeout : Nat) : Bytes :=
  (r.getHttpHeader keepAlive keepAliveTimeout).1 ++ r.body

/-- what a part of the response `r` may be taken for -/
structure PartOf (r part : Response) : Prop where
  code : part.code = r.code ∨ part.code = 0
  body : part.body <+: r.body
  headers : part.headers <+: r.headers

variable {r : Response} {keepAlive : Bool} {keepAliveTimeout : Nat}
  {fields : List (Bytes × Bytes)} {part : Bytes}

/-- the fields of the text, with the length of the body among them -/
def replyFields (r : Response) (keepAlive : Bool) (keepAliveTimeout : Nat) :
    List (Bytes × Bytes) :=
  r.headers ++ lengthField r.body.length :: connectionFields keepAlive keepAliveTimeout

/-- the response as the client reads it -/
def Response.asRead (r : Response) (keepAlive : Bool) (keepAliveTimeout : Nat) : Response :=
  { r with headers := r.headers ++ connectionFields keepAlive keepAliveTimeout }

theorem replyText_eq : replyText r keepAlive keepAliveTimeout
    = headText (statusLine r.code) (replyFields r keepAlive keepAliveTimeout) ++ r.body := by
  unfold replyText replyFields
  rw [getHttpHeader_eq]

theorem PlainReply.cr_fieldText (hr : PlainReply r) (keepAlive : Bool) (keepAliveTimeout : Nat) :
    ∀ f ∈ replyFields r keepAlive keepAliveTimeout, cr ∉ fieldText f := by
  intro f hf
  rcases List.mem_append.mp hf with hf | hf
  · exact (hr.headers f hf).cr_fieldText
  · rcases List.mem_cons.mp hf with rfl | hf
    · simp only [fieldText, lengthField, List.mem_append, not_or]
      exact ⟨⟨by decide, by decide⟩, not_mem_decimal (by decide)⟩
    · exact (reply_connectionFields _ _ f hf).cr_fieldText

/-! ## the fields -/

/-- a complete line in a part of the text is the first field -/
theorem cut_part {f : Bytes × Bytes} (hf : cr ∉ fieldText f) {tail line rest : Bytes}
    (hp : part <+: fieldText f ++ crlf ++ tail) (hc : cut crlf part = some (line, rest)) :
    line = fieldText f ∧ rest <+: tail := by
  obtain ⟨t, ht⟩ := hp
  have h1 := cut_append hc t
  rw [ht, cut_crlf_line hf, Option.some.injEq, Prod.mk.injEq] at h1
  exact ⟨h1.1.symm, t, h1.2.symm⟩

/-- **The line loop on a part of the header** handles the fields whose lines are complete. -/
theorem headerLoop_isPrefix (hf : ∀ f ∈ fields, cr ∉ fieldText f)
    (hp : part <+: fields.flatMap headerLine ++ crlf) (p : ParsedHeader) :
    ∃ k, headerLoop part.length part p
      = (fields.take k).foldl (fun p f => p.addLine (fieldText f)) p := by
  induction fields generalizing part p with
  | nil =>
    refine ⟨0, ?_⟩
    cases hc : cut crlf part with
    | none => exact headerLoop_none hc p
    | some r =>
      -- the empty line ends the loop
      have hall : part = crlf := by
        have hl := cut_length hc
        refine hp.eq_of_length_le ?_
        simp only [List.flatMap_nil, List.nil_append]
        omega
      subst hall
      exact @headerLoop_fields [] (fun f hf => absurd hf List.not_mem_nil) [] p
  | cons f fs ih =>
    have htext : (f :: fs).flatMap headerLine ++ crlf
        = fieldText f ++ crlf ++ (fs.flatMap headerLine ++ crlf) := by
      simp only [List.flatMap_cons, headerLine_eq, List.append_assoc]
    rw [htext] at hp
    cases hc : cut crlf part with
    | none => exact ⟨0, headerLoop_none hc p⟩
    | some r =>
      obtain ⟨line, rest⟩ := r
      obtain ⟨rfl, hrest⟩ := cut_part (hf f List.mem_cons_self) hp hc
      have hl := cut_length hc
      simp only [crlf, List.length_cons, List.length_nil] at hl
      obtain ⟨k, hk⟩ := ih (fun g hg => hf g (List.mem_cons_of_mem _ hg)) hrest
        (p.addLine (fieldText f))
      refine ⟨k + 1, ?_⟩
      have hne : ¬ (part.length < (fieldText f).length ∨ fieldText f = []) := by
        rw [not_or]
        exact ⟨by omega, fieldText_ne_nil f⟩
      rw [headerLoop_line (by omega) hc, if_neg hne,
        show part.length - ((fieldText f).length + 2) = rest.length by omega]
      exact hk

/-- what the first fields of a response leave: its first headers, no transfer encoding -/
theorem PlainReply.fields_take (hr : PlainReply r) (k : Nat) (p : ParsedHeader)
    (hp : p.contentLength = 0) :
    ∃ (hs : List (Bytes × Bytes)) (n : Nat),
      hs <+: r.headers ++ connectionFields keepAlive keepAliveTimeout ∧
      ((replyFields r keepAlive keepAliveTimeout).take k).foldl
          (fun p f => p.addLine (fieldText f)) p
        = { p with
            response := { p.response with headers := p.response.headers ++ hs }
            contentLength := n } := by
  have hown : ∀ f ∈ r.headers.take k, ReplyHeader f := fun f hf =>
    hr.headers f (List.mem_of_mem_take hf)
  unfold replyFields
  rw [List.take_append, List.foldl_append, addLine_replies hown]
  cases hk : k - r.headers.length with
  | zero =>
    refine ⟨r.headers.take k, 0, (List.take_prefix _ _).trans (List.prefix_append _ _), ?_⟩
    rw [List.take_zero, List.foldl_nil, ← hp]
  | succ j =>
    have hall : r.headers.take k = r.headers := List.take_of_length_le (by omega)
    have hconn : ∀ f ∈ (connectionFields keepAlive keepAliveTimeout).take j, ReplyHeader f :=
      fun f hf => reply_connectionFields _ _ f (List.mem_of_mem_take hf)
    have hlength : isLengthName (str "Content-Length") := by decide
    have hread := addLine_length hlength r.body.length (p := { p with
      response := { p.response with headers := p.response.headers ++ r.headers.take k } }) hp
    refine ⟨r.headers ++ (connectionFields keepAlive keepAliveTimeout).take j,
      sizeT r.body.length, (List.prefix_append_right_inj _).mpr (List.take_prefix _ _), ?_⟩
    rw [List.take_succ_cons, List.foldl_cons, lengthField, hread, addLine_replies hconn, hall]
    simp [Response.addHeader]

theorem ParsedHeader.withLeftover_withLeftover (p : ParsedHeader) (a b : Bytes) :
    (p.withLeftover a).withLeftover b = p.withLeftover b := rfl

/-! ## the status line -/

/-- a code that is found in a part of a line is the code of the line -/
theorem statusCode_isPrefix {s : Bytes} (hp : part <+: s) :
    statusCode part = statusCode s ∨ statusCode part = 0 := by
  obtain ⟨t, rfl⟩ := hp
  unfold statusCode
  cases h1 : cut [sp] part with
  | none => exact Or.inr rfl
  | some a =>
    simp only [cut_append h1]
    cases h2 : cut [sp] a.2 with
    | none => exact Or.inr rfl
    | some b =>
      simp only [cut_append h2]
      exact Or.inl trivial

theorem statusCode_statusLine_cr {code : Int} (h0 : 0 ≤ code) :
    statusCode (statusLine code ++ [cr]) = statusCode (statusLine code) := by
  have h1 := cut_statusLine h0
  have h2 := cut_codeText code.toNat
  unfold statusCode
  simp only [h1, cut_append h1, h2, cut_append h2]

theorem PlainReply.toInt_statusCode (hr : PlainReply r)
    (hp : part <+: statusLine r.code ++ [cr]) :
    toInt (statusCode part) = r.code ∨ toInt (statusCode part) = 0 := by
  rcases statusCode_isPrefix hp with h | h
  · rw [h, statusCode_statusLine_cr hr.code_nonneg]
    exact Or.inl (statusCode_statusLine hr.code_nonneg hr.code_lt)
  · rw [h]
    exact Or.inr rfl

/-! ## the response -/

/-- **The header of a part**: no line is misread, and the body is not taken for chunked. -/
theorem PlainReply.parse_part (hr : PlainReply r)
    (hp : part <+: headText (statusLine r.code) (replyFields r keepAlive keepAliveTimeout))
    (hcut : cut crlf2 part = none) :
    ∃ (code : Int) (hs : List (Bytes × Bytes)) (n : Nat), (code = r.code ∨ code = 0) ∧
      hs <+: (r.asRead keepAlive keepAliveTimeout).headers ∧
      parseResponseHeader ⟨-1, [], []⟩ part
        = { response := ⟨code, [], hs⟩, contentLength := n } := by
  have hcr : cr ∉ statusLine r.code := cr_statusLine hr.code_nonneg
  have hsplit : splitHeader part = (part, []) := by
    unfold splitHeader
    rw [hcut]
  unfold parseResponseHeader
  simp only [hsplit]
  cases hc : cut crlf part with
  | none =>
    -- the status line is not complete
    have hshort : part <+: statusLine r.code ++ [cr] := by
      have hlen : part.length < (statusLine r.code ++ crlf).length := by
        by_contra hle
        have hline : statusLine r.code ++ crlf <+: part :=
          List.prefix_of_prefix_length_le (List.prefix_append _ _) hp (by omega)
        obtain ⟨t, ht⟩ := hline
        rw [← ht, cut_crlf_line hcr] at hc
        exact absurd hc (by simp)
      refine List.prefix_of_prefix_length_le hp ?_ ?_
      · exact ⟨lf :: ((replyFields r keepAlive keepAliveTimeout).flatMap headerLine ++ crlf),
          by simp [headText, crlf]⟩
      · simp only [List.length_append, crlf, List.length_cons, List.length_nil] at hlen ⊢
        omega
    exact ⟨_, [], 0, hr.toInt_statusCode hshort, List.nil_prefix, rfl⟩
  | some s =>
    obtain ⟨line, rest⟩ := s
    have hl := cut_length hc
    simp only [crlf, List.length_cons, List.length_nil] at hl
    obtain ⟨t, ht⟩ := hp
    have h1 := cut_append hc t
    unfold headText at ht
    rw [ht, cut_crlf_line hcr, Option.some.injEq, Prod.mk.injEq] at h1
    obtain ⟨rfl, h1⟩ := h1
    have hcode : toInt (statusCode (statusLine r.code)) = r.code :=
      statusCode_statusLine hr.code_nonneg hr.code_lt
    obtain ⟨k, hk⟩ := headerLoop_isPrefix (hr.cr_fieldText keepAlive keepAliveTimeout) ⟨t, h1.symm⟩
      { response := { code := toInt (statusCode (statusLine r.code)), body := [], headers := [] } }
    obtain ⟨hs, n, hpre, hfold⟩ := hr.fields_take k
      { response := { code := toInt (statusCode (statusLine r.code)), body := [], headers := [] } }
      rfl
    refine ⟨r.code, hs, n, Or.inl rfl, hpre, ?_⟩
    simp only [show part.length - ((statusLine r.code).length + 2) = rest.length by omega]
    rw [hk, hfold, hcode]
    rfl

theorem PlainReply.parse_whole (hr : PlainReply r) (rest : Bytes) :
    parseResponseHeader ⟨-1, [], []⟩
        (headText (statusLine r.code) (replyFields r keepAlive keepAliveTimeout) ++ rest)
      = { response := ⟨r.code, [], (r.asRead keepAlive keepAliveTimeout).headers⟩
          contentLength := r.body.length
          leftover := rest } := by
  have hparse := parse_getHttpHeader hr.code_nonneg hr.code_lt r.body hr.headers keepAlive
    keepAliveTimeout
  have hsize : sizeT r.body.length = r.body.length := by
    have hb := hr.body
    unfold maxSize at hb
    exact sizeT_of_lt (by omega)
  rw [freshResponse_eq r.code r.body hr.headers, getHttpHeader_eq] at hparse
  have hblock : ∀ b, parseResponseHeader ⟨-1, [], []⟩
        (headText (statusLine r.code) (replyFields r keepAlive keepAliveTimeout) ++ b)
      = (parseResponseHeader ⟨-1, [], []⟩ (headText (statusLine r.code)
          (replyFields r keepAlive keepAliveTimeout))).withLeftover b := by
    intro b
    obtain ⟨⟨head, rest⟩, hc, he⟩ := Option.map_eq_some_iff.mp (blockHead_headText
      (cr_statusLine hr.code_nonneg)
      (hr.cr_fieldText keepAlive keepAliveTimeout) b)
    rw [Prod.mk.injEq] at he
    obtain ⟨h1, rfl⟩ := he
    rw [parseResponseHeader_block hc, h1]
  have hbody := (hblock r.body).symm.trans hparse
  rw [hsize] at hbody
  rw [hblock, ← ParsedHeader.withLeftover_withLeftover _ r.body, hbody]
  rfl

/-- a body that is not chunked, from a buffer with nothing behind it -/
theorem readResponseBody_buffer (fuel n : Nat) (hn : n ≤ maxSize) (leftover : Bytes) :
    readResponseBody fuel n false leftover []
      = some (.returned (if 0 < n then leftover.take n else leftover)) := by
  unfold readResponseBody
  rw [if_neg (by simp)]
  by_cases h0 : 0 < n
  · rw [if_pos h0, if_pos h0, if_neg (by omega)]
    rfl
  · rw [if_neg h0, if_neg h0, List.flatten_nil, List.append_nil]

theorem readResponseBody_empty (fuel n : Nat) :
    (readResponseBody fuel n false [] []).map Outcome.body = some [] := by
  by_cases hn : n ≤ maxSize
  · rw [readResponseBody_buffer fuel n hn, List.take_nil, ite_self]
    rfl
  · unfold readResponseBody
    rw [if_neg (by simp), if_pos (by omega), if_pos (by omega)]
    rfl

/-- **A response that is cut short** is read as a part of the response that was sent, for every
number of iterations; the whole text is read as the whole response. -/
theorem readResponse_part (hr : PlainReply r) (keepAlive : Bool) (keepAliveTimeout : Nat)
    (segs : List Bytes) (hsegs : segs.flatten <+: replyText r keepAlive keepAliveTimeout) :
    ∃ r', (∀ fuel, readResponse fuel segs = some r') ∧
      PartOf (r.asRead keepAlive keepAliveTimeout) r' ∧
      (segs.flatten = replyText r keepAlive keepAliveTimeout →
        r' = r.asRead keepAlive keepAliveTimeout) := by
  rw [replyText_eq] at hsegs ⊢
  simp only [readResponse_joined _ segs]
  generalize segs.flatten = part at hsegs ⊢
  rcases Nat.lt_or_ge part.length
    (headText (statusLine r.code) (replyFields r keepAlive keepAliveTimeout)).length
    with hlt | hle
  · -- the header is not complete
    have hp := List.prefix_of_prefix_length_le hsegs (List.prefix_append _ _) hlt.le
    have hcut : cut crlf2 part = none := by
      obtain ⟨t, ht⟩ := hp
      cases hc : cut crlf2 part with
      | none => rfl
      | some s =>
        have h1 := blockHead_headText (cr_statusLine hr.code_nonneg)
          (hr.cr_fieldText keepAlive keepAliveTimeout) []
        rw [List.append_nil, ← ht, blockHead, cut_append hc t, Option.map_some,
          Option.some.injEq, Prod.mk.injEq] at h1
        -- the first CRLFCRLF is the end of the header
        rw [← ht, (List.append_eq_nil_iff.mp h1.2).2, List.append_nil] at hlt
        exact absurd hlt (lt_irrefl _)
    obtain ⟨code, hs, n, hcode, hpre, hparse⟩ := hr.parse_part hp hcut
    refine ⟨⟨code, [], hs⟩, ?_, ⟨hcode, List.nil_prefix, hpre⟩, ?_⟩
    · intro fuel
      have hbody := readResponseBody_empty fuel n
      rw [Option.map_eq_some_iff] at hbody
      obtain ⟨out, ho, hb⟩ := hbody
      rw [readResponse_single, hparse]
      simp only [ho, Option.map_some, hb]
    · intro he
      rw [he, List.length_append] at hlt
      omega
  · obtain ⟨b, rfl⟩ : headText (statusLine r.code) (replyFields r keepAlive keepAliveTimeout)
        <+: part := List.prefix_of_prefix_length_le (List.prefix_append _ _) hsegs hle
    have hb : b <+: r.body := (List.prefix_append_right_inj _).mp hsegs
    refine ⟨⟨r.code, b, (r.asRead keepAlive keepAliveTimeout).headers⟩, ?_,
      ⟨Or.inl rfl, hb, List.prefix_refl _⟩, ?_⟩
    · intro fuel
      have htake : (if 0 < r.body.length then b.take r.body.length else b) = b := by
        split
        · exact List.take_of_length_le hb.length_le
        · rfl
      rw [readResponse_single, hr.parse_whole b]
      simp only [readResponseBody_buffer fuel _ hr.body, htake, Option.map_some, Outcome.body]
    · intro he
      rw [List.append_cancel_left he]
      rfl

end ServerHttpLib
