import ServerHttpLib.Client.Model

/-!
# Segmentation does not matter to the client

Every loop of the client depends on the stash and the segments to come only through their
concatenation.  For the chunked body this is `chunkedLoop_joined`, which the other properties of
that loop use as well: they speak about one buffer that holds the whole stream.

* `fillLine_cases`, `fillTo_cases`   one line and one counted read, on the stream;
* `chunkedLoop_joined`               the chunked body;
* `headerLoop_split`                 the header does not see the body bytes behind it;
* `readResponse_segmentation`        two segmentations of one stream.
-/

namespace ServerHttpLib
open Cutting Refill

/-! ## lines and counted reads -/

theorem stable_cut (pat : Bytes) : Stable fun buf => (cut pat buf).isSome := by
  intro buf more h
  obtain ⟨r, hr⟩ := Option.isSome_iff_exists.mp h
  simp only [cut_append hr, Option.isSome_some]

/-- no line is left in the stream, or its first line is taken -/
theorem fillLine_cases (stash : Bytes) (segs : List Bytes) :
    cut crlf (stash ++ segs.flatten) = none ∧
      fillLine stash segs = (none, stash ++ segs.flatten, []) ∨
    ∃ line rest stash' segs', cut crlf (stash ++ segs.flatten) = some (line, rest) ∧
      fillLine stash segs = (some line, stash', segs') ∧ stash' ++ segs'.flatten = rest := by
  rcases refill_cases (stable_cut crlf) stash segs with ⟨hn, he⟩ | ⟨_, b, ss, he, hb, hj⟩
  · have hc : cut crlf (stash ++ segs.flatten) = none :=
      Option.not_isSome_iff_eq_none.mp (by rw [hn]; exact Bool.false_ne_true)
    refine .inl ⟨hc, ?_⟩
    simp only [fillLine, tryGetLine, he, hc]
  · obtain ⟨⟨line, rest⟩, hc⟩ := Option.isSome_iff_exists.mp hb
    refine .inr ⟨line, rest ++ ss.flatten, rest, ss, ?_, ?_, rfl⟩
    · rw [← hj, cut_append hc]
    · simp only [fillLine, tryGetLine, he, hc]

theorem fillTo_cases (n : Nat) (stash : Bytes) (segs : List Bytes) :
    (stash ++ segs.flatten).length < n ∧ fillTo n stash segs = (stash ++ segs.flatten, []) ∨
    n ≤ (stash ++ segs.flatten).length ∧ ∃ stash' segs', fillTo n stash segs = (stash', segs') ∧
      n ≤ stash'.length ∧ stash' ++ segs'.flatten = stash ++ segs.flatten := by
  rcases refill_cases (stable_le_length n) stash segs with ⟨hn, he⟩ | ⟨hy, b, ss, he, hb, hj⟩
  · exact .inl ⟨Nat.lt_of_not_le (of_decide_eq_false hn), he⟩
  · exact .inr ⟨of_decide_eq_true hy, b, ss, he, of_decide_eq_true hb, hj⟩

theorem fillTo_take (n : Nat) (stash : Bytes) (segs : List Bytes) :
    (fillTo n stash segs).1.take n = (stash ++ segs.flatten).take n := by
  rcases fillTo_cases n stash segs with ⟨_, he⟩ | ⟨_, b, ss, he, hb, hj⟩
  · rw [he]
  · rw [he, ← hj, List.take_append_of_le_length hb]

theorem fillTo_drop (n : Nat) (stash : Bytes) (segs : List Bytes) :
    (fillTo n stash segs).1.drop n ++ (fillTo n stash segs).2.flatten
      = (stash ++ segs.flatten).drop n := by
  rcases fillTo_cases n stash segs with ⟨_, he⟩ | ⟨_, b, ss, he, hb, hj⟩
  · rw [he, List.flatten_nil, List.append_nil]
  · rw [he, ← hj, List.drop_append_of_le_length hb]

/-! ## the chunked body -/

/-- what the loop over the chunks meets at the front of a stream -/
inductive Found where
  /-- it leaves the loop, with these bytes as the end of the body -/
  | stop (data : Bytes)
  | overrun
  | last (line rest : Bytes)
  | chunk (data rest : Bytes)

def findChunk (s : Bytes) : Found :=
  match cut crlf s with
  | none => .stop []
  | some (line, rest) =>
    match parseHexSizeLine line with
    | none => .stop []
    | some n =>
      if n = 0 then .last line rest
      else if rest.length < sizeT (n + 2) then .stop []
      else if 2 ^ 64 ≤ n + 2 then .overrun
      else if (rest.drop n).take 2 = crlf then .chunk (rest.take n) (rest.drop (n + 2))
      else .stop (rest.take n)

def Found.resume (fuel : Nat) (body : Bytes) : Found → Option Outcome
  | stop data => some (.returned (body ++ data))
  | overrun => some (.threw body)
  | last line rest => (trailerLoop fuel line rest []).map fun _ => .returned body
  | chunk data rest => chunkedLoop fuel (body ++ data) rest []

theorem trailerLoop_step {fuel : Nat} (ih : ∀ line stash segs,
    trailerLoop fuel line stash segs = trailerLoop fuel line (stash ++ segs.flatten) [])
    (line stash : Bytes) (segs : List Bytes) :
    trailerLoop (fuel + 1) line stash segs =
      match cut crlf (stash ++ segs.flatten) with
      | some (line', rest) => if line' = [] then some () else trailerLoop fuel line' rest []
      | none =>
        if line = [] then some () else trailerLoop fuel line (stash ++ segs.flatten) [] := by
  rcases fillLine_cases stash segs with ⟨hc, he⟩ | ⟨l, rest, b, ss, hc, he, hj⟩
  · simp only [trailerLoop, he, hc, Option.getD_none]
  · simp only [trailerLoop, he, hc, Option.getD_some]
    rw [ih, hj]

theorem trailerLoop_joined (fuel : Nat) (line stash : Bytes) (segs : List Bytes) :
    trailerLoop fuel line stash segs = trailerLoop fuel line (stash ++ segs.flatten) [] := by
  induction fuel generalizing line stash segs with
  | zero => rfl
  | succ fuel ih =>
    rw [trailerLoop_step ih, trailerLoop_step ih, List.flatten_nil, List.append_nil]

/-- one iteration of the loop over the chunks, on the stream -/
theorem chunkedLoop_step {fuel : Nat} (ih : ∀ body stash segs,
    chunkedLoop fuel body stash segs = chunkedLoop fuel body (stash ++ segs.flatten) [])
    (body stash : Bytes) (segs : List Bytes) :
    chunkedLoop (fuel + 1) body stash segs
      = (findChunk (stash ++ segs.flatten)).resume fuel body := by
  rcases fillLine_cases stash segs with ⟨hc, he⟩ | ⟨line, rest, b, ss, hc, he, hj⟩
  · simp only [chunkedLoop, findChunk, he, hc, Found.resume, List.append_nil]
  simp only [chunkedLoop, findChunk, he, hc]
  cases parseHexSizeLine line with
  | none => simp only [Found.resume, List.append_nil]
  | some n =>
    simp only
    by_cases h0 : n = 0
    · rw [if_pos h0, if_pos h0, trailerLoop_joined, hj]
      rfl
    rw [if_neg h0, if_neg h0]
    rcases fillTo_cases (sizeT (n + 2)) b ss with ⟨hl, ht⟩ | ⟨hl, b', ss', ht, hb, hj'⟩
    · rw [ht, if_pos hl, if_pos (hj ▸ hl)]
      simp only [Found.resume, List.append_nil]
    rw [hj] at hl hj'
    rw [ht, if_neg (Nat.not_lt.mpr hb), if_neg (Nat.not_lt.mpr hl)]
    by_cases hov : 2 ^ 64 ≤ n + 2
    · rw [if_pos hov, if_pos hov]
      rfl
    rw [if_neg hov, if_neg hov]
    -- the stash holds the data, and the two bytes behind it may have to be read
    have hn : n + 2 ≤ b'.length := by rwa [sizeT_of_lt (by omega)] at hb
    have ht2 := fillTo_take 2 (b'.drop n) ss'
    have hd2 := fillTo_drop 2 (b'.drop n) ss'
    have hdrop : b'.drop n ++ ss'.flatten = rest.drop n := by
      rw [← hj', List.drop_append_of_le_length (by omega)]
    have htake : b'.take n = rest.take n := by
      rw [← hj', List.take_append_of_le_length (by omega)]
    simp only [ht2, hdrop, htake]
    split
    · rw [ih, hd2, hdrop, List.drop_drop]
      rfl
    · rfl

theorem chunkedLoop_joined (fuel : Nat) (body stash : Bytes) (segs : List Bytes) :
    chunkedLoop fuel body stash segs = chunkedLoop fuel body (stash ++ segs.flatten) [] := by
  induction fuel generalizing body stash segs with
  | zero => rfl
  | succ fuel ih =>
    rw [chunkedLoop_step ih, chunkedLoop_step ih, List.flatten_nil, List.append_nil]

theorem chunkedLoop_succ (fuel : Nat) (body s : Bytes) :
    chunkedLoop (fuel + 1) body s [] = (findChunk s).resume fuel body := by
  rw [chunkedLoop_step (chunkedLoop_joined fuel), List.flatten_nil, List.append_nil]

/-! ## the header -/

theorem readResponseHeader_cases (segs : List Bytes) :
    cut crlf2 segs.flatten = none ∧ readResponseHeader segs = (segs.flatten, []) ∨
    ∃ head rest raw segs' leftover, cut crlf2 segs.flatten = some (head, rest) ∧
      readResponseHeader segs = (raw, segs') ∧ cut crlf2 raw = some (head, leftover) ∧
      leftover ++ segs'.flatten = rest := by
  have h := refill_cases (stable_cut crlf2) [] segs
  rw [List.nil_append] at h
  rcases h with ⟨hn, he⟩ | ⟨_, raw, ss, he, hb, hj⟩
  · refine .inl ⟨Option.not_isSome_iff_eq_none.mp ?_, he⟩
    rw [hn]
    exact Bool.false_ne_true
  · obtain ⟨⟨head, leftover⟩, hc⟩ := Option.isSome_iff_exists.mp hb
    refine .inr ⟨head, leftover ++ ss.flatten, raw, ss, leftover, ?_, he, hc, rfl⟩
    rw [← hj, cut_append hc]

theorem headerLoop_zero (rest : Bytes) (p : ParsedHeader) : headerLoop 0 rest p = p := by
  rw [headerLoop, if_pos rfl]

theorem headerLoop_none {limit : Nat} {rest : Bytes} (h : cut crlf rest = none)
    (p : ParsedHeader) : headerLoop limit rest p = p := by
  rw [headerLoop]
  split
  · rfl
  · split
    · rfl
    · next hs =>
      rw [h] at hs
      cases hs

theorem headerLoop_line {limit : Nat} {rest line rest' : Bytes} (h0 : limit ≠ 0)
    (h : cut crlf rest = some (line, rest')) (p : ParsedHeader) :
    headerLoop limit rest p = if limit < line.length ∨ line = [] then p
      else headerLoop (limit - (line.length + 2)) rest'
        (((p.addField line).addLength line).addEncoding line) := by
  rw [headerLoop, if_neg h0]
  split
  · next hn =>
    rw [h] at hn
    cases hn
  · next l r hs =>
    obtain ⟨rfl, rfl⟩ := cut_inj h hs
    rfl

theorem suffix_crlf_of_cut {s line rest : Bytes} (hs : crlf <:+ s)
    (h : cut crlf s = some (line, rest)) : rest = [] ∨ crlf <:+ rest := by
  obtain ⟨u, hu⟩ := hs
  have hl := cut_length h
  have he := cut_eq h
  have hlen : s.length = u.length + 2 := by rw [← hu]; simp [crlf]
  simp only [crlf, List.length_cons, List.length_nil] at hl
  rcases rest with _ | ⟨x, _ | ⟨y, rest⟩⟩
  · exact .inl rfl
  · exfalso
    -- the last two bytes would be `lf` and `x`
    have h2 : (line ++ [cr]) ++ [lf, x] = u ++ crlf := by
      rw [hu, he]
      simp [crlf]
    have h3 := (List.append_inj' h2 rfl).2
    simp only [crlf, List.cons.injEq] at h3
    exact absurd h3.1 (by decide)
  · right
    have hsuf : x :: y :: rest <:+ s := ⟨line ++ crlf, he.symm⟩
    exact List.suffix_of_suffix_length_le ⟨u, hu⟩ hsuf (by simp [crlf])

/-- the header does not see what follows it -/
theorem headerLoop_split {s : Bytes} (hs : s = [] ∨ crlf <:+ s) (t : Bytes) (p : ParsedHeader) :
    headerLoop s.length (s ++ t) p = headerLoop s.length s p := by
  induction hn : s.length using Nat.strong_induction_on generalizing s p with
  | _ n ih =>
    rcases hs with rfl | hs
    · rw [← hn, List.length_nil, headerLoop_zero, headerLoop_zero]
    obtain ⟨u, hu⟩ := hs
    have hsplit : s = u ++ crlf ++ [] := by rw [hu, List.append_nil]
    obtain ⟨⟨line, rest⟩, hc⟩ := Option.isSome_iff_exists.mp (cut_isSome_of_eq hsplit)
    have hl := cut_length hc
    simp only [crlf, List.length_cons, List.length_nil] at hl
    have h0 : n ≠ 0 := by omega
    rw [headerLoop_line h0 (cut_append hc t), headerLoop_line h0 hc]
    split
    · rfl
    · have hr : n - (line.length + 2) = rest.length := by omega
      rw [hr]
      exact ih rest.length (by omega) (suffix_crlf_of_cut ⟨u, hu⟩ hc) _ rfl

theorem splitHeader_of_cut {raw head rest : Bytes} (h : cut crlf2 raw = some (head, rest)) :
    splitHeader raw = (head ++ crlf2, rest) := by
  simp only [splitHeader, h]

theorem cut_block {raw head rest : Bytes} (h : cut crlf2 raw = some (head, rest)) :
    cut crlf2 (head ++ crlf2) = some (head, []) := by
  rw [cut_eq_some_iff]
  refine ⟨by rw [List.append_nil], fun a' b' h' => cut_min h a' (b' ++ rest) ?_⟩
  rw [cut_eq h, h']
  simp only [List.append_assoc]

def ParsedHeader.withLeftover (p : ParsedHeader) (leftover : Bytes) : ParsedHeader :=
  { p with leftover := leftover }

theorem ParsedHeader.addLine_withLeftover (p : ParsedHeader) (line leftover : Bytes) :
    (((p.withLeftover leftover).addField line).addLength line).addEncoding line
      = (((p.addField line).addLength line).addEncoding line).withLeftover leftover := by
  have hf : (p.withLeftover leftover).addField line
      = (p.addField line).withLeftover leftover := by
    unfold addField
    split <;> rfl
  have hl : ∀ q : ParsedHeader, (q.withLeftover leftover).addLength line
      = (q.addLength line).withLeftover leftover := by
    intro q
    have hc : (q.withLeftover leftover).contentLength = q.contentLength := rfl
    unfold addLength
    rw [hc]
    split <;> rfl
  have he : ∀ q : ParsedHeader, (q.withLeftover leftover).addEncoding line
      = (q.addEncoding line).withLeftover leftover := by
    intro q
    unfold addEncoding
    split <;> rfl
  rw [hf, hl, he]

theorem headerLoop_withLeftover (limit : Nat) (s : Bytes) (p : ParsedHeader) (leftover : Bytes) :
    headerLoop limit s (p.withLeftover leftover)
      = (headerLoop limit s p).withLeftover leftover := by
  induction hn : s.length using Nat.strong_induction_on generalizing limit s p with
  | _ n ih =>
    by_cases h0 : limit = 0
    · rw [h0, headerLoop_zero, headerLoop_zero]
    cases hc : cut crlf s with
    | none => rw [headerLoop_none hc, headerLoop_none hc]
    | some r =>
      obtain ⟨line, rest⟩ := r
      have hl := cut_length hc
      simp only [crlf, List.length_cons, List.length_nil] at hl
      rw [headerLoop_line h0 hc, headerLoop_line h0 hc, ParsedHeader.addLine_withLeftover]
      split
      · rfl
      · exact ih rest.length (by omega) _ _ _ rfl

/-- a complete header is parsed as if nothing had been read behind it -/
theorem parseResponseHeader_block {raw head rest : Bytes} (h : cut crlf2 raw = some (head, rest))
    (response : Response) : parseResponseHeader response raw
      = (parseResponseHeader response (head ++ crlf2)).withLeftover rest := by
  have hblock : head ++ crlf2 = head ++ crlf ++ crlf := by
    rw [List.append_assoc]
    rfl
  obtain ⟨⟨status, lines⟩, hc⟩ := Option.isSome_iff_exists.mp
    (cut_isSome_of_eq hblock)
  have hl := cut_length hc
  simp only [crlf, List.length_cons, List.length_nil] at hl
  have hcr : cut crlf raw = some (status, lines ++ rest) := by
    rw [cut_eq h]
    exact cut_append hc rest
  have hends : lines = [] ∨ crlf <:+ lines :=
    suffix_crlf_of_cut ⟨head ++ crlf, hblock.symm⟩ hc
  have hlim : (head ++ crlf2).length - (status.length + 2) = lines.length := by omega
  unfold parseResponseHeader
  rw [splitHeader_of_cut h, splitHeader_of_cut (cut_block h), hc, hcr]
  simp only [hlim]
  rw [headerLoop_split hends rest, ← headerLoop_withLeftover]
  rfl

/-! ## the body -/

theorem readCounted_eq (n : Nat) (body : Bytes) (segs : List Bytes) :
    readCounted n body segs = body ++ segs.flatten.take (n - body.length) := by
  induction segs generalizing body with
  | nil => rw [readCounted, List.flatten_nil, List.take_nil, List.append_nil]
  | cons seg segs ih =>
    rw [readCounted]
    split
    · next hlt =>
      rw [ih, List.append_assoc, List.flatten_cons, List.take_append, List.length_append,
        List.length_take]
      congr 3
      omega
    · next hge =>
      rw [show n - body.length = 0 by omega, List.take_zero, List.append_nil]

theorem readResponseBody_joined (fuel contentLength : Nat) (chunked : Bool) (leftover : Bytes)
    (segs : List Bytes) : readResponseBody fuel contentLength chunked leftover segs
      = readResponseBody fuel contentLength chunked (leftover ++ segs.flatten) [] := by
  unfold readResponseBody readResponseBodyChunked
  rw [chunkedLoop_joined]
  split
  · rfl
  split
  · split
    · rfl
    · rw [readCounted_eq, readCounted_eq, List.flatten_nil, List.take_nil, List.append_nil,
        List.take_append, List.length_take]
      congr 4
      omega
  · rw [List.flatten_nil, List.append_nil]

/-! ## responses -/

theorem readResponse_joined (fuel : Nat) (segs : List Bytes) :
    readResponse fuel segs = readResponse fuel [segs.flatten] := by
  have hwhole : readResponseHeader [segs.flatten] = (segs.flatten, []) := rfl
  rcases readResponseHeader_cases segs with
    ⟨_, he⟩ | ⟨head, rest, raw, ss, leftover, hc, he, hr, hj⟩
  · unfold readResponse
    rw [he, hwhole]
  · unfold readResponse
    rw [he, hwhole]
    simp only [parseResponseHeader_block hr, parseResponseHeader_block hc,
      ParsedHeader.withLeftover]
    rw [readResponseBody_joined, hj]

theorem trailerLoop_mono {fuel : Nat} {line stash : Bytes} {segs : List Bytes}
    (h : trailerLoop fuel line stash segs = some ()) (k : Nat) :
    trailerLoop (fuel + k) line stash segs = some () := by
  induction fuel generalizing line stash segs with
  | zero => cases h
  | succ fuel ih =>
    rw [Nat.add_right_comm]
    rw [trailerLoop] at h ⊢
    split at h
    · next hl => rw [if_pos hl]
    · next hl =>
      rw [if_neg hl]
      exact ih h

/-- a result that is there with some number of iterations is there with more -/
theorem chunkedLoop_mono {fuel : Nat} {body s : Bytes} {o : Outcome}
    (h : chunkedLoop fuel body s [] = some o) (k : Nat) :
    chunkedLoop (fuel + k) body s [] = some o := by
  induction fuel generalizing body s with
  | zero => cases h
  | succ fuel ih =>
    rw [Nat.add_right_comm]
    rw [chunkedLoop_succ] at h ⊢
    cases hf : findChunk s with
    | stop data => rwa [hf] at h
    | overrun => rwa [hf] at h
    | last line rest =>
      rw [hf, Found.resume, Option.map_eq_some_iff] at h
      obtain ⟨⟨⟩, ht, ho⟩ := h
      rw [Found.resume, trailerLoop_mono ht k, Option.map_some, ho]
    | chunk data rest =>
      rw [hf] at h
      exact ih h

theorem readResponseBodyChunked_mono {fuel : Nat} {stash : Bytes} {segs : List Bytes} {o : Outcome}
    (h : readResponseBodyChunked fuel stash segs = some o) (k : Nat) :
    readResponseBodyChunked (fuel + k) stash segs = some o := by
  unfold readResponseBodyChunked at h ⊢
  rw [chunkedLoop_joined] at h ⊢
  exact chunkedLoop_mono h k

theorem readResponse_mono {fuel : Nat} {segs : List Bytes} {r : Response}
    (h : readResponse fuel segs = some r) (k : Nat) : readResponse (fuel + k) segs = some r := by
  unfold readResponse readResponseBody at h ⊢
  simp only at h ⊢
  split at h
  · next hchunked =>
    rw [if_pos hchunked]
    rw [Option.map_eq_some_iff] at h ⊢
    obtain ⟨o, ho, hr⟩ := h
    exact ⟨o, readResponseBodyChunked_mono ho k, hr⟩
  · next hchunked => rwa [if_neg hchunked]

/-- no number of iterations is enough -/
def Diverges (segs : List Bytes) : Prop := ∀ fuel, readResponse fuel segs = none

/-- from some number of iterations on the result is `r` -/
def Produces (segs : List Bytes) (r : Response) : Prop :=
  ∃ fuel, ∀ k, readResponse (fuel + k) segs = some r

/-- **Segmentation does not matter.**  Whatever the peer sends before it closes, and however it
arrives: reading it diverges for every segmentation, or yields one and the same response. -/
theorem readResponse_segmentation {segs₁ segs₂ : List Bytes} (h : segs₁.flatten = segs₂.flatten) :
    Diverges segs₁ ∧ Diverges segs₂ ∨ ∃ r, Produces segs₁ r ∧ Produces segs₂ r := by
  have hsame : ∀ fuel, readResponse fuel segs₂ = readResponse fuel segs₁ := fun fuel => by
    rw [readResponse_joined fuel segs₁, readResponse_joined fuel segs₂, h]
  by_cases hd : Diverges segs₁
  · exact .inl ⟨hd, fun fuel => (hsame fuel).trans (hd fuel)⟩
  · obtain ⟨fuel, hf⟩ := not_forall.mp hd
    obtain ⟨r, hr⟩ := Option.ne_none_iff_exists'.mp hf
    have hr' := fun k => readResponse_mono hr k
    exact .inr ⟨r, ⟨fuel, hr'⟩, ⟨fuel, fun k => (hsame _).trans (hr' k)⟩⟩

/-- a chunked response in one segment, and cut in the header, at a size line and in the data -/
theorem readResponse_segmentation_chunked :
    Diverges [str "HTTP/1.1 200 OK\r\nTransfer-Encoding: chunked\r\n\r\n3\r\nabc\r\n0\r\n\r\n"] ∧
      Diverges [str "HTTP/1.1 200 OK\r\nTransfer-Enc", str "oding: chunked\r\n\r\n3\r",
        str "\nab", str "c\r\n0\r\n\r\n"] ∨
    ∃ r, Produces
        [str "HTTP/1.1 200 OK\r\nTransfer-Encoding: chunked\r\n\r\n3\r\nabc\r\n0\r\n\r\n"] r ∧
      Produces [str "HTTP/1.1 200 OK\r\nTransfer-Enc", str "oding: chunked\r\n\r\n3\r",
        str "\nab", str "c\r\n0\r\n\r\n"] r :=
  readResponse_segmentation (by decide)

end ServerHttpLib
