import ServerHttpLib.Client.Segmentation

/-!
# When the client reads again

The client calls `read_some` as long as its loops miss something: the end of the header, the rest
of a counted body, a size line, a chunk, a trailer line, or the end of the file.  `wantsMore` says
whether it does behind the bytes received so far.  When it stops, its result is fixed: what the
peer sends behind the message is not looked at.

* `chunkedLoop_final`     the chunked body, by induction on the iterations;
* `produces_final`        the response is that for every continuation of the bytes received.
-/

namespace ServerHttpLib
open Cutting

/-! ## the loops that call `read_some` -/

/-- the trailer loop misses a line; a stash of `n` bytes holds at most `n` lines -/
def trailerWants : Nat → Bytes → Bool
  | 0, _ => true
  | n + 1, stash =>
    match tryGetLine stash with
    | none => true
    | some (line, stash) => if line = [] then false else trailerWants n stash

/-- the loop over the chunks misses a size line, a chunk or a trailer line -/
def chunkedWants : Nat → Bytes → Bool
  | 0, _ => true
  | n + 1, stash =>
    match tryGetLine stash with
    | none => true
    | some (line, stash) =>
      match parseHexSizeLine line with
      | none => false
      | some chunkSize =>
        if chunkSize = 0 then trailerWants n stash
        else if stash.length < sizeT (chunkSize + 2) then true
        -- the sum wrapped: `append` throws
        else if 2 ^ 64 ≤ chunkSize + 2 then false
        else if (stash.drop chunkSize).take 2 = crlf then
          chunkedWants n (stash.drop (chunkSize + 2))
        else false

/-- the client has received these bytes and calls `read_some` once more -/
def wantsMore (rcv : Bytes) : Bool :=
  match cut crlf2 rcv with
  | none => true
  | some _ =>
    let ph := parseResponseHeader ⟨-1, [], []⟩ rcv
    if ph.chunked then chunkedWants (rcv.length + 1) ph.leftover
    else if 0 < ph.contentLength then
      -- a length above `max_size` makes `reserve` throw
      ph.contentLength ≤ maxSize && ph.leftover.length < ph.contentLength
    else true

/-! ## the chunked body -/

theorem trailerLoop_final {n : Nat} {s : Bytes} (h : trailerWants n s = false) (line more : Bytes) :
    trailerLoop n line (s ++ more) [] = some () := by
  induction n generalizing s line with
  | zero => exact absurd h (by simp [trailerWants])
  | succ n ih =>
    unfold trailerWants tryGetLine at h
    rw [trailerLoop_step (trailerLoop_joined n), List.flatten_nil, List.append_nil]
    cases hc : cut crlf s with
    | none =>
      rw [hc] at h
      exact absurd h (by simp)
    | some r =>
      rw [hc] at h
      simp only [cut_append hc]
      by_cases hr : r.1 = []
      · rw [if_pos hr]
      · simp only [if_neg hr] at h ⊢
        exact ih h r.1

/-- where the loop stops reading it ends, in the same way for every continuation -/
theorem chunkedLoop_final {n : Nat} {s : Bytes} (h : chunkedWants n s = false) (body : Bytes) :
    ∃ out, ∀ more, chunkedLoop n body (s ++ more) [] = some out := by
  induction n generalizing s body with
  | zero => exact absurd h (by simp [chunkedWants])
  | succ n ih =>
    unfold chunkedWants tryGetLine at h
    simp only [chunkedLoop_succ]
    cases hc : cut crlf s with
    | none =>
      rw [hc] at h
      exact absurd h (by simp)
    | some r =>
      obtain ⟨line, stash⟩ := r
      simp only [hc] at h
      have hfound := fun more => cut_append hc more
      cases hp : parseHexSizeLine line with
      | none =>
        refine ⟨.returned (body ++ []), fun more => ?_⟩
        simp only [findChunk, hfound, hp, Found.resume]
      | some size =>
        simp only [hp] at h
        by_cases h0 : size = 0
        · rw [if_pos h0] at h
          refine ⟨.returned body, fun more => ?_⟩
          simp only [findChunk, hfound, hp, if_pos h0, Found.resume,
            trailerLoop_final h line more, Option.map_some]
        rw [if_neg h0] at h
        by_cases hlen : stash.length < sizeT (size + 2)
        · rw [if_pos hlen] at h
          exact absurd h (by simp)
        rw [if_neg hlen] at h
        have hlen' : ∀ more : Bytes, ¬ (stash ++ more).length < sizeT (size + 2) := by
          intro more
          rw [List.length_append]
          omega
        by_cases hov : 2 ^ 64 ≤ size + 2
        · refine ⟨.threw body, fun more => ?_⟩
          simp only [findChunk, hfound, hp, if_neg h0, if_neg (hlen' more), if_pos hov,
            Found.resume]
        rw [if_neg hov] at h
        -- the chunk and the two bytes behind it are in the stash
        have hsize : size + 2 ≤ stash.length := by
          rw [sizeT_of_lt (by omega)] at hlen
          omega
        have hdata : ∀ more : Bytes, (stash ++ more).take size = stash.take size := fun more =>
          List.take_append_of_le_length (by omega)
        have hrest : ∀ more : Bytes,
            (stash ++ more).drop (size + 2) = stash.drop (size + 2) ++ more := fun more =>
          List.drop_append_of_le_length hsize
        have hend : ∀ more : Bytes,
            ((stash ++ more).drop size).take 2 = (stash.drop size).take 2 := by
          intro more
          rw [List.drop_append_of_le_length (by omega), List.take_append_of_le_length]
          rw [List.length_drop]
          omega
        by_cases hcr : (stash.drop size).take 2 = crlf
        · rw [if_pos hcr] at h
          obtain ⟨out, ho⟩ := ih h (body ++ stash.take size)
          refine ⟨out, fun more => ?_⟩
          rw [← ho more]
          simp only [findChunk, hfound, hp, if_neg h0, if_neg (hlen' more), if_neg hov, hend,
            if_pos hcr, hdata, hrest, Found.resume]
        · refine ⟨.returned (body ++ stash.take size), fun more => ?_⟩
          simp only [findChunk, hfound, hp, if_neg h0, if_neg (hlen' more), if_neg hov, hend,
            if_neg hcr, hdata, Found.resume]

/-! ## the response -/

/-- the bytes behind a complete header are left over, whatever is behind them -/
theorem parseResponseHeader_append {rcv head rest : Bytes}
    (hc : cut crlf2 rcv = some (head, rest)) (r : Response) (more : Bytes) :
    parseResponseHeader r (rcv ++ more)
      = (parseResponseHeader r rcv).withLeftover (rest ++ more) := by
  rw [parseResponseHeader_block (cut_append hc more), parseResponseHeader_block hc]
  rfl

theorem readResponse_single (fuel : Nat) (s : Bytes) : readResponse fuel [s]
    = (readResponseBody fuel (parseResponseHeader ⟨-1, [], []⟩ s).contentLength
        (parseResponseHeader ⟨-1, [], []⟩ s).chunked (parseResponseHeader ⟨-1, [], []⟩ s).leftover
        []).map fun o => { (parseResponseHeader ⟨-1, [], []⟩ s).response with body := o.body } :=
  rfl

/-- **The result is final when the client stops reading**: whatever else the peer sends, and
however it arrives, the response is the same. -/
theorem produces_final (segs : List Bytes) (h : wantsMore segs.flatten = false) :
    ∃ r, ∀ more, Produces (segs ++ more) r := by
  generalize hrcv : segs.flatten = rcv at h
  unfold wantsMore at h
  cases hc : cut crlf2 rcv with
  | none =>
    rw [hc] at h
    exact absurd h (by simp)
  | some hr =>
    obtain ⟨head, rest⟩ := hr
    simp only [hc] at h
    have hparse := parseResponseHeader_append hc ⟨-1, [], []⟩
    have hrest : (parseResponseHeader ⟨-1, [], []⟩ rcv).leftover = rest := by
      rw [parseResponseHeader_block hc]
      rfl
    generalize parseResponseHeader ⟨-1, [], []⟩ rcv = ph at h hparse hrest
    have hbody : ∃ out, ∀ more, readResponseBody (rcv.length + 1) ph.contentLength ph.chunked
        (rest ++ more) [] = some out := by
      unfold readResponseBody readResponseBodyChunked
      by_cases hch : ph.chunked = true
      · simp only [if_pos hch]
        rw [if_pos hch, hrest] at h
        exact chunkedLoop_final h []
      · simp only [if_neg hch]
        rw [if_neg hch] at h
        by_cases hcl : 0 < ph.contentLength
        · simp only [if_pos hcl]
          rw [if_pos hcl, hrest, Bool.and_eq_false_iff, decide_eq_false_iff_not,
            decide_eq_false_iff_not] at h
          by_cases hmax : maxSize < ph.contentLength
          · exact ⟨.threw [], fun more => if_pos hmax⟩
          · have hlen : ph.contentLength ≤ rest.length := by omega
            refine ⟨.returned (rest.take ph.contentLength), fun more => ?_⟩
            rw [if_neg hmax, readCounted_eq, List.flatten_nil, List.take_nil, List.append_nil,
              List.take_append_of_le_length hlen]
        · rw [if_neg hcl] at h
          exact absurd h (by simp)
    obtain ⟨out, ho⟩ := hbody
    refine ⟨{ ph.response with body := out.body }, fun more => ⟨rcv.length + 1, fun k => ?_⟩⟩
    refine readResponse_mono ?_ k
    rw [readResponse_joined, List.flatten_append, hrcv, readResponse_single, hparse]
    show (readResponseBody _ ph.contentLength ph.chunked (rest ++ more.flatten) []).map _ = _
    rw [ho, Option.map_some]
    rfl

end ServerHttpLib
