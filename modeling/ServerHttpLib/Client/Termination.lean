import Mathlib.Logic.Relation
import ServerHttpLib.Client.Segmentation

/-!
# Where the chunked body ends

The loop over the chunks consumes what it reads, so a finite stream ends it, with one exception.
Behind a size line of value zero the trailers are read until a line is empty.  At end-of-file the
inner loop is left, but not the outer one: `line` keeps the last line that was read, and when
that is not empty the test for an empty line never succeeds.

* `trailerLoop_returns`       the trailers end when they hold an empty line;
* `trailerLoop_diverges`      and only then;
* `chunked_returns_iff`       when the chunked body is read to its end;
* `chunked_diverges`          end-of-file right behind the zero-size line.
-/

namespace ServerHttpLib
open Cutting

/-! ## trailers -/

/-- an empty line is among the lines of `s`, which begins behind a CRLF -/
def HasBlankLine (s : Bytes) : Prop := crlf2 <:+: crlf ++ s

theorem hasBlankLine_iff {s : Bytes} : HasBlankLine s ↔ crlf <+: s ∨ crlf2 <:+: s := by
  have h1 : crlf2 <+: cr :: lf :: s ↔ crlf <+: s := by
    simp [crlf2, crlf, List.cons_prefix_cons]
  have h2 : ¬ crlf2 <+: lf :: s := by
    intro h
    rw [crlf2, List.cons_prefix_cons] at h
    exact absurd h.1 (by decide)
  show crlf2 <:+: cr :: lf :: s ↔ _
  rw [List.infix_cons_iff, List.infix_cons_iff, h1, or_iff_right h2]

theorem hasBlankLine_of_cut {s line rest : Bytes} (h : cut crlf s = some (line, rest))
    (hl : line ≠ []) : HasBlankLine s ↔ HasBlankLine rest := by
  have hfirst : ¬ crlf <+: s := by
    rintro ⟨v, hv⟩
    have := cut_min h [] v hv.symm
    exact hl (List.length_eq_zero_iff.mp (Nat.le_zero.mp this))
  rw [hasBlankLine_iff, or_iff_right hfirst]
  constructor
  · rintro ⟨u, v, huv⟩
    have hs : s = u ++ crlf ++ (crlf ++ v) := by
      rw [← huv, show crlf2 = crlf ++ crlf from rfl]
      simp only [List.append_assoc]
    rw [hasBlankLine_iff]
    rcases cut_later unbordered_crlf h hs with hr | ⟨m, hr⟩
    · exact .inl ⟨v, hr⟩
    · refine .inr ⟨m, v, ?_⟩
      rw [hr, show crlf2 = crlf ++ crlf from rfl]
      simp only [List.append_assoc]
  · rintro ⟨u, v, huv⟩
    refine ⟨line ++ u, v, ?_⟩
    rw [cut_eq h, List.append_assoc line crlf, ← huv]
    simp only [List.append_assoc]

theorem hasBlankLine_of_cut_nil {s rest : Bytes} (h : cut crlf s = some ([], rest)) :
    HasBlankLine s := by
  rw [hasBlankLine_iff]
  exact .inl ⟨rest, (cut_eq h).symm⟩

theorem not_hasBlankLine_of_cut {s : Bytes} (h : cut crlf s = none) : ¬ HasBlankLine s := by
  rw [cut_eq_none_iff] at h
  rw [hasBlankLine_iff]
  rintro (hp | hi)
  · exact h hp.isInfix
  · have hc : crlf <:+: crlf2 := ⟨[], crlf, rfl⟩
    exact h (hc.trans hi)

theorem trailerLoop_succ (fuel : Nat) (line s : Bytes) :
    trailerLoop (fuel + 1) line s [] =
      match cut crlf s with
      | some (line', rest) => if line' = [] then some () else trailerLoop fuel line' rest []
      | none => if line = [] then some () else trailerLoop fuel line s [] := by
  have h := trailerLoop_step (trailerLoop_joined fuel) line s []
  rwa [List.flatten_nil, List.append_nil] at h

/-- without an empty line the last line stays in `line`, and the loop goes on -/
theorem trailerLoop_diverges {line s : Bytes} (hl : line ≠ []) (hs : ¬ HasBlankLine s)
    (fuel : Nat) : trailerLoop fuel line s [] = none := by
  induction fuel generalizing line s with
  | zero => rfl
  | succ fuel ih =>
    rw [trailerLoop_succ]
    cases hc : cut crlf s with
    | none =>
      simp only
      rw [if_neg hl]
      exact ih hl hs
    | some r =>
      obtain ⟨line', rest⟩ := r
      have hl' : line' ≠ [] := by
        rintro rfl
        exact hs (hasBlankLine_of_cut_nil hc)
      simp only
      rw [if_neg hl']
      exact ih hl' (mt (hasBlankLine_of_cut hc hl').mpr hs)

theorem trailerLoop_returns (line : Bytes) {s : Bytes} (hs : HasBlankLine s) :
    ∃ fuel, trailerLoop fuel line s [] = some () := by
  induction hn : s.length using Nat.strong_induction_on generalizing line s with
  | _ n ih =>
    cases hc : cut crlf s with
    | none => exact absurd hs (not_hasBlankLine_of_cut hc)
    | some r =>
      obtain ⟨line', rest⟩ := r
      by_cases hl' : line' = []
      · refine ⟨1, ?_⟩
        rw [trailerLoop_succ, hc]
        simp only
        rw [if_pos hl']
      · have hlen := cut_length hc
        simp only [crlf, List.length_cons, List.length_nil] at hlen
        obtain ⟨fuel, hf⟩ := ih rest.length (by omega) line'
          ((hasBlankLine_of_cut hc hl').mp hs) rfl
        refine ⟨fuel + 1, ?_⟩
        rw [trailerLoop_succ, hc]
        simp only
        rw [if_neg hl', hf]

/-! ## what a stream can hold at its front -/

/-- a size line, its data and a CRLF -/
def ChunkAt (s data rest : Bytes) : Prop :=
  ∃ line, cut crlf s = some (line, data ++ crlf ++ rest) ∧
    parseHexSizeLine line = some data.length ∧ data ≠ [] ∧ data.length + 2 < 2 ^ 64

/-- a size line of value zero -/
def LastAt (s line rest : Bytes) : Prop :=
  cut crlf s = some (line, rest) ∧ parseHexSizeLine line = some 0

/-- a size line whose value plus two wraps, with as many bytes behind it as the sum wraps to -/
def OverrunAt (s : Bytes) : Prop :=
  ∃ line rest n, cut crlf s = some (line, rest) ∧ parseHexSizeLine line = some n ∧
    2 ^ 64 ≤ n + 2 ∧ sizeT (n + 2) ≤ rest.length

theorem findChunk_of_chunkAt {s data rest : Bytes} (h : ChunkAt s data rest) :
    findChunk s = .chunk data rest := by
  obtain ⟨line, hc, hp, hd, hlt⟩ := h
  have h0 : data.length ≠ 0 := fun e => hd (List.length_eq_zero_iff.mp e)
  have hlen : (data ++ crlf ++ rest).length = data.length + 2 + rest.length := by
    simp [crlf]; omega
  have hdrop : (data ++ crlf ++ rest).drop data.length = crlf ++ rest := by
    rw [List.append_assoc, List.drop_left]
  have htake : (data ++ crlf ++ rest).take data.length = data := by
    rw [List.append_assoc, List.take_left]
  have hrest : (data ++ crlf ++ rest).drop (data.length + 2) = rest := by
    rw [← List.drop_drop, hdrop]
    rfl
  simp only [findChunk, hc, hp, if_neg h0, sizeT_of_lt hlt]
  rw [if_neg (by omega), if_neg (by omega), hdrop, htake, hrest]
  exact if_pos rfl

theorem findChunk_of_lastAt {s line rest : Bytes} (h : LastAt s line rest) :
    findChunk s = .last line rest := by
  simp only [findChunk, h.1, h.2, if_true]

theorem findChunk_of_overrunAt {s : Bytes} (h : OverrunAt s) : findChunk s = .overrun := by
  obtain ⟨line, rest, n, hc, hp, hn, hl⟩ := h
  simp only [findChunk, hc, hp, if_neg (by omega : n ≠ 0), if_neg (Nat.not_lt.mpr hl), if_pos hn]

theorem findChunk_sound (s : Bytes) :
    (∃ data, findChunk s = .stop data) ∨ findChunk s = .overrun ∧ OverrunAt s ∨
    (∃ line rest, findChunk s = .last line rest ∧ LastAt s line rest) ∨
    ∃ data rest, findChunk s = .chunk data rest ∧ ChunkAt s data rest := by
  unfold findChunk
  cases hc : cut crlf s with
  | none => exact .inl ⟨[], rfl⟩
  | some r =>
    obtain ⟨line, rest⟩ := r
    cases hp : parseHexSizeLine line with
    | none =>
      simp only [hp]
      exact .inl ⟨[], rfl⟩
    | some n =>
      simp only [hp]
      by_cases h0 : n = 0
      · rw [if_pos h0]
        exact .inr (.inr (.inl ⟨line, rest, rfl, hc, by rw [hp, h0]⟩))
      rw [if_neg h0]
      by_cases hl : rest.length < sizeT (n + 2)
      · rw [if_pos hl]
        exact .inl ⟨[], rfl⟩
      rw [if_neg hl]
      by_cases hov : 2 ^ 64 ≤ n + 2
      · rw [if_pos hov]
        exact .inr (.inl ⟨rfl, line, rest, n, hc, hp, hov, Nat.le_of_not_lt hl⟩)
      rw [if_neg hov]
      by_cases he : (rest.drop n).take 2 = crlf
      · rw [if_pos he]
        rw [sizeT_of_lt (by omega)] at hl
        have hlen : (rest.take n).length = n := by
          rw [List.length_take]; omega
        have hsplit : rest.take n ++ crlf ++ rest.drop (n + 2) = rest := by
          rw [← he, ← List.drop_drop, List.append_assoc, List.take_append_drop,
            List.take_append_drop]
        refine .inr (.inr (.inr ⟨_, _, rfl, line, by rw [hc, hsplit], by rw [hp, hlen], ?_, ?_⟩))
        · intro hnil
          rw [hnil, List.length_nil] at hlen
          exact h0 hlen.symm
        · omega
      · rw [if_neg he]
        exact .inl ⟨_, rfl⟩

theorem ChunkAt.length_lt {s data rest : Bytes} (h : ChunkAt s data rest) :
    rest.length < s.length := by
  obtain ⟨line, hc, _⟩ := h
  have hlen := cut_length hc
  simp only [crlf, List.length_append, List.length_cons, List.length_nil] at hlen
  omega

theorem LastAt.line_ne_nil {s line rest : Bytes} (h : LastAt s line rest) : line ≠ [] := by
  rintro rfl
  exact absurd h.2 (by decide)

/-! ## whole streams -/

/-- `s'` is what is left of `s` behind some whole chunks -/
def Reaches : Bytes → Bytes → Prop :=
  Relation.ReflTransGen fun s rest => ∃ data, ChunkAt s data rest

/-- behind the chunks stands a size line of value zero, and no empty line behind that -/
def OpenTrailer (s : Bytes) : Prop :=
  ∃ s' line rest, Reaches s s' ∧ LastAt s' line rest ∧ ¬ HasBlankLine rest

/-- behind the chunks stands a size line whose value plus two wraps -/
def Overruns (s : Bytes) : Prop := ∃ s', Reaches s s' ∧ OverrunAt s'

theorem OpenTrailer.of_chunk {s data rest : Bytes} (hc : ChunkAt s data rest)
    (h : OpenTrailer rest) : OpenTrailer s := by
  obtain ⟨s', line, rest', hr, hl, hb⟩ := h
  exact ⟨s', line, rest', .head ⟨data, hc⟩ hr, hl, hb⟩

theorem Overruns.of_chunk {s data rest : Bytes} (hc : ChunkAt s data rest) (h : Overruns rest) :
    Overruns s := by
  obtain ⟨s', hr, ho⟩ := h
  exact ⟨s', .head ⟨data, hc⟩ hr, ho⟩

theorem chunkedLoop_of_openTrailer {s : Bytes} (h : OpenTrailer s) (fuel : Nat) (body : Bytes) :
    chunkedLoop fuel body s [] = none := by
  obtain ⟨s', line, rest, hr, hl, hb⟩ := h
  induction hr using Relation.ReflTransGen.head_induction_on generalizing fuel body with
  | refl =>
    cases fuel with
    | zero => rfl
    | succ fuel =>
      rw [chunkedLoop_succ, findChunk_of_lastAt hl, Found.resume,
        trailerLoop_diverges hl.line_ne_nil hb, Option.map_none]
  | head hstep _ ih =>
    cases fuel with
    | zero => rfl
    | succ fuel =>
      obtain ⟨data, hc⟩ := hstep
      rw [chunkedLoop_succ, findChunk_of_chunkAt hc]
      exact ih fuel _

theorem chunkedLoop_of_overruns {s : Bytes} (h : Overruns s) (fuel : Nat) (body body' : Bytes) :
    chunkedLoop fuel body s [] ≠ some (.returned body') := by
  obtain ⟨s', hr, ho⟩ := h
  induction hr using Relation.ReflTransGen.head_induction_on generalizing fuel body with
  | refl =>
    cases fuel with
    | zero => simp [chunkedLoop]
    | succ fuel =>
      rw [chunkedLoop_succ, findChunk_of_overrunAt ho]
      simp [Found.resume]
  | head hstep _ ih =>
    cases fuel with
    | zero => simp [chunkedLoop]
    | succ fuel =>
      obtain ⟨data, hc⟩ := hstep
      rw [chunkedLoop_succ, findChunk_of_chunkAt hc]
      exact ih fuel _

/-- each whole chunk makes the stream shorter; what is not a whole chunk ends the loop -/
theorem chunkedLoop_ends (s body : Bytes) : OpenTrailer s ∨
    (Overruns s ∧ ∃ fuel, chunkedLoop fuel body s [] ≠ none) ∨
    ∃ fuel body', chunkedLoop fuel body s [] = some (.returned body') := by
  induction hn : s.length using Nat.strong_induction_on generalizing s body with
  | _ n ih =>
    rcases findChunk_sound s with
      ⟨data, hf⟩ | ⟨hf, ho⟩ | ⟨line, rest, hf, hl⟩ | ⟨data, rest, hf, hc⟩
    · refine .inr (.inr ⟨1, body ++ data, ?_⟩)
      rw [chunkedLoop_succ, hf, Found.resume]
    · refine .inr (.inl ⟨⟨s, .refl, ho⟩, 1, ?_⟩)
      rw [chunkedLoop_succ, hf]
      simp [Found.resume]
    · by_cases hb : HasBlankLine rest
      · obtain ⟨fuel, ht⟩ := trailerLoop_returns line hb
        refine .inr (.inr ⟨fuel + 1, body, ?_⟩)
        rw [chunkedLoop_succ, hf, Found.resume, ht, Option.map_some]
      · exact .inl ⟨s, line, rest, .refl, hl, hb⟩
    · have hsucc : ∀ fuel, chunkedLoop (fuel + 1) body s []
          = chunkedLoop fuel (body ++ data) rest [] := by
        intro fuel
        rw [chunkedLoop_succ, hf, Found.resume]
      rcases ih rest.length (hn ▸ hc.length_lt) rest (body ++ data) rfl with
        hO | ⟨hO, fuel, he⟩ | ⟨fuel, body', he⟩
      · exact .inl (hO.of_chunk hc)
      · exact .inr (.inl ⟨hO.of_chunk hc, fuel + 1, by rwa [hsucc]⟩)
      · exact .inr (.inr ⟨fuel + 1, body', by rwa [hsucc]⟩)

/-- **When the chunked body ends.**  For every stream and segmentation: reading it comes to an end
if and only if no zero-size line without an empty line behind it is reached, and it returns,
rather than throws, if and only if moreover no size line is reached whose value plus two wraps. -/
theorem chunked_returns_iff (stash : Bytes) (segs : List Bytes) :
    ((∃ fuel, readResponseBodyChunked fuel stash segs ≠ none) ↔
      ¬ OpenTrailer (stash ++ segs.flatten)) ∧
    ((∃ fuel body, readResponseBodyChunked fuel stash segs = some (.returned body)) ↔
      ¬ OpenTrailer (stash ++ segs.flatten) ∧ ¬ Overruns (stash ++ segs.flatten)) := by
  simp only [readResponseBodyChunked, chunkedLoop_joined _ [] stash segs]
  have hends := chunkedLoop_ends (stash ++ segs.flatten) []
  refine ⟨⟨?_, ?_⟩, ⟨?_, ?_⟩⟩
  · rintro ⟨fuel, hf⟩ hO
    exact hf (chunkedLoop_of_openTrailer hO fuel [])
  · intro hO
    rcases hends with h | ⟨_, h⟩ | ⟨fuel, body, h⟩
    · exact absurd h hO
    · exact h
    · exact ⟨fuel, by rw [h]; exact Option.some_ne_none _⟩
  · rintro ⟨fuel, body, hf⟩
    refine ⟨fun hO => ?_, fun hO => chunkedLoop_of_overruns hO fuel [] body hf⟩
    rw [chunkedLoop_of_openTrailer hO] at hf
    cases hf
  · rintro ⟨hO, hR⟩
    rcases hends with h | ⟨h, _⟩ | h
    · exact absurd h hO
    · exact absurd h hR
    · exact h

/-- end-of-file right behind the zero-size line -/
theorem chunked_diverges :
    ¬ ∃ fuel, readResponseBodyChunked fuel [] [str "3\r\nabc\r\n0\r\n"] ≠ none := by
  rintro ⟨fuel, hf⟩
  refine hf ?_
  have hb : ¬ HasBlankLine [] := fun h => absurd (List.IsInfix.length_le h) (by decide)
  have hlast : OpenTrailer (str "0\r\n") := ⟨_, str "0", [], .refl, ⟨by decide, by decide⟩, hb⟩
  have hchunk : ChunkAt (str "3\r\nabc\r\n0\r\n") (str "abc") (str "0\r\n") :=
    ⟨str "3", by decide, by decide, by decide, by decide⟩
  unfold readResponseBodyChunked
  rw [chunkedLoop_joined]
  exact chunkedLoop_of_openTrailer (hlast.of_chunk hchunk) fuel []

end ServerHttpLib
