import ServerHttpLib.Session.Model
import ServerHttpLib.Lib.Frames

/-!
# What the session should read: the one-shot parser

The reference cuts the stream at the first CRLFCRLF, takes the exact decimal value of the last
line that starts with `Content-Length:` behind the request line, takes that many bytes and goes on
behind them.  It is the reader `blockReader crlf2 refLength`.

* `findHeaderEnd_eq`   the search of the session finds the end of the same head;
* `scanLines_eq`       its scan computes the length, modulo `2^64`, and whether a line expects
                       `100-continue`;
* `parseHead_some`     so the session stores the head of the reference.
-/

namespace ServerHttpLib
open Cutting Frames

/-- the lines behind the request line -/
def fieldLines (head : Bytes) : List Bytes := (lfLines head).tail.map dropCr

/-- the exact value of the digits of a `Content-Length` field -/
def exactValue (v : Bytes) : Nat := Numeral.value 10 ((lengthDigits v).map digitVal)

/-- the value of the last `Content-Length:` line, `0` without one -/
def lengthOfLines (lines : List Bytes) : Nat :=
  match (lines.filter fun l => ciStartsWith l (str "Content-Length:")).getLast? with
  | none => 0
  | some l => exactValue (l.drop (str "Content-Length:").length)

def expectOfLines (lines : List Bytes) : Bool :=
  lines.any fun l => ciStartsWith l (str "Expect:")
    && expectsContinue (l.drop (str "Expect:").length)

/-- the body length that the head of a request announces -/
def refLength (head : Bytes) : Nat := lengthOfLines (fieldLines head)

def refExpect (head : Bytes) : Bool := expectOfLines (fieldLines head)

theorem crlf2_ne_nil : crlf2 ≠ [] := List.cons_ne_nil _ _

/-- the one-shot reference parser -/
def refReader : Reader UInt8 (Bytes × Bytes) := blockReader crlf2 refLength crlf2_ne_nil

/-! ## the length of a head -/

theorem lengthValue_eq (v : Bytes) : lengthValue v = sizeT (exactValue v) :=
  Numeral.value_foldl_mod 10 (2 ^ 64) ((lengthDigits v).map digitVal)

theorem ciStartsWith_lower {s lit : Bytes} (h : ciStartsWith s lit = true) :
    lit.map asciiLower <+: s.map asciiLower := by
  unfold ciStartsWith at h
  split at h
  · exact absurd h (by simp)
  · rw [beq_iff_eq] at h
    rw [← h, List.map_take]
    exact List.take_prefix _ _

/-- no line starts with both field names -/
theorem expect_of_length {l : Bytes} (h : ciStartsWith l (str "Content-Length:") = true) :
    ciStartsWith l (str "Expect:") = false := by
  by_contra hne
  obtain ⟨t, ht⟩ := ciStartsWith_lower h
  obtain ⟨u, hu⟩ := ciStartsWith_lower (Bool.eq_true_of_not_eq_false hne)
  -- they differ in the first letter
  have h1 : some (ch 'c') = some (ch 'e') := congrArg List.head? (ht.trans hu.symm)
  exact absurd h1 (by decide)

theorem scanLine_nil (acc : Nat × Bool) {l : Bytes} (h : dropCr l = []) : scanLine acc l = acc := by
  simp [scanLine, h]

theorem ciStartsWith_nil {lit : Bytes} (h : lit ≠ []) : ciStartsWith [] lit = false := by
  have : 0 < lit.length := List.length_pos_iff.mpr h
  simp [ciStartsWith, this]

/-- the accumulator of the scan is the announced length and the wish for an interim response -/
theorem scanLines_eq (lines : List Bytes) : scanLines lines
    = (sizeT (lengthOfLines (lines.map dropCr)), expectOfLines (lines.map dropCr)) := by
  induction lines using List.reverseRecOn with
  | nil => rfl
  | append_singleton ls l ih =>
    have e : scanLines (ls ++ [l]) = scanLine (scanLines ls) l := by
      simp [scanLines, List.foldl_append]
    rw [e, ih]
    simp only [lengthOfLines, expectOfLines, List.map_append, List.map_cons, List.map_nil,
      List.filter_append, List.any_append, List.any_cons, List.any_nil, Bool.or_false]
    by_cases h0 : dropCr l = []
    · have hc : ciStartsWith [] (str "Content-Length:") = false := ciStartsWith_nil (by decide)
      have he : ciStartsWith [] (str "Expect:") = false := ciStartsWith_nil (by decide)
      rw [scanLine_nil _ h0, h0]
      simp [hc, he]
    · by_cases hc : ciStartsWith (dropCr l) (str "Content-Length:") = true
      · simp [scanLine, h0, hc, expect_of_length hc, lengthValue_eq]
      · by_cases he : ciStartsWith (dropCr l) (str "Expect:") = true
        · simp [scanLine, h0, hc, he]
        · simp [scanLine, h0, hc, he]

theorem map_tail_fieldLines (head : Bytes) :
    (lfLines head).tail.map dropCr = fieldLines head := rfl

/-! ## the end of the head -/

theorem crlf2_prefix_iff (a b c d : UInt8) (rest : Bytes) :
    crlf2 <+: a :: b :: c :: d :: rest ↔ a = cr ∧ b = lf ∧ c = cr ∧ d = lf := by
  simp only [crlf2, List.cons_prefix_cons, List.nil_prefix, and_true]
  constructor <;> rintro ⟨rfl, rfl, rfl, rfl⟩ <;> exact ⟨rfl, rfl, rfl, rfl⟩

theorem cut_crlf2_short {l : Bytes} (h : l.length < 4) : cut crlf2 l = none := by
  rw [cut_eq_none_iff]
  intro hi
  have := hi.length_le
  simp only [crlf2, List.length_cons, List.length_nil] at this
  omega

/-- the search of the session is the search for the first CRLFCRLF -/
theorem findCrlf2_eq (i : Nat) (l : Bytes) :
    findCrlf2 i l = (cut crlf2 l).map fun r => i + r.1.length + 3 := by
  induction l generalizing i with
  | nil => rw [cut_crlf2_short (by simp)]; rfl
  | cons a l ih =>
    rcases l with _ | ⟨b, _ | ⟨c, _ | ⟨d, rest⟩⟩⟩
    · rw [cut_crlf2_short (by simp)]; rfl
    · rw [cut_crlf2_short (by simp)]; rfl
    · rw [cut_crlf2_short (by simp)]; rfl
    · by_cases h : a = cr ∧ b = lf ∧ c = cr ∧ d = lf
      · rw [findCrlf2, if_pos h, cut_of_isPrefix ((crlf2_prefix_iff a b c d rest).mpr h)]
        rfl
      · rw [findCrlf2, if_neg h, ih,
          cut_cons_of_not_isPrefix fun hp => h ((crlf2_prefix_iff a b c d rest).mp hp),
          Option.map_map]
        congr 1
        funext r
        simp only [Function.comp_apply, List.length_cons]
        omega

theorem findHeaderEnd_eq {s : SslSession} :
    s.findHeaderEnd = (blockHead crlf2 s.pending).map fun r => r.1.length - 1 := by
  unfold SslSession.findHeaderEnd blockHead SslSession.pending
  by_cases h4 : s.used < 4
  · have hnone : cut crlf2 (s.buf.take s.used) = none := by
      rw [cut_eq_none_iff]
      intro hi
      have h1 := hi.length_le
      have h2 := List.length_take_le s.used s.buf
      simp only [crlf2, List.length_cons, List.length_nil] at h1
      omega
    rw [if_pos h4, hnone]
    rfl
  · rw [if_neg h4, findCrlf2_eq, Option.map_map]
    congr 1
    funext r
    simp only [Function.comp_apply, List.length_append, crlf2, List.length_cons, List.length_nil]
    omega

theorem lfLines_ne_nil {l : Bytes} (h : lf ∈ l) : lfLines l ≠ [] := by
  obtain ⟨a, b, rfl, ha⟩ := List.eq_append_cons_of_mem h
  rw [lfLines_append_lf ha]
  exact List.cons_ne_nil _ _

theorem lf_mem_of_blockHead {s h r : Bytes} (hs : blockHead crlf2 s = some (h, r)) : lf ∈ h := by
  obtain ⟨⟨a, b⟩, _, he⟩ := Option.map_eq_some_iff.mp hs
  rw [Prod.mk.injEq] at he
  rw [← he.1]
  exact List.mem_append_right _ (by decide)

/-- the session before its length test, the head `h` being complete -/
def SslSession.withHead (s : SslSession) (h : Bytes) : SslSession :=
  { s with
    headersLen := h.length
    contentLength := sizeT (refLength h)
    expectContinue := refExpect h
    haveHeaders := true }

theorem parseHead_none {s : SslSession} (h : blockHead crlf2 s.pending = none) :
    s.parseHead = (false, s) := by
  unfold SslSession.parseHead
  rw [findHeaderEnd_eq, h]
  rfl

theorem take_head {s : SslSession} {h r : Bytes} (hs : blockHead crlf2 s.pending = some (h, r)) :
    s.buf.take h.length = h := by
  have h1 := blockHead_eq hs
  have h2 : h.length ≤ s.used := by
    have h3 := blockHead_length hs
    have h4 := List.length_take_le s.used s.buf
    unfold SslSession.pending at h3
    omega
  calc s.buf.take h.length = (s.buf.take s.used).take h.length := by
        rw [List.take_take, Nat.min_eq_left h2]
    _ = h := by
        show s.pending.take h.length = h
        rw [h1, List.take_left]

theorem parseHead_some {s : SslSession} {h r : Bytes}
    (hs : blockHead crlf2 s.pending = some (h, r)) : s.parseHead = (true, s.withHead h) := by
  have hpos : 1 ≤ h.length := by
    have := blockHead_sep_le hs
    simp only [crlf2, List.length_cons, List.length_nil] at this
    omega
  have hne := lfLines_ne_nil (lf_mem_of_blockHead hs)
  unfold SslSession.parseHead
  rw [findHeaderEnd_eq, hs]
  simp only [Option.map_some, Nat.sub_add_cancel hpos, take_head hs]
  cases hl : lfLines h with
  | nil => exact absurd hl hne
  | cons l lines =>
    have e : lines.map dropCr = fieldLines h := by
      rw [← map_tail_fieldLines, hl]
      rfl
    simp only [scanLines_eq, e]
    rfl

end ServerHttpLib
