import ServerHttpLib.Client.Termination

/-!
# Chunked messages

A chunked message as a sender may write it: `SizeLine`, `Chunk` and `ChunkedMessage` carry what
makes their text well formed.  Nothing is asked of the data, which may look like any part of the
framing.

* `SizeLine.parse`   a size line has the value of its digits;
* `chunked_decode`   the client reads back the data, however the message arrives.
-/

namespace ServerHttpLib
open Cutting

/-! ## size lines -/

/-- `c` is the hexadecimal digit `d`, in lower or upper case -/
def Spells (d : Nat) (c : UInt8) : Prop :=
  (str "0123456789abcdef")[d]? = some c ∨ (str "0123456789ABCDEF")[d]? = some c

/-- the line of a chunk whose data has `n` bytes -/
structure SizeLine (n : Nat) where
  lead : Bytes
  /-- the digits, each with its value -/
  digits : List (Nat × UInt8)
  trail : Bytes
  ext : Bytes
  lead_blank : ∀ b ∈ lead, isBlank b = true
  trail_blank : ∀ b ∈ trail, isBlank b = true
  spelled : ∀ d ∈ digits, Spells d.1 d.2
  digits_ne : digits ≠ []
  digits_le : digits.length ≤ 16
  value : Numeral.value 16 (digits.map Prod.fst) = n
  /-- an extension begins with a semicolon -/
  ext_head : ext = [] ∨ ∃ e, ext = ch ';' :: e
  ext_crlf : ¬ crlf <:+: ext

def SizeLine.text {n : Nat} (l : SizeLine n) : Bytes :=
  l.lead ++ (l.digits.map Prod.snd ++ (l.trail ++ l.ext))

theorem Spells.spec {d : Nat} {c : UInt8} (h : Spells d c) :
    d < 16 ∧ hexVal c = some d ∧ c ≠ ch ';' ∧ c ≠ cr ∧ isBlank c = false := by
  have key : ∀ d : Fin 16, ∀ c : UInt8,
      c = (str "0123456789abcdef").getD d 0 ∨ c = (str "0123456789ABCDEF").getD d 0 →
      hexVal c = some d.val ∧ c ≠ ch ';' ∧ c ≠ cr ∧ isBlank c = false := by
    intro d c hc
    rcases hc with rfl | rfl <;> revert d <;> decide
  have hd : d < 16 := by
    rcases h with h | h <;> exact (List.getElem?_eq_some_iff.mp h).1
  refine ⟨hd, key ⟨d, hd⟩ c ?_⟩
  rcases h with h | h
  · exact .inl (by rw [List.getD_eq_getElem?_getD, h, Option.getD_some])
  · exact .inr (by rw [List.getD_eq_getElem?_getD, h, Option.getD_some])

/-! ## the digit loop -/

theorem hexScan_digits {ds : List (Nat × UInt8)} (hs : ∀ d ∈ ds, Spells d.1 d.2) (hne : ds ≠ [])
    (val : Nat) (any : Bool) (s : Bytes) : hexScan (val, any) (ds.map Prod.snd ++ s)
      = hexScan ((ds.map Prod.fst).foldl (fun v d => sizeT (v * 16 + d)) val, true) s := by
  induction ds generalizing val any with
  | nil => exact absurd rfl hne
  | cons d ds ih =>
    obtain ⟨_, hv, hsemi, _, _⟩ := (hs d List.mem_cons_self).spec
    rw [List.map_cons, List.cons_append, hexScan, if_neg hsemi, hv, List.map_cons, List.foldl_cons]
    by_cases hnil : ds = []
    · rw [hnil]
      rfl
    · exact ih (fun d' hd' => hs d' (List.mem_cons_of_mem _ hd')) hnil _ _

theorem isBlank_iff {b : UInt8} : isBlank b = true ↔ b = sp ∨ b = tab := by
  simp [isBlank]

theorem hexScan_blanks {l : Bytes} (hl : ∀ b ∈ l, isBlank b = true) (acc : Nat × Bool) (s : Bytes) :
    hexScan acc (l ++ s) = hexScan acc s := by
  induction l with
  | nil => rfl
  | cons b l ih =>
    have hb := hl b List.mem_cons_self
    have hother : b ≠ ch ';' ∧ hexVal b = none := by
      rcases isBlank_iff.mp hb with rfl | rfl <;> decide
    rw [List.cons_append, hexScan, if_neg hother.1, hother.2]
    exact (if_pos hb).trans (ih fun b' hb' => hl b' (List.mem_cons_of_mem _ hb'))

namespace SizeLine

variable {n : Nat}

theorem hexScan_ext (l : SizeLine n) (acc : Nat × Bool) : hexScan acc l.ext = some acc := by
  rcases l.ext_head with h | ⟨e, h⟩
  · rw [h, hexScan]
  · rw [h, hexScan, if_pos rfl]

theorem lt (l : SizeLine n) : n < 2 ^ 64 := by
  have h16 : ∀ d ∈ l.digits.map Prod.fst, d < 16 := fun d hd => by
    obtain ⟨p, hp, rfl⟩ := List.mem_map.mp hd
    exact (l.spelled p hp).spec.1
  have hlt := Numeral.value_lt h16
  rw [l.value, List.length_map] at hlt
  calc n < 16 ^ l.digits.length := hlt
    _ ≤ 16 ^ 16 := Nat.pow_le_pow_right (by norm_num) l.digits_le
    _ = 2 ^ 64 := by norm_num

theorem dropWhile_digits (l : SizeLine n) (s : Bytes) :
    (l.digits.map Prod.snd ++ s).dropWhile isBlank = l.digits.map Prod.snd ++ s := by
  cases hd : l.digits with
  | nil => exact absurd hd l.digits_ne
  | cons d ds =>
    have hb := (l.spelled d (hd ▸ List.mem_cons_self)).spec.2.2.2.2
    rw [List.map_cons, List.cons_append, List.dropWhile_cons_of_neg (by rw [hb]; simp)]

theorem parse (l : SizeLine n) : parseHexSizeLine l.text = some n := by
  have hdrop : l.text.dropWhile isBlank = l.digits.map Prod.snd ++ (l.trail ++ l.ext) := by
    unfold text
    rw [List.dropWhile_append_of_pos l.lead_blank, l.dropWhile_digits]
  have hv : (l.digits.map Prod.fst).foldl (fun v d => sizeT (v * 16 + d)) 0 = n := by
    have := Numeral.value_foldl_mod 16 (2 ^ 64) (l.digits.map Prod.fst)
    rwa [l.value, Nat.mod_eq_of_lt l.lt] at this
  unfold parseHexSizeLine
  rw [hdrop, hexScan_digits l.spelled l.digits_ne, hexScan_blanks l.trail_blank, l.hexScan_ext, hv]

/-- only the extension can hold a CR -/
theorem crlf_not_isInfix (l : SizeLine n) : ¬ crlf <:+: l.text := by
  have hlead : ∀ b ∈ l.lead, b ≠ cr := fun b hb => by
    rcases isBlank_iff.mp (l.lead_blank b hb) with rfl | rfl <;> decide
  have htrail : ∀ b ∈ l.trail, b ≠ cr := fun b hb => by
    rcases isBlank_iff.mp (l.trail_blank b hb) with rfl | rfl <;> decide
  have hdigits : ∀ b ∈ l.digits.map Prod.snd, b ≠ cr := fun b hb => by
    obtain ⟨d, hd, rfl⟩ := List.mem_map.mp hb
    exact (l.spelled d hd).spec.2.2.2.1
  have hskip : ∀ a s : Bytes, (∀ b ∈ a, b ≠ cr) → ¬ crlf <:+: s → ¬ crlf <:+: a ++ s := by
    intro a s ha hs
    induction a with
    | nil => exact hs
    | cons b a ih =>
      rw [List.cons_append, List.infix_cons_iff]
      rintro (hp | hi)
      · rw [crlf, List.cons_prefix_cons] at hp
        exact ha b List.mem_cons_self hp.1.symm
      · exact ih (fun b' hb' => ha b' (List.mem_cons_of_mem _ hb')) hi
  exact hskip _ _ hlead (hskip _ _ hdigits (hskip _ _ htrail l.ext_crlf))

theorem cut_text (l : SizeLine n) (s : Bytes) :
    cut crlf (l.text ++ crlf ++ s) = some (l.text, s) :=
  cut_of_not_isInfix unbordered_crlf l.crlf_not_isInfix s

end SizeLine

/-! ## messages -/

structure Chunk where
  data : Bytes
  data_ne : data ≠ []
  data_lt : data.length + 2 < 2 ^ 64
  line : SizeLine data.length

def Chunk.text (c : Chunk) : Bytes := c.line.text ++ crlf ++ (c.data ++ crlf)

structure ChunkedMessage where
  chunks : List Chunk
  last : SizeLine 0
  trailers : List Bytes
  trailers_ne : ∀ t ∈ trailers, t ≠ []
  trailers_crlf : ∀ t ∈ trailers, ¬ crlf <:+: t

namespace ChunkedMessage

/-- what follows the chunks -/
def ending (m : ChunkedMessage) : Bytes :=
  m.last.text ++ crlf ++ (m.trailers.flatMap (· ++ crlf) ++ crlf)

def text (m : ChunkedMessage) : Bytes := m.chunks.flatMap Chunk.text ++ m.ending

def data (m : ChunkedMessage) : Bytes := m.chunks.flatMap Chunk.data

end ChunkedMessage

theorem Chunk.chunkAt (c : Chunk) (s : Bytes) : ChunkAt (c.text ++ s) c.data s := by
  refine ⟨c.line.text, ?_, c.line.parse, c.data_ne, c.data_lt⟩
  rw [← c.line.cut_text]
  simp only [text, List.append_assoc]

theorem hasBlankLine_lines {ls : List Bytes} (hne : ∀ l ∈ ls, l ≠ [])
    (hcr : ∀ l ∈ ls, ¬ crlf <:+: l) (s : Bytes) :
    HasBlankLine (ls.flatMap (· ++ crlf) ++ crlf ++ s) := by
  induction ls with
  | nil =>
    rw [hasBlankLine_iff, List.flatMap_nil, List.nil_append]
    exact .inl (List.prefix_append _ _)
  | cons l ls ih =>
    have hc : cut crlf (l ++ crlf ++ (ls.flatMap (· ++ crlf) ++ crlf ++ s))
        = some (l, ls.flatMap (· ++ crlf) ++ crlf ++ s) :=
      cut_of_not_isInfix unbordered_crlf (hcr l List.mem_cons_self) _
    have := (hasBlankLine_of_cut hc (hne l List.mem_cons_self)).mpr
      (ih (fun l' h => hne l' (List.mem_cons_of_mem _ h))
        fun l' h => hcr l' (List.mem_cons_of_mem _ h))
    simpa only [List.flatMap_cons, List.append_assoc] using this

theorem chunkedLoop_ending (m : ChunkedMessage) (body tail : Bytes) :
    ∃ fuel, chunkedLoop fuel body (m.ending ++ tail) [] = some (.returned body) := by
  have hlast : LastAt (m.ending ++ tail) m.last.text
      (m.trailers.flatMap (· ++ crlf) ++ crlf ++ tail) := by
    refine ⟨?_, m.last.parse⟩
    rw [← m.last.cut_text]
    simp only [ChunkedMessage.ending, List.append_assoc]
  obtain ⟨fuel, hf⟩ := trailerLoop_returns m.last.text
    (hasBlankLine_lines m.trailers_ne m.trailers_crlf tail)
  refine ⟨fuel + 1, ?_⟩
  rw [chunkedLoop_succ, findChunk_of_lastAt hlast, Found.resume, hf, Option.map_some]

theorem chunkedLoop_chunks {s body' : Bytes} (cs : List Chunk) (body : Bytes) {fuel : Nat}
    (h : chunkedLoop fuel (body ++ cs.flatMap Chunk.data) s [] = some (.returned body')) :
    chunkedLoop (fuel + cs.length) body (cs.flatMap Chunk.text ++ s) []
      = some (.returned body') := by
  induction cs generalizing body with
  | nil => simpa using h
  | cons c cs ih =>
    rw [List.flatMap_cons, List.append_assoc, List.length_cons, ← Nat.add_assoc, chunkedLoop_succ,
      findChunk_of_chunkAt (c.chunkAt _), Found.resume]
    exact ih _ (by rwa [List.append_assoc, ← List.flatMap_cons])

/-- **The client decodes what a sender encodes.**  However a chunked message, with any bytes behind
it, is split into the leftover of the header and later reads, the body is the data of its chunks
in order. -/
theorem chunked_decode (m : ChunkedMessage) (tail stash : Bytes) (segs : List Bytes)
    (h : stash ++ segs.flatten = m.text ++ tail) :
    ∃ fuel, ∀ k, readResponseBodyChunked (fuel + k) stash segs = some (.returned m.data) := by
  obtain ⟨fuel, hf⟩ := chunkedLoop_ending m m.data tail
  refine ⟨fuel + m.chunks.length, fun k => readResponseBodyChunked_mono ?_ k⟩
  unfold readResponseBodyChunked
  rw [chunkedLoop_joined, h, ChunkedMessage.text, List.append_assoc]
  exact chunkedLoop_chunks m.chunks [] hf

/-- data that looks like the end of a message, cut in the size line, the data and the trailer -/
theorem chunked_decode_imitating :
    ∃ fuel, ∀ k, readResponseBodyChunked (fuel + k) (str " 0")
      [str "A ;x=0\r\n0\r\n\r", str "\n0\r\n\r\n\r\n00\r\nX: ", str "0\r\n\r\nrest"]
      = some (.returned (str "0\r\n\r\n0\r\n\r\n")) :=
  chunked_decode
    { chunks := [⟨str "0\r\n\r\n0\r\n\r\n", by decide, by decide,
        { lead := [sp], digits := [(0, ch '0'), (10, ch 'A')], trail := [sp], ext := str ";x=0"
          lead_blank := List.forall_mem_singleton.mpr rfl
          trail_blank := List.forall_mem_singleton.mpr rfl
          spelled := by simp [Spells, str, ch]
          digits_ne := by decide
          digits_le := by decide
          value := by decide
          ext_head := .inr ⟨str "x=0", by decide⟩
          ext_crlf := by decide }⟩]
      last :=
        { lead := [], digits := [(0, ch '0'), (0, ch '0')], trail := [], ext := []
          lead_blank := List.forall_mem_nil _
          trail_blank := List.forall_mem_nil _
          spelled := by simp [Spells, str, ch]
          digits_ne := by decide
          digits_le := by decide
          value := by decide
          ext_head := .inl rfl
          ext_crlf := by decide }
      trailers := [str "X: 0"]
      trailers_ne := by decide
      trailers_crlf := by decide }
    (str "rest") _ _ (by decide)

end ServerHttpLib
