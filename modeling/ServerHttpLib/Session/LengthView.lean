import ServerHttpLib.Session.Exchanges
import ServerHttpLib.Session.HeaderView

/-!
# The length the session acts on, and the one the handlers see

The session takes the last line that starts with `Content-Length:`, anywhere in the header block,
and computes in a `size_t`.  A handler looks into the map of `get_headers`.  The two tell the same
length of a block that is plain (`PlainLength`): they differ where the number wraps, where an empty
line with a bare LF hides a field from `parse_headers`, where a blank before the name or the colon
hides it from the session, and where two spellings of the name stand side by side in the map.

* `PlainLength.visible`   for one header block;
* `length_visible`        for every request of every run.
-/

namespace ServerHttpLib
open Cutting Frames Conn

variable {σ : Type}

def isLengthLine (l : Bytes) : Bool := ciStartsWith l (str "Content-Length:")

/-- the `Content-Length` that a handler sees is the length of the body, `0` if it sees none -/
structure LengthVisible (head body : Bytes) : Prop where
  field : ∀ e ∈ (RequestIncoming.new head).getHeaders.params.entries,
    isLengthName e.1 → body.length = exactValue e.2
  absent : (∀ e ∈ (RequestIncoming.new head).getHeaders.params.entries, ¬ isLengthName e.1) →
    body.length = 0

/-- a header block with no room for a second opinion on the length of the body -/
structure PlainLength (head : Bytes) : Prop where
  /-- no length line stands behind an empty one -/
  hidden : ∀ l ∈ (fieldLines head).dropWhile (· ≠ []), isLengthLine l = false
  /-- no blank around the name -/
  blanks : ∀ f ∈ visibleFields head, isLengthName (svStrip f.1) → svStrip f.1 = f.1
  /-- one spelling -/
  spelled : ∀ f ∈ visibleFields head, ∀ g ∈ visibleFields head,
    isLengthName f.1 → isLengthName g.1 → f.1 = g.1
  /-- the number fits a `size_t` -/
  size : refLength head < 2 ^ 64

/-! ## one header block -/

theorem isLengthLine_iff (l : Bytes) :
    isLengthLine l = true ↔ ∃ f, cut [ch ':'] l = some f ∧ isLengthName f.1 := by
  have hcolon : ch ':' ∉ str "Content-Length" := by decide
  have h := ciStartsWith_field hcolon l
  have e : (str "Content-Length").map asciiLower = str "content-length" := by decide
  rw [e] at h
  exact h

/-- the last length line holds the last field whose name, as it stands, is `Content-Length` -/
theorem getLast?_isLengthLine (lines : List Bytes) :
    ((lines.filter isLengthLine).getLast?.map fun l => l.drop (str "Content-Length:").length)
      = ((lines.filterMap (cut [ch ':'])).filter fun f => isLengthName f.1).getLast?.map
          Prod.snd := by
  induction lines using List.reverseRecOn with
  | nil => rfl
  | append_singleton ls l ih =>
    rw [List.filter_append, List.filterMap_append, List.filter_append]
    cases hc : cut [ch ':'] l with
    | none =>
      have hl : ¬ isLengthLine l = true := by
        rw [isLengthLine_iff]
        rintro ⟨f, hf, -⟩
        rw [hc] at hf
        exact absurd hf (by simp)
      rw [List.filter_cons_of_neg hl, List.filterMap_cons_none hc]
      simpa using ih
    | some f =>
      rw [List.filterMap_cons_some hc, List.filterMap_nil]
      by_cases hn : isLengthName f.1
      · have hl : isLengthLine l = true := (isLengthLine_iff l).mpr ⟨f, hc, hn⟩
        have hsame : f.1.map asciiLower = (str "Content-Length").map asciiLower :=
          hn.trans (by decide)
        have hv : l.drop (str "Content-Length:").length = f.2 := drop_name hc hsame
        rw [List.filter_cons_of_pos hl, List.filter_cons_of_pos (by simpa using hn),
          List.filter_nil, List.filter_nil, List.getLast?_concat, List.getLast?_concat,
          Option.map_some, Option.map_some, hv]
      · have hl : ¬ isLengthLine l = true := by
          rw [isLengthLine_iff]
          rintro ⟨g, hg, hn'⟩
          rw [hc, Option.some.injEq] at hg
          exact hn (hg ▸ hn')
        rw [List.filter_cons_of_neg hl, List.filter_cons_of_neg (by simpa using hn),
          List.filter_nil, List.filter_nil, List.append_nil, List.append_nil]
        exact ih

theorem svStrip_of_isLengthName {n : Bytes} (hn : isLengthName n) : svStrip n = n := by
  have hmem : ∀ b ∈ n, isBlank b = false := by
    intro b hb
    have hlow : asciiLower b ∈ str "content-length" := hn ▸ List.mem_map_of_mem hb
    have hall : ∀ x ∈ str "content-length", isBlank x = false := by decide +kernel
    have h := hall _ hlow
    rwa [isBlank_asciiLower] at h
  exact svStrip_of_not_blank (fun b hb => hmem b (List.mem_of_head? hb))
    fun b hb => hmem b (List.mem_of_getLast? hb)

variable {head body : Bytes}

/-- the value that the session reads is that of the last visible field -/
theorem PlainLength.refLength_eq (hp : PlainLength head) :
    refLength head = (((visibleFields head).filter fun f => isLengthName f.1).getLast?.map
      fun f => exactValue f.2).getD 0 := by
  have hfilter : (fieldLines head).filter isLengthLine
      = (visibleLines head).filter isLengthLine := by
    have hdrop : ((fieldLines head).dropWhile (· ≠ [])).filter isLengthLine = [] :=
      List.filter_eq_nil_iff.mpr fun l hl => by simp [hp.hidden l hl]
    calc (fieldLines head).filter isLengthLine
        = (visibleLines head ++ (fieldLines head).dropWhile (· ≠ [])).filter isLengthLine := by
          rw [visibleLines, List.takeWhile_append_dropWhile]
      _ = (visibleLines head).filter isLengthLine := by
          rw [List.filter_append, hdrop, List.append_nil]
  have hlast := getLast?_isLengthLine (visibleLines head)
  have e : refLength head = (((visibleLines head).filter isLengthLine).getLast?.map
      fun l => exactValue (l.drop (str "Content-Length:").length)).getD 0 := by
    show lengthOfLines (fieldLines head) = _
    rw [← hfilter]
    have hlines : ((fieldLines head).filter fun l => ciStartsWith l (str "Content-Length:"))
        = (fieldLines head).filter isLengthLine := rfl
    unfold lengthOfLines
    rw [hlines]
    cases ((fieldLines head).filter isLengthLine).getLast? with
    | none => rfl
    | some l => rfl
  have hmap := congrArg (Option.map exactValue) hlast
  rw [Option.map_map, Option.map_map] at hmap
  rw [e]
  exact congrArg (·.getD 0) hmap

theorem PlainLength.name_iff (hp : PlainLength head) {f : Bytes × Bytes}
    (hf : f ∈ visibleFields head) : isLengthName (svStrip f.1) ↔ isLengthName f.1 := by
  constructor
  · intro h
    have he := hp.blanks f hf h
    rwa [he] at h
  · intro h
    rwa [svStrip_of_isLengthName h]

/-- the fields with the spelling of one of them are all fields of the name -/
theorem PlainLength.filter_spelled (hp : PlainLength head) {f₀ : Bytes × Bytes}
    (hf₀ : f₀ ∈ visibleFields head) (hn₀ : isLengthName f₀.1) :
    ((visibleFields head).filter fun f => isLengthName f.1)
      = (visibleFields head).filter fun f => svStrip f.1 = svStrip f₀.1 := by
  refine List.filter_congr fun f hf => ?_
  rw [decide_eq_decide]
  constructor
  · intro h
    rw [svStrip_of_isLengthName h, hp.spelled f hf f₀ hf₀ h hn₀, svStrip_of_isLengthName hn₀]
  · intro h
    rwa [← hp.name_iff hf, h, hp.name_iff hf₀]

/-- **Of a plain header block** the handlers see the length that the session acts on. -/
theorem PlainLength.visible (hp : PlainLength head) (hlf : lf ∈ head)
    (hbody : body.length = scannedLength head) : LengthVisible head body := by
  have hlen : body.length = refLength head := by
    rw [hbody]
    exact sizeT_of_lt hp.size
  constructor
  · rintro ⟨n, v⟩ he hn
    have hfind := AssocMap.find?_eq_some_iff.mpr he
    rw [getHeaders_find? hlf, Option.map_eq_some_iff] at hfind
    obtain ⟨f₀, hlast, rfl⟩ := hfind
    obtain ⟨hm₀, hs₀⟩ := List.mem_filter.mp (List.mem_of_getLast? hlast)
    have hs₀ : svStrip f₀.1 = n := by simpa using hs₀
    subst hs₀
    have hn₀ : isLengthName f₀.1 := (hp.name_iff hm₀).mp hn
    rw [hlen, hp.refLength_eq, hp.filter_spelled hm₀ hn₀, hlast]
    exact (exactValue_svStrip f₀.2).symm
  · intro hnone
    have hnil : ((visibleFields head).filter fun f => isLengthName f.1) = [] := by
      refine List.filter_eq_nil_iff.mpr fun f hf h => ?_
      have h : isLengthName f.1 := by simpa using h
      cases hfind : (RequestIncoming.new head).getHeaders.params.find? (svStrip f.1) with
      | some v =>
        refine hnone _ (AssocMap.find?_eq_some_iff.mp hfind) ?_
        show isLengthName (svStrip f.1)
        rwa [hp.name_iff hf]
      | none =>
        rw [getHeaders_find? hlf, Option.map_eq_none_iff, List.getLast?_eq_none_iff,
          List.filter_eq_nil_iff] at hfind
        exact hfind f hf (by simp)
    rw [hlen, hp.refLength_eq, hnil]
    rfl

/-! ## runs -/

/-- **In every run**, of every request with a plain header block the handler sees the length that
the session acted on, and the session acted on the length that the handler sees. -/
theorem length_visible (srv : Server σ) (ip : Bytes) (w : σ) (evs : List Event) (c : Conn σ)
    (hrun : run srv ip w evs = some c) :
    ∀ r ∈ c.dispatched, PlainLength r.1 → LengthVisible r.1 r.2 := by
  intro r hr hp
  obtain ⟨hlf, hlen⟩ := (run_settled srv hrun).mem_dispatched hr
  exact hp.visible hlf hlen

/-- the request of `exampleReads` -/
def putRequest : Bytes × Bytes := (str "PUT /a HTTP/1.1\r\nContent-Length: 2\r\n\r\n", str "hi")

theorem plainLength_putRequest : PlainLength putRequest.1 :=
  ⟨by decide +kernel, by decide +kernel, by decide +kernel, by decide +kernel⟩

set_option maxRecDepth 100000 in
theorem length_visible_put :
    ∃ c, run Server.empty [] () exampleReads = some c ∧ putRequest ∈ c.dispatched ∧
      LengthVisible putRequest.1 putRequest.2 := by
  have hs : (run Server.empty [] () exampleReads).any (fun c => putRequest ∈ c.dispatched)
      = true := by
    decide +kernel
  obtain ⟨c, hrun, hc⟩ := (Option.any_eq_true _ _).mp hs
  have hm := of_decide_eq_true hc
  exact ⟨c, hrun, hm, length_visible Server.empty [] () exampleReads c hrun putRequest hm
    plainLength_putRequest⟩

/-- a field behind an empty line that ends in a bare LF -/
def hiddenLength : Bytes × Bytes :=
  (str "GET / HTTP/1.1\r\n\nContent-Length: 5\r\n\r\n", str "hello")

set_option maxRecDepth 100000 in
/-- the session takes a body of five bytes, and the handler sees no field at all -/
theorem hidden_length_dispatched :
    ∃ c, run Server.empty [] () [.readOk (hiddenLength.1 ++ hiddenLength.2)] = some c ∧
      hiddenLength ∈ c.dispatched ∧ ¬ LengthVisible hiddenLength.1 hiddenLength.2 := by
  have hs : (run Server.empty [] () [.readOk (hiddenLength.1 ++ hiddenLength.2)]).any
      (fun c => hiddenLength ∈ c.dispatched) = true := by
    decide +kernel
  obtain ⟨c, hrun, hc⟩ := (Option.any_eq_true _ _).mp hs
  refine ⟨c, hrun, of_decide_eq_true hc, fun h => ?_⟩
  have hempty : (RequestIncoming.new hiddenLength.1).getHeaders.params.entries = [] := by
    decide +kernel
  have h0 := h.absent fun e he => absurd (hempty ▸ he) List.not_mem_nil
  exact absurd h0 (by decide)

end ServerHttpLib
