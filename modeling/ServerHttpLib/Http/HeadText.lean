import ServerHttpLib.Http.Request
import ServerHttpLib.Lib.Frames

/-!
# The text of a request head

A head is a first line, one line for each field, and an empty line.  What the parsers of this
library find in such a text, when the fields are plain (`PlainField`):

* `blockHead_headText`     it ends at its empty line, at the first CRLFCRLF;
* `lfLines_fields`         the lines behind the first one are those of the fields;
* `getHeaders_headText`    `get_headers` assigns the fields in order;
* `get_assign_last`        so the last field of a name is the one that is found.
-/

namespace ServerHttpLib
open Cutting Frames

/-- a field line without its CRLF -/
def fieldText (f : Bytes × Bytes) : Bytes := f.1 ++ str ": " ++ f.2

def headText (line : Bytes) (fields : List (Bytes × Bytes)) : Bytes :=
  line ++ crlf ++ (fields.flatMap headerLine ++ crlf)

/-- a field that is read back from its line as it was written, up to blanks around it -/
structure PlainField (f : Bytes × Bytes) : Prop where
  name_ne : f.1 ≠ []
  colon : ch ':' ∉ f.1
  name_cr : cr ∉ f.1
  name_lf : lf ∉ f.1
  value_cr : cr ∉ f.2
  value_lf : lf ∉ f.2

/-- the name of a field is `Content-Length`, in some spelling -/
def isLengthName (n : Bytes) : Prop := n.map asciiLower = str "content-length"

instance : DecidablePred isLengthName := fun n =>
  inferInstanceAs (Decidable (n.map asciiLower = str "content-length"))

variable {line : Bytes} {fields : List (Bytes × Bytes)} {f : Bytes × Bytes}

theorem headerLine_eq (f : Bytes × Bytes) : headerLine f = fieldText f ++ crlf := rfl

theorem PlainField.cr_fieldText (hf : PlainField f) : cr ∉ fieldText f := by
  simp only [fieldText, List.mem_append, not_or]
  exact ⟨⟨hf.name_cr, by decide⟩, hf.value_cr⟩

theorem PlainField.lf_fieldText (hf : PlainField f) : lf ∉ fieldText f := by
  simp only [fieldText, List.mem_append, not_or]
  exact ⟨⟨hf.name_lf, by decide⟩, hf.value_lf⟩

theorem fieldText_ne_nil (f : Bytes × Bytes) : fieldText f ≠ [] := by
  simp [fieldText, str]

/-! ## the end of the head -/

theorem cut_crlf2_cons {b : UInt8} (hb : b ≠ cr) (s : Bytes) :
    cut crlf2 (b :: s) = (cut crlf2 s).map fun r => (b :: r.1, r.2) := by
  refine cut_cons_of_not_isPrefix fun hp => hb ?_
  simp only [crlf2, List.cons_prefix_cons] at hp
  exact hp.1.symm

theorem cut_crlf2_append {l : Bytes} (hl : cr ∉ l) (s : Bytes) :
    cut crlf2 (l ++ s) = (cut crlf2 s).map fun r => (l ++ r.1, r.2) := by
  induction l with
  | nil => simp
  | cons b l ih =>
    rw [List.mem_cons, not_or] at hl
    rw [List.cons_append, cut_crlf2_cons (Ne.symm hl.1), ih hl.2, Option.map_map]
    rfl

/-- a line end that does not begin the empty line is passed -/
theorem cut_crlf2_line {l : Bytes} (hl : cr ∉ l) {s : Bytes} (hs : ¬ [cr, lf] <+: s) :
    cut crlf2 (l ++ crlf ++ s) = (cut crlf2 s).map fun r => (l ++ crlf ++ r.1, r.2) := by
  have h1 : ¬ crlf2 <+: cr :: lf :: s := by
    simpa only [crlf2, List.cons_prefix_cons, true_and] using hs
  have h2 : cut crlf2 (crlf ++ s) = (cut crlf2 s).map fun r => (crlf ++ r.1, r.2) := by
    show cut crlf2 (cr :: lf :: s) = _
    rw [cut_cons_of_not_isPrefix h1, cut_crlf2_cons (by decide), Option.map_map]
    rfl
  rw [List.append_assoc, cut_crlf2_append hl, h2, Option.map_map]
  congr 1
  funext r
  simp only [Function.comp_apply, List.append_assoc]

theorem cut_crlf2_end {l : Bytes} (hl : cr ∉ l) (s : Bytes) :
    cut crlf2 (l ++ crlf ++ (crlf ++ s)) = some (l, s) := by
  rw [show l ++ crlf ++ (crlf ++ s) = l ++ (crlf2 ++ s) by simp [crlf, crlf2],
    cut_crlf2_append hl, cut_self_append, Option.map_some, List.append_nil]

/-- the first CRLFCRLF is the one behind the fields -/
theorem blockHead_headText (hl : cr ∉ line) (hf : ∀ f ∈ fields, cr ∉ fieldText f) (b : Bytes) :
    blockHead crlf2 (headText line fields ++ b) = some (headText line fields, b) := by
  have key : cut crlf2 (headText line fields ++ b)
      = some (line ++ fields.flatMap (fun f => crlf ++ fieldText f), b) := by
    unfold headText
    induction fields generalizing line with
    | nil =>
      rw [List.flatMap_nil, List.flatMap_nil, List.nil_append, List.append_nil, List.append_assoc]
      exact cut_crlf2_end hl b
    | cons f fs ih =>
      have hcr := hf f List.mem_cons_self
      obtain ⟨x, xs, hx⟩ := List.exists_cons_of_ne_nil (fieldText_ne_nil f)
      have e : line ++ crlf ++ ((f :: fs).flatMap headerLine ++ crlf) ++ b
          = line ++ crlf ++ (fieldText f ++ crlf ++ (fs.flatMap headerLine ++ crlf) ++ b) := by
        simp only [List.flatMap_cons, headerLine_eq, List.append_assoc]
      have hs : ¬ [cr, lf] <+: fieldText f ++ crlf ++ (fs.flatMap headerLine ++ crlf) ++ b := by
        rw [hx, List.cons_append, List.cons_append, List.cons_append, List.cons_prefix_cons]
        rintro ⟨rfl, -⟩
        exact hcr (hx ▸ List.mem_cons_self)
      rw [e, cut_crlf2_line hl hs, ih hcr fun g hg => hf g (List.mem_cons_of_mem _ hg),
        Option.map_some, List.flatMap_cons]
      simp only [List.append_assoc]
  have e : line ++ fields.flatMap (fun f => crlf ++ fieldText f) ++ crlf2
      = headText line fields := by
    unfold headText
    clear hf hl key
    induction fields generalizing line with
    | nil => simp [crlf, crlf2]
    | cons f fs ih =>
      rw [List.flatMap_cons, ← List.append_assoc, ih, List.flatMap_cons, headerLine_eq]
      simp only [List.append_assoc]
  rw [blockHead, key, Option.map_some, e]

/-! ## the lines of the fields -/

theorem lfLines_fields (hf : ∀ f ∈ fields, lf ∉ fieldText f) :
    lfLines (fields.flatMap headerLine ++ crlf)
      = fields.map (fun f => fieldText f ++ [cr]) ++ [[cr]] := by
  induction fields with
  | nil => decide
  | cons f fs ih =>
    rw [List.flatMap_cons, headerLine_eq, List.append_assoc,
      lfLines_crlf (hf f List.mem_cons_self),
      ih fun g hg => hf g (List.mem_cons_of_mem _ hg)]
    rfl

theorem map_dropCr_fields (hf : ∀ f ∈ fields, lf ∉ fieldText f) :
    (lfLines (fields.flatMap headerLine ++ crlf)).map dropCr = fields.map fieldText ++ [[]] := by
  rw [lfLines_fields hf, List.map_append, List.map_map]
  congr 1
  exact List.map_congr_left fun f _ => dropCr_append_cr _

/-! ## reading the fields -/

/-- the assignment that a field line makes -/
def assignField (p : Params) (f : Bytes × Bytes) : Params := p.set (svStrip f.1) (svStrip f.2)

theorem cut_fieldText (hf : ch ':' ∉ f.1) : cut [ch ':'] (fieldText f) = some (f.1, sp :: f.2) := by
  unfold fieldText
  rw [List.append_assoc]
  exact cut_of_mem_free hf _

/-- the fields of a head: name and value of the lines behind the first one, cut at the colon -/
def headFields (head : Bytes) : List (Bytes × Bytes) :=
  ((lfLines head).map dropCr).tail.filterMap (cut [ch ':'])

theorem headFields_headText (hl : lf ∉ line) (hlf : ∀ f ∈ fields, lf ∉ fieldText f)
    (hcolon : ∀ f ∈ fields, ch ':' ∉ f.1) :
    headFields (headText line fields) = fields.map fun f => (f.1, sp :: f.2) := by
  have hcut : (fields.map fieldText).filterMap (cut [ch ':'])
      = fields.map fun f => (f.1, sp :: f.2) := by
    rw [List.filterMap_map, ← List.filterMap_eq_map]
    exact List.filterMap_congr fun f hf => cut_fieldText (hcolon f hf)
  unfold headFields headText
  rw [lfLines_crlf hl, List.map_cons, List.tail_cons, map_dropCr_fields hlf,
    List.filterMap_append, hcut]
  exact List.append_nil _

theorem setHeaderLine_fieldText (hf : PlainField f) (p : Params) :
    RequestIncoming.setHeaderLine p (fieldText f) = assignField p f := by
  unfold RequestIncoming.setHeaderLine
  rw [cut_fieldText hf.colon]
  show p.set (svStrip f.1) (svStrip (sp :: f.2)) = _
  rw [svStrip_cons_blank (by decide)]
  rfl

theorem parseHeader_headText (hl : lf ∉ line) (r : RequestIncoming)
    (hr : r.header = headText line fields) :
    r.parseHeader = { ({ r with method := strToMethod (requestLine line).1 }).setTarget
      (requestLine line).2 with headersPos := some (line.length + 1) } := by
  have hcut : cut [lf] r.header = some (line ++ [cr], fields.flatMap headerLine ++ crlf) := by
    rw [hr]
    have h : lf ∉ line ++ [cr] := by
      rw [List.mem_append, List.mem_singleton]
      exact not_or.mpr ⟨hl, by decide⟩
    have e : headText line fields
        = (line ++ [cr]) ++ lf :: (fields.flatMap headerLine ++ crlf) := by
      simp [headText, crlf]
    rw [e]
    exact cut_of_mem_free h _
  unfold RequestIncoming.parseHeader
  rw [hcut]
  simp only [dropCr_append_cr, List.length_append, List.length_singleton]

theorem getHeaders_headText (line : Bytes) (hf : ∀ f ∈ fields, PlainField f) (r : RequestIncoming)
    (hr : r.header = headText line fields) (hpos : r.headersPos = some (line.length + 1))
    (hempty : r.headers = .empty) : r.getHeaders = fields.foldl assignField .empty := by
  have hdrop : r.header.drop (line.length + 1 + 1) = fields.flatMap headerLine ++ crlf := by
    rw [hr, headText, show line.length + 1 + 1 = (line ++ crlf).length by simp [crlf],
      List.drop_left]
  have hlen : ¬ r.header.length ≤ line.length + 1 := by
    rw [hr, headText]
    simp only [List.length_append, crlf, List.length_cons, List.length_nil]
    omega
  have htake : (fields.map fieldText ++ [[]]).takeWhile (· ≠ []) = fields.map fieldText := by
    rw [List.takeWhile_append_of_pos]
    · simp
    · intro l hl
      obtain ⟨f, -, rfl⟩ := List.mem_map.mp hl
      exact decide_eq_true (fieldText_ne_nil f)
  have hfold : (fields.map fieldText).foldl RequestIncoming.setHeaderLine Params.empty
      = fields.foldl assignField .empty := by
    rw [List.foldl_map]
    exact List.foldl_ext _ _ _ fun p f hm => setHeaderLine_fieldText (hf f hm) p
  unfold RequestIncoming.getHeaders
  rw [if_pos (by rw [hempty]; rfl), RequestIncoming.parseHeaders, hpos]
  have hlines := map_dropCr_fields fun f hm => (hf f hm).lf_fieldText
  simp only [hlen, if_false, hdrop, hlines, htake, hempty, hfold]

theorem get_assign_of_ne {n : Bytes} (hn : ∀ f ∈ fields, n ≠ svStrip f.1) (p : Params) :
    (fields.foldl assignField p).get n = p.get n := by
  induction fields generalizing p with
  | nil => rfl
  | cons f fs ih =>
    rw [List.foldl_cons, ih fun g hg => hn g (List.mem_cons_of_mem _ hg), assignField,
      Params.get_set, if_neg (hn f List.mem_cons_self)]

/-- the last assignment to a name is the one that is found -/
theorem get_assign_last (before after : List (Bytes × Bytes)) (f : Bytes × Bytes) {n : Bytes}
    (hn : n = svStrip f.1) (ha : ∀ g ∈ after, n ≠ svStrip g.1) (p : Params) :
    ((before ++ f :: after).foldl assignField p).get n = svStrip f.2 := by
  rw [List.foldl_append, List.foldl_cons, get_assign_of_ne ha, assignField, Params.get_set,
    if_pos hn]

end ServerHttpLib
