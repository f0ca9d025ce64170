import ServerHttpLib.Session.Reference
import ServerHttpLib.Http.HeadText

/-!
# A header block, as the handlers see it

The session scans every line of a header block behind the request line.  `parse_headers` stops at
the first empty line, splits a line at its first colon and keeps, for each spelling of a name, the
last value.

* `getHeaders_new`        `get_headers` assigns the fields of the visible lines in order;
* `getHeaders_find?`      so the last field of a name is the one that is found;
* `ciStartsWith_field`    the session takes a line for a field of some name if its name is that
                          one, ignoring case, with no blank before or behind it;
* `exactValue_svStrip`    blanks around a value do not matter to its digits.
-/

namespace ServerHttpLib
open Cutting Frames

/-- the lines that `parse_headers` goes over -/
def visibleLines (head : Bytes) : List Bytes := (fieldLines head).takeWhile (· ≠ [])

/-- name and value of the visible lines that have a colon -/
def visibleFields (head : Bytes) : List (Bytes × Bytes) :=
  (visibleLines head).filterMap (cut [ch ':'])

/-! ## the map of `get_headers` -/

theorem foldl_setHeaderLine (lines : List Bytes) (p : Params) :
    lines.foldl RequestIncoming.setHeaderLine p
      = (lines.filterMap (cut [ch ':'])).foldl assignField p := by
  induction lines generalizing p with
  | nil => rfl
  | cons l lines ih =>
    rw [List.foldl_cons, ih]
    cases hc : cut [ch ':'] l with
    | none =>
      rw [List.filterMap_cons_none hc]
      unfold RequestIncoming.setHeaderLine
      rw [hc]
    | some f =>
      rw [List.filterMap_cons_some hc, List.foldl_cons]
      unfold RequestIncoming.setHeaderLine
      rw [hc]
      rfl

theorem setTarget_frame (r : RequestIncoming) (target : Bytes) :
    (r.setTarget target).header = r.header ∧ (r.setTarget target).headers = r.headers := by
  unfold RequestIncoming.setTarget
  split
  · exact ⟨rfl, rfl⟩
  · split
    · exact ⟨rfl, rfl⟩
    · exact ⟨rfl, rfl⟩

theorem new_eq {a b : Bytes} (ha : lf ∉ a) : RequestIncoming.new (a ++ lf :: b)
    = { ({ header := a ++ lf :: b, method := strToMethod (requestLine (dropCr a)).1 } :
          RequestIncoming).setTarget (requestLine (dropCr a)).2 with
        headersPos := some a.length } := by
  unfold RequestIncoming.new RequestIncoming.parseHeader
  simp only [cut_of_mem_free ha]

theorem fieldLines_eq {a b : Bytes} (ha : lf ∉ a) :
    fieldLines (a ++ lf :: b) = (lfLines b).map dropCr := by
  unfold fieldLines
  rw [lfLines_append_lf ha, List.tail_cons]

/-- `get_headers` assigns the visible fields, one after the other -/
theorem getHeaders_new {head : Bytes} (h : lf ∈ head) :
    (RequestIncoming.new head).getHeaders = (visibleFields head).foldl assignField .empty := by
  obtain ⟨a, b, rfl, ha⟩ := List.eq_append_cons_of_mem h
  have hheaders : (RequestIncoming.new (a ++ lf :: b)).headers = .empty := by
    rw [new_eq ha]
    exact (setTarget_frame _ _).2
  have hheader : (RequestIncoming.new (a ++ lf :: b)).header = a ++ lf :: b := by
    rw [new_eq ha]
    exact (setTarget_frame _ _).1
  have hpos : (RequestIncoming.new (a ++ lf :: b)).headersPos = some a.length := by rw [new_eq ha]
  have hlen : ¬ (a ++ lf :: b).length ≤ a.length := by
    rw [List.length_append, List.length_cons]
    omega
  have hdrop : (a ++ lf :: b).drop (a.length + 1) = b := by
    rw [← List.drop_drop, List.drop_left, List.drop_one, List.tail_cons]
  unfold RequestIncoming.getHeaders
  rw [if_pos (by rw [hheaders]; rfl), RequestIncoming.parseHeaders, hpos]
  simp only [hheader, hheaders, hlen, if_false, hdrop, foldl_setHeaderLine]
  rw [visibleFields, visibleLines, fieldLines_eq ha]

theorem getHeaders_set (r : RequestIncoming) (ip data : Bytes) :
    ((r.setUserIp ip).setData data).getHeaders = r.getHeaders := by
  unfold RequestIncoming.getHeaders RequestIncoming.parseHeaders RequestIncoming.setData
    RequestIncoming.setUserIp
  cases hp : r.headersPos with
  | none => simp only
  | some nl =>
    simp only
    by_cases hle : r.header.length ≤ nl
    · simp only [if_pos hle]
    · simp only [if_neg hle]

theorem find?_assign (fields : List (Bytes × Bytes)) (p : Params) (n : Bytes) :
    (fields.foldl assignField p).params.find? n
      = ((fields.filter fun f => svStrip f.1 = n).getLast?.map fun f => svStrip f.2).or
          (p.params.find? n) := by
  induction fields using List.reverseRecOn with
  | nil => rfl
  | append_singleton fs f ih =>
    rw [List.foldl_append, List.foldl_cons, List.foldl_nil, List.filter_append]
    show ((fs.foldl assignField p).params.insertOrAssign (svStrip f.1) (svStrip f.2)).find? n = _
    rw [AssocMap.find?_insertOrAssign, ih]
    by_cases hn : svStrip f.1 = n
    · rw [if_pos hn.symm, List.filter_cons_of_pos (by simpa using hn), List.filter_nil,
        List.getLast?_concat]
      rfl
    · rw [if_neg (Ne.symm hn), List.filter_cons_of_neg (by simpa using hn), List.filter_nil,
        List.append_nil]

theorem getHeaders_find? {head : Bytes} (h : lf ∈ head) (n : Bytes) :
    (RequestIncoming.new head).getHeaders.params.find? n
      = ((visibleFields head).filter fun f => svStrip f.1 = n).getLast?.map
          fun f => svStrip f.2 := by
  rw [getHeaders_new h, find?_assign]
  exact Option.or_none

/-! ## names -/

theorem asciiLower_colon (b : UInt8) : asciiLower b = ch ':' ↔ b = ch ':' := by
  revert b
  apply forall_byte
  decide +kernel

theorem colon_map_lower {s : Bytes} : ch ':' ∈ s.map asciiLower ↔ ch ':' ∈ s := by
  rw [List.mem_map]
  constructor
  · rintro ⟨b, hb, he⟩
    exact (asciiLower_colon b).mp he ▸ hb
  · intro h
    exact ⟨ch ':', h, by decide⟩

theorem ciStartsWith_of_lower {s lit : Bytes} (h : lit.map asciiLower <+: s.map asciiLower) :
    ciStartsWith s lit = true := by
  have hle := h.length_le
  rw [List.length_map, List.length_map] at hle
  unfold ciStartsWith
  rw [if_neg (by omega), beq_iff_eq, List.map_take]
  have := List.prefix_iff_eq_take.mp h
  rw [List.length_map] at this
  exact this.symm

/-- a line starts with a name and a colon if and only if that is the name of its field -/
theorem ciStartsWith_field {name : Bytes} (hname : ch ':' ∉ name) (l : Bytes) :
    ciStartsWith l (name ++ [ch ':']) = true ↔
      ∃ f, cut [ch ':'] l = some f ∧ f.1.map asciiLower = name.map asciiLower := by
  constructor
  · intro h
    obtain ⟨t, ht⟩ := ciStartsWith_lower h
    have hlow : ch ':' ∉ name.map asciiLower := fun hm => hname (colon_map_lower.mp hm)
    have e1 : (name ++ [ch ':']).map asciiLower ++ t = name.map asciiLower ++ ch ':' :: t := by
      rw [List.map_append, List.append_assoc]
      rfl
    have hmem : ch ':' ∈ l := by
      rw [← colon_map_lower, ← ht, e1]
      exact List.mem_append_right _ List.mem_cons_self
    cases hc : cut [ch ':'] l with
    | none => exact absurd hmem (cut_singleton_none.mp hc)
    | some f =>
      obtain ⟨n, v⟩ := f
      obtain ⟨rfl, hn⟩ := cut_singleton_some hc
      have e2 : (n ++ ch ':' :: v).map asciiLower
          = n.map asciiLower ++ ch ':' :: v.map asciiLower := by
        rw [List.map_append]
        rfl
      have hcut := cut_of_mem_free hlow t
      rw [← e1, ht, e2, cut_of_mem_free fun hm => hn (colon_map_lower.mp hm), Option.some.injEq,
        Prod.mk.injEq] at hcut
      exact ⟨(n, v), rfl, hcut.1⟩
  · rintro ⟨⟨n, v⟩, hc, hn⟩
    obtain ⟨rfl, -⟩ := cut_singleton_some hc
    apply ciStartsWith_of_lower
    refine ⟨v.map asciiLower, ?_⟩
    rw [List.map_append, List.map_append, ← hn, List.append_assoc]
    rfl

theorem drop_name {name l : Bytes} {f : Bytes × Bytes} (hc : cut [ch ':'] l = some f)
    (hn : f.1.map asciiLower = name.map asciiLower) : l.drop (name ++ [ch ':']).length = f.2 := by
  obtain ⟨n, v⟩ := f
  obtain ⟨rfl, -⟩ := cut_singleton_some hc
  have hlen : n.length = name.length := by
    have := congrArg List.length hn
    rwa [List.length_map, List.length_map] at this
  have e : n ++ ch ':' :: v = (n ++ [ch ':']) ++ v := by simp
  rw [e, List.drop_left' (by rw [List.length_append, List.length_append, hlen])]

/-! ## blanks -/

theorem isBlank_asciiLower (b : UInt8) : isBlank (asciiLower b) = isBlank b := by
  revert b
  apply forall_byte
  decide +kernel

theorem takeWhile_isDigit_rdropWhile (s : Bytes) :
    (s.rdropWhile isBlank).takeWhile isDigit = s.takeWhile isDigit := by
  induction s using List.reverseRecOn with
  | nil => rfl
  | append_singleton s b ih =>
    by_cases hb : isBlank b = true
    · rw [List.rdropWhile_concat_pos _ _ _ hb, ih, List.takeWhile_append,
        List.takeWhile_cons_of_neg (by simp [not_isDigit_of_isBlank hb])]
      split
      · rename_i h
        rw [List.append_nil, List.takeWhile_eq_self_iff]
        intro x hx
        have := List.takeWhile_prefix (p := isDigit) (l := s) |>.eq_of_length h
        rw [← this] at hx
        exact List.mem_takeWhile_imp hx
      · rfl
    · rw [List.rdropWhile_concat_neg _ _ _ hb]

theorem lengthDigits_svStrip (v : Bytes) : lengthDigits (svStrip v) = lengthDigits v := by
  unfold lengthDigits svStrip
  generalize hu : v.dropWhile isBlank = u
  have hdrop : (u.rdropWhile isBlank).dropWhile isBlank = u.rdropWhile isBlank := by
    rw [List.dropWhile_eq_self_iff]
    intro hpos
    have hpre : u.rdropWhile isBlank <+: u := List.rdropWhile_prefix _ _
    have hupos : 0 < u.length := lt_of_lt_of_le hpos hpre.length_le
    have hself := (List.dropWhile_eq_self_iff (p := isBlank) (l := u)).mp
      (by rw [← hu, List.dropWhile_idempotent]) hupos
    rwa [hpre.getElem hpos]
  rw [hdrop, takeWhile_isDigit_rdropWhile]

theorem exactValue_svStrip (v : Bytes) : exactValue (svStrip v) = exactValue v := by
  unfold exactValue
  rw [lengthDigits_svStrip]

theorem exactValue_decimal (n : Nat) : exactValue (sp :: decimal n) = n := by
  have h1 : (sp :: decimal n).dropWhile isBlank = decimal n := by
    rw [List.dropWhile_cons_of_pos (by decide), dropWhile_isBlank_decimal]
  unfold exactValue lengthDigits
  rw [h1, takeWhile_decimal, value_decimal]

end ServerHttpLib
