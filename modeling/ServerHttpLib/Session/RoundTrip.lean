import ServerHttpLib.Session.Pipelining
import ServerHttpLib.Session.HeaderView
import ServerHttpLib.Http.Outgoming

/-!
# A request from the client to the session

`get_http_body` writes a head text (`getHttpBody_eq`).  The scan of the session finds its length
(`refLength_headText`, `refExpect_headText`), so the text is one complete request
(`complete_sent`), and `RequestIncoming` reads back what the client put in:

* `incoming_sent`        method, path and headers of the request that is read;
* `request_round_trip`   every run that receives the text dispatches exactly that request.
-/

namespace ServerHttpLib
open Cutting Frames Conn

variable {σ : Type}

/-! ## the requests that are sent -/

/-- neither begins nor ends with a blank -/
structure Trimmed (s : Bytes) : Prop where
  head : ∀ b, s.head? = some b → isBlank b = false
  last : ∀ b, s.getLast? = some b → isBlank b = false

theorem Trimmed.svStrip_eq {s : Bytes} (h : Trimmed s) : svStrip s = s :=
  svStrip_of_not_blank h.head h.last

/-- the field names that the two sides use for themselves -/
def reservedNames : List Bytes := [str "connection", str "content-length", str "expect"]

/-- a header that the application may add to a request -/
structure PlainHeader where
  name : Bytes
  value : Bytes
  plain : PlainField (name, value)
  name_trimmed : Trimmed name
  value_trimmed : Trimmed value
  free : name.map asciiLower ∉ reservedNames

def PlainHeader.field (h : PlainHeader) : Bytes × Bytes := (h.name, h.value)

def outgoing (m : Method) (path : Bytes) (hs : List PlainHeader) (data : Bytes) :
    RequestOutgoming :=
  (hs.foldl (fun r h => r.addHeader h.name h.value)
    ((({} : RequestOutgoming).setMethod m).setPath path)).setData data

/-- the bytes that are sent for it to `host`, for an order of the header map -/
def sentText (o : AssocMap.Order Bytes Bytes) (m : Method) (path : Bytes) (hs : List PlainHeader)
    (data host : Bytes) : Bytes :=
  ((outgoing m path hs data).getHttpBody o host).1

/-! ## what `get_http_body` writes -/

/-- both header maps of an outgoing request hold these entries -/
structure Holds (r : RequestOutgoming) (es : List (Bytes × Bytes)) : Prop where
  own : r.ownHeaders.entries = es
  view : r.headers.params.entries = es

theorem Holds.addHeader {r : RequestOutgoming} {es : List (Bytes × Bytes)} (h : Holds r es)
    {name : Bytes} (hn : name ∉ es.map Prod.fst) (value : Bytes) :
    Holds (r.addHeader name value) (es ++ [(name, value)]) := by
  have h1 : r.ownHeaders.find? name = none := by rw [AssocMap.find?_eq_none_iff, h.own]; exact hn
  have h2 : r.headers.params.find? name = none := by
    rw [AssocMap.find?_eq_none_iff, h.view]
    exact hn
  have hown := AssocMap.insert_of_none value h1
  have hfind : (r.ownHeaders.insert name value).find? name = some value := by
    rw [AssocMap.find?_eq_some_iff, hown]
    exact List.mem_append_right _ (List.mem_singleton_self _)
  constructor
  · show (r.ownHeaders.insert name value).entries = _
    rw [hown, h.own]
  · show (r.headers.params.insertOrAssign name
      (((r.ownHeaders.insert name value).find? name).getD [])).entries = _
    rw [hfind, AssocMap.insertOrAssign_of_none _ h2, h.view]
    rfl

theorem Holds.has_iff {r : RequestOutgoming} {es : List (Bytes × Bytes)} (h : Holds r es)
    (name : Bytes) : r.headers.has name = true ↔ name ∈ es.map Prod.fst := by
  show (r.headers.params.find? name).isSome = true ↔ _
  rw [← h.view, ← not_iff_not, ← AssocMap.find?_eq_none_iff, Bool.not_eq_true,
    Option.isSome_eq_false_iff, Option.isNone_iff_eq_none]

theorem holds_foldl (hs : List PlainHeader) {r : RequestOutgoming} {es : List (Bytes × Bytes)}
    (h : Holds r es) (hn : (es.map Prod.fst ++ hs.map PlainHeader.name).Nodup) :
    Holds (hs.foldl (fun r h => r.addHeader h.name h.value) r)
      (es ++ hs.map PlainHeader.field) := by
  induction hs generalizing r es with
  | nil => simpa using h
  | cons x hs ih =>
    have hx : x.name ∉ es.map Prod.fst := by
      rw [List.map_cons, List.nodup_append] at hn
      exact fun hm => hn.2.2 _ hm _ List.mem_cons_self rfl
    have h' := ih (h.addHeader hx x.value) (by simpa using hn)
    rw [List.foldl_cons, List.map_cons]
    simpa [PlainHeader.field] using h'

/-- the fields that `get_http_body` adds for a body -/
def bodyFields (names : List Bytes) (data : Bytes) : List (Bytes × Bytes) :=
  if data = [] then []
  else (if CONTENT_TYPE ∈ names then [] else [(CONTENT_TYPE, [])])
    ++ [(CONTENT_LENGTH, decimal data.length)]

theorem Holds.get_of_not_mem {r : RequestOutgoming} {es : List (Bytes × Bytes)} (h : Holds r es)
    {name : Bytes} (hn : name ∉ es.map Prod.fst) : r.headers.get name = [] := by
  have : r.headers.params.find? name = none := by
    rw [AssocMap.find?_eq_none_iff, h.view]
    exact hn
  rw [Params.get, this]
  rfl

theorem Holds.addBodyHeaders {r : RequestOutgoming} {es : List (Bytes × Bytes)} (h : Holds r es)
    (hpost : r.ownPostParams.isEmpty = true) (hlen : CONTENT_LENGTH ∉ es.map Prod.fst)
    (data : Bytes) :
    Holds (r.addBodyHeaders data) (es ++ bodyFields (es.map Prod.fst) data) := by
  unfold RequestOutgoming.addBodyHeaders bodyFields
  by_cases hd : data = []
  · rw [if_pos hd, if_pos hd, List.append_nil]
    exact h
  · rw [if_neg hd, if_neg hd]
    by_cases ht : CONTENT_TYPE ∈ es.map Prod.fst
    · have hl : ¬ r.headers.has CONTENT_LENGTH = true := fun hc => hlen ((h.has_iff _).mp hc)
      rw [if_pos ht, List.nil_append]
      simp only [if_pos ((h.has_iff _).mpr ht), if_neg hl]
      exact h.addHeader hlen _
    · have h1 : Holds (r.addHeader CONTENT_TYPE []) (es ++ [(CONTENT_TYPE, [])]) :=
        h.addHeader ht []
      have hl' : CONTENT_LENGTH ∉ (es ++ [(CONTENT_TYPE, ([] : Bytes))]).map Prod.fst := by
        rw [List.map_append, List.mem_append, not_or]
        exact ⟨hlen, by decide⟩
      have hl : ¬ (r.addHeader CONTENT_TYPE []).headers.has CONTENT_LENGTH = true :=
        fun hc => hl' ((h1.has_iff _).mp hc)
      have ht' : ¬ r.headers.has CONTENT_TYPE = true := fun hc => ht ((h.has_iff _).mp hc)
      rw [if_neg ht, ← List.append_assoc]
      simp only [if_neg ht', hpost, if_true, h.get_of_not_mem ht, if_neg hl]
      exact h1.addHeader hl' _

theorem foldl_addHeader_frame (hs : List PlainHeader) (r : RequestOutgoming) :
    ∃ own view, hs.foldl (fun r h => r.addHeader h.name h.value) r
      = { r with ownHeaders := own, headers := view } := by
  induction hs generalizing r with
  | nil => exact ⟨r.ownHeaders, r.headers, rfl⟩
  | cons h hs ih =>
    obtain ⟨own, view, he⟩ := ih (r.addHeader h.name h.value)
    exact ⟨own, view, he⟩

/-- the entries of the header map behind `get_http_body` -/
def sentEntries (hs : List PlainHeader) (data : Bytes) : List (Bytes × Bytes) :=
  hs.map PlainHeader.field ++ bodyFields (hs.map PlainHeader.name) data

theorem map_fst_field (hs : List PlainHeader) :
    (hs.map PlainHeader.field).map Prod.fst = hs.map PlainHeader.name := by
  rw [List.map_map]
  rfl

theorem content_length_not_mem (hs : List PlainHeader) :
    CONTENT_LENGTH ∉ hs.map PlainHeader.name := by
  intro hm
  obtain ⟨h, -, he⟩ := List.mem_map.mp hm
  exact h.free (he ▸ by decide)

theorem sentText_eq (o : AssocMap.Order Bytes Bytes) (m : Method) (path : Bytes)
    {hs : List PlainHeader} (hn : (hs.map PlainHeader.name).Nodup) (data host : Bytes) :
    ∃ es, es.Perm (sentEntries hs data) ∧ (es.map Prod.fst).Nodup ∧
      sentText o m path hs data host
        = headText (sentLine m path) (sentFields host es) ++ data := by
  have hfresh : Holds ((({} : RequestOutgoming).setMethod m).setPath path) [] := ⟨rfl, rfl⟩
  have hadded := holds_foldl hs hfresh (by simpa using hn)
  have hh : Holds (outgoing m path hs data) (hs.map PlainHeader.field) :=
    ⟨hadded.own, hadded.view⟩
  obtain ⟨own, view, he⟩ := foldl_addHeader_frame hs
    ((({} : RequestOutgoming).setMethod m).setPath path)
  have hr : outgoing m path hs data
      = { method := m, path := path, postData := data, ownHeaders := own, headers := view } := by
    unfold outgoing
    rw [he]
    rfl
  have hbody : (outgoing m path hs data).bodyToSend o = data := by rw [hr]; rfl
  have hb := hh.addBodyHeaders (by rw [hr]; rfl)
    (by rw [map_fst_field]; exact content_length_not_mem hs) data
  rw [map_fst_field] at hb
  have hperm := o.perm ((outgoing m path hs data).addBodyHeaders data).headers.params
  refine ⟨_, hb.view ▸ hperm, ?_, ?_⟩
  · exact (hperm.map _).nodup_iff.mpr (AssocMap.nodup _)
  · have hline : (outgoing m path hs data).lineToSend o = sentLine m path := by
      rw [hr]
      show sentLine m (path ++ []) = _
      rw [List.append_nil]
    unfold sentText
    rw [RequestOutgoming.getHttpBody_eq, hline, RequestOutgoming.fieldsToSend, hbody]

/-! ## the fields are plain, and none of them is misread -/

theorem plain_bodyFields {names : List Bytes} {data : Bytes} {f : Bytes × Bytes}
    (hf : f ∈ bodyFields names data) :
    PlainField f ∧ Trimmed f.1 ∧
      (f.1 = CONTENT_TYPE ∨ f = (CONTENT_LENGTH, decimal data.length)) := by
  have htype : PlainField (CONTENT_TYPE, []) :=
    ⟨by decide, by decide, by decide, by decide, by decide, by decide⟩
  have hlen : PlainField (CONTENT_LENGTH, decimal data.length) :=
    ⟨by simp [CONTENT_LENGTH, str], (by decide : ch ':' ∉ CONTENT_LENGTH),
      (by decide : cr ∉ CONTENT_LENGTH), (by decide : lf ∉ CONTENT_LENGTH),
      (not_mem_decimal (by decide) : cr ∉ decimal data.length),
      (not_mem_decimal (by decide) : lf ∉ decimal data.length)⟩
  have htrim : Trimmed CONTENT_TYPE ∧ Trimmed CONTENT_LENGTH := by
    refine ⟨⟨?_, ?_⟩, ⟨?_, ?_⟩⟩ <;> intro b hb <;> cases hb <;> decide
  unfold bodyFields at hf
  split at hf
  · exact absurd hf (by simp)
  · rw [List.mem_append, List.mem_singleton] at hf
    rcases hf with hf | rfl
    · split at hf
      · exact absurd hf (by simp)
      · rw [List.mem_singleton] at hf
        subst hf
        exact ⟨htype, htrim.1, Or.inl rfl⟩
    · exact ⟨hlen, htrim.2, Or.inr rfl⟩

theorem mem_sentFields {hs : List PlainHeader} {data host : Bytes} {es : List (Bytes × Bytes)}
    (hes : es.Perm (sentEntries hs data)) {f : Bytes × Bytes} (hf : f ∈ sentFields host es) :
    f = (str "Host", host) ∨ (∃ h ∈ hs, f = h.field) ∨
      f ∈ bodyFields (hs.map PlainHeader.name) data ∨ f = (str "Connection", str "close") := by
  rw [sentFields, List.mem_cons, List.mem_append, List.mem_singleton, hes.mem_iff, sentEntries,
    List.mem_append, List.mem_map] at hf
  rcases hf with hf | (⟨h, hh, rfl⟩ | hf) | hf
  · exact Or.inl hf
  · exact Or.inr (Or.inl ⟨h, hh, rfl⟩)
  · exact Or.inr (Or.inr (Or.inl hf))
  · exact Or.inr (Or.inr (Or.inr hf))

theorem plain_sentFields {hs : List PlainHeader} {data host : Bytes} {es : List (Bytes × Bytes)}
    (hes : es.Perm (sentEntries hs data)) (hhost : cr ∉ host ∧ lf ∉ host) :
    ∀ f ∈ sentFields host es, PlainField f := by
  intro f hf
  rcases mem_sentFields hes hf with rfl | ⟨h, -, rfl⟩ | hf | rfl
  · exact ⟨by simp [str], (by decide : ch ':' ∉ str "Host"), (by decide : cr ∉ str "Host"),
      (by decide : lf ∉ str "Host"), hhost.1, hhost.2⟩
  · exact h.plain
  · exact (plain_bodyFields hf).1
  · exact ⟨by decide, by decide, by decide, by decide, by decide, by decide⟩

/-- a line starts with a field name and a colon only if that is its field name -/
theorem lower_eq_of_ciStartsWith {f : Bytes × Bytes} (hf : ch ':' ∉ f.1) (lit : Bytes)
    (hlit : ch ':' ∉ lit) (h : ciStartsWith (fieldText f) (lit ++ [ch ':']) = true) :
    f.1.map asciiLower = lit.map asciiLower := by
  obtain ⟨g, hg, hn⟩ := (ciStartsWith_field hlit (fieldText f)).mp h
  rw [cut_fieldText hf, Option.some.injEq] at hg
  rw [← hn, ← hg]

/-! ## the scan of the session -/

theorem fieldLines_headText {line : Bytes} {fields : List (Bytes × Bytes)} (hl : lf ∉ line)
    (hf : ∀ f ∈ fields, PlainField f) :
    fieldLines (headText line fields) = fields.map fieldText ++ [[]] := by
  unfold fieldLines headText
  rw [lfLines_crlf hl]
  exact map_dropCr_fields fun f hm => (hf f hm).lf_fieldText

theorem lengthOfLines_none {lines : List Bytes}
    (h : ∀ l ∈ lines, ¬ ciStartsWith l (str "Content-Length:") = true) :
    lengthOfLines lines = 0 := by
  unfold lengthOfLines
  rw [List.filter_eq_nil_iff.mpr h]
  rfl

theorem lengthOfLines_unique {lines : List Bytes} (l₀ : Bytes) (hm : l₀ ∈ lines)
    (h₀ : ciStartsWith l₀ (str "Content-Length:") = true)
    (h : ∀ l ∈ lines, ciStartsWith l (str "Content-Length:") = true → l = l₀) :
    lengthOfLines lines = exactValue (l₀.drop (str "Content-Length:").length) := by
  have hne : lines.filter (fun l => ciStartsWith l (str "Content-Length:")) ≠ [] :=
    List.ne_nil_of_mem (List.mem_filter.mpr ⟨hm, h₀⟩)
  have hlast := List.getLast_mem hne
  rw [List.mem_filter] at hlast
  unfold lengthOfLines
  rw [List.getLast?_eq_some_getLast hne, h _ hlast.1 hlast.2]

section
variable {hs : List PlainHeader} {data host line : Bytes} {es : List (Bytes × Bytes)}

/-- no field but the one for the body has a name that the scan looks for -/
theorem name_sentFields (hes : es.Perm (sentEntries hs data)) {f : Bytes × Bytes}
    (hf : f ∈ sentFields host es) :
    f.1.map asciiLower ∉ [str "content-length", str "expect"] ∨
      (f ∈ bodyFields (hs.map PlainHeader.name) data ∧
        f = (CONTENT_LENGTH, decimal data.length)) := by
  rcases mem_sentFields hes hf with rfl | ⟨x, -, rfl⟩ | hf | rfl
  · exact Or.inl (by decide : (str "Host").map asciiLower ∉ [str "content-length", str "expect"])
  · exact Or.inl fun hm => x.free (List.mem_cons_of_mem _ hm)
  · obtain ⟨-, -, ht | rfl⟩ := plain_bodyFields hf
    · exact Or.inl (by rw [ht]; decide)
    · exact Or.inr ⟨hf, rfl⟩
  · exact Or.inl (by decide)

theorem length_sentFields (hes : es.Perm (sentEntries hs data)) (hhost : cr ∉ host ∧ lf ∉ host)
    {f : Bytes × Bytes} (hf : f ∈ sentFields host es)
    (h : ciStartsWith (fieldText f) (str "Content-Length:") = true) :
    f ∈ bodyFields (hs.map PlainHeader.name) data ∧ f = (CONTENT_LENGTH, decimal data.length) := by
  refine (name_sentFields hes hf).resolve_left fun hn => hn ?_
  rw [lower_eq_of_ciStartsWith (plain_sentFields hes hhost f hf).colon CONTENT_LENGTH
    (by decide) h]
  decide

theorem refLength_headText (hes : es.Perm (sentEntries hs data)) (hl : lf ∉ line)
    (hhost : cr ∉ host ∧ lf ∉ host) :
    refLength (headText line (sentFields host es)) = data.length := by
  have hlines := fieldLines_headText hl (plain_sentFields hes hhost)
  have hnil : ¬ ciStartsWith [] (str "Content-Length:") = true := by decide
  unfold refLength
  rw [hlines]
  by_cases hd : data = []
  · rw [hd, List.length_nil]
    refine lengthOfLines_none fun l hm hc => ?_
    rw [List.mem_append, List.mem_map, List.mem_singleton] at hm
    rcases hm with ⟨f, hf, rfl⟩ | rfl
    · have hb := (length_sentFields hes hhost hf hc).1
      rw [bodyFields, if_pos hd] at hb
      exact absurd hb (by simp)
    · exact hnil hc
  · have hmem : (CONTENT_LENGTH, decimal data.length) ∈ sentFields host es := by
      have hb : (CONTENT_LENGTH, decimal data.length) ∈ sentEntries hs data := by
        rw [sentEntries, bodyFields, if_neg hd]
        simp
      exact List.mem_cons_of_mem _ (List.mem_append_left _ (hes.mem_iff.mpr hb))
    rw [lengthOfLines_unique (fieldText (CONTENT_LENGTH, decimal data.length))]
    · exact exactValue_decimal _
    · exact List.mem_append_left _ (List.mem_map_of_mem hmem)
    · rfl
    · intro l hm hc
      rw [List.mem_append, List.mem_map, List.mem_singleton] at hm
      rcases hm with ⟨f, hf, rfl⟩ | rfl
      · rw [(length_sentFields hes hhost hf hc).2]
      · exact absurd hc hnil

theorem refExpect_headText (hes : es.Perm (sentEntries hs data)) (hl : lf ∉ line)
    (hhost : cr ∉ host ∧ lf ∉ host) :
    refExpect (headText line (sentFields host es)) = false := by
  unfold refExpect expectOfLines
  rw [fieldLines_headText hl (plain_sentFields hes hhost), List.any_eq_false]
  intro l hm hc
  have h := ((Bool.and_eq_true _ _).mp hc).1
  rw [List.mem_append, List.mem_map, List.mem_singleton] at hm
  rcases hm with ⟨f, hf, rfl⟩ | rfl
  · have hname := lower_eq_of_ciStartsWith (plain_sentFields hes hhost f hf).colon
      (str "Expect") (by decide) h
    rcases name_sentFields hes hf with hn | ⟨-, rfl⟩
    · exact hn (by rw [hname]; decide)
    · exact absurd hname
        (by decide : ¬ CONTENT_LENGTH.map asciiLower = (str "Expect").map asciiLower)
  · exact absurd h (by decide)

end

/-! ## the request that is read -/

/-- bytes that may stand in the path of a request line -/
def PlainPath (path : Bytes) : Prop := ∀ b ∈ path, b ≠ sp ∧ b ≠ ch '?' ∧ b ≠ cr ∧ b ≠ lf

theorem lf_sentPath {m : Method} {path : Bytes} (hp : PlainPath path) : lf ∉ sentLine m path :=
  lf_sentLine m fun h => (hp lf h).2.2.2 rfl

theorem cr_sentLine {m : Method} {path : Bytes} (hp : PlainPath path) : cr ∉ sentLine m path := by
  have hm : cr ∉ methodToStr m := by cases m <;> decide
  have hpath : cr ∉ path := fun h => (hp cr h).2.2.1 rfl
  simp only [sentLine, List.mem_append, List.mem_cons, not_or]
  exact ⟨hm, by decide, hpath, by decide, by decide⟩

theorem get_sentFields {hs : List PlainHeader} {data host : Bytes} {es : List (Bytes × Bytes)}
    (hes : es.Perm (sentEntries hs data)) (hn : (es.map Prod.fst).Nodup) {h : PlainHeader}
    (hh : h ∈ hs) (p : Params) :
    ((sentFields host es).foldl assignField p).get h.name = h.value := by
  have hmem : h.field ∈ es :=
    hes.mem_iff.mpr (List.mem_append_left _ (List.mem_map_of_mem hh))
  obtain ⟨as, bs, rfl⟩ := List.append_of_mem hmem
  have hafter : ∀ g ∈ bs ++ [(str "Connection", str "close")], h.name ≠ svStrip g.1 := by
    intro g hg he
    rw [List.mem_append, List.mem_singleton] at hg
    rcases hg with hg | rfl
    · -- the names of the map are distinct, and none is changed by the trimming
      have htrim : svStrip g.1 = g.1 := by
        have hg' : g ∈ sentEntries hs data :=
          hes.mem_iff.mp (List.mem_append_right _ (List.mem_cons_of_mem _ hg))
        rcases List.mem_append.mp hg' with hg' | hg'
        · obtain ⟨x, -, rfl⟩ := List.mem_map.mp hg'
          exact x.name_trimmed.svStrip_eq
        · exact (plain_bodyFields hg').2.1.svStrip_eq
      rw [htrim] at he
      rw [List.map_append, List.map_cons, List.nodup_append, List.nodup_cons] at hn
      exact hn.2.1.1 (List.mem_map.mpr ⟨g, hg, he.symm⟩)
    · refine h.free ?_
      rw [he]
      decide
  have e : sentFields host (as ++ h.field :: bs)
      = ((str "Host", host) :: as) ++ h.field :: (bs ++ [(str "Connection", str "close")]) := by
    simp [sentFields]
  rw [e, get_assign_last _ _ _ h.name_trimmed.svStrip_eq.symm hafter]
  exact h.value_trimmed.svStrip_eq

/-- **The request that is read** has the parts of the one that was sent. -/
theorem incoming_sent (m : Method) {path : Bytes} (hp : PlainPath path) {hs : List PlainHeader}
    {data host : Bytes} {es : List (Bytes × Bytes)} (hes : es.Perm (sentEntries hs data))
    (hn : (es.map Prod.fst).Nodup) (hhost : cr ∉ host ∧ lf ∉ host) (s : SslSession) :
    let r := request s (headText (sentLine m path) (sentFields host es)) data
    r.method = m ∧ r.path = path ∧ r.postData = data ∧
      ∀ h ∈ hs, r.getHeaders.get h.name = h.value := by
  have hnew := new_headText m (fun h => (hp sp h).1 rfl) (fun h => (hp lf h).2.2.2 rfl)
    (sentFields host es)
  rw [setTarget_plain rfl fun h => (hp _ h).2.1 rfl] at hnew
  have hr : request s (headText (sentLine m path) (sentFields host es)) data
      = { header := headText (sentLine m path) (sentFields host es), method := m, path := path,
          headersPos := some ((sentLine m path).length + 1), userIp := s.clientIP,
          postData := data } := by
    unfold request
    rw [hnew]
    rfl
  have hget := getHeaders_headText (sentLine m path) (plain_sentFields hes hhost)
    { header := headText (sentLine m path) (sentFields host es), method := m, path := path,
      headersPos := some ((sentLine m path).length + 1), userIp := s.clientIP,
      postData := data } rfl rfl rfl
  rw [hr]
  refine ⟨rfl, rfl, rfl, fun h hh => ?_⟩
  rw [hget]
  exact get_sentFields hes hn hh _

theorem complete_sent (m : Method) {path : Bytes} (hp : PlainPath path) {hs : List PlainHeader}
    {data host : Bytes} {es : List (Bytes × Bytes)} (hes : es.Perm (sentEntries hs data))
    (hhost : cr ∉ host ∧ lf ∉ host)
    (hsize : (headText (sentLine m path) (sentFields host es) ++ data).length ≤ maxSize) :
    CompleteRequest (headText (sentLine m path) (sentFields host es), data) where
  head := by
    have hcr := fun f hf => (plain_sentFields hes hhost f hf).cr_fieldText
    have h := blockHead_headText (cr_sentLine (m := m) hp) hcr []
    rwa [List.append_nil] at h
  length := refLength_headText hes (lf_sentPath hp) hhost
  expect := refExpect_headText hes (lf_sentPath hp) hhost
  size := by
    rw [List.length_append, maxSize] at hsize
    exact hsize.trans_lt (by norm_num)

/-- **A request arrives as it was sent**: in every run that receives the text of a request, in any
pieces, the session waits for more until it has all of it, and then has dispatched this request
and holds no other byte.  The text is a `std::string`, hence not longer than `maxSize`; a session
that waits has room, or holds `2^62` bytes and cannot grow. -/
theorem request_round_trip (srv : Server σ) (ip : Bytes) (w : σ) (o : AssocMap.Order Bytes Bytes)
    (m : Method) (path : Bytes) (hs : List PlainHeader) (data host : Bytes) (evs : List Event)
    (c : Conn σ) (hpath : PlainPath path) (hnames : (hs.map PlainHeader.name).Nodup)
    (hhost : cr ∉ host ∧ lf ∉ host) (hsize : (sentText o m path hs data host).length ≤ maxSize)
    (hrun : run srv ip w evs = some c) (herr : Event.readErr ∉ evs)
    (hrcv : received evs <+: sentText o m path hs data host) :
    (received evs ≠ sentText o m path hs data host → c.dispatched = [] ∧ Waiting c) ∧
    (received evs = sentText o m path hs data host →
      ∃ header body, c.dispatched = [(header, body)] ∧ c.s.used = 0 ∧
        (request c.s header body).method = m ∧ (request c.s header body).path = path ∧
        (request c.s header body).postData = data ∧
        ∀ h ∈ hs, (request c.s header body).getHeaders.get h.name = h.value) := by
  obtain ⟨es, hes, hn, htext⟩ := sentText_eq o m path hnames data host
  rw [htext] at hsize hrcv ⊢
  have hcomplete := complete_sent m hpath hes hhost hsize
  refine ⟨waiting_single srv hcomplete hrun herr hrcv, fun he => ?_⟩
  obtain ⟨hd, hu⟩ := dispatched_single srv hcomplete hrun he
  exact ⟨_, data, hd, hu, incoming_sent m hpath hes hn hhost c.s⟩

/-- a `POST` with one header and a body -/
def traceHeader : PlainHeader where
  name := str "X-Trace"
  value := str "a b"
  plain := ⟨by decide, by decide, by decide, by decide, by decide, by decide⟩
  name_trimmed := ⟨by rintro _ ⟨⟩; rfl, by rintro _ ⟨⟩; rfl⟩
  value_trimmed := ⟨by rintro _ ⟨⟩; rfl, by rintro _ ⟨⟩; rfl⟩
  free := by decide

set_option maxRecDepth 100000 in
theorem request_round_trip_post :
    ∃ evs c, run Server.empty [] () evs = some c ∧
      received evs
        = sentText .inserted .post (str "/save") [traceHeader] (str "\r\n0") (str "localhost") ∧
      ∃ header body, c.dispatched = [(header, body)] ∧ c.s.used = 0 ∧
        (request c.s header body).method = .post ∧ (request c.s header body).path = str "/save" ∧
        (request c.s header body).postData = str "\r\n0" ∧
        ∀ h ∈ [traceHeader], (request c.s header body).getHeaders.get h.name = h.value := by
  have hs : (run Server.empty [] () [.readOk (sentText .inserted .post (str "/save") [traceHeader]
      (str "\r\n0") (str "localhost"))]).isSome = true := by decide +kernel
  obtain ⟨c, hrun⟩ := Option.isSome_iff_exists.mp hs
  have hrcv : received [.readOk (sentText .inserted .post (str "/save") [traceHeader]
      (str "\r\n0") (str "localhost"))] = sentText .inserted .post (str "/save") [traceHeader]
      (str "\r\n0") (str "localhost") := by simp [received, reads]
  refine ⟨_, c, hrun, hrcv, ?_⟩
  exact (request_round_trip Server.empty [] () .inserted .post (str "/save") [traceHeader]
    (str "\r\n0") (str "localhost") _ c (by unfold PlainPath; decide) (by decide) (by decide)
    (by decide +kernel) hrun (by simp) (hrcv ▸ List.prefix_refl _)).2 hrcv

end ServerHttpLib
