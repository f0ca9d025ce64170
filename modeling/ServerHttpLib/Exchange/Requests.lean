import Mathlib.Data.Set.List
import ServerHttpLib.Client.Request
import ServerHttpLib.Exchange.Serving
import ServerHttpLib.Http.EndpointQuery

/-!
# The requests of a client

A caller of `http::request` has filled a fresh request object with any sequence of setters.  What
the object holds then is a matter of the first or the last call for each name; the text that is
sent for it is one complete request, and the server reads from it what the setters were given:

* `Composed`              what the object holds behind a list of setters;
* `exists_sentHeaders`    the header map behind `get_http_body`, as a list of plain headers and the
                          fields for the body;
* `Request.arrives`       what the server reads from the text of a request, which closes the
                          connection.
-/

namespace ServerHttpLib
open Cutting Frames

theorem filterMap_snoc {α β : Type*} (f : α → Option β) (l : List α) (a : α) :
    (l ++ [a]).filterMap f = l.filterMap f ++ (f a).toList := by
  rw [List.filterMap_append]
  cases h : f a with
  | none => rw [List.filterMap_cons_none h]; rfl
  | some b => rw [List.filterMap_cons_some h]; rfl

theorem getLast?_snoc_toList {α : Type*} (l : List α) (a : Option α) (d : α) :
    (l ++ a.toList).getLast?.getD d = a.getD (l.getLast?.getD d) := by
  cases a with
  | none => rw [Option.toList_none, List.append_nil]; rfl
  | some a => rw [Option.toList_some, List.getLast?_concat]; rfl

/-- a target that stands in a request line as it is -/
def PlainTarget (t : Bytes) : Prop := sp ∉ t ∧ cr ∉ t ∧ lf ∉ t

namespace RequestOutgoming

/-! ## the setters -/

/-- name and value of a call that adds a header -/
def Call.headerPair : Call → Option (Bytes × Bytes)
  | .addHeader name value => some (name, value)
  | .setContentType value => some (CONTENT_TYPE, value)
  | _ => none

def Call.newMethod : Call → Option Method
  | .setMethod m => some m
  | _ => none

def Call.newData : Call → Option Bytes
  | .setData v => some v
  | _ => none

def headerCalls (calls : List Call) : List (Bytes × Bytes) := calls.filterMap Call.headerPair

def methodOf (calls : List Call) : Method := (calls.filterMap Call.newMethod).getLast?.getD .get

def dataOf (calls : List Call) : Bytes := (calls.filterMap Call.newData).getLast?.getD []

/-- the call is a setter; a header that it adds is plain -/
def Call.Setter : Call → Prop
  | .addHeader name value => ∃ h : PlainHeader, h.field = (name, value)
  | .setContentType value => ∃ h : PlainHeader, h.field = (CONTENT_TYPE, value)
  | .getHttpBody _ _ => False
  | _ => True

variable {r : RequestOutgoming} {calls : List Call} {q : Call}

theorem Call.Setter.header (hq : q.Setter) {f : Bytes × Bytes} (hf : q.headerPair = some f) :
    ∃ h : PlainHeader, h.field = f := by
  cases q with
  | addHeader name value => exact Option.some.inj hf ▸ hq
  | setContentType value => exact Option.some.inj hf ▸ hq
  | setMethod m => exact absurd hf (by simp [Call.headerPair])
  | setPath v => exact absurd hf (by simp [Call.headerPair])
  | setParams name value => exact absurd hf (by simp [Call.headerPair])
  | setPostParams name value => exact absurd hf (by simp [Call.headerPair])
  | setData v => exact absurd hf (by simp [Call.headerPair])
  | getHttpBody o host => exact absurd hf (by simp [Call.headerPair])

theorem methodOf_snoc (calls : List Call) (q : Call) :
    methodOf (calls ++ [q]) = q.newMethod.getD (methodOf calls) := by
  unfold methodOf
  rw [filterMap_snoc, getLast?_snoc_toList]

theorem dataOf_snoc (calls : List Call) (q : Call) :
    dataOf (calls ++ [q]) = q.newData.getD (dataOf calls) := by
  unfold dataOf
  rw [filterMap_snoc, getLast?_snoc_toList]

/-! ## what the object holds -/

/-- both maps of the form hold the last value of each name -/
structure FormHeld (r : RequestOutgoming) (form : List (Bytes × Bytes)) : Prop where
  own : ∀ name, r.ownPostParams.find? name = AssocMap.lastOf form name
  view : ∀ name, r.postDataParams.params.find? name = AssocMap.lastOf form name

/-- both maps of the headers hold the first value of each name, in the same order -/
structure HeadersHeld (r : RequestOutgoming) (headers : List (Bytes × Bytes)) : Prop where
  same : r.headers.params = r.ownHeaders
  own : ∀ name, r.ownHeaders.find? name = AssocMap.firstOf headers name

/-- what a fresh object holds behind the calls -/
structure Composed (r : RequestOutgoming) (calls : List Call) : Prop where
  method : r.method = methodOf calls
  data : r.postData = dataOf calls
  query : QueryHeld r (queryCalls calls)
  form : FormHeld r (formCalls calls)
  headers : HeadersHeld r (headerCalls calls)

theorem composed_new : Composed {} [] :=
  ⟨rfl, rfl, ⟨fun _ => rfl, fun _ => rfl⟩, ⟨fun _ => rfl, fun _ => rfl⟩, ⟨rfl, fun _ => rfl⟩⟩

theorem FormHeld.setPostParams {form : List (Bytes × Bytes)} (h : FormHeld r form)
    (name value : Bytes) : FormHeld (r.setPostParams name value) (form ++ [(name, value)]) := by
  refine ⟨fun n => ?_, fun n => ?_⟩
  · show (r.ownPostParams.insertOrAssign name value).find? n = _
    rw [AssocMap.find?_insertOrAssign, AssocMap.lastOf_snoc, h.own]
  · show (r.postDataParams.params.insertOrAssign name value).find? n = _
    rw [AssocMap.find?_insertOrAssign, AssocMap.lastOf_snoc, h.view]

theorem HeadersHeld.addHeader {headers : List (Bytes × Bytes)} (h : HeadersHeld r headers)
    (name value : Bytes) : HeadersHeld (r.addHeader name value) (headers ++ [(name, value)]) := by
  refine ⟨?_, fun n => AssocMap.find?_insert_firstOf h.own name value n⟩
  show r.headers.params.insertOrAssign name
    (((r.ownHeaders.insert name value).find? name).getD []) = r.ownHeaders.insert name value
  rw [h.same, AssocMap.find?_insert, if_pos rfl, Option.getD_some]
  cases hn : r.ownHeaders.find? name with
  | none =>
    exact AssocMap.ext ((AssocMap.insertOrAssign_of_none value hn).trans
      (AssocMap.insert_of_none value hn).symm)
  | some v =>
    rw [AssocMap.insert_of_some value hn]
    exact AssocMap.insertOrAssign_self hn

theorem Composed.after (h : Composed r calls) (hq : q.Setter) :
    Composed (r.after q) (calls ++ [q]) := by
  have hquery : queryCalls (calls ++ [q]) = queryCalls calls ++ q.queryPair.toList :=
    filterMap_snoc _ _ _
  have hform : formCalls (calls ++ [q]) = formCalls calls ++ q.formPair.toList :=
    filterMap_snoc _ _ _
  have hheaders : headerCalls (calls ++ [q]) = headerCalls calls ++ q.headerPair.toList :=
    filterMap_snoc _ _ _
  have hmethod := methodOf_snoc calls q
  have hdata := dataOf_snoc calls q
  -- a call changes one part of the object, and the list that this part depends on
  have key : ∀ {r' : RequestOutgoming}, r' = r.after q →
      r'.method = q.newMethod.getD r.method → r'.postData = q.newData.getD r.postData →
      QueryHeld r' (queryCalls calls ++ q.queryPair.toList) →
      FormHeld r' (formCalls calls ++ q.formPair.toList) →
      HeadersHeld r' (headerCalls calls ++ q.headerPair.toList) →
      Composed (r.after q) (calls ++ [q]) := by
    rintro r' rfl h1 h2 h3 h4 h5
    exact ⟨by rw [h1, hmethod, h.method], by rw [h2, hdata, h.data], hquery ▸ h3, hform ▸ h4,
      hheaders ▸ h5⟩
  have hquery' : QueryHeld r (queryCalls calls ++ []) := (List.append_nil _).symm ▸ h.query
  have hform' : FormHeld r (formCalls calls ++ []) := (List.append_nil _).symm ▸ h.form
  have hheaders' : HeadersHeld r (headerCalls calls ++ []) :=
    (List.append_nil _).symm ▸ h.headers
  cases q with
  | setMethod m =>
    exact key rfl rfl rfl ⟨hquery'.own, hquery'.view⟩ ⟨hform'.own, hform'.view⟩
      ⟨hheaders'.same, hheaders'.own⟩
  | setPath v =>
    exact key rfl rfl rfl ⟨hquery'.own, hquery'.view⟩ ⟨hform'.own, hform'.view⟩
      ⟨hheaders'.same, hheaders'.own⟩
  | setParams name value =>
    exact key rfl rfl rfl (h.query.setParams name value) ⟨hform'.own, hform'.view⟩
      ⟨hheaders'.same, hheaders'.own⟩
  | setPostParams name value =>
    exact key rfl rfl rfl ⟨hquery'.own, hquery'.view⟩ (h.form.setPostParams name value)
      ⟨hheaders'.same, hheaders'.own⟩
  | setData v =>
    exact key rfl rfl rfl ⟨hquery'.own, hquery'.view⟩ ⟨hform'.own, hform'.view⟩
      ⟨hheaders'.same, hheaders'.own⟩
  | setContentType v =>
    exact key rfl rfl rfl ⟨hquery'.own, hquery'.view⟩ ⟨hform'.own, hform'.view⟩
      (h.headers.addHeader CONTENT_TYPE v)
  | addHeader name value =>
    exact key rfl rfl rfl ⟨hquery'.own, hquery'.view⟩ ⟨hform'.own, hform'.view⟩
      (h.headers.addHeader name value)
  | getHttpBody o host => exact absurd hq id

/-- **What an object holds behind any setters.** -/
theorem composed_run (hq : ∀ q ∈ calls, q.Setter) : Composed (calls.foldl after {}) calls := by
  induction calls using List.reverseRecOn with
  | nil => exact composed_new
  | append_singleton calls q ih =>
    rw [List.foldl_append, List.foldl_cons, List.foldl_nil]
    exact (ih fun q' hm => hq q' (List.mem_append_left _ hm)).after
      (hq q (List.mem_append_right _ (List.mem_singleton_self q)))

theorem Composed.setPath (h : Composed r calls) (v : Bytes) : Composed (r.setPath v) calls :=
  ⟨h.method, h.data, ⟨h.query.own, h.query.view⟩, ⟨h.form.own, h.form.view⟩,
    ⟨h.headers.same, h.headers.own⟩⟩

/-! ## the headers that are sent -/

theorem HeadersHeld.exists_plain {headers : List (Bytes × Bytes)} (h : HeadersHeld r headers)
    (hp : ∀ f ∈ headers, ∃ x : PlainHeader, x.field = f) :
    ∃ hs : List PlainHeader, Holds r (hs.map PlainHeader.field) := by
  have hrange : r.ownHeaders.entries ∈ Set.range (List.map PlainHeader.field) := by
    rw [Set.range_list_map]
    intro e he
    have hfind := AssocMap.find?_eq_some_iff.mpr he
    rw [h.own] at hfind
    exact hp e (AssocMap.mem_of_firstOf hfind)
  obtain ⟨hs, hhs⟩ := hrange
  exact ⟨hs, hhs.symm, by rw [h.same, hhs]⟩

def formType : PlainHeader where
  name := CONTENT_TYPE
  value := str "application/x-www-form-urlencoded"
  plain := ⟨by decide, by decide, by decide, by decide, by decide, by decide⟩
  name_trimmed := ⟨by rintro _ ⟨⟩; rfl, by rintro _ ⟨⟩; rfl⟩
  value_trimmed := ⟨by rintro _ ⟨⟩; rfl, by rintro _ ⟨⟩; rfl⟩
  free := by decide

theorem formBody_ne_nil (h : FormHeld r (formCalls calls))
    (hform : ¬ r.ownPostParams.isEmpty = true) (o : AssocMap.Order Bytes Bytes) :
    r.postDataParams.toUrlEncoded o ≠ [] := by
  intro hnil
  refine hform (AssocMap.isEmpty_iff.mpr fun name => ?_)
  rw [h.own, ← h.view, ← lastOf_encoded o, hnil]
  rfl

/-- **The header map behind `get_http_body`**: plain headers, and the fields for the body. -/
theorem Composed.exists_sentHeaders (h : Composed r calls) (hq : ∀ q ∈ calls, q.Setter)
    (o : AssocMap.Order Bytes Bytes) :
    ∃ hs : List PlainHeader,
      (r.addBodyHeaders (r.bodyToSend o)).headers.params.entries
        = sentEntries hs (r.bodyToSend o) ∧
      (∀ name value, AssocMap.firstOf (headerCalls calls) name = some value →
        ∃ x ∈ hs, x.name = name ∧ x.value = value) ∧
      ∀ x ∈ hs, AssocMap.firstOf (headerCalls calls) x.name = some x.value
        ∨ x.name = CONTENT_TYPE := by
  obtain ⟨hs, hh⟩ := h.headers.exists_plain fun f hf => by
    obtain ⟨q, hm, hqf⟩ := List.mem_filterMap.mp hf
    exact (hq q hm).header hqf
  have hfirst : ∀ name value, AssocMap.firstOf (headerCalls calls) name = some value →
      ∃ x ∈ hs, x.name = name ∧ x.value = value := by
    intro name value hv
    rw [← h.headers.own, AssocMap.find?_eq_some_iff, hh.own] at hv
    obtain ⟨x, hx, hf⟩ := List.mem_map.mp hv
    exact ⟨x, hx, congrArg Prod.fst hf, congrArg Prod.snd hf⟩
  have hgiven : ∀ x ∈ hs, AssocMap.firstOf (headerCalls calls) x.name = some x.value := by
    intro x hx
    rw [← h.headers.own, AssocMap.find?_eq_some_iff, hh.own]
    exact List.mem_map_of_mem hx
  by_cases hform : r.ownPostParams.isEmpty = true
  · have hb := hh.addBodyHeaders hform (by rw [map_fst_field]; exact content_length_not_mem hs)
      (r.bodyToSend o)
    rw [map_fst_field] at hb
    exact ⟨hs, hb.view, hfirst, fun x hx => .inl (hgiven x hx)⟩
  · have hbody : r.bodyToSend o ≠ [] := by
      unfold bodyToSend
      rw [if_neg hform]
      exact formBody_ne_nil h.form hform o
    -- the type is there, or it is added
    obtain ⟨hs', hsub, hback, ht, hh'⟩ : ∃ hs' : List PlainHeader, (∀ x ∈ hs, x ∈ hs') ∧
        (∀ x ∈ hs', x ∈ hs ∨ x.name = CONTENT_TYPE) ∧
        CONTENT_TYPE ∈ hs'.map PlainHeader.name ∧
        Holds (if r.headers.has CONTENT_TYPE then r
          else r.addHeader CONTENT_TYPE (str "application/x-www-form-urlencoded"))
          (hs'.map PlainHeader.field) := by
      have hhas := hh.has_iff CONTENT_TYPE
      by_cases ht : r.headers.has CONTENT_TYPE = true
      · rw [if_pos ht]
        rw [map_fst_field] at hhas
        exact ⟨hs, fun _ hx => hx, fun _ hx => .inl hx, hhas.mp ht, hh⟩
      · rw [if_neg ht]
        refine ⟨hs ++ [formType], fun x hx => List.mem_append_left _ hx, fun x hx => ?_, ?_, ?_⟩
        · rcases List.mem_append.mp hx with hx | hx
          · exact .inl hx
          · obtain rfl := List.mem_singleton.mp hx
            exact .inr rfl
        · rw [List.map_append]
          exact List.mem_append_right _ (List.mem_singleton_self _)
        · rw [List.map_append]
          exact hh.addHeader (fun hm => ht (hhas.mpr hm)) _
    have hlen : CONTENT_LENGTH ∉ (hs'.map PlainHeader.field).map Prod.fst := by
      rw [map_fst_field]
      exact content_length_not_mem hs'
    refine ⟨hs', ?_, fun name value hv => ?_, fun x hx => (hback x hx).imp_left (hgiven x)⟩
    · have hempty : r.ownPostParams.isEmpty = false := by simpa using hform
      unfold addBodyHeaders sentEntries bodyFields
      simp only [if_neg hbody, if_pos ht, List.nil_append, hempty, Bool.false_eq_true, if_false]
      rw [if_neg fun hc => hlen ((hh'.has_iff _).mp hc)]
      exact (hh'.addHeader hlen _).view
    · obtain ⟨x, hx, hxv⟩ := hfirst name value hv
      exact ⟨x, hsub x hx, hxv⟩

/-! ## the target -/

theorem plain_targetToSend (r : RequestOutgoming) {endpoint : Bytes} (he : PlainTarget endpoint)
    (o : AssocMap.Order Bytes Bytes) : PlainTarget ((r.setPath endpoint).targetToSend o) := by
  have key : ∀ d : UInt8, (∀ c, d ∉ encodeByte c) → d ∉ [ch '=', ch '&', ch '?'] →
      d ∉ endpoint → d ∉ (r.setPath endpoint).targetToSend o := by
    intro d hd hsep hpath
    exact RequestOutgoming.not_mem_targetToSend _ o hd hsep hpath
  have hb := blanks_not_mem_encodeByte
  exact ⟨key sp (fun c => (hb c).1) (by decide) he.1,
    key cr (fun c => (hb c).2.1) (by decide) he.2.1,
    key lf (fun c => (hb c).2.2) (by decide) he.2.2⟩

/-- what is read from the target: the path of the endpoint, and the parameters of both -/
theorem Composed.received_target (h : Composed r calls) (o : AssocMap.Order Bytes Bytes)
    {endpoint : Bytes} (he : PlainTarget endpoint)
    (hquery : ch '?' ∉ endpoint ∨ queryCalls calls = []) (host : Bytes) :
    ((((r.setPath endpoint).message o host).received).path = (splitEndpoint endpoint).1) ∧
    ∀ name, (((r.setPath endpoint).message o host).received).params.params.find? name
      = (AssocMap.lastOf (splitEndpoint endpoint).2 name).or
          (AssocMap.firstOf (queryCalls calls) name) := by
  obtain ⟨r0, h0, hpath, hparams⟩ :=
    RequestOutgoming.received_target (r := r.setPath endpoint) o host he.1 he.2.2
  rw [hpath, hparams]
  have hview : ∀ name, r.params.params.find? name = AssocMap.firstOf (queryCalls calls) name :=
    h.query.view
  have htarget : (r.setPath endpoint).targetToSend o
      = endpoint ++ if r.params.isEmpty then [] else ch '?' :: r.params.toUrlEncoded o := rfl
  rw [htarget]
  by_cases hempty : r.params.isEmpty = true
  · rw [if_pos hempty, List.append_nil]
    obtain ⟨h1, h2⟩ := setTarget_endpoint h0 endpoint
    refine ⟨h1, fun name => ?_⟩
    rw [h2, ← hview, AssocMap.isEmpty_iff.mp hempty]
    rfl
  · have hq : ch '?' ∉ endpoint := hquery.resolve_right fun hnil => by
      refine hempty (AssocMap.isEmpty_iff.mpr fun name => ?_)
      rw [hview, hnil]
      rfl
    obtain ⟨h1, h2⟩ := h0.withQuery hq (r.params.toUrlEncoded o)
    rw [if_neg hempty, splitEndpoint_plain hq]
    refine ⟨h1, fun name => ?_⟩
    rw [h2, lastOf_encoded, hview]
    rfl

end RequestOutgoming
/-! ## what the server reads -/

section
variable {m : Method} {target data host : Bytes} {hs : List PlainHeader} {es : List (Bytes × Bytes)}

theorem cr_sentTarget (ht : PlainTarget target) : cr ∉ sentLine m target := by
  have hm : cr ∉ methodToStr m := by cases m <;> decide
  simp only [sentLine, List.mem_append, List.mem_cons, not_or]
  exact ⟨hm, by decide, ht.2.1, by decide, by decide⟩

theorem setTarget_method (r : RequestIncoming) (target : Bytes) :
    (r.setTarget target).method = r.method := by
  unfold RequestIncoming.setTarget
  split
  · rfl
  · split
    · rfl
    · rfl

theorem method_sent (ip : Bytes) (m : Method) (ht : PlainTarget target)
    (fields : List (Bytes × Bytes)) (data : Bytes) :
    (requestOf ip (headText (sentLine m target) fields, data)).method = m := by
  show (RequestIncoming.new (headText (sentLine m target) fields)).method = m
  rw [new_headText m ht.1 ht.2.2]
  exact setTarget_method _ _

theorem getHeaders_sent (ip : Bytes) (m : Method) (ht : PlainTarget target)
    {fields : List (Bytes × Bytes)} (hf : ∀ f ∈ fields, PlainField f) (data : Bytes) :
    (requestOf ip (headText (sentLine m target) fields, data)).getHeaders
      = fields.foldl assignField .empty := by
  unfold requestOf
  rw [getHeaders_set, new_headText m ht.1 ht.2.2]
  exact getHeaders_headText _ hf _ (setTarget_frame _ _).1 rfl (setTarget_frame _ _).2

/-- **The requests of the client close the connection**: their last field asks for it. -/
theorem keepsAlive_sent (ip : Bytes) (m : Method) (ht : PlainTarget target)
    (hes : es.Perm (sentEntries hs data)) (hhost : cr ∉ host ∧ lf ∉ host) :
    keepsAlive (requestOf ip (headText (sentLine m target) (sentFields host es), data))
      = false := by
  have hlast := get_assign_last ((str "Host", host) :: es) [] (str "Connection", str "close")
    (n := str "Connection") (by decide) (fun g hg => absurd hg List.not_mem_nil) .empty
  have hfields : (str "Host", host) :: es ++ [(str "Connection", str "close")]
      = sentFields host es := rfl
  rw [hfields] at hlast
  unfold keepsAlive
  rw [getHeaders_sent ip m ht (plain_sentFields hes hhost), hlast]
  decide

/-- a request of the client is complete, and closes the connection -/
theorem closing_sent (ip : Bytes) (m : Method) (ht : PlainTarget target)
    (hes : es.Perm (sentEntries hs data)) (hhost : cr ∉ host ∧ lf ∉ host)
    (hsize : (headText (sentLine m target) (sentFields host es) ++ data).length < 2 ^ 62) :
    ClosingRequest ip (headText (sentLine m target) (sentFields host es), data) where
  complete :=
    { head := by
        have hcr := fun f hf => (plain_sentFields hes hhost f hf).cr_fieldText
        have h := blockHead_headText (cr_sentTarget (m := m) ht) hcr []
        rwa [List.append_nil] at h
      length := refLength_headText hes (lf_sentLine m ht.2.2) hhost
      expect := refExpect_headText hes (lf_sentLine m ht.2.2) hhost
      size := by
        rw [List.length_append] at hsize
        exact hsize.trans (by norm_num) }
  closes := keepsAlive_sent ip m ht hes hhost
  small := hsize

end

namespace Exchange
open RequestOutgoming

/-- a call of `http::request`, with an object that the setters `calls` have filled, and the address
of its client -/
structure Request where
  clientIP : Bytes
  /-- the order in which the maps of the object yield their entries -/
  order : AssocMap.Order Bytes Bytes
  url : Url
  calls : List RequestOutgoming.Call
  setters : ∀ q ∈ calls, q.Setter
  endpoint_plain : PlainTarget url.endpoint
  /-- parameters are given in the endpoint or with `set_params` -/
  query : ch '?' ∉ url.endpoint ∨ queryCalls calls = []
  host_plain : cr ∉ url.transport.2 ∧ lf ∉ url.transport.2
  small : (((calls.foldl after {}).setPath url.endpoint).getHttpBody order
    url.transport.2).1.length < 2 ^ 62

namespace Request

def outgoing (q : Request) : RequestOutgoming := q.calls.foldl after {}

def text (q : Request) : Bytes :=
  ((q.outgoing.setPath q.url.endpoint).getHttpBody q.order q.url.transport.2).1

end Request

/-- the names of the fields that `get_http_body` adds -/
def ownNames : List Bytes := [str "Host", str "Connection", CONTENT_TYPE, CONTENT_LENGTH]

/-- what a handler reads from a request: the last method and data, the first value of each header
and query parameter and the last value of each form parameter that the setters were given -/
structure Arrives (q : Request) (got : RequestIncoming) : Prop where
  userIp : got.userIp = q.clientIP
  method : got.method = methodOf q.calls
  path : got.path = (splitEndpoint q.url.endpoint).1
  params : ∀ name, got.params.params.find? name
    = (AssocMap.lastOf (splitEndpoint q.url.endpoint).2 name).or
        (AssocMap.firstOf (queryCalls q.calls) name)
  headers : ∀ name value, AssocMap.firstOf (headerCalls q.calls) name = some value →
    got.getHeaders.get name = value
  /-- no other header, but for those of the connection and of the body -/
  no_header : ∀ name, AssocMap.firstOf (headerCalls q.calls) name = none → name ∉ ownNames →
    got.getHeaders.get name = []
  /-- without form parameters the body is the data -/
  data : formCalls q.calls = [] → got.postData = dataOf q.calls
  form : formCalls q.calls ≠ [] → ∀ name,
    got.parsePostDataParams.postDataParams.params.find? name
      = AssocMap.lastOf (formCalls q.calls) name

theorem get_sentFields_none {hs : List PlainHeader} {data host : Bytes}
    {es : List (Bytes × Bytes)} (hes : es.Perm (sentEntries hs data)) {name : Bytes}
    (hown : name ∉ ownNames) (hn : ∀ x ∈ hs, x.name ≠ name) :
    ((sentFields host es).foldl assignField .empty).get name = [] := by
  have hown' : name ≠ str "Host" ∧ name ≠ str "Connection" ∧ name ≠ CONTENT_TYPE ∧
      name ≠ CONTENT_LENGTH := by simpa [ownNames] using hown
  obtain ⟨h1, h2, h3, h4⟩ := hown'
  refine (get_assign_of_ne (fun f hf => ?_) .empty).trans rfl
  rcases List.mem_cons.mp hf with rfl | hf
  · exact h1
  rcases List.mem_append.mp hf with hf | hf
  · rcases List.mem_append.mp (hes.mem_iff.mp hf) with hf | hf
    · obtain ⟨x, hx, rfl⟩ := List.mem_map.mp hf
      rw [show svStrip x.field.1 = x.name from x.name_trimmed.svStrip_eq]
      exact (hn x hx).symm
    · obtain ⟨-, htrim, hf | hf⟩ := plain_bodyFields hf
      · rw [htrim.svStrip_eq, hf]
        exact h3
      · rw [htrim.svStrip_eq, hf]
        exact h4
  · obtain rfl := List.mem_singleton.mp hf
    exact h2

theorem parsePostDataParams_setUserIp (r : RequestIncoming) (ip body : Bytes) :
    ((r.setUserIp ip).setData body).parsePostDataParams.postDataParams
      = (r.setData body).parsePostDataParams.postDataParams := by
  unfold RequestIncoming.parsePostDataParams RequestIncoming.setData RequestIncoming.setUserIp
  dsimp only
  split
  · rfl
  · rfl

theorem bodyToSend_eq {r : RequestOutgoming} {calls : List RequestOutgoming.Call}
    (h : Composed r calls) (o : AssocMap.Order Bytes Bytes) :
    r.bodyToSend o
      = if formCalls calls = [] then dataOf calls else r.postDataParams.toUrlEncoded o := by
  unfold bodyToSend
  by_cases hform : formCalls calls = []
  · have hempty : r.ownPostParams.isEmpty = true := by
      rw [AssocMap.isEmpty_iff]
      intro name
      rw [h.form.own, hform]
      rfl
    rw [if_pos hempty, if_pos hform, h.data]
  · have hempty : ¬ r.ownPostParams.isEmpty = true := by
      intro hempty
      obtain ⟨f, hf⟩ := List.exists_mem_of_ne_nil _ hform
      have hname := AssocMap.isEmpty_iff.mp hempty f.1
      rw [h.form.own, AssocMap.lastOf_eq_none_iff] at hname
      exact hname (List.mem_map_of_mem hf)
    rw [if_neg hempty, if_neg hform]

/-- **A request arrives as the setters composed it**, and closes the connection. -/
theorem Request.arrives (q : Request) : ∃ r : Bytes × Bytes, q.text = r.1 ++ r.2 ∧
    Arrives q (requestOf q.clientIP r) ∧ ClosingRequest q.clientIP r := by
  have hc : Composed q.outgoing q.calls := composed_run q.setters
  have hc' : Composed (q.outgoing.setPath q.url.endpoint) q.calls := hc.setPath q.url.endpoint
  have htarget := plain_targetToSend q.outgoing q.endpoint_plain q.order
  obtain ⟨hpath, hparams⟩ := hc.received_target q.order q.endpoint_plain q.query q.url.transport.2
  obtain ⟨hs, hentries, hfirst, hgiven⟩ := hc'.exists_sentHeaders q.setters q.order
  have hperm := q.order.perm ((q.outgoing.setPath q.url.endpoint).addBodyHeaders
    ((q.outgoing.setPath q.url.endpoint).bodyToSend q.order)).headers.params
  have hn := (hperm.map Prod.fst).nodup_iff.mpr (AssocMap.nodup _)
  rw [hentries] at hperm
  have htext : q.text = _ := getHttpBody_eq (q.outgoing.setPath q.url.endpoint) q.order
    q.url.transport.2
  have hsmall : q.text.length < 2 ^ 62 := q.small
  have hbody := bodyToSend_eq hc' q.order
  have hget := getHeaders_sent q.clientIP (q.outgoing.setPath q.url.endpoint).method htarget
    (plain_sentFields hperm q.host_plain) ((q.outgoing.setPath q.url.endpoint).bodyToSend q.order)
  refine ⟨(headText ((q.outgoing.setPath q.url.endpoint).lineToSend q.order)
      ((q.outgoing.setPath q.url.endpoint).fieldsToSend q.order q.url.transport.2),
    (q.outgoing.setPath q.url.endpoint).bodyToSend q.order), htext, ?_, ?_⟩
  · constructor
    case userIp => rfl
    case method => exact (method_sent _ _ htarget _ _).trans hc'.method
    case path => exact hpath
    case params => exact hparams
    case headers =>
      intro name value hv
      obtain ⟨x, hx, rfl, rfl⟩ := hfirst name value hv
      exact (congrArg (·.get x.name) hget).trans (get_sentFields hperm hn hx .empty)
    case no_header =>
      intro name hnone hown
      refine (congrArg (·.get name) hget).trans (get_sentFields_none hperm hown ?_)
      rintro x hx rfl
      rcases hgiven x hx with h | h
      · exact absurd (hnone.symm.trans h) (by simp)
      · exact hown (by rw [h]; simp [ownNames])
    case data =>
      intro hform
      show (q.outgoing.setPath q.url.endpoint).bodyToSend q.order = _
      rw [hbody, if_pos hform]
    case form =>
      intro hform name
      unfold requestOf
      rw [parsePostDataParams_setUserIp, parsePostDataParams_body]
      dsimp only
      rw [hbody, if_neg hform, copyParams_decoded]
      exact hc'.form.view name
  · rw [htext] at hsmall
    exact closing_sent q.clientIP _ htarget hperm q.host_plain hsmall

end Exchange
end ServerHttpLib
