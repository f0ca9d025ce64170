import ServerHttpLib.Http.Outgoming
import ServerHttpLib.Http.ParamsCodec

/-!
# Setting a parameter again

`set_params` inserts into the map that owns the strings, `set_post_params` assigns.  The view of
`set_params` then shows what is kept, so a second value for a name is dropped without a word.

* `Collected`            what a request holds behind a list of calls: the first value of each query
                         name, the last value of each form name;
* `received_last_iff`    the receiver of the message finds the last values if and only if no query
                         name has been given two different values, the last one not the first.
-/

namespace ServerHttpLib
namespace RequestOutgoming

/-- the request that is read from the head and the body of a message -/
def Message.received (m : Message) : RequestIncoming :=
  (RequestIncoming.new (headText m.line m.fields)).setData m.body

def Call.queryPair : Call → Option (Bytes × Bytes)
  | .setParams name value => some (name, value)
  | _ => none

def Call.formPair : Call → Option (Bytes × Bytes)
  | .setPostParams name value => some (name, value)
  | _ => none

def queryCalls (calls : List Call) : List (Bytes × Bytes) := calls.filterMap Call.queryPair
def formCalls (calls : List Call) : List (Bytes × Bytes) := calls.filterMap Call.formPair

/-- a path has none of the characters that end it in a request line, and the body is the form -/
def Call.Plain : Call → Prop
  | .setPath v => sp ∉ v ∧ lf ∉ v ∧ ch '?' ∉ v
  | .setData _ => False
  | _ => True

/-- both maps of the query hold the first value of each name -/
structure QueryHeld (r : RequestOutgoming) (query : List (Bytes × Bytes)) : Prop where
  own : ∀ name, r.ownParams.find? name = AssocMap.firstOf query name
  view : ∀ name, r.params.params.find? name = AssocMap.firstOf query name

/-- what is held behind the calls `query` of `set_params` and `form` of `set_post_params` -/
structure Collected (r : RequestOutgoming) (query form : List (Bytes × Bytes)) : Prop where
  path : sp ∉ r.path ∧ lf ∉ r.path ∧ ch '?' ∉ r.path
  data : r.postData = []
  query : QueryHeld r query
  own : ∀ name, r.ownPostParams.find? name = AssocMap.lastOf form name
  view : ∀ name, r.postDataParams.params.find? name = AssocMap.lastOf form name

variable {r : RequestOutgoming} {query form : List (Bytes × Bytes)}

theorem collected_new : Collected {} [] [] :=
  ⟨by decide, rfl, ⟨fun _ => rfl, fun _ => rfl⟩, fun _ => rfl, fun _ => rfl⟩

theorem Collected.same (h : Collected r query form) {r' : RequestOutgoming}
    (he : ∃ m headers view, r' = { r with method := m, ownHeaders := headers, headers := view }) :
    Collected r' query form := by
  obtain ⟨m, headers, view, rfl⟩ := he
  exact ⟨h.path, h.data, ⟨h.query.own, h.query.view⟩, h.own, h.view⟩

/-- the first value of a name stays -/
theorem QueryHeld.setParams (h : QueryHeld r query) (name value : Bytes) :
    QueryHeld (r.setParams name value) (query ++ [(name, value)]) := by
  have hown : ∀ n, (r.ownParams.insert name value).find? n
      = AssocMap.firstOf (query ++ [(name, value)]) n := by
    intro n
    rw [AssocMap.find?_insert, AssocMap.firstOf_snoc, h.own, h.own]
    by_cases hn : n = name
    · subst hn
      rw [if_pos rfl, if_pos rfl]
      cases AssocMap.firstOf query n with
      | none => rfl
      | some v => rfl
    · rw [if_neg hn, if_neg hn, Option.or_none]
  refine ⟨hown, fun n => ?_⟩
  show (r.params.params.insertOrAssign name
    (((r.ownParams.insert name value).find? name).getD [])).find? n = _
  rw [AssocMap.find?_insertOrAssign]
  by_cases hn : n = name
  · subst hn
    rw [if_pos rfl, AssocMap.find?_insert, if_pos rfl, Option.getD_some, ← hown,
      AssocMap.find?_insert, if_pos rfl]
  · rw [if_neg hn, h.view, AssocMap.firstOf_snoc, if_neg hn, Option.or_none]

theorem QueryHeld.run (h : QueryHeld r query) (ps : List (Bytes × Bytes)) :
    QueryHeld (ps.foldl (fun r p => r.setParams p.1 p.2) r) (query ++ ps) := by
  induction ps generalizing r query with
  | nil => rwa [List.append_nil]
  | cons p ps ih =>
    have hrest := ih (h.setParams p.1 p.2)
    rwa [List.append_assoc] at hrest

/-- the last value of a name stays -/
theorem Collected.setPostParams (h : Collected r query form) (name value : Bytes) :
    Collected (r.setPostParams name value) query (form ++ [(name, value)]) := by
  refine ⟨h.path, h.data, ⟨h.query.own, h.query.view⟩, fun n => ?_, fun n => ?_⟩
  · show (r.ownPostParams.insertOrAssign name value).find? n = _
    rw [AssocMap.find?_insertOrAssign, AssocMap.lastOf_snoc, h.own]
  · show (r.postDataParams.params.insertOrAssign name value).find? n = _
    rw [AssocMap.find?_insertOrAssign, AssocMap.lastOf_snoc, h.view]

theorem Collected.after (h : Collected r query form) {q : Call} (hq : q.Plain) :
    Collected (r.after q) (query ++ q.queryPair.toList) (form ++ q.formPair.toList) := by
  have none : ∀ {r' : RequestOutgoming}, Collected r' query form →
      Collected r' (query ++ []) (form ++ []) := by
    intro r' h'
    rwa [List.append_nil, List.append_nil]
  cases q with
  | setMethod m => exact none (h.same ⟨m, _, _, rfl⟩)
  | setPath v => exact none ⟨hq, h.data, ⟨h.query.own, h.query.view⟩, h.own, h.view⟩
  | setParams name value =>
    show Collected _ _ (form ++ [])
    rw [List.append_nil]
    exact ⟨h.path, h.data, h.query.setParams name value, h.own, h.view⟩
  | setPostParams name value =>
    show Collected _ (query ++ []) _
    rw [List.append_nil]
    exact h.setPostParams name value
  | setData v => exact absurd hq id
  | setContentType v => exact none (h.same ⟨_, _, _, rfl⟩)
  | addHeader name value => exact none (h.same ⟨_, _, _, rfl⟩)
  | getHttpBody o host =>
    obtain ⟨own, view, he⟩ := addBodyHeaders_frame r (r.bodyToSend o)
    exact none (h.same ⟨r.method, own, view, he⟩)

theorem Collected.run (h : Collected r query form) {calls : List Call}
    (hq : ∀ q ∈ calls, q.Plain) :
    Collected (calls.foldl RequestOutgoming.after r) (query ++ queryCalls calls)
      (form ++ formCalls calls) := by
  induction calls generalizing r query form with
  | nil =>
    show Collected r (query ++ []) (form ++ [])
    rwa [List.append_nil, List.append_nil]
  | cons q calls ih =>
    have hrest := ih (h.after (hq q List.mem_cons_self)) fun q' hm =>
      hq q' (List.mem_cons_of_mem _ hm)
    rw [List.append_assoc, List.append_assoc] at hrest
    have hquery : queryCalls (q :: calls) = q.queryPair.toList ++ queryCalls calls := by
      cases q <;> rfl
    have hform : formCalls (q :: calls) = q.formPair.toList ++ formCalls calls := by
      cases q <;> rfl
    rw [List.foldl_cons, hquery, hform]
    exact hrest

/-! ## what the receiver finds -/

/-- a request whose target has not been read yet -/
structure NoTarget (r0 : RequestIncoming) : Prop where
  path : r0.path = []
  params : r0.params = .empty
  decodedParams : r0.decodedParams = .empty

theorem NoTarget.withoutQuery {r0 : RequestIncoming} (h : NoTarget r0) {target : Bytes}
    (ht : ch '?' ∉ target) : (r0.setTarget target).path = target ∧
      ∀ name, (r0.setTarget target).params.params.find? name = none := by
  rw [setTarget_plain h.path ht]
  refine ⟨rfl, fun name => ?_⟩
  show r0.params.params.find? name = none
  rw [h.params]
  rfl

theorem NoTarget.withQuery {r0 : RequestIncoming} (h : NoTarget r0) {path : Bytes}
    (hp : ch '?' ∉ path) (query : Bytes) :
    (r0.setTarget (path ++ ch '?' :: query)).path = path ∧
      ∀ name, (r0.setTarget (path ++ ch '?' :: query)).params.params.find? name
        = AssocMap.lastOf (pairsOf query) name := by
  rw [setTarget_query hp, h.params, h.decodedParams]
  exact ⟨rfl, find?_copyParams query⟩

theorem received_target (o : AssocMap.Order Bytes Bytes) (host : Bytes) (hsp : sp ∉ r.path)
    (hlf : lf ∉ r.path) :
    ∃ r0 : RequestIncoming, NoTarget r0 ∧
      (r.message o host).received.path = (r0.setTarget (r.targetToSend o)).path ∧
      (r.message o host).received.params = (r0.setTarget (r.targetToSend o)).params := by
  have hb := blanks_not_mem_encodeByte
  have hnew := new_headText r.method
    (r.not_mem_targetToSend o (fun c => (hb c).1) (by decide) hsp)
    (r.not_mem_targetToSend o (fun c => (hb c).2.2) (by decide) hlf) (r.fieldsToSend o host)
  have hreceived : (r.message o host).received
      = (RequestIncoming.new (headText (sentLine r.method (r.targetToSend o))
          (r.fieldsToSend o host))).setData (r.bodyToSend o) := rfl
  rw [hreceived, hnew]
  exact ⟨{ header := headText (r.lineToSend o) (r.fieldsToSend o host), method := r.method },
    ⟨rfl, rfl, rfl⟩, rfl, rfl⟩

theorem Collected.received_query (h : Collected r query form) (o : AssocMap.Order Bytes Bytes)
    (host name : Bytes) :
    (r.message o host).received.params.params.find? name = AssocMap.firstOf query name := by
  obtain ⟨hsp, hlf, hquestion⟩ := h.path
  obtain ⟨r0, h0, -, hreceived⟩ := received_target o host hsp hlf
  rw [hreceived]
  unfold targetToSend
  by_cases hempty : r.params.isEmpty = true
  · rw [if_pos hempty, List.append_nil, (h0.withoutQuery hquestion).2, ← h.query.view,
      AssocMap.isEmpty_iff.mp hempty]
  · rw [if_neg hempty, (h0.withQuery hquestion _).2, lastOf_encoded, h.query.view]

theorem Collected.received_form (h : Collected r query form) (o : AssocMap.Order Bytes Bytes)
    (host name : Bytes) :
    (r.message o host).received.parsePostDataParams.postDataParams.params.find? name
      = AssocMap.lastOf form name := by
  have hbody : (r.message o host).received.parsePostDataParams.postDataParams
      = copyParams (decodeTokens (r.bodyToSend o) .empty) .empty := parsePostDataParams_body _ _
  rw [hbody]
  unfold bodyToSend
  by_cases hempty : r.ownPostParams.isEmpty = true
  · rw [if_pos hempty, h.data, ← h.own, AssocMap.isEmpty_iff.mp hempty]
    rfl
  · rw [if_neg hempty, copyParams_decoded, h.view]

/-- **The receiver finds the last value of every name** if and only if the last call of `set_params`
for a name gives the value of the first one.  The names of the form are always right. -/
theorem received_last_iff (calls : List Call) (hq : ∀ q ∈ calls, q.Plain)
    (o : AssocMap.Order Bytes Bytes) (host : Bytes) :
    ((∀ name, ((calls.foldl after {}).message o host).received.params.params.find? name
          = AssocMap.lastOf (queryCalls calls) name) ∧
        ∀ name, ((calls.foldl after {}).message o
            host).received.parsePostDataParams.postDataParams.params.find? name
          = AssocMap.lastOf (formCalls calls) name) ↔
      ∀ name, AssocMap.firstOf (queryCalls calls) name
        = AssocMap.lastOf (queryCalls calls) name := by
  have h : Collected (calls.foldl after {}) (queryCalls calls) (formCalls calls) :=
    collected_new.run hq
  constructor
  · intro hlast name
    rw [← h.received_query o host name]
    exact hlast.1 name
  · intro hsame
    refine ⟨fun name => ?_, h.received_form o host⟩
    rw [h.received_query, hsame]

/-- a form whose field is corrected, sent to a page of a list -/
def corrected : List Call :=
  [.setMethod .post, .setPath (str "/list"), .setParams (str "page") (str "1"),
    .setPostParams (str "k") (str "v"), .setPostParams (str "k") (str "w")]

theorem received_last_iff_corrected :
    ((∀ name, ((corrected.foldl after {}).message .inserted (str "h")).received.params.params.find?
            name = AssocMap.lastOf (queryCalls corrected) name) ∧
        ∀ name, ((corrected.foldl after {}).message .inserted
            (str "h")).received.parsePostDataParams.postDataParams.params.find? name
          = AssocMap.lastOf (formCalls corrected) name) ↔
      ∀ name, AssocMap.firstOf (queryCalls corrected) name
        = AssocMap.lastOf (queryCalls corrected) name := by
  refine received_last_iff corrected (fun q hq => ?_) .inserted (str "h")
  simp only [corrected, List.mem_cons, List.not_mem_nil, or_false] at hq
  rcases hq with rfl | rfl | rfl | rfl | rfl
  case inr.inl => exact (by decide : sp ∉ str "/list" ∧ lf ∉ str "/list" ∧ ch '?' ∉ str "/list")
  all_goals trivial

/-- one object that asks for the first page, and then for the second one -/
def nextPage : List Call :=
  [.setPath (str "/list"), .setParams (str "page") (str "1"), .setParams (str "page") (str "2")]

/-- the first page is asked for again -/
theorem next_page_ignored :
    (∀ q ∈ nextPage, q.Plain) ∧
      AssocMap.lastOf (queryCalls nextPage) (str "page") = some (str "2") ∧
      ((nextPage.foldl after {}).message .inserted (str "h")).line
        = str "GET /list?page=1 HTTP/1.1" ∧
      ((nextPage.foldl after {}).message .inserted (str "h")).received.params.params.find?
        (str "page") = some (str "1") := by
  refine ⟨fun q hq => ?_, by decide +kernel, by decide +kernel, by decide +kernel⟩
  simp only [nextPage, List.mem_cons, List.not_mem_nil, or_false] at hq
  rcases hq with rfl | rfl | rfl
  case inl => exact (by decide : sp ∉ str "/list" ∧ lf ∉ str "/list" ∧ ch '?' ∉ str "/list")
  all_goals trivial

end RequestOutgoming
end ServerHttpLib
