import ServerHttpLib.Http.Overwriting
import ServerHttpLib.Lib.Pieces

/-!
# An endpoint that has a query of its own

`request` takes the endpoint of the URL for the path, and `get_http_body` writes a `?` and the
parameters behind it, also if there is a `?` already.  The receiver splits at the first one, so the
first of the parameters is read as a part of the last token of the endpoint.

* `not_mem_joint`          the name of that parameter is not received;
* `endpoint_query_iff`     path and parameters arrive if and only if the endpoint has no `?` or
                           there are no further parameters.
-/

namespace ServerHttpLib
open Cutting

/-! ## the codec at a question mark -/

theorem unescape_question (h : UInt8) : unescape h (ch '?') = none := by
  unfold unescape
  rw [show hexVal (ch '?') = none by decide]
  cases hexVal h <;> rfl

theorem unescape_question_left (l : UInt8) : unescape (ch '?') l = none := by
  unfold unescape
  rw [show hexVal (ch '?') = none by decide]

theorem urlDecode_of_unescape_none {h l : UInt8} (hn : unescape h l = none) (s : Bytes) :
    urlDecode (ch '%' :: h :: l :: s) = ch '%' :: urlDecode (h :: l :: s) := by
  rw [urlDecode, if_pos rfl, hn]

theorem urlDecode_question (a b : Bytes) :
    urlDecode (a ++ ch '?' :: b) = urlDecode a ++ ch '?' :: urlDecode b := by
  induction a using urlDecode.induct with
  | case1 => exact urlDecode_cons (by decide) b
  | case2 h l rest b' hb ih =>
    show urlDecode (ch '%' :: h :: l :: (rest ++ ch '?' :: b)) = _
    rw [urlDecode_escape hb, urlDecode_escape hb, ih, List.cons_append]
  | case3 h l rest hb ih =>
    show urlDecode (ch '%' :: h :: l :: (rest ++ ch '?' :: b)) = _
    rw [urlDecode_of_unescape_none hb, urlDecode_of_unescape_none hb, List.cons_append, ← ih]
    rfl
  | case4 c h l rest hc ih =>
    rw [List.cons_append, urlDecode_cons hc, ih, urlDecode_cons hc, List.cons_append]
  | case5 c rest hshort ih =>
    by_cases hc : c = ch '%'
    · subst hc
      have hquestion : urlDecode (ch '%' :: ch '?' :: b) = ch '%' :: ch '?' :: urlDecode b := by
        cases b with
        | nil => decide
        | cons b0 b =>
          rw [urlDecode_of_unescape_none (unescape_question_left b0), urlDecode_cons (by decide)]
          rfl
      match rest, hshort with
      | [], _ => exact hquestion
      | [x], _ =>
        show urlDecode (ch '%' :: x :: ch '?' :: b) = _
        rw [urlDecode_of_unescape_none (unescape_question x)]
        exact congrArg (List.cons (ch '%')) ih
      | h :: l :: rest, hshort => exact absurd rfl (hshort h l rest)
    · rw [List.cons_append, urlDecode_cons hc, ih, urlDecode_cons hc, List.cons_append]

/-! ## the joint -/

theorem pairsOf_append (a b : Bytes) : pairsOf (a ++ ch '&' :: b) = pairsOf a ++ pairsOf b := by
  unfold pairsOf
  rw [List.splitOn_append_cons_self, List.filter_append, List.map_append]

theorem pairsOf_token {t : Bytes} (ht : ch '&' ∉ t) (hne : t ≠ []) :
    pairsOf t = [decodeToken t] := by
  unfold pairsOf
  rw [List.splitOn_eq_singleton ht, List.filter_cons_of_pos (by simpa using hne)]
  rfl

theorem encoded_cons (e : Bytes × Bytes) (l : List (Bytes × Bytes)) :
    [ch '&'].intercalate ((e :: l).map encodeParam) = encodeParam e ∧ l = [] ∨
      [ch '&'].intercalate ((e :: l).map encodeParam)
        = encodeParam e ++ ch '&' :: [ch '&'].intercalate (l.map encodeParam) := by
  cases l with
  | nil => exact .inl ⟨List.intercalate_singleton, rfl⟩
  | cons e' l =>
    refine .inr ?_
    rw [List.map_cons, List.intercalate_cons_of_ne_nil (by simp), List.append_assoc]
    rfl

/-- the token at the joint: the last token of the query has eaten the first parameter -/
theorem pairsOf_joint {t : Bytes} (ht : ch '&' ∉ t) (e : Bytes × Bytes) (l : List (Bytes × Bytes)) :
    pairsOf (t ++ ch '?' :: [ch '&'].intercalate ((e :: l).map encodeParam))
      = decodeToken (t ++ ch '?' :: encodeParam e) :: l := by
  have htoken : ch '&' ∉ t ++ ch '?' :: encodeParam e := by
    rw [List.mem_append, List.mem_cons, not_or, not_or]
    exact ⟨ht, by decide, not_mem_encodeParam (by decide) (by decide) e⟩
  rcases encoded_cons e l with ⟨he, rfl⟩ | he
  · rw [he, pairsOf_token htoken (by simp)]
  · rw [he, ← List.cons_append, ← List.append_assoc, pairsOf_append,
      pairsOf_token htoken (by simp), pairsOf_encoded]
    rfl

/-- its name is that of the last token, or begins with more than the name of the parameter -/
theorem decodeToken_joint (t : Bytes) (e : Bytes × Bytes) :
    (ch '=' ∈ t ∧ (decodeToken (t ++ ch '?' :: encodeParam e)).1 = (decodeToken t).1) ∨
      (decodeToken (t ++ ch '?' :: encodeParam e)).1 = urlDecode t ++ ch '?' :: e.1 := by
  by_cases ht : ch '=' ∈ t
  · obtain ⟨a, b, rfl, ha⟩ := List.eq_append_cons_of_mem ht
    refine .inl ⟨ht, ?_⟩
    unfold decodeToken
    rw [List.append_assoc, List.cons_append, cut_of_mem_free ha, cut_of_mem_free ha]
  · refine .inr ?_
    have hname : ch '=' ∉ t ++ ch '?' :: urlEncode e.1 := by
      rw [List.mem_append, List.mem_cons, not_or, not_or]
      exact ⟨ht, by decide, not_mem_urlEncode (by decide) e.1⟩
    have he : t ++ ch '?' :: encodeParam e
        = (t ++ ch '?' :: urlEncode e.1) ++ ch '=' :: urlEncode e.2 := by
      simp [encodeParam]
    unfold decodeToken
    rw [he, cut_of_mem_free hname]
    show urlDecode (t ++ ch '?' :: urlEncode e.1) = _
    rw [urlDecode_question, urlDecode_urlEncode]

/-- **The first parameter is lost**: its name is not among those behind the joint. -/
theorem not_mem_joint {e : Bytes × Bytes} {l : List (Bytes × Bytes)} (hl : e.1 ∉ l.map Prod.fst)
    {query : Bytes} (hq : e.1 ∉ (pairsOf query).map Prod.fst) :
    e.1 ∉ (pairsOf (query ++ ch '?' :: [ch '&'].intercalate ((e :: l).map encodeParam))).map
      Prod.fst := by
  induction query using cut_induction (List.cons_ne_nil (ch '&') []) with
  | last t h =>
    have ht : ch '&' ∉ t := cut_singleton_none.mp h
    rw [pairsOf_joint ht, List.map_cons, List.mem_cons, not_or]
    refine ⟨?_, hl⟩
    rcases decodeToken_joint t e with ⟨hmem, he⟩ | he
    · rw [he]
      rw [pairsOf_token ht (List.ne_nil_of_mem hmem), List.map_singleton, List.mem_singleton] at hq
      exact hq
    · rw [he]
      intro heq
      have hlen := congrArg List.length heq
      rw [List.length_append, List.length_cons] at hlen
      omega
  | next s a b h ih =>
    have hs : s = a ++ ch '&' :: b := by simpa using cut_eq h
    subst hs
    rw [pairsOf_append, List.map_append, List.mem_append, not_or] at hq
    rw [List.append_assoc, List.cons_append, pairsOf_append, List.map_append, List.mem_append,
      not_or]
    exact ⟨hq.1, ih hq.2⟩

/-! ## the request -/

/-- path and own parameters of an endpoint -/
def splitEndpoint (endpoint : Bytes) : Bytes × List (Bytes × Bytes) :=
  match cut [ch '?'] endpoint with
  | none => (endpoint, [])
  | some (path, query) => (path, pairsOf query)

namespace RequestOutgoming

/-- the request with the parameters `ps`, as `request` sends it to an endpoint -/
def requestTo (r : RequestOutgoming) (endpoint : Bytes) (ps : List (Bytes × Bytes)) :
    RequestOutgoming :=
  (ps.foldl (fun r p => r.setParams p.1 p.2) r).setPath endpoint

/-- what is received for an endpoint and parameters: its path, and the parameters of both -/
structure ArrivesAs (got : RequestIncoming) (endpoint : Bytes) (ps : List (Bytes × Bytes)) :
    Prop where
  path : got.path = (splitEndpoint endpoint).1
  params : ∀ name, got.params.params.find? name
    = (AssocMap.lastOf (splitEndpoint endpoint).2 name).or (AssocMap.lastOf ps name)

variable {r : RequestOutgoming} {endpoint : Bytes} {ps : List (Bytes × Bytes)}

theorem splitEndpoint_plain (h : ch '?' ∉ endpoint) : splitEndpoint endpoint = (endpoint, []) := by
  unfold splitEndpoint
  rw [cut_singleton_none.mpr h]

theorem splitEndpoint_query {path query : Bytes} (h : ch '?' ∉ path) :
    splitEndpoint (path ++ ch '?' :: query) = (path, pairsOf query) := by
  unfold splitEndpoint
  rw [cut_of_mem_free h]

theorem requestTo_params (hr : r.ownParams = .empty ∧ r.params = .empty)
    (hn : (ps.map Prod.fst).Nodup) (name : Bytes) :
    (r.requestTo endpoint ps).params.params.find? name = AssocMap.lastOf ps name := by
  have hnew : QueryHeld r [] := ⟨fun _ => by rw [hr.1]; rfl, fun _ => by rw [hr.2]; rfl⟩
  have h := (hnew.run ps).view name
  rw [List.nil_append] at h
  rw [AssocMap.lastOf_of_nodup hn]
  exact h

theorem requestTo_isEmpty (hr : r.ownParams = .empty ∧ r.params = .empty)
    (hn : (ps.map Prod.fst).Nodup) : (r.requestTo endpoint ps).params.isEmpty = true ↔ ps = [] := by
  unfold Params.isEmpty
  rw [AssocMap.isEmpty_iff]
  constructor
  · intro h
    rw [List.eq_nil_iff_forall_not_mem]
    intro p hp
    have hname := h p.1
    rw [requestTo_params hr hn, AssocMap.lastOf_eq_none_iff] at hname
    exact hname (List.mem_map_of_mem hp)
  · rintro rfl name
    rw [requestTo_params hr hn]
    rfl

variable {r0 : RequestIncoming}

theorem setTarget_endpoint (h0 : NoTarget r0) (endpoint : Bytes) :
    ArrivesAs (r0.setTarget endpoint) endpoint [] := by
  by_cases hq : ch '?' ∈ endpoint
  · obtain ⟨path, query, rfl, hfree⟩ := List.eq_append_cons_of_mem hq
    obtain ⟨hpath, hparams⟩ := h0.withQuery hfree query
    constructor
    · rw [splitEndpoint_query hfree, hpath]
    · intro name
      rw [splitEndpoint_query hfree, hparams]
      exact Option.or_none.symm
  · obtain ⟨hpath, hparams⟩ := h0.withoutQuery hq
    constructor
    · rw [splitEndpoint_plain hq, hpath]
    · intro name
      rw [splitEndpoint_plain hq, hparams]
      rfl

theorem setTarget_params (h0 : NoTarget r0) (hq : ch '?' ∉ endpoint)
    (o : AssocMap.Order Bytes Bytes) {p : Params}
    (hp : ∀ name, p.params.find? name = AssocMap.lastOf ps name) :
    ArrivesAs (r0.setTarget (endpoint ++ ch '?' :: p.toUrlEncoded o)) endpoint ps := by
  obtain ⟨hpath, hparams⟩ := h0.withQuery hq (p.toUrlEncoded o)
  constructor
  · rw [splitEndpoint_plain hq, hpath]
  · intro name
    rw [splitEndpoint_plain hq, hparams, lastOf_encoded]
    exact hp name

theorem exists_first (o : AssocMap.Order Bytes Bytes) {p : Params} (hne : ps ≠ [])
    (hp : ∀ name, p.params.find? name = AssocMap.lastOf ps name) :
    ∃ e l, o.list p.params = e :: l ∧ e.1 ∉ l.map Prod.fst ∧
      AssocMap.lastOf ps e.1 = some e.2 := by
  have hperm := o.perm p.params
  have hnodup := nodup_order o p
  cases hlist : o.list p.params with
  | nil =>
    obtain ⟨e, he⟩ := List.exists_mem_of_ne_nil ps hne
    have hnone : AssocMap.lastOf ps e.1 = none := by
      rw [← hp, AssocMap.find?_eq_none_iff, ← (hperm.map Prod.fst).mem_iff, hlist]
      exact List.not_mem_nil
    exact absurd (List.mem_map_of_mem he) (AssocMap.lastOf_eq_none_iff.mp hnone)
  | cons e l =>
    rw [hlist] at hperm hnodup
    rw [List.map_cons, List.nodup_cons] at hnodup
    refine ⟨e, l, rfl, hnodup.1, ?_⟩
    rw [← hp, AssocMap.find?_eq_some_iff]
    exact hperm.mem_iff.mp List.mem_cons_self

/-- behind an endpoint with a query the first parameter does not arrive -/
theorem setTarget_joint (h0 : NoTarget r0) (hq : ch '?' ∈ endpoint)
    (o : AssocMap.Order Bytes Bytes) {p : Params} (hne : ps ≠ [])
    (hp : ∀ name, p.params.find? name = AssocMap.lastOf ps name)
    (hd : ∀ name ∈ ps.map Prod.fst, name ∉ (splitEndpoint endpoint).2.map Prod.fst) :
    ¬ ArrivesAs (r0.setTarget (endpoint ++ ch '?' :: p.toUrlEncoded o)) endpoint ps := by
  intro h
  obtain ⟨path, query, rfl, hfree⟩ := List.eq_append_cons_of_mem hq
  obtain ⟨e, l, hlist, hnodup, hsome⟩ := exists_first o hne hp
  rw [splitEndpoint_query hfree] at hd
  have hown : e.1 ∉ (pairsOf query).map Prod.fst := by
    apply hd e.1
    by_contra hmem
    rw [AssocMap.lastOf_eq_none_iff.mpr hmem] at hsome
    exact absurd hsome (by simp)
  have hlost : e.1 ∉ (pairsOf (query ++ ch '?' :: p.toUrlEncoded o)).map Prod.fst := by
    rw [toUrlEncoded_eq, hlist]
    exact not_mem_joint hnodup hown
  have hfound := h.params e.1
  rw [List.append_assoc, List.cons_append, (h0.withQuery hfree _).2,
    AssocMap.lastOf_eq_none_iff.mpr hlost, splitEndpoint_query hfree,
    AssocMap.lastOf_eq_none_iff.mpr hown, hsome] at hfound
  exact absurd hfound (by simp)

/-- **Path and parameters arrive** if and only if the endpoint has no `?` or there are no parameters
beside its own. -/
theorem endpoint_query_iff (r : RequestOutgoming) (endpoint : Bytes) (ps : List (Bytes × Bytes))
    (o : AssocMap.Order Bytes Bytes) (host : Bytes)
    (hr : r.ownParams = .empty ∧ r.params = .empty) (he : sp ∉ endpoint ∧ lf ∉ endpoint)
    (hn : (ps.map Prod.fst).Nodup)
    (hd : ∀ name ∈ ps.map Prod.fst, name ∉ (splitEndpoint endpoint).2.map Prod.fst) :
    ArrivesAs ((r.requestTo endpoint ps).message o host).received endpoint ps ↔
      ch '?' ∉ endpoint ∨ ps = [] := by
  obtain ⟨r0, h0, hpath, hparams⟩ :=
    received_target (r := r.requestTo endpoint ps) o host he.1 he.2
  have hread : ArrivesAs ((r.requestTo endpoint ps).message o host).received endpoint ps ↔
      ArrivesAs (r0.setTarget ((r.requestTo endpoint ps).targetToSend o)) endpoint ps := by
    constructor
    · intro h
      exact ⟨hpath ▸ h.path, hparams ▸ h.params⟩
    · intro h
      exact ⟨hpath.trans h.path, hparams ▸ h.params⟩
  have hview : ∀ name, (r.requestTo endpoint ps).params.params.find? name
      = AssocMap.lastOf ps name := requestTo_params hr hn
  have htarget : (r.requestTo endpoint ps).targetToSend o
      = endpoint ++ if ps = [] then [] else
          ch '?' :: (r.requestTo endpoint ps).params.toUrlEncoded o := by
    unfold targetToSend
    rw [ite_congr (propext (requestTo_isEmpty hr hn)) (fun _ => rfl) fun _ => rfl]
    rfl
  rw [hread, htarget]
  by_cases hps : ps = []
  · rw [if_pos hps, List.append_nil, hps]
    exact iff_of_true (setTarget_endpoint h0 endpoint) (.inr rfl)
  · rw [if_neg hps]
    by_cases hq : ch '?' ∈ endpoint
    · refine iff_of_false (setTarget_joint h0 hq o hps hview hd) ?_
      rw [not_or, not_not]
      exact ⟨hq, hps⟩
    · exact iff_of_true (setTarget_params h0 hq o hview) (.inl hq)

theorem endpoint_query_iff_list :
    ArrivesAs ((requestTo {} (str "/list?sort=up") [(str "page", str "2")]).message .inserted
        (str "h")).received (str "/list?sort=up") [(str "page", str "2")] ↔
      ch '?' ∉ str "/list?sort=up" ∨ [(str "page", str "2")] = [] :=
  endpoint_query_iff {} (str "/list?sort=up") [(str "page", str "2")] .inserted (str "h")
    ⟨rfl, rfl⟩ (by decide) (by decide) (by decide +kernel)

/-- both parameters are merged into one -/
theorem endpoint_query_merged :
    ((requestTo {} (str "/list?sort=up") [(str "page", str "2")]).message .inserted
        (str "h")).line = str "GET /list?sort=up?page=2 HTTP/1.1" ∧
      ((requestTo {} (str "/list?sort=up") [(str "page", str "2")]).message .inserted
        (str "h")).received.params.params.entries = [(str "sort", str "up?page=2")] ∧
      ¬ ArrivesAs ((requestTo {} (str "/list?sort=up") [(str "page", str "2")]).message .inserted
        (str "h")).received (str "/list?sort=up") [(str "page", str "2")] := by
  refine ⟨by decide +kernel, by decide +kernel, fun h => ?_⟩
  have hpage := h.params (str "page")
  exact absurd hpage (by decide +kernel)

end RequestOutgoming
end ServerHttpLib
