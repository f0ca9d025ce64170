import ServerHttpLib.Http.HeadText

/-!
# Parameters in a query and in a form

`to_url_encoded` writes names and values in the URL encoding, which has none of the characters
that separate tokens, names and the parts of a request line.  Both places where it is read split
at these characters and decode:

* `urlDecode_urlEncode`     the codec is the identity on all byte strings;
* `decodeTokens_encoded`    the tokens are the entries that were written;
* `params_round_trip`       a form body and a query are decoded to the map that was encoded.
-/

namespace ServerHttpLib
open Cutting

/-! ## the URL codec -/

/-- the characters that the two parsers and the request line search for -/
def delimiters : Bytes := [ch '&', ch '=', ch '?', sp, lf]

theorem not_mem_encodeByte : ∀ c, ∀ d ∈ delimiters, d ∉ encodeByte c :=
  forall_byte (by decide +kernel)

theorem not_mem_urlEncode {d : UInt8} (hd : d ∈ delimiters) (s : Bytes) : d ∉ urlEncode s := by
  intro h
  obtain ⟨c, -, hc⟩ := List.mem_flatMap.mp h
  exact not_mem_encodeByte c d hd hc

/-- what `url_encode` writes for a byte: the byte, a `+`, or an escape that stands for it -/
def Encodes (c : UInt8) (s : Bytes) : Bool :=
  match s with
  | [d] => d ≠ ch '%' && plainByte d = c
  | [p, h, l] => p = ch '%' && unescape h l = some c
  | _ => false

theorem encodes_encodeByte : ∀ c, Encodes c (encodeByte c) = true :=
  forall_byte (by decide +kernel)

theorem urlDecode_of_encodes {c : UInt8} {e : Bytes} (h : Encodes c e = true) (s : Bytes) :
    urlDecode (e ++ s) = c :: urlDecode s := by
  unfold Encodes at h
  split at h
  · rw [Bool.and_eq_true, decide_eq_true_eq, decide_eq_true_eq] at h
    rw [List.singleton_append, urlDecode_cons h.1, h.2]
  · rw [Bool.and_eq_true, decide_eq_true_eq, decide_eq_true_eq] at h
    rw [h.1]
    exact urlDecode_escape h.2 s
  · exact absurd h (by simp)

/-- **The codec is the identity on all byte strings.** -/
theorem urlDecode_urlEncode (s : Bytes) : urlDecode (urlEncode s) = s := by
  induction s with
  | nil => rfl
  | cons c s ih =>
    show urlDecode (encodeByte c ++ urlEncode s) = _
    rw [urlDecode_of_encodes (encodes_encodeByte c), ih]

/-! ## tokens -/

/-- the token of one parameter -/
def encodeParam (e : Bytes × Bytes) : Bytes := urlEncode e.1 ++ [ch '='] ++ urlEncode e.2

theorem toUrlEncoded_eq (p : Params) (o : AssocMap.Order Bytes Bytes) :
    p.toUrlEncoded o = [ch '&'].intercalate ((o.list p.params).map encodeParam) := rfl

theorem not_mem_encodeParam {d : UInt8} (hd : d ∈ delimiters) (hne : d ≠ ch '=')
    (e : Bytes × Bytes) : d ∉ encodeParam e := by
  simp only [encodeParam, List.mem_append, List.mem_singleton, not_or]
  exact ⟨⟨not_mem_urlEncode hd _, hne⟩, not_mem_urlEncode hd _⟩

theorem decodeToken_encodeParam (e : Bytes × Bytes) : decodeToken (encodeParam e) = e := by
  have hcut : cut [ch '='] (encodeParam e) = some (urlEncode e.1, urlEncode e.2) := by
    unfold encodeParam
    rw [List.append_assoc, List.singleton_append]
    exact cut_of_mem_free (not_mem_urlEncode (by decide) _) _
  unfold decodeToken
  rw [hcut]
  simp only [urlDecode_urlEncode]

theorem encodeParam_ne_nil (e : Bytes × Bytes) : encodeParam e ≠ [] := by
  simp [encodeParam]

/-- the tokens of an encoded list of parameters are those of its entries -/
theorem tokens_encoded (l : List (Bytes × Bytes)) :
    (([ch '&'].intercalate (l.map encodeParam)).splitOn (ch '&')).filter (· ≠ [])
      = l.map encodeParam := by
  cases l with
  | nil => rfl
  | cons e l =>
    rw [List.splitOn_intercalate _ _ (by simp)]
    · rw [List.filter_eq_self]
      intro t ht
      obtain ⟨e', -, rfl⟩ := List.mem_map.mp ht
      exact decide_eq_true (encodeParam_ne_nil e')
    · intro t ht
      obtain ⟨e', -, rfl⟩ := List.mem_map.mp ht
      exact not_mem_encodeParam (by decide) (by decide) e'

/-- name and value of the tokens of a query or a form, in their order -/
def pairsOf (s : Bytes) : List (Bytes × Bytes) :=
  ((s.splitOn (ch '&')).filter (· ≠ [])).map decodeToken

theorem decodeTokens_eq (s : Bytes) (m : AssocMap Bytes Bytes) :
    decodeTokens s m = (pairsOf s).foldl (fun m e => m.insertOrAssign e.1 e.2) m := by
  unfold decodeTokens pairsOf
  rw [List.foldl_map]

/-- the last token of a name gives its value -/
theorem find?_decodeTokens (s name : Bytes) (m : AssocMap Bytes Bytes) :
    (decodeTokens s m).find? name = (AssocMap.lastOf (pairsOf s) name).or (m.find? name) := by
  rw [decodeTokens_eq, AssocMap.find?_foldl_insertOrAssign]

theorem pairsOf_encoded (l : List (Bytes × Bytes)) :
    pairsOf ([ch '&'].intercalate (l.map encodeParam)) = l := by
  unfold pairsOf
  rw [tokens_encoded, List.map_map]
  exact List.map_id'' decodeToken_encodeParam l

/-- **The entries are read back in the order in which they were written.** -/
theorem decodeTokens_encoded {l : List (Bytes × Bytes)} (hl : (l.map Prod.fst).Nodup) :
    (decodeTokens ([ch '&'].intercalate (l.map encodeParam)) .empty).entries = l := by
  rw [decodeTokens_eq, pairsOf_encoded]
  exact AssocMap.entries_foldl_insertOrAssign l .empty hl

theorem copyParams_entries (m : AssocMap Bytes Bytes) :
    (copyParams m .empty).params.entries = m.entries := by
  have h : ∀ (l : List (Bytes × Bytes)) (p : Params),
      (l.foldl (fun p e => p.set e.1 e.2) p).params
        = l.foldl (fun m e => m.insertOrAssign e.1 e.2) p.params := by
    intro l
    induction l with
    | nil => exact fun p => rfl
    | cons e l ih => exact fun p => ih _
  unfold copyParams
  rw [h]
  exact AssocMap.entries_foldl_insertOrAssign m.entries .empty m.nodup

theorem find?_copyParams (s name : Bytes) :
    (copyParams (decodeTokens s .empty) .empty).params.find? name
      = AssocMap.lastOf (pairsOf s) name := by
  rw [AssocMap.find?_of_perm (.of_eq (copyParams_entries _)), find?_decodeTokens,
    AssocMap.find?_empty, Option.or_none]

variable (o : AssocMap.Order Bytes Bytes) (p : Params)

theorem nodup_order : ((o.list p.params).map Prod.fst).Nodup :=
  ((o.perm p.params).map _).nodup_iff.mpr p.params.nodup

theorem copyParams_decoded (name : Bytes) :
    (copyParams (decodeTokens (p.toUrlEncoded o) .empty) .empty).params.find? name
      = p.params.find? name := by
  refine AssocMap.find?_of_perm ?_ name
  rw [copyParams_entries, toUrlEncoded_eq, decodeTokens_encoded (nodup_order o p)]
  exact o.perm p.params

theorem lastOf_encoded (name : Bytes) :
    AssocMap.lastOf (pairsOf (p.toUrlEncoded o)) name = p.params.find? name :=
  (find?_copyParams _ name).symm.trans (copyParams_decoded o p name)

theorem blanks_not_mem_encodeByte :
    ∀ c, sp ∉ encodeByte c ∧ cr ∉ encodeByte c ∧ lf ∉ encodeByte c :=
  forall_byte (by decide +kernel)

/-- what no byte is encoded with is not in an encoding -/
theorem not_mem_toUrlEncoded {d : UInt8} (hd : ∀ c, d ∉ encodeByte c) (h1 : d ≠ ch '=')
    (h2 : d ≠ ch '&') : d ∉ p.toUrlEncoded o := by
  have hcode : ∀ s, d ∉ urlEncode s := by
    intro s hs
    obtain ⟨c, -, hc⟩ := List.mem_flatMap.mp hs
    exact hd c hc
  have hparam : ∀ e, d ∉ encodeParam e := by
    intro e
    simp only [encodeParam, List.mem_append, List.mem_singleton, not_or]
    exact ⟨⟨hcode _, h1⟩, hcode _⟩
  rw [toUrlEncoded_eq]
  generalize o.list p.params = l
  induction l with
  | nil => exact List.not_mem_nil
  | cons e l ih =>
    cases l with
    | nil =>
      rw [List.map_singleton, List.intercalate_singleton]
      exact hparam e
    | cons e' l =>
      rw [List.map_cons, List.map_cons, List.intercalate_cons_cons]
      simp only [List.mem_append, List.mem_singleton, not_or]
      exact ⟨⟨hparam e, h2⟩, ih⟩

/-! ## the two places -/

/-- a request line with the parameters behind the path, and what follows it -/
def queryHeader (method path version rest : Bytes) : Bytes :=
  method ++ sp :: (path ++ ch '?' :: p.toUrlEncoded o) ++ sp :: version ++ lf :: rest

theorem requestLine_eq {method target : Bytes} (hm : sp ∉ method) (ht : sp ∉ target)
    (version : Bytes) :
    requestLine (method ++ sp :: target ++ sp :: version) = (method, target) := by
  have h1 : cut [sp] (method ++ sp :: (target ++ sp :: version))
      = some (method, target ++ sp :: version) := cut_of_mem_free hm _
  have h2 : cut [sp] (target ++ sp :: version) = some (target, version) := cut_of_mem_free ht _
  have e : method ++ sp :: target ++ sp :: version = method ++ sp :: (target ++ sp :: version) := by
    simp
  unfold requestLine
  rw [e, h1]
  simp only [h2]

/-- a carriage return at the end of the line belongs to what follows the target -/
theorem requestLine_dropCr {method target : Bytes} (hm : sp ∉ method) (ht : sp ∉ target)
    (version : Bytes) :
    requestLine (dropCr (method ++ sp :: target ++ sp :: version)) = (method, target) := by
  unfold dropCr
  split
  · next h =>
    cases version with
    | nil =>
      rw [List.getLast?_append_of_ne_nil _ (by simp), List.getLast?_singleton] at h
      exact absurd h (by decide)
    | cons b v =>
      rw [List.dropLast_append_of_ne_nil (by simp), List.dropLast_cons_cons]
      exact requestLine_eq hm ht _
  · exact requestLine_eq hm ht version

theorem setTarget_query {path query : Bytes} (hp : ch '?' ∉ path) (r : RequestIncoming) :
    r.setTarget (path ++ ch '?' :: query)
      = { r with path := path
                 decodedParams := decodeTokens query r.decodedParams
                 params := copyParams (decodeTokens query r.decodedParams) r.params } := by
  unfold RequestIncoming.setTarget
  rw [if_neg (by simp), cut_of_mem_free hp]

theorem new_queryHeader {method path version : Bytes} (hm : sp ∉ method ∧ lf ∉ method)
    (hp : sp ∉ path ∧ lf ∉ path ∧ ch '?' ∉ path) (hv : lf ∉ version) (rest : Bytes) :
    (RequestIncoming.new (queryHeader o p method path version rest)).path = path ∧
      (RequestIncoming.new (queryHeader o p method path version rest)).params
        = copyParams (decodeTokens (p.toUrlEncoded o) .empty) .empty := by
  have hsp : sp ∉ p.toUrlEncoded o :=
    not_mem_toUrlEncoded o p (fun c => (blanks_not_mem_encodeByte c).1) (by decide) (by decide)
  have hlf : lf ∉ p.toUrlEncoded o :=
    not_mem_toUrlEncoded o p (fun c => (blanks_not_mem_encodeByte c).2.2) (by decide) (by decide)
  have htarget : sp ∉ path ++ ch '?' :: p.toUrlEncoded o := by
    simp only [List.mem_append, List.mem_cons, not_or]
    exact ⟨hp.1, by decide, hsp⟩
  have hline : lf ∉ method ++ sp :: (path ++ ch '?' :: p.toUrlEncoded o) ++ sp :: version := by
    simp only [List.mem_append, List.mem_cons, not_or]
    exact ⟨⟨hm.2, by decide, hp.2.1, by decide, hlf⟩, by decide, hv⟩
  have hcut : cut [lf] (queryHeader o p method path version rest)
      = some (method ++ sp :: (path ++ ch '?' :: p.toUrlEncoded o) ++ sp :: version, rest) :=
    cut_of_mem_free hline rest
  unfold RequestIncoming.new RequestIncoming.parseHeader
  simp only [hcut, requestLine_dropCr hm.1 htarget, setTarget_query hp.2.2, and_self]

theorem setTarget_post (r : RequestIncoming) (target : Bytes) :
    (r.setTarget target).postDataParamsParsed = r.postDataParamsParsed ∧
      (r.setTarget target).decodedPostDataParams = r.decodedPostDataParams ∧
      (r.setTarget target).postDataParams = r.postDataParams := by
  unfold RequestIncoming.setTarget
  split
  · exact ⟨rfl, rfl, rfl⟩
  · split
    · exact ⟨rfl, rfl, rfl⟩
    · exact ⟨rfl, rfl, rfl⟩

theorem new_post (header : Bytes) :
    (RequestIncoming.new header).postDataParamsParsed = false ∧
      (RequestIncoming.new header).decodedPostDataParams = .empty ∧
      (RequestIncoming.new header).postDataParams = .empty := by
  unfold RequestIncoming.new RequestIncoming.parseHeader
  split
  · exact ⟨rfl, rfl, rfl⟩
  · exact setTarget_post _ _

theorem new_postData (header : Bytes) : (RequestIncoming.new header).postData = [] := by
  unfold RequestIncoming.new RequestIncoming.parseHeader
  split
  · rfl
  · show (RequestIncoming.setTarget _ _).postData = []
    unfold RequestIncoming.setTarget
    split
    · rfl
    · split
      · rfl
      · rfl

theorem parsePostDataParams_body (header body : Bytes) :
    ((RequestIncoming.new header).setData body).parsePostDataParams.postDataParams
      = copyParams (decodeTokens body .empty) .empty := by
  obtain ⟨h1, h2, h3⟩ := new_post header
  unfold RequestIncoming.parsePostDataParams
  rw [if_neg (by rw [RequestIncoming.setData, h1]; simp)]
  simp only [RequestIncoming.setData, h2, h3]

/-- **Parameters round trip.**  For every map and every order in which it yields its entries, the
encoded text is decoded to the same map, as the body of any request and as the query of any
request line, whose path stays as it is. -/
theorem params_round_trip (p : Params) (o : AssocMap.Order Bytes Bytes)
    (header method path version rest : Bytes) (hmethod : sp ∉ method ∧ lf ∉ method)
    (hpath : sp ∉ path ∧ lf ∉ path ∧ ch '?' ∉ path) (hversion : lf ∉ version) :
    (∀ name, ((RequestIncoming.new header).setData
        (p.toUrlEncoded o)).parsePostDataParams.postDataParams.params.find? name
      = p.params.find? name) ∧
    (∀ name, (RequestIncoming.new (queryHeader o p method path version rest)).params.params.find?
        name = p.params.find? name) ∧
    (RequestIncoming.new (queryHeader o p method path version rest)).path = path := by
  obtain ⟨h1, h2⟩ := new_queryHeader o p hmethod hpath hversion rest
  refine ⟨fun name => ?_, fun name => ?_, h1⟩
  · rw [parsePostDataParams_body]
    exact copyParams_decoded o p name
  · rw [h2]
    exact copyParams_decoded o p name

/-- an empty name, and a value with separators, a blank, `NUL` and a byte above 127 -/
def oddParams : Params :=
  (Params.empty.set [] (str "&=+% ?" ++ [0, 200])).set (str "a=b") []

theorem params_round_trip_odd :
    (∀ name, ((RequestIncoming.new []).setData
        (oddParams.toUrlEncoded .inserted)).parsePostDataParams.postDataParams.params.find? name
      = oddParams.params.find? name) ∧
    (∀ name, (RequestIncoming.new (queryHeader .inserted oddParams (str "GET") (str "/a")
        (str "HTTP/1.1\r") crlf)).params.params.find? name = oddParams.params.find? name) ∧
    (RequestIncoming.new (queryHeader .inserted oddParams (str "GET") (str "/a")
      (str "HTTP/1.1\r") crlf)).path = str "/a" :=
  params_round_trip oddParams .inserted [] (str "GET") (str "/a") (str "HTTP/1.1\r") crlf
    (by decide) (by decide) (by decide)

end ServerHttpLib
