import ServerHttpLib.Exchange.Requests
import ServerHttpLib.Http.LazyParams

/-!
# Cookies

A client sends its cookies in one header, and the server reads them when it is first asked for one.

* `foldl_setCookie`       the tokens of the header set the cookies that were written;
* `Unread`                what any calls leave of the headers and cookies of a request;
* `cookies_round_trip`    behind any calls each cookie has the value that was written last.
-/

namespace ServerHttpLib
open Cutting

/-! ## the text of the header -/

def cookieToken (c : Bytes × Bytes) : Bytes := c.1 ++ ch '=' :: c.2

/-- the value of the header: the cookies, with a semicolon and a blank between them -/
def cookieText : List (Bytes × Bytes) → Bytes
  | [] => []
  | c :: cs => cookieToken c ++ cs.flatMap fun d => ch ';' :: sp :: cookieToken d

/-- a cookie that is read back as it was written -/
structure PlainCookie (c : Bytes × Bytes) : Prop where
  name_equals : ch '=' ∉ c.1
  name_semicolon : ch ';' ∉ c.1
  value_semicolon : ch ';' ∉ c.2
  name_trimmed : Trimmed c.1
  value_trimmed : Trimmed c.2

variable {c : Bytes × Bytes} {cs : List (Bytes × Bytes)}

theorem PlainCookie.semicolon (hc : PlainCookie c) : ch ';' ∉ cookieToken c := by
  unfold cookieToken
  rw [List.mem_append, List.mem_cons, not_or, not_or]
  exact ⟨hc.name_semicolon, by decide, hc.value_semicolon⟩

theorem PlainCookie.svStrip_token (hc : PlainCookie c) :
    svStrip (cookieToken c) = cookieToken c := by
  have heq : isBlank (ch '=') = false := by decide
  apply svStrip_of_not_blank
  · intro b hb
    obtain ⟨name, value⟩ := c
    cases name with
    | nil =>
      obtain rfl : ch '=' = b := Option.some.inj hb
      exact heq
    | cons a name => exact hc.name_trimmed.head b hb
  · intro b hb
    obtain ⟨name, value⟩ := c
    have hb : (name ++ ch '=' :: value).getLast? = some b := hb
    rw [List.getLast?_append_of_ne_nil _ (List.cons_ne_nil _ _)] at hb
    cases value with
    | nil =>
      obtain rfl : ch '=' = b := Option.some.inj hb
      exact heq
    | cons a value =>
      rw [List.getLast?_cons_cons] at hb
      exact hc.value_trimmed.last b hb

/-- blanks around a token do not matter -/
theorem PlainCookie.setCookie (hc : PlainCookie c) {token : Bytes}
    (ht : svStrip token = cookieToken c) (p : Params) :
    RequestIncoming.setCookie p token = p.set c.1 c.2 := by
  have hcut : cut [ch '='] (cookieToken c) = some (c.1, c.2) := cut_of_mem_free hc.name_equals _
  unfold RequestIncoming.setCookie
  rw [ht, hcut]
  dsimp only
  rw [hc.name_trimmed.svStrip_eq, hc.value_trimmed.svStrip_eq]

/-- the tokens of the header: the first one, and the others with a blank in front -/
theorem splitOn_cookies {t : Bytes} (ht : ch ';' ∉ t) (hcs : ∀ c ∈ cs, PlainCookie c) :
    (t ++ cs.flatMap fun d => ch ';' :: sp :: cookieToken d).splitOn (ch ';')
      = t :: cs.map fun d => sp :: cookieToken d := by
  induction cs generalizing t with
  | nil =>
    rw [List.flatMap_nil, List.append_nil, List.splitOn_eq_singleton ht]
    rfl
  | cons c cs ih =>
    have hc : ch ';' ∉ sp :: cookieToken c := by
      rw [List.mem_cons, not_or]
      exact ⟨by decide, (hcs c List.mem_cons_self).semicolon⟩
    have hrest := ih hc fun d hd => hcs d (List.mem_cons_of_mem _ hd)
    rw [List.flatMap_cons, List.cons_append, List.splitOn_append_cons_self,
      List.splitOn_eq_singleton ht, hrest]
    rfl

theorem foldl_setCookie_spaced (hcs : ∀ c ∈ cs, PlainCookie c) (p : Params) :
    (cs.map fun d => sp :: cookieToken d).foldl RequestIncoming.setCookie p
      = cs.foldl (fun p c => p.set c.1 c.2) p := by
  induction cs generalizing p with
  | nil => rfl
  | cons c cs ih =>
    have hc := hcs c List.mem_cons_self
    have ht : svStrip (sp :: cookieToken c) = cookieToken c := by
      rw [svStrip_cons_blank (by decide), hc.svStrip_token]
    rw [List.map_cons, List.foldl_cons, List.foldl_cons, hc.setCookie ht]
    exact ih (fun d hd => hcs d (List.mem_cons_of_mem _ hd)) _

/-- **The tokens of the header set the cookies**, one after the other. -/
theorem foldl_setCookie (hcs : ∀ c ∈ cs, PlainCookie c) (p : Params) :
    (((cookieText cs).splitOn (ch ';')).filter (· ≠ [])).foldl RequestIncoming.setCookie p
      = cs.foldl (fun p c => p.set c.1 c.2) p := by
  cases cs with
  | nil => rfl
  | cons c cs =>
    have hc := hcs c List.mem_cons_self
    have hrest : ∀ d ∈ cs, PlainCookie d := fun d hd => hcs d (List.mem_cons_of_mem _ hd)
    have hne : cookieToken c ≠ [] := by simp [cookieToken]
    have hfilter : (cookieToken c :: cs.map fun d => sp :: cookieToken d).filter (· ≠ [])
        = cookieToken c :: cs.map fun d => sp :: cookieToken d := by
      rw [List.filter_eq_self]
      intro t ht
      rw [decide_eq_true_eq]
      rcases List.mem_cons.mp ht with rfl | ht
      · exact hne
      · obtain ⟨d, -, rfl⟩ := List.mem_map.mp ht
        exact List.cons_ne_nil _ _
    unfold cookieText
    rw [splitOn_cookies hc.semicolon hrest, hfilter, List.foldl_cons, List.foldl_cons,
      hc.setCookie hc.svStrip_token, foldl_setCookie_spaced hrest]

theorem find?_foldl_set (l : List (Bytes × Bytes)) (p : Params) (name : Bytes) :
    (l.foldl (fun p c => p.set c.1 c.2) p).params.find? name
      = (AssocMap.lastOf l name).or (p.params.find? name) := by
  induction l using List.reverseRecOn with
  | nil => rfl
  | append_singleton l c ih =>
    rw [List.foldl_append, List.foldl_cons, List.foldl_nil, AssocMap.lastOf_snoc]
    show ((l.foldl (fun p c => p.set c.1 c.2) p).params.insertOrAssign c.1 c.2).find? name = _
    rw [AssocMap.find?_insertOrAssign, ih]
    split
    · rfl
    · rfl

/-! ## the calls of a handler -/

namespace RequestIncoming

def afterCalls (r : RequestIncoming) (calls : List Call) : RequestIncoming :=
  calls.foldl (fun r q => (r.call q).2) r

/-- `r` has the header block of `r₀`, and its headers and cookies have not been read yet or are
those of `r₀` -/
structure SameHead (r₀ : RequestIncoming) (cookies : Params) (r : RequestIncoming) : Prop where
  header : r.header = r₀.header
  headersPos : r.headersPos = r₀.headersPos
  headers : r.headers = .empty ∨ r.headers = r₀.getHeaders
  cookies : r.cookieParams = .empty ∨ r.cookieParams = cookies

/-- a fresh request whose cookies are `cs` -/
structure HasCookies (r₀ : RequestIncoming) (cs : List (Bytes × Bytes)) : Prop where
  headers : r₀.headers = .empty
  cookieParams : r₀.cookieParams = .empty
  field : r₀.getHeaders.get (str "Cookie") = cookieText cs
  plain : ∀ c ∈ cs, PlainCookie c
  ne_nil : cs ≠ []

variable {r₀ r : RequestIncoming}

/-- the map that the cookies make -/
def cookieMap (cs : List (Bytes × Bytes)) : Params := cs.foldl (fun p c => p.set c.1 c.2) .empty

theorem HasCookies.start (h : HasCookies r₀ cs) : SameHead r₀ (cookieMap cs) r₀ :=
  ⟨rfl, rfl, .inl h.headers, .inl h.cookieParams⟩

theorem HasCookies.head_ne (h : HasCookies r₀ cs) : r₀.getHeaders.isEmpty = false := by
  rw [Bool.eq_false_iff]
  intro hempty
  have hget : r₀.getHeaders.get (str "Cookie") = [] := by
    unfold Params.get
    rw [AssocMap.isEmpty_iff.mp hempty]
    rfl
  obtain ⟨c, cs, rfl⟩ := List.exists_cons_of_ne_nil h.ne_nil
  rw [h.field] at hget
  exact absurd hget (by simp [cookieText, cookieToken])

theorem cookieMap_ne (hne : cs ≠ []) : (cookieMap cs).isEmpty = false := by
  rw [Bool.eq_false_iff]
  intro hempty
  obtain ⟨c, hc⟩ := List.exists_mem_of_ne_nil cs hne
  have hnone := AssocMap.isEmpty_iff.mp hempty c.1
  unfold cookieMap at hnone
  rw [find?_foldl_set, Option.or_eq_none_iff, AssocMap.lastOf_eq_none_iff] at hnone
  exact hnone.1 (List.mem_map_of_mem hc)

theorem parseHeaders_congr (h : r.header = r₀.header) (hp : r.headersPos = r₀.headersPos)
    (hh : r.headers = r₀.headers) : r.parseHeaders.headers = r₀.parseHeaders.headers := by
  unfold parseHeaders
  rw [h, hp]
  cases r₀.headersPos with
  | none => exact hh
  | some nl =>
    dsimp only
    split
    · exact hh
    · dsimp only
      rw [hh]

/-- the headers are read once, and are those of `r₀` -/
theorem SameHead.readHeaders (hc : HasCookies r₀ cs) (h : SameHead r₀ (cookieMap cs) r) :
    SameHead r₀ (cookieMap cs) r.readHeaders ∧ r.readHeaders.headers = r₀.getHeaders := by
  have hget : r.readHeaders.headers = r₀.getHeaders := by
    unfold RequestIncoming.readHeaders
    rcases h.headers with he | he
    · rw [if_pos (by rw [he]; rfl),
        parseHeaders_congr h.header h.headersPos (he.trans hc.headers.symm), getHeaders,
        if_pos (by rw [hc.headers]; rfl)]
    · rw [if_neg (by rw [he, hc.head_ne]; simp), he]
  obtain ⟨headers, hframe⟩ := readHeaders_frame r
  refine ⟨⟨?_, ?_, .inr hget, ?_⟩, hget⟩
  · rw [hframe]
    exact h.header
  · rw [hframe]
    exact h.headersPos
  · rw [hframe]
    exact h.cookies

theorem SameHead.readCookies (hc : HasCookies r₀ cs) (h : SameHead r₀ (cookieMap cs) r) :
    SameHead r₀ (cookieMap cs) r.readCookies ∧ r.readCookies.cookieParams = cookieMap cs := by
  unfold RequestIncoming.readCookies
  by_cases he : r.cookieParams.isEmpty = true
  · obtain ⟨hhead, hget⟩ := h.readHeaders hc
    have hempty : r.cookieParams = .empty := h.cookies.resolve_right fun hm => by
      rw [hm, cookieMap_ne hc.ne_nil] at he
      exact absurd he (by simp)
    have hcookies : r.readHeaders.cookieParams = .empty := by
      obtain ⟨headers, hframe⟩ := readHeaders_frame r
      rw [hframe]
      exact hempty
    have hmap : r.parseCookieParams.cookieParams = cookieMap cs := by
      unfold parseCookieParams
      dsimp only
      rw [hget, hc.field, hcookies]
      exact foldl_setCookie hc.plain .empty
    rw [if_pos he]
    exact ⟨⟨hhead.header, hhead.headersPos, hhead.headers, .inr hmap⟩, hmap⟩
  · rw [if_neg he]
    refine ⟨h, h.cookies.resolve_left fun hempty => he ?_⟩
    rw [hempty]
    rfl

theorem SameHead.parsePostDataParams (h : SameHead r₀ (cookieMap cs) r) :
    SameHead r₀ (cookieMap cs) r.parsePostDataParams := by
  unfold RequestIncoming.parsePostDataParams
  split
  · exact h
  · exact ⟨h.header, h.headersPos, h.headers, h.cookies⟩

theorem SameHead.readForm (h : SameHead r₀ (cookieMap cs) r) :
    SameHead r₀ (cookieMap cs) r.readForm := by
  unfold RequestIncoming.readForm
  split
  · exact h.parsePostDataParams
  · exact h

theorem SameHead.call (hc : HasCookies r₀ cs) (h : SameHead r₀ (cookieMap cs) r) (q : Call) :
    SameHead r₀ (cookieMap cs) (r.call q).2 := by
  cases q with
  | setData value => exact ⟨h.header, h.headersPos, h.headers, h.cookies⟩
  | getPost name require => exact h.parsePostDataParams
  | getPostDataParam name => exact h.readForm
  | getPostDataParams => exact h.readForm
  | getHeaders => exact (h.readHeaders hc).1
  | getHeader name => exact (h.readHeaders hc).1
  | getCookieParams => exact (h.readCookies hc).1
  | getCookieValue name => exact (h.readCookies hc).1

theorem SameHead.run (hc : HasCookies r₀ cs) (h : SameHead r₀ (cookieMap cs) r)
    (calls : List Call) : SameHead r₀ (cookieMap cs) (r.afterCalls calls) := by
  induction calls generalizing r with
  | nil => exact h
  | cons q calls ih => exact ih (h.call hc q)

theorem HasCookies.value (hc : HasCookies r₀ cs) (calls : List Call) (name : Bytes) :
    ((r₀.afterCalls calls).call (.getCookieValue name)).1
      = .value ((AssocMap.lastOf cs name).getD []) := by
  have h := ((hc.start.run hc calls).readCookies hc).2
  show Answer.value ((r₀.afterCalls calls).readCookies.cookieParams.get name) = _
  rw [h]
  unfold Params.get cookieMap
  rw [find?_foldl_set]
  exact congrArg (fun v : Option Bytes => Answer.value (v.getD [])) Option.or_none

end RequestIncoming

namespace Exchange
open RequestOutgoming

theorem fresh_requestOf (ip : Bytes) (r : Bytes × Bytes) :
    (requestOf ip r).headers = .empty ∧ (requestOf ip r).cookieParams = .empty := by
  show (RequestIncoming.new r.1).headers = .empty ∧ (RequestIncoming.new r.1).cookieParams = .empty
  unfold RequestIncoming.new RequestIncoming.parseHeader
  split
  · exact ⟨rfl, rfl⟩
  · dsimp only
    unfold RequestIncoming.setTarget
    split
    · exact ⟨rfl, rfl⟩
    · split
      · exact ⟨rfl, rfl⟩
      · exact ⟨rfl, rfl⟩

/-- **Cookies round trip.**  The text of a request that carries a `Cookie` header is one complete
request, and shows its handler, behind any calls for headers, cookies and form parameters, for each
name the value of the last cookie of that name, and nothing for other names. -/
theorem cookies_round_trip (q : Request) (cs : List (Bytes × Bytes))
    (hcs : ∀ c ∈ cs, PlainCookie c) (hne : cs ≠ [])
    (hq : AssocMap.firstOf (headerCalls q.calls) (str "Cookie") = some (cookieText cs)) :
    ∃ r : Bytes × Bytes, q.text = r.1 ++ r.2 ∧ CompleteRequest r ∧
      ∀ (calls : List RequestIncoming.Call) (name : Bytes),
        (((requestOf q.clientIP r).afterCalls calls).call (.getCookieValue name)).1
          = .value ((AssocMap.lastOf cs name).getD []) := by
  obtain ⟨r, htext, harr, hclosing⟩ := q.arrives
  obtain ⟨h1, h2⟩ := fresh_requestOf q.clientIP r
  exact ⟨r, htext, hclosing.complete, fun calls name =>
    RequestIncoming.HasCookies.value ⟨h1, h2, harr.headers _ _ hq, hcs, hne⟩ calls name⟩

/-- the value of the second cookie has a blank and an equals sign -/
def twoCookies : List (Bytes × Bytes) :=
  [(str "auth_token", str "7f"), (str "theme", str "a =b")]

def cookieHeader : PlainHeader where
  name := str "Cookie"
  value := cookieText twoCookies
  plain := ⟨by decide, by decide, by decide, by decide, by decide, by decide⟩
  name_trimmed := ⟨by rintro _ ⟨⟩; rfl, by rintro _ ⟨⟩; rfl⟩
  value_trimmed := ⟨by rintro _ ⟨⟩; rfl, by rintro _ ⟨⟩; rfl⟩
  free := by decide

def visit : Request where
  clientIP := str "a"
  order := .inserted
  url := ⟨str "h", 80, str "/", false⟩
  calls := [.addHeader cookieHeader.name cookieHeader.value]
  setters := by
    intro q hq
    obtain rfl := List.mem_singleton.mp hq
    exact ⟨cookieHeader, rfl⟩
  endpoint_plain := ⟨by decide, by decide, by decide⟩
  query := .inr rfl
  host_plain := by decide
  small := by decide +kernel

theorem cookies_round_trip_visit : ∃ r : Bytes × Bytes, visit.text = r.1 ++ r.2 ∧
    CompleteRequest r ∧
    (((requestOf visit.clientIP r).afterCalls [.getCookieParams, .getPostDataParams]).call
      (.getCookieValue (str "theme"))).1 = .value (str "a =b") := by
  have hplain : ∀ c ∈ twoCookies, PlainCookie c := by
    intro c hc
    rcases List.mem_cons.mp hc with rfl | hc
    · exact ⟨by decide, by decide, by decide, ⟨by rintro _ ⟨⟩; rfl, by rintro _ ⟨⟩; rfl⟩,
        ⟨by rintro _ ⟨⟩; rfl, by rintro _ ⟨⟩; rfl⟩⟩
    · obtain rfl := List.mem_singleton.mp hc
      exact ⟨by decide, by decide, by decide, ⟨by rintro _ ⟨⟩; rfl, by rintro _ ⟨⟩; rfl⟩,
        ⟨by rintro _ ⟨⟩; rfl, by rintro _ ⟨⟩; rfl⟩⟩
  obtain ⟨r, htext, hcomplete, hvalue⟩ :=
    cookies_round_trip visit twoCookies hplain (List.cons_ne_nil _ _) rfl
  exact ⟨r, htext, hcomplete, hvalue [.getCookieParams, .getPostDataParams] (str "theme")⟩

end Exchange
end ServerHttpLib
