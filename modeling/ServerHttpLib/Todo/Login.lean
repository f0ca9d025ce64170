import ServerHttpLib.Todo.Tokens

/-!
# Logging in

The way of a user: without a cookie to the address of the login, and from there back to where he
came from, with a token in a cookie.  The token is accepted from then on, where the database keeps
what it was given and finds it again (`HoldsTokens`).

* `handle_login`     what the service answers, and what it does to the table;
* `stored_mono`      no call takes a token out of the table;
* `login_accepted`   the way back, and every check of the token behind it.
-/

namespace ServerHttpLib
open RequestOutgoming

theorem RequestIncoming.getCookieValue_none {r : RequestIncoming}
    (hcookies : r.cookieParams = .empty) (h : r.getHeaders.get (str "Cookie") = [])
    (name : Bytes) : r.getCookieValue name = [] := by
  have hread : r.readHeaders.cookieParams = .empty := by
    obtain ⟨headers, hframe⟩ := readHeaders_frame r
    rw [hframe]
    exact hcookies
  have hparse : r.parseCookieParams.cookieParams = .empty := by
    unfold parseCookieParams
    dsimp only
    rw [r.readHeaders_headers, h, hread]
    rfl
  unfold getCookieValue readCookies
  rw [if_pos (by rw [hcookies]; rfl), hparse]
  rfl

theorem urlDecode_free {s : Bytes} (hpercent : ch '%' ∉ s) (hplus : ch '+' ∉ s) :
    urlDecode s = s := by
  induction s with
  | nil => rfl
  | cons c s ih =>
    rw [List.mem_cons, not_or] at hpercent hplus
    rw [urlDecode_cons (Ne.symm hpercent.1), ih hpercent.2 hplus.2, plainByte,
      if_neg (Ne.symm hplus.1)]

namespace Todo
open Exchange Uuid4

variable {σ : Type} {b : Backend σ} {schema : Bytes} {same : Bytes → Bytes → Prop}
  {stored : σ → Set Bytes}

structure ServiceConfig where
  host : Bytes
  port : Bytes
  https : Bool

def ServiceConfig.origin (cfg : ServiceConfig) : Bytes :=
  (if cfg.https then str "https://" else str "http://") ++ cfg.host ++ str ":" ++ cfg.port

def AuthClient.buildLoginUrl (cfg : ServiceConfig) (returnUrl : Bytes) : Bytes :=
  cfg.origin ++ str "/auth?return=" ++ urlEncode returnUrl

/-- what is documented of a database that keeps its rows: a query may fail, and then says so -/
structure HoldsTokens (b : Backend σ) (schema : Bytes) (same : Bytes → Bytes → Prop)
    (stored : σ → Set Bytes) : Prop where
  finds : ∀ q token w t, Says q (selectBefore schema) selectAfter token →
    (b.queryGet q w).1.isSome = true → t ∈ stored w → same t token →
    hasRow (b.queryGet q w).1 = true
  select_keeps : ∀ q token w, Says q (selectBefore schema) selectAfter token →
    stored w ⊆ stored (b.queryGet q w).2
  /-- a token of the length of the column -/
  inserts : ∀ q token w, Says q (insertBefore schema) insertAfter token → token.length ≤ 64 →
    (b.query q w).1 = true → token ∈ stored (b.query q w).2
  insert_keeps : ∀ q token w, Says q (insertBefore schema) insertAfter token →
    stored w ⊆ stored (b.query q w).2
  health_keeps : ∀ w, stored w ⊆ stored (b.queryGet healthQuery w).2
  generate_keeps : ∀ w, stored w ⊆ stored (b.generate w).2
  refl : ∀ t, same t t

/-! ## one call -/

def loginReply (returnUrl token : Bytes) : Response :=
  ⟨301, [], [(str "Location", urlDecode returnUrl), (str "Set-Cookie", setCookie token)]⟩

theorem handle_login (hschema : b.schema = some schema) {got : RequestIncoming} {returnUrl : Bytes}
    (hcookie : got.getCookieValue kCookieName = [])
    (hreturn : got.params.get (str "return") = returnUrl) (hne : urlDecode returnUrl ≠ []) (w : σ) :
    AuthHandler.handle b got w = (.ret (loginReply returnUrl (b.generate w).1),
      (b.query (insertToken schema (b.generate w).1) (b.generate w).2).2) := by
  have hlocation : str "Location" ≠ str "Content-Length" := by decide
  have hcookieName : str "Set-Cookie" ≠ str "Content-Length" := by decide
  unfold AuthHandler.handle register
  rw [hschema]
  dsimp only
  rw [if_pos hcookie, hreturn, if_pos hne, Response.addHeader, Response.addHeader,
    if_neg hlocation, if_neg hcookieName]
  rfl

theorem plainReply_login {returnUrl token : Bytes}
    (hurl : ReplyHeader (str "Location", urlDecode returnUrl)) (htoken : HexText 36 token) :
    PlainReply (loginReply returnUrl token) := by
  have hcookie : ReplyHeader (str "Set-Cookie", setCookie token) := by
    have hfree : ∀ c, hexVal c = none → c ≠ ch '-' → c ∉ kCookieName ++ str "=" →
        c ∉ str "; Path=/; HttpOnly; SameSite=Lax" → c ∉ setCookie token := by
      intro c hc hdash h1 h2
      unfold setCookie
      rw [List.mem_append, List.mem_append, not_or, not_or]
      exact ⟨⟨h1, htoken.free hc hdash⟩, h2⟩
    have hcolon : ch ':' ∉ str "Set-Cookie" := by decide
    have hname : cr ∉ str "Set-Cookie" ∧ lf ∉ str "Set-Cookie" := by decide
    have hlength : (str "Set-Cookie").map asciiLower ≠ str "content-length" := by decide
    have hencoding : (str "Set-Cookie").map asciiLower ≠ str "transfer-encoding" := by decide
    refine ⟨hcolon, hname.1, hname.2, ?_, ?_, ?_, hlength, hencoding⟩
    · exact hfree cr (by decide) (by decide) (by decide) (by decide)
    · exact hfree lf (by decide) (by decide) (by decide) (by decide)
    · rintro _ ⟨⟩
      decide
  refine ⟨show (0 : Int) ≤ 301 by decide, show (301 : Int) < 2 ^ 31 by decide, Nat.zero_le _, ?_⟩
  intro f hf
  rcases List.mem_cons.mp hf with rfl | hf
  · exact hurl
  · obtain rfl := List.mem_singleton.mp hf
    exact hcookie

theorem stored_mono_login (hk : HoldsTokens b schema same stored) (hs : LexState.Plain schema)
    (hschema : b.schema = some schema) (req : RequestIncoming) (w : σ) :
    stored w ⊆ stored (AuthHandler.handle b req w).2 := by
  have hregister : ∀ token w', stored w ⊆ stored w' →
      stored w ⊆ stored (register b schema token req w').2 := by
    intro token w' hw
    have h := hw.trans (hk.insert_keeps _ _ w' (says_insert hs token))
    unfold register
    dsimp only
    split
    · exact h
    · exact h
  unfold AuthHandler.handle
  rw [hschema]
  dsimp only
  split
  · exact hregister _ _ (hk.generate_keeps w)
  · have hselect := hk.select_keeps _ _ w (says_select hs (req.getCookieValue kCookieName))
    split
    · exact hselect
    · exact hregister _ _ hselect

theorem stored_mono_check (hk : HoldsTokens b schema same stored) (hs : LexState.Plain schema)
    (hschema : b.schema = some schema) (req : RequestIncoming) (w : σ) :
    stored w ⊆ stored (CheckHandler.handle b req w).2 := by
  unfold CheckHandler.handle
  rw [hschema]
  dsimp only
  split
  · exact subset_rfl
  · have hselect := hk.select_keeps _ _ w (says_select hs (checkedToken req))
    split
    · exact hselect
    · exact hselect

/-- **No call takes a token out of the table.** -/
theorem stored_mono (hk : HoldsTokens b schema same stored) (hs : LexState.Plain schema)
    (hschema : b.schema = some schema) (call : Call) (w : σ) :
    stored w ⊆ stored (handlerCalls.apply (authServer b) call w).2 := by
  rw [apply_auth, route_auth]
  split
  · exact hk.health_keeps w
  split
  · exact stored_mono_login hk hs hschema _ w
  split
  · exact stored_mono_check hk hs hschema _ w
  · exact subset_rfl

theorem check_stored (hk : HoldsTokens b schema same stored) (hs : LexState.Plain schema)
    (hschema : b.schema = some schema) {req : RequestIncoming} {token : Bytes}
    (htoken : checkedToken req = token) (hne : token ≠ []) {w : σ}
    (hstored : denoted schema token ∈ stored w)
    (hanswer : (b.queryGet (selectToken schema token) w).1.isSome = true) :
    (CheckHandler.handle b req w).1 = .ret (json 200 (str "\x7b\"ok\":true\x7d")) := by
  have hrow := hk.finds _ _ w _ (says_select hs token) hanswer hstored (hk.refl _)
  unfold CheckHandler.handle
  rw [hschema]
  dsimp only
  rw [htoken, if_neg hne, if_pos hrow]

/-! ## the way of a user -/

/-- the request of a user agent without a cookie for the address of the login -/
structure GoesToLogin (cfg : ServiceConfig) (q : Request) (returnUrl : Bytes) : Prop where
  url : AuthClient.buildLoginUrl cfg returnUrl = cfg.origin ++ q.url.endpoint
  method : methodOf q.calls = .get
  cookie : AssocMap.firstOf (headerCalls q.calls) (str "Cookie") = none

/-- a place to return to that can be written in a header -/
structure ReturnUrl (returnUrl : Bytes) : Prop where
  ne_nil : urlDecode returnUrl ≠ []
  header : ReplyHeader (str "Location", urlDecode returnUrl)

variable {cfg : ServiceConfig} {q : Request} {returnUrl : Bytes}

theorem GoesToLogin.split (hq : GoesToLogin cfg q returnUrl) :
    splitEndpoint q.url.endpoint = (str "/auth", [(str "return", returnUrl)]) := by
  have hname : str "/auth?return="
      = str "/auth" ++ ch '?' :: (urlEncode (str "return") ++ str "=") := by decide
  have hend : q.url.endpoint
      = str "/auth" ++ ch '?' :: encodeParam (str "return", returnUrl) := by
    have h := hq.url
    unfold AuthClient.buildLoginUrl at h
    rw [List.append_assoc, hname] at h
    rw [← List.append_cancel_left h]
    simp only [encodeParam, List.append_assoc, List.cons_append]
    rfl
  have hpairs := pairsOf_encoded [(str "return", returnUrl)]
  rw [List.map_cons, List.map_nil, List.intercalate_singleton] at hpairs
  rw [hend, splitEndpoint_query (by decide)]
  exact congrArg (Prod.mk (str "/auth")) hpairs

theorem GoesToLogin.key (hq : GoesToLogin cfg q returnUrl) : q.key = ⟨str "/auth", .get⟩ := by
  unfold Request.key
  rw [hq.split, hq.method]

theorem GoesToLogin.handle (hq : GoesToLogin cfg q returnUrl) (hurl : ReturnUrl returnUrl)
    (hschema : b.schema = some schema) {r : Bytes × Bytes}
    (harr : Arrives q (requestOf q.clientIP r)) (w : σ) :
    AuthHandler.handle b (requestOf q.clientIP r) w = (.ret (loginReply returnUrl (b.generate w).1),
      (b.query (insertToken schema (b.generate w).1) (b.generate w).2).2) := by
  have hcookie : (requestOf q.clientIP r).getHeaders.get (str "Cookie") = [] :=
    harr.no_header _ hq.cookie (by decide)
  have hreturn : (requestOf q.clientIP r).params.get (str "return") = returnUrl := by
    have h := harr.params (str "return")
    rw [hq.split] at h
    unfold Params.get
    rw [h]
    rfl
  exact handle_login hschema (RequestIncoming.getCookieValue_none
    (fresh_requestOf q.clientIP r).2 hcookie kCookieName) hreturn hurl.ne_nil w

theorem GoesToLogin.route (hq : GoesToLogin cfg q returnUrl) (hurl : ReturnUrl returnUrl)
    (hschema : b.schema = some schema) {r : Bytes × Bytes}
    (harr : Arrives q (requestOf q.clientIP r)) (w : σ) :
    ServerHttpLib.route (authRoutes b) q.key (requestOf q.clientIP r) w
      = (loginReply returnUrl (b.generate w).1,
        (b.query (insertToken schema (b.generate w).1) (b.generate w).2).2) := by
  rw [hq.key, route_auth, if_neg (by decide), if_pos rfl, hq.handle hurl hschema harr w]
  rfl

theorem GoesToLogin.answers (hq : GoesToLogin cfg q returnUrl) (hurl : ReturnUrl returnUrl)
    (hschema : b.schema = some schema) :
    AnswersPlainly (authServer b) q := by
  intro r w harr
  unfold authServer
  rw [replyOf_registered _ harr, hq.route hurl hschema harr w]
  exact plainReply_login hurl.header (hexText_generate b.random w)

theorem loginReply_read (returnUrl token : Bytes) :
    ((loginReply returnUrl token).asRead false 10).getHeader (str "Location")
      = urlDecode returnUrl ∧
    ((loginReply returnUrl token).asRead false 10).getHeader (str "Set-Cookie")
      = setCookie token := by
  have hne : (str "Set-Cookie" == str "Location") = false := by decide
  unfold Response.getHeader Response.asRead loginReply
  refine ⟨?_, ?_⟩
  · simp
  · simp [List.lookup_cons, hne]

/-- the login that the entry handled, and its token -/
structure LoggedIn (b : Backend σ) (schema : Bytes) (h : Sharing.Entry Call σ) (token : Bytes) :
    Prop where
  generated : token = (b.generate h.before).1
  state : (handlerCalls.apply (authServer b) h.call h.before).2
    = (b.query (insertToken schema token) (b.generate h.before).2).2
  /-- the row was inserted -/
  inserted : (b.query (insertToken schema token) (b.generate h.before).2).1 = true

theorem LoggedIn.in_table {h : Sharing.Entry Call σ} {token : Bytes}
    (hl : LoggedIn b schema h token) (hk : HoldsTokens b schema same stored)
    (hs : LexState.Plain schema) :
    denoted schema token ∈ stored (handlerCalls.apply (authServer b) h.call h.before).2 := by
  have huuid : HexText 36 token := by
    rw [hl.generated]
    exact hexText_generate b.random h.before
  have hfree : denoted schema token = token := denoted_free _ (huuid.free (by decide) (by decide))
  have hshort : (denoted schema token).length ≤ 64 := by
    rw [hfree, huuid.length]
    decide
  rw [hl.state]
  exact hk.inserts _ _ _ (says_insert hs token) hshort hl.inserted

/-- the token of a login is in the table behind it, whoever makes the calls -/
theorem stored_behind {C : Type → Type} {E N : Type} {k : Sharing.Component Server C Call E}
    {init : N → C Unit} {w : σ} {es : List (Sharing.Event N E)} {g : Sharing.System C Call σ}
    (hlin : Sharing.Linear k handlerCalls init (authServer b) w es g)
    (hk : HoldsTokens b schema same stored) (hs : LexState.Plain schema)
    (hschema : b.schema = some schema) {l m n : List (Sharing.Entry Call σ)}
    {h : Sharing.Entry Call σ} {token : Bytes} (hl : LoggedIn b schema h token)
    (hlog : g.log = l ++ h :: (m ++ n)) :
    denoted schema token
      ∈ stored (Sharing.replay handlerCalls (authServer b) w (l ++ h :: m)) := by
  have hlog' : g.log = (l ++ h :: m) ++ n := by
    rw [hlog, List.append_assoc, List.cons_append]
  refine hlin.replay_induction
    (P := fun l' w' => l ++ [h] <+: l' → denoted schema token ∈ stored w') ?_ ?_ hlog' ?_
  · intro hpre
    exact absurd (List.prefix_nil.mp hpre) (by simp)
  · intro l' x _ _ ih hpre
    rcases List.prefix_concat_iff.mp hpre with he | hpre'
    · -- the last entry is the login
      obtain ⟨-, rfl⟩ := List.append_inj' he rfl |>.imp_right List.singleton_inj.mp
      exact hl.in_table hk hs
    · exact stored_mono hk hs hschema x.call x.before (ih hpre')
  · exact ⟨m, by rw [List.append_assoc, List.singleton_append]⟩

/-- a client asks for the token over a connection that is not lost; it is handled behind the entry
`h`, and the database answers -/
structure ChecksBehind (b : Backend σ) (schema : Bytes)
    (es : List (Sharing.Event Request Exchange.Event)) (g : Sharing.System Exchange Call σ)
    (h : Sharing.Entry Call σ) (token : Bytes) (q : Request) (net : Network) : Prop where
  asks : AsksFor q token
  returned : ∃ j x, (Sharing.entered es)[j]? = some q ∧ g.parts[j]? = some x ∧
    x.result.isSome = true ∧ x.lost = false ∧ Exchange.Reaches net q x ∧
    ∃ l m h' n, g.log = l ++ h :: (m ++ h' :: n) ∧ h'.part = j ∧
      (b.queryGet (selectToken schema token) h'.before).1.isSome = true

theorem ChecksBehind.accepted {fuel : Nat} {w : σ}
    {es : List (Sharing.Event Request Exchange.Event)} {g : Sharing.System Exchange Call σ}
    {h : Sharing.Entry Call σ} {token : Bytes} {net : Network}
    (hc : ChecksBehind b schema es g h token q net)
    (hrun : converse fuel (authServer b) w es = some g) (hk : HoldsTokens b schema same stored)
    (hs : LexState.Plain schema) (hschema : b.schema = some schema)
    (hl : LoggedIn b schema h token) :
    AuthClient.check fuel q.order net q.url.host q.url.port token = some true := by
  obtain ⟨j, x, hj, hx, hreturned, hkept, hnet, l, m, h', n, hlog, hpart, hanswer⟩ := hc.returned
  obtain ⟨res, hres⟩ := Option.isSome_iff_exists.mp hreturned
  have hne : token ≠ [] := by
    intro h0
    have hlength : (b.generate h.before).1.length = 36 :=
      (hexText_generate b.random h.before).length
    rw [← hl.generated, h0] at hlength
    exact absurd hlength (by decide)
  have hplain : RoutedPlainly (authRoutes b) q := hc.asks.routedPlainly
  obtain ⟨x', r, hx', hserved⟩ := run_served hrun hj hplain.answers
  obtain rfl := Option.some.inj (hx'.symm.trans hx)
  obtain ⟨h'', hlogOf, he⟩ := hserved.answered res hres hkept
  -- the entry of the client is the one behind the login
  have hsame : h' = h'' := by
    have hmem : h' ∈ g.logOf j := by
      refine List.mem_filter.mpr ⟨?_, decide_eq_true hpart⟩
      rw [hlog]
      simp
    rw [hlogOf] at hmem
    exact List.mem_singleton.mp hmem
  subst hsame
  have hlin := run_clients hrun
  have hbefore := hlin.before (l ++ h :: m) h' n (by simp [hlog])
  have hstored : denoted schema token ∈ stored h'.before := by
    rw [hbefore]
    exact stored_behind hlin hk hs hschema hl hlog
  have hcheck := check_stored hk hs hschema (hc.asks.checkedToken hne hserved.arrives) hne hstored
    hanswer
  have hcode : res.code = 200 := by
    rw [he]
    show (replyOf (authServer b) q.clientIP h'.before r).code = 200
    unfold authServer
    rw [replyOf_registered _ hserved.arrives, hc.asks.key, route_auth, if_neg (by decide),
      if_neg (by decide), if_pos rfl]
    unfold answered
    rw [hcheck]
    rfl
  rw [hc.asks.check_eq, hserved.returned res hres net hnet, Option.map_some, hcode]
  rfl

/-- **Who has logged in is let in.**  In any conversation, a user who goes to the address of the
login without a cookie is sent back to where he came from, decoded once more; and the token of his
cookie is accepted by every check that is handled behind it. -/
theorem login_accepted (b : Backend σ) (schema : Bytes) (same : Bytes → Bytes → Prop)
    (stored : σ → Set Bytes) (hk : HoldsTokens b schema same stored) (hs : LexState.Plain schema)
    (hschema : b.schema = some schema) (cfg : ServiceConfig) (fuel : Nat) (w : σ)
    (es : List (Sharing.Event Request Exchange.Event)) (g : Sharing.System Exchange Call σ)
    (hrun : converse fuel (authServer b) w es = some g) (returnUrl : Bytes)
    (hurl : ReturnUrl returnUrl) (i : Nat) (q : Request)
    (hi : (Sharing.entered es)[i]? = some q) (hq : GoesToLogin cfg q returnUrl)
    (x : Exchange Unit) (hx : g.parts[i]? = some x) (res : Response) (hres : x.result = some res)
    (hl : x.lost = false) :
    ∃ h, g.logOf i = [h] ∧ res.code = 301 ∧
      res.getHeader (str "Location") = urlDecode returnUrl ∧
      (ch '%' ∉ returnUrl → ch '+' ∉ returnUrl → res.getHeader (str "Location") = returnUrl) ∧
      res.getHeader (str "Set-Cookie") = setCookie (b.generate h.before).1 ∧
      ((b.query (insertToken schema (b.generate h.before).1) (b.generate h.before).2).1 = true →
        ∀ q' net, ChecksBehind b schema es g h (b.generate h.before).1 q' net →
          AuthClient.check fuel q'.order net q'.url.host q'.url.port (b.generate h.before).1
            = some true) := by
  obtain ⟨x', r, hx', hserved⟩ := run_served hrun hi (hq.answers hurl hschema)
  obtain rfl := Option.some.inj (hx'.symm.trans hx)
  obtain ⟨h, hlogOf, he⟩ := hserved.answered res hres hl
  have hcall : h.call = (q.clientIP, r) := Served.call (hlogOf ▸ hserved)
  have hroute := hq.route (b := b) hurl hschema hserved.arrives h.before
  have hreply : replyOf (authServer b) q.clientIP h.before r
      = loginReply returnUrl (b.generate h.before).1 := by
    unfold authServer
    rw [replyOf_registered _ hserved.arrives, hroute]
  rw [hreply] at he
  obtain ⟨hlocation, hcookie⟩ := loginReply_read returnUrl (b.generate h.before).1
  rw [← he] at hlocation hcookie
  refine ⟨h, hlogOf, by rw [he]; rfl, hlocation, fun hpercent hplus => ?_, hcookie,
    fun hinserted q' net hc => ?_⟩
  · rw [hlocation, urlDecode_free hpercent hplus]
  · refine hc.accepted hrun hk hs hschema ⟨rfl, ?_, hinserted⟩
    rw [apply_auth, hcall, hserved.arrives.endpointKey, hroute]

/-! ## with the table in memory -/

def uuid : Bytes := str "77777777-7777-4777-8777-777777777777"

theorem holdsTokens_memory : HoldsTokens memory (str "todo") sameLetters fun w => {t | t ∈ w} where
  finds q token w t hq _ ht hsame := by
    have h : isStored w token = true := List.any_eq_true.mpr ⟨t, ht, decide_eq_true hsame⟩
    rw [memory_get hq]
    dsimp only
    rw [if_pos h]
    rfl
  select_keeps q token w hq := by rw [memory_get hq]
  inserts q token w hq _ htrue := by
    rw [memory_query hq] at htrue ⊢
    split at htrue
    · exact absurd htrue (by simp)
    · rename_i h
      rw [if_neg h]
      exact List.mem_append_right _ (List.mem_singleton_self token)
  insert_keeps q token w hq := by
    rw [memory_query hq]
    split
    · exact subset_rfl
    · exact fun t ht => List.mem_append_left _ ht
  health_keeps _ := subset_rfl
  generate_keeps _ := subset_rfl
  refl _ := rfl

def authConfig : ServiceConfig := ⟨str "localhost", str "8083", false⟩

theorem setters_none : ∀ q ∈ ([] : List RequestOutgoming.Call), q.Setter :=
  fun _ hq => absurd hq List.not_mem_nil

def goLogin : Request where
  clientIP := str "a"
  order := .inserted
  url := ⟨str "localhost", 8083, str "/auth?return=%2Ftodo", false⟩
  calls := []
  setters := setters_none
  endpoint_plain := ⟨by decide, by decide, by decide⟩
  query := .inr rfl
  host_plain := by decide
  small := by decide +kernel

def bearerUuid : PlainHeader :=
  { bearerHeader with
    value := str "Bearer " ++ uuid
    plain := ⟨by decide, by decide, by decide, by decide, by decide, by decide⟩
    value_trimmed := ⟨by rintro _ ⟨⟩; rfl, by rintro _ ⟨⟩; rfl⟩ }

def checkUuid : Request where
  clientIP := str "b"
  order := .inserted
  url := ⟨str "localhost", 8083, str "/auth/check", false⟩
  calls := AuthClient.calls uuid
  setters := setters_calls bearerUuid rfl rfl
  endpoint_plain := ⟨by decide, by decide, by decide⟩
  query := .inl (by decide)
  host_plain := by decide
  small := by decide +kernel

/-- the check is handled behind the login, whose response ends with its connection -/
def loginRun : List (Sharing.Event Request Exchange.Event) :=
  [.enter goLogin, .act 0 (.send 73), .act 0 (.deliver 73), .act 0 (.write 167),
    .act 0 .written, .act 0 (.receive 167), .act 0 .finish, .enter checkUuid, .act 1 (.send 124),
    .act 1 (.deliver 124), .act 1 (.write 101), .act 1 (.receive 101), .act 1 .finish]

/-- the client has returned over a connection that was not lost -/
def Returned (g : Sharing.System Exchange Call (List Bytes)) (i : Nat) : Bool :=
  g.parts[i]?.any fun x => x.lost = false ∧ x.result.isSome = true

theorem Returned.part {g : Sharing.System Exchange Call (List Bytes)} {i : Nat}
    (h : Returned g i = true) :
    ∃ x res, g.parts[i]? = some x ∧ x.result = some res ∧ x.lost = false := by
  obtain ⟨x, hx, h⟩ := (Option.any_eq_true _ _).mp h
  obtain ⟨hl, hres⟩ := of_decide_eq_true h
  obtain ⟨res, hres⟩ := Option.isSome_iff_exists.mp hres
  exact ⟨x, res, hx, hres, hl⟩

set_option maxRecDepth 100000 in
theorem login_accepted_memory : ∃ g x res net,
    converse 0 (authServer memory) [] loginRun = some g ∧ g.parts[0]? = some x ∧
    x.result = some res ∧ res.getHeader (str "Location") = str "/todo" ∧
    AuthClient.check 0 .inserted net (str "localhost") 8083 uuid = some true := by
  have hs : (converse 0 (authServer memory) [] loginRun).any (fun g =>
      Returned g 0 ∧ Returned g 1 ∧
      g.log.map (fun h => (h.part, h.before)) = [(0, []), (1, [uuid])]) = true := by
    unfold authServer authRoutes AuthHandler.handle CheckHandler.handle register
    simp only [show memory.schema = some (str "todo") from rfl, memory_select, memory_insert]
    decide +kernel
  obtain ⟨g, hrun, hg⟩ := (Option.any_eq_true _ _).mp hs
  obtain ⟨h0, h1, hparts⟩ := of_decide_eq_true hg
  obtain ⟨x, res, hx, hres, hl⟩ := Returned.part h0
  obtain ⟨x', res', hx', hres', hl'⟩ := Returned.part h1
  have hurl : ReturnUrl (str "/todo") := ⟨by decide, by decide +kernel⟩
  have hgoes : GoesToLogin authConfig goLogin (str "/todo") := ⟨by decide, rfl, rfl⟩
  obtain ⟨h, hlogOf, -, -, hlocation, -, hcheck⟩ := login_accepted memory (str "todo") sameLetters _
    holdsTokens_memory plain_todo rfl authConfig 0 [] loginRun g hrun (str "/todo") hurl 0 goLogin
    rfl hgoes x hx res hres hl
  obtain ⟨a, c, hlog⟩ : ∃ a c, g.log = [a, c] := by
    have hlen := congrArg List.length hparts
    rw [List.length_map] at hlen
    exact List.length_eq_two.mp hlen
  rw [hlog] at hparts
  obtain ⟨⟨ha, hbefore⟩, hc, hbehind⟩ : (a.part = 0 ∧ a.before = []) ∧ c.part = 1 ∧
      c.before = [uuid] := by simpa using hparts
  obtain rfl : h = a := by
    have hfilter : g.logOf 0 = [a] := by
      unfold Sharing.System.logOf
      rw [hlog]
      simp [ha, hc]
    exact List.singleton_inj.mp (hlogOf.symm.trans hfilter)
  have hinserted : (memory.query (insertToken (str "todo") (memory.generate h.before).1)
      (memory.generate h.before).2).1 = true := by
    rw [memory_insert, hbefore]
    rfl
  have hasks : AsksFor checkUuid (memory.generate h.before).1 := ⟨rfl, rfl⟩
  have hanswer : (memory.queryGet (selectToken (str "todo") (memory.generate h.before).1)
      c.before).1.isSome = true := by
    rw [memory_select]
    rfl
  refine ⟨g, x, res, ⟨fun _ _ => true, fun _ _ _ _ => x'.outcome⟩, hrun, hx, hres,
    hlocation (by decide) (by decide), hcheck hinserted checkUuid _
      ⟨hasks, 1, x', rfl, hx', by rw [hres']; rfl, hl', ⟨rfl, rfl⟩, [], [], c, [], ?_, hc, hanswer⟩⟩
  rw [hlog]
  rfl

end Todo
end ServerHttpLib
