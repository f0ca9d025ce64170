import ServerHttpLib.Exchange.Cookies
import ServerHttpLib.Exchange.Clients
import ServerHttpLib.Todo.Auth

/-!
# Tokens are accepted if they were given out

The table of the tokens is the server's, and kept as its documentation says (`KeepsTokens`): a
lookup finds a row only if a token compares as equal, and an insert adds its token at most.  What
the requests of all clients can do to the table is to log in.

* `route_auth`             the three endpoints;
* `stored_after`           what one call adds to the table;
* `checked_needs_login`    a token that is accepted was there, or is that of a login before,
                           whatever bytes the clients send, and in whatever order;
* `check_needs_login`      so is one that `AuthClient::check` accepts.
-/

namespace ServerHttpLib
namespace Todo
open Exchange

variable {σ : Type} {b : Backend σ} {schema : Bytes} {same : Bytes → Bytes → Prop}
  {stored : σ → Set Bytes}

/-- what is documented of the database: `stored w` are the tokens in the table, and `same` compares
as the collation of their column -/
structure KeepsTokens (b : Backend σ) (schema : Bytes) (same : Bytes → Bytes → Prop)
    (stored : σ → Set Bytes) : Prop where
  select : ∀ q token w, Says q (selectBefore schema) selectAfter token →
    hasRow (b.queryGet q w).1 = true → ∃ t ∈ stored w, same t token
  select_frame : ∀ q token w, Says q (selectBefore schema) selectAfter token →
    stored (b.queryGet q w).2 ⊆ stored w
  insert : ∀ q token w, Says q (insertBefore schema) insertAfter token →
    stored (b.query q w).2 ⊆ insert token (stored w)
  health : ∀ w, stored (b.queryGet healthQuery w).2 ⊆ stored w
  generate : ∀ w, stored (b.generate w).2 ⊆ stored w

/-! ## one call -/

/-- the response of a handler without a guard -/
def answered (r : HandlerResult × σ) : Response × σ := (catchInto Response404 r.1, r.2)

theorem route_auth (key : EndpointKey) (req : RequestIncoming) (w : σ) :
    route (authRoutes b) key req w
      = if key = ⟨str "/health", .get⟩ then answered (HealthHandler.handle b req w)
        else if key = ⟨str "/auth", .get⟩ then answered (AuthHandler.handle b req w)
        else if key = ⟨str "/auth/check", .get⟩ then answered (CheckHandler.handle b req w)
        else (Response404, w) := by
  have hendpoint : ∀ handle : Handler σ, respondEndpoint
      ((⟨handle, none⟩ : RequestHandler σ).guarded, none) req w = answered (handle req w) := by
    intro handle
    show runEndpoint _ req Response404 w = _
    unfold runEndpoint
    rw [if_pos (Or.inr rfl)]
    rfl
  have hlist : endpointsOf (authRoutes b)
      = [(⟨str "/health", .get⟩, (⟨HealthHandler.handle b, none⟩ : RequestHandler σ).guarded, none),
        (⟨str "/auth", .get⟩, (⟨AuthHandler.handle b, none⟩ : RequestHandler σ).guarded, none),
        (⟨str "/auth/check", .get⟩, (⟨CheckHandler.handle b, none⟩ : RequestHandler σ).guarded,
          none)] := rfl
  have hhandlers : handlersOf (authRoutes b) = [] := rfl
  unfold route
  rw [hlist, hhandlers, AssocMap.firstOf_cons, AssocMap.firstOf_cons, AssocMap.firstOf_cons]
  by_cases h1 : key = ⟨str "/health", .get⟩
  · rw [if_pos h1, if_pos h1]
    exact hendpoint _
  rw [if_neg h1, if_neg h1]
  by_cases h2 : key = ⟨str "/auth", .get⟩
  · rw [if_pos h2, if_pos h2]
    exact hendpoint _
  rw [if_neg h2, if_neg h2]
  by_cases h3 : key = ⟨str "/auth/check", .get⟩
  · rw [if_pos h3, if_pos h3]
    exact hendpoint _
  · rw [if_neg h3, if_neg h3]
    rfl

def givenToken (b : Backend σ) (req : RequestIncoming) (w : σ) : Bytes :=
  if req.getCookieValue kCookieName = [] then (b.generate w).1
  else req.getCookieValue kCookieName

/-- the call is a login, and `token` what it may add to the table -/
def LogsIn (b : Backend σ) (schema : Bytes) (h : Sharing.Entry Call σ) (token : Bytes) : Prop :=
  endpointKey (requestOf h.call.1 h.call.2) = ⟨str "/auth", .get⟩ ∧
    token = denoted schema (givenToken b (requestOf h.call.1 h.call.2) h.before)

theorem stored_register (hk : KeepsTokens b schema same stored) (hs : LexState.Plain schema)
    (token : Bytes) (req : RequestIncoming) (w : σ) :
    stored (register b schema token req w).2 ⊆ insert (denoted schema token) (stored w) := by
  have h := hk.insert _ _ w (says_insert hs token)
  unfold register
  dsimp only
  split
  · exact h
  · exact h

theorem stored_login (hk : KeepsTokens b schema same stored) (hs : LexState.Plain schema)
    (hschema : b.schema = some schema) (req : RequestIncoming) (w : σ) :
    stored (AuthHandler.handle b req w).2
      ⊆ insert (denoted schema (givenToken b req w)) (stored w) := by
  unfold AuthHandler.handle givenToken
  rw [hschema]
  dsimp only
  by_cases hcookie : req.getCookieValue kCookieName = []
  · rw [if_pos hcookie, if_pos hcookie]
    exact (stored_register hk hs _ req _).trans (Set.insert_subset_insert (hk.generate w))
  · rw [if_neg hcookie, if_neg hcookie]
    have hframe := hk.select_frame _ _ w (says_select hs (req.getCookieValue kCookieName))
    split
    · exact hframe.trans (Set.subset_insert _ _)
    · exact (stored_register hk hs _ req _).trans (Set.insert_subset_insert hframe)

theorem stored_check (hk : KeepsTokens b schema same stored) (hs : LexState.Plain schema)
    (hschema : b.schema = some schema) (req : RequestIncoming) (w : σ) :
    stored (CheckHandler.handle b req w).2 ⊆ stored w := by
  unfold CheckHandler.handle
  rw [hschema]
  dsimp only
  split
  · exact subset_rfl
  · have hframe := hk.select_frame _ _ w (says_select hs (checkedToken req))
    split
    · exact hframe
    · exact hframe

theorem accepted_stored (hk : KeepsTokens b schema same stored) (hs : LexState.Plain schema)
    (hschema : b.schema = some schema) {req : RequestIncoming} {w : σ}
    (h200 : (answered (CheckHandler.handle b req w)).1.code = 200) :
    ∃ t ∈ stored w, same t (denoted schema (checkedToken req)) := by
  refine hk.select _ _ w (says_select hs (checkedToken req)) ?_
  have h401 : (json 401 (str "\x7b\"ok\":false\x7d")).code ≠ 200 := by decide
  unfold CheckHandler.handle answered at h200
  rw [hschema] at h200
  dsimp only at h200
  split at h200
  · exact absurd h200 h401
  · split at h200
    · assumption
    · exact absurd h200 h401

theorem apply_auth (call : Call) (w : σ) :
    (handlerCalls.apply (authServer b) call w).2 = (route (authRoutes b)
      (endpointKey (requestOf call.1 call.2)) (requestOf call.1 call.2) w).2 :=
  congrArg Prod.snd (respond_registered (authRoutes b) _ _)

/-- **What one call adds to the table** is the token of a login. -/
theorem stored_after (hk : KeepsTokens b schema same stored) (hs : LexState.Plain schema)
    (hschema : b.schema = some schema) (h : Sharing.Entry Call σ) :
    stored (handlerCalls.apply (authServer b) h.call h.before).2
      ⊆ stored h.before ∪ {t | LogsIn b schema h t} := by
  rw [apply_auth, route_auth]
  split
  · exact (hk.health h.before).trans Set.subset_union_left
  split
  · rename_i hkey
    refine (stored_login hk hs hschema _ h.before).trans ?_
    rintro t (rfl | ht)
    · exact .inr ⟨hkey, rfl⟩
    · exact .inl ht
  split
  · exact (stored_check hk hs hschema _ h.before).trans Set.subset_union_left
  · exact Set.subset_union_left

/-! ## all calls -/

def Given (b : Backend σ) (schema : Bytes) (stored : σ → Set Bytes) (w : σ)
    (log : List (Sharing.Entry Call σ)) : Set Bytes :=
  stored w ∪ {t | ∃ h ∈ log, LogsIn b schema h t}

section
variable {C : Type → Type} {E N : Type} {k : Sharing.Component Server C Call E} {init : N → C Unit}
  {w : σ} {es : List (Sharing.Event N E)} {g : Sharing.System C Call σ}
  {l l' : List (Sharing.Entry Call σ)}

theorem stored_given (hlin : Sharing.Linear k handlerCalls init (authServer b) w es g)
    (hk : KeepsTokens b schema same stored) (hs : LexState.Plain schema)
    (hschema : b.schema = some schema) (hl : g.log = l ++ l') :
    stored (Sharing.replay handlerCalls (authServer b) w l) ⊆ Given b schema stored w l := by
  refine hlin.replay_induction (P := fun l w' => stored w' ⊆ Given b schema stored w l)
    Set.subset_union_left (fun l x _ _ ih => ?_) hl
  refine (stored_after hk hs hschema x).trans ?_
  rintro t (ht | ht)
  · rcases ih ht with h0 | ⟨h, hh, hlog⟩
    · exact .inl h0
    · exact .inr ⟨h, List.mem_append_left _ hh, hlog⟩
  · exact .inr ⟨x, List.mem_append_right _ (List.mem_singleton_self x), ht⟩

theorem accepted_given (hlin : Sharing.Linear k handlerCalls init (authServer b) w es g)
    (hk : KeepsTokens b schema same stored) (hs : LexState.Plain schema)
    (hschema : b.schema = some schema) {h : Sharing.Entry Call σ} (hlog : g.log = l ++ h :: l')
    (hkey : endpointKey (requestOf h.call.1 h.call.2) = ⟨str "/auth/check", .get⟩)
    (h200 : (respond (authServer b) (requestOf h.call.1 h.call.2) h.before).1.code = 200) :
    ∃ t ∈ Given b schema stored w l,
      same t (denoted schema (checkedToken (requestOf h.call.1 h.call.2))) := by
  have hroute : (respond (authServer b) (requestOf h.call.1 h.call.2) h.before).1
      = (answered (CheckHandler.handle b (requestOf h.call.1 h.call.2) h.before)).1 := by
    unfold authServer
    rw [respond_registered, route_auth, hkey, if_neg (by decide), if_neg (by decide), if_pos rfl]
  rw [hroute] at h200
  obtain ⟨t, ht, hsame⟩ := accepted_stored hk hs hschema h200
  rw [hlin.before l h l' hlog] at ht
  exact ⟨t, stored_given hlin hk hs hschema hlog ht, hsame⟩

end

/-- **A token is accepted only if it was given out.**  Whatever bytes the clients of the service
send, and in whatever order its handlers run: where `/auth/check` answers 200, the token, with the
names that it may have captured, compares as equal to one that was in the table from the beginning,
or to that of a login whose handler ran before; and no token changes what the statements say. -/
theorem checked_needs_login (b : Backend σ) (schema : Bytes) (same : Bytes → Bytes → Prop)
    (stored : σ → Set Bytes) (hk : KeepsTokens b schema same stored) (hs : LexState.Plain schema)
    (hschema : b.schema = some schema) (w : σ)
    (es : List (Sharing.Event Bytes ServerHttpLib.Event)) (g : Sharing.System Conn Call σ)
    (hrun : serve (authServer b) w es = some g) (l : List (Sharing.Entry Call σ))
    (h : Sharing.Entry Call σ) (l' : List (Sharing.Entry Call σ)) (hlog : g.log = l ++ h :: l')
    (hkey : endpointKey (requestOf h.call.1 h.call.2) = ⟨str "/auth/check", .get⟩)
    (h200 : (respond (authServer b) (requestOf h.call.1 h.call.2) h.before).1.code = 200) :
    (∃ t ∈ Given b schema stored w l,
      same t (denoted schema (checkedToken (requestOf h.call.1 h.call.2)))) ∧
    ∀ token, Says (selectToken schema token) (selectBefore schema) selectAfter
        (denoted schema token) ∧
      Says (insertToken schema token) (insertBefore schema) insertAfter (denoted schema token) :=
  ⟨accepted_given (Sharing.run_linear sessions_lawful called_accepted hrun) hk hs hschema hlog hkey
    h200, fun token => ⟨says_select hs token, says_insert hs token⟩⟩

/-! ## the client of the service -/

/-- what `http::get` does to the request object of `AuthClient::check` -/
def AuthClient.calls (token : Bytes) : List RequestOutgoming.Call :=
  [.addHeader (str "Authorization") (str "Bearer " ++ token), .setData [], .setMethod .get]

def AuthClient.check (fuel : Nat) (o : AssocMap.Order Bytes Bytes) (net : Network) (host : Bytes)
    (port : Int) (token : Bytes) : Option Bool :=
  (httpGet fuel o net host port (str "/auth/check") []
    [(str "Authorization", str "Bearer " ++ token)]).map fun resp => resp.code = 200

/-- the request that `AuthClient::check` sends -/
structure AsksFor (q : Request) (token : Bytes) : Prop where
  url : q.url = ⟨q.url.host, q.url.port, str "/auth/check", false⟩
  calls : q.calls = AuthClient.calls token

variable {q : Request} {token : Bytes}

theorem AsksFor.key (hq : AsksFor q token) : q.key = ⟨str "/auth/check", .get⟩ := by
  unfold Request.key
  rw [hq.url, hq.calls]
  rfl

theorem AsksFor.check_eq (hq : AsksFor q token) (fuel : Nat) (net : Network) :
    AuthClient.check fuel q.order net q.url.host q.url.port token
      = ((request fuel q.order net q.url q.outgoing).map Prod.fst).map fun resp =>
          decide (resp.code = 200) := by
  unfold AuthClient.check httpGet send Request.outgoing
  rw [hq.calls, ← hq.url]
  rfl

theorem AsksFor.checkedToken (hq : AsksFor q token) (htoken : token ≠ [])
    {got : RequestIncoming} (harr : Arrives q got) : Todo.checkedToken got = token := by
  have hhead : AssocMap.firstOf (RequestOutgoming.headerCalls q.calls) (str "Authorization")
      = some (str "Bearer " ++ token) := by
    rw [hq.calls]
    rfl
  have hbearer : bearer (str "Bearer " ++ token) = token := by
    unfold bearer
    rw [if_pos (List.prefix_append _ _), List.drop_left]
  unfold Todo.checkedToken
  dsimp only
  rw [got.readHeaders_headers, harr.headers _ _ hhead, hbearer, if_pos htoken]

theorem plainReply_json {code : Int} (h0 : 0 ≤ code) (hlt : code < 2 ^ 31) {body : Bytes}
    (hbody : body.length ≤ maxSize) : PlainReply (json code body) := by
  have hname : CONTENT_TYPE ≠ str "Content-Length" := by decide
  unfold json Response.addHeader
  rw [if_neg hname]
  refine ⟨h0, hlt, hbody, fun f hf => ?_⟩
  obtain rfl := List.mem_singleton.mp hf
  decide +kernel

theorem AsksFor.routedPlainly (hq : AsksFor q token) : RoutedPlainly (authRoutes b) q := by
  intro got w _
  rw [hq.key, route_auth, if_neg (by decide), if_neg (by decide), if_pos rfl]
  unfold answered CheckHandler.handle
  split
  · exact plainReply_json (by decide) (by decide) (by decide)
  · dsimp only
    split
    · exact plainReply_json (by decide) (by decide) (by decide)
    · split
      · exact plainReply_json (by decide) (by decide) (by decide)
      · exact plainReply_json (by decide) (by decide) (by decide)

/-- **`AuthClient::check` accepts a token only if it was given out.**  Among any other clients of
the service, and also over a connection that is lost: where it returns `true`, the token compares
as equal to one that was in the table, or to that of a login whose handler ran before its own. -/
theorem check_needs_login (b : Backend σ) (schema : Bytes) (same : Bytes → Bytes → Prop)
    (stored : σ → Set Bytes) (hk : KeepsTokens b schema same stored) (hs : LexState.Plain schema)
    (hschema : b.schema = some schema) (fuel : Nat) (w : σ)
    (es : List (Sharing.Event Request Exchange.Event)) (g : Sharing.System Exchange Call σ)
    (hrun : converse fuel (authServer b) w es = some g) (i : Nat) (q : Request)
    (hi : (Sharing.entered es)[i]? = some q) (token : Bytes) (htoken : token ≠ [])
    (hq : AsksFor q token) (x : Exchange Unit) (hx : g.parts[i]? = some x)
    (hreturned : x.result.isSome) (net : Network) (hnet : Exchange.Reaches net q x)
    (hcheck : AuthClient.check fuel q.order net q.url.host q.url.port token = some true) :
    ∃ l h l', g.log = l ++ h :: l' ∧ h.part = i ∧
      ∃ t ∈ Given b schema stored w l, same t (denoted schema token) := by
  have hplain : RoutedPlainly (authRoutes b) q := hq.routedPlainly
  obtain ⟨x', r, hx', hserved⟩ := run_served hrun hi hplain.answers
  obtain rfl := Option.some.inj (hx'.symm.trans hx)
  obtain ⟨res, hres⟩ := Option.isSome_iff_exists.mp hreturned
  have h200 : res.code = 200 := by
    rw [hq.check_eq, hserved.returned res hres net hnet, Option.map_some,
      Option.some.injEq] at hcheck
    exact of_decide_eq_true hcheck
  -- the code is that of the handler
  obtain ⟨h, hlogOf, hpart⟩ : ∃ h, g.logOf i = [h] ∧
      PartOf ((replyOf (authServer b) q.clientIP h.before r).asRead false 10) res := by
    rcases hserved.part res hres with rfl | h0 | hp
    · exact absurd h200 (by decide)
    · exact absurd (h0.symm.trans h200) (by decide)
    · exact hp
  have hcode : (replyOf (authServer b) q.clientIP h.before r).code = 200 := by
    rcases hpart.code with hc | hc
    · exact hc.symm.trans h200
    · exact absurd (hc.symm.trans h200) (by decide)
  have hcall : h.call = (q.clientIP, r) := Served.call (hlogOf ▸ hserved)
  have hmem : h ∈ g.logOf i := hlogOf ▸ List.mem_singleton_self h
  obtain ⟨hmem, hi'⟩ := List.mem_filter.mp hmem
  obtain ⟨l, l', hlog⟩ := List.append_of_mem hmem
  have hreq : requestOf h.call.1 h.call.2 = requestOf q.clientIP r := by rw [hcall]
  have hgiven := accepted_given (run_clients hrun) hk hs hschema hlog
    (by rw [hreq, hserved.arrives.endpointKey, hq.key]) (by rw [hreq]; exact hcode)
  rw [hreq, hq.checkedToken htoken hserved.arrives] at hgiven
  exact ⟨l, h, l', hlog, of_decide_eq_true hi', hgiven⟩

/-! ## a table in memory -/

def literalIn (q : Bytes) : Option Bytes :=
  match literalsOf (asItems q) with
  | [⟨.single, body⟩] => some (filled [] body)
  | _ => none

/-- the comparison does not see the case of letters -/
def sameLetters (a c : Bytes) : Prop := a.map asciiLower = c.map asciiLower

instance : DecidableRel sameLetters := fun a c =>
  inferInstanceAs (Decidable (a.map asciiLower = c.map asciiLower))

def isStored (w : List Bytes) (token : Bytes) : Bool := w.any fun t => sameLetters t token

/-- the table as the list of its tokens, none of them twice -/
def memory : Backend (List Bytes) where
  query q w :=
    match literalIn q with
    | some token => if isStored w token then (false, w) else (true, w ++ [token])
    | none => (false, w)
  queryGet q w :=
    if q = healthQuery then (some [[str "todo", str "1"]], w)
    else match literalIn q with
      | some token => (some (if isStored w token then [[str "1"]] else []), w)
      | none => (none, w)
  random := ⟨fun w => (⟨7, by decide⟩, w), fun w => (⟨8, by decide⟩, w)⟩
  schema := some (str "todo")

theorem plain_todo : LexState.Plain (str "todo") := by decide

theorem Says.literalIn {q before after token : Bytes} (h : Says q before after token) :
    Todo.literalIn q = some token := by
  unfold Todo.literalIn
  rw [h.literal]
  have hfilled : filled [] (asItems token) = token := by
    unfold filled asItems
    rw [List.flatMap_map]
    exact List.flatMap_singleton' token
  exact congrArg some hfilled

theorem Says.ne_health {q before after token : Bytes} (h : Says q before after token) :
    q ≠ healthQuery := by
  rintro rfl
  have hnone : literalsOf (asItems healthQuery) = [] := by decide
  exact absurd (hnone.symm.trans h.literal) (by simp)

theorem memory_get {q before after token : Bytes} (h : Says q before after token)
    (w : List Bytes) :
    memory.queryGet q w = (some (if isStored w token then [[str "1"]] else []), w) := by
  unfold memory
  dsimp only
  rw [if_neg h.ne_health, h.literalIn]

theorem memory_query {q before after token : Bytes} (h : Says q before after token)
    (w : List Bytes) :
    memory.query q w = if isStored w token then (false, w) else (true, w ++ [token]) := by
  unfold memory
  dsimp only
  rw [h.literalIn]

theorem keepsTokens_memory : KeepsTokens memory (str "todo") sameLetters fun w => {t | t ∈ w} where
  select q token w hq hrow := by
    rw [memory_get hq] at hrow
    by_cases h : isStored w token = true
    · obtain ⟨t, ht, hsame⟩ := List.any_eq_true.mp h
      exact ⟨t, ht, of_decide_eq_true hsame⟩
    · dsimp only at hrow
      rw [if_neg h] at hrow
      exact absurd hrow (by decide)
  select_frame q token w hq := by
    rw [memory_get hq]
  insert q token w hq := by
    rw [memory_query hq]
    split
    · exact Set.subset_insert _ _
    · intro t ht
      rcases List.mem_append.mp ht with ht | ht
      · exact .inr ht
      · exact .inl (List.mem_singleton.mp ht)
  health _ := subset_rfl
  generate _ := subset_rfl

/-- the token of a statement, computed only where it has a `$` -/
def spelled (token : Bytes) : Bytes := if ch '$' ∈ token then denoted (str "todo") token else token

theorem denoted_eq_spelled (token : Bytes) : denoted (str "todo") token = spelled token := by
  unfold spelled
  split
  · rfl
  · rename_i h
    exact denoted_free _ h

theorem memory_select (token : Bytes) (w : List Bytes) :
    memory.queryGet (selectToken (str "todo") token) w
      = (some (if isStored w (spelled token) then [[str "1"]] else []), w) := by
  rw [memory_get (says_select plain_todo token), denoted_eq_spelled]

theorem memory_insert (token : Bytes) (w : List Bytes) :
    memory.query (insertToken (str "todo") token) w
      = if isStored w (spelled token) then (false, w) else (true, w ++ [spelled token]) := by
  rw [memory_query (says_insert plain_todo token), denoted_eq_spelled]

/-- a login with a cookie, and a check of its token in capitals on another connection -/
def loginThenCheck : List (Sharing.Event Bytes ServerHttpLib.Event) :=
  [.enter (str "a"), .enter (str "b"),
    .act 0 (.readOk (str "GET /auth HTTP/1.1\r\nCookie: auth_token=7f\r\n\r\n")),
    .act 1 (.readOk (str "GET /auth/check HTTP/1.1\r\nAuthorization: Bearer 7F\r\n\r\n"))]

set_option maxRecDepth 100000 in
theorem checked_needs_login_memory : ∃ g l h, serve (authServer memory) [] loginThenCheck = some g ∧
    g.log = l ++ [h] ∧ ∃ t ∈ Given memory (str "todo") (fun w => {t | t ∈ w}) [] l,
      sameLetters t (denoted (str "todo") (checkedToken (requestOf h.call.1 h.call.2))) := by
  have hs : (serve (authServer memory) [] loginThenCheck).any (fun g => g.log.length = 2 ∧
      (g.log[1]?.any fun h =>
        endpointKey (requestOf h.call.1 h.call.2) = ⟨str "/auth/check", .get⟩ ∧
        (respond (authServer memory) (requestOf h.call.1 h.call.2) h.before).1.code = 200))
          = true := by
    unfold authServer authRoutes AuthHandler.handle CheckHandler.handle register
    simp only [show memory.schema = some (str "todo") from rfl, memory_select, memory_insert]
    decide +kernel
  obtain ⟨g, hrun, hg⟩ := (Option.any_eq_true _ _).mp hs
  obtain ⟨hlen, hlast⟩ := of_decide_eq_true hg
  obtain ⟨h₀, h, hlog⟩ := List.length_eq_two.mp hlen
  rw [hlog] at hlast
  obtain ⟨hkey, h200⟩ := of_decide_eq_true hlast
  obtain ⟨hgiven, -⟩ := checked_needs_login memory (str "todo") sameLetters _ keepsTokens_memory
    plain_todo rfl [] loginThenCheck g hrun [h₀] h [] hlog hkey h200
  exact ⟨g, [h₀], h, hrun, hlog, hgiven⟩

def loginCookie : PlainHeader :=
  { cookieHeader with
    value := str "auth_token=7f"
    plain := ⟨by decide, by decide, by decide, by decide, by decide, by decide⟩
    value_trimmed := ⟨by rintro _ ⟨⟩; rfl, by rintro _ ⟨⟩; rfl⟩ }

def bearerHeader : PlainHeader where
  name := str "Authorization"
  value := str "Bearer " ++ str "7F"
  plain := ⟨by decide, by decide, by decide, by decide, by decide, by decide⟩
  name_trimmed := ⟨by rintro _ ⟨⟩; rfl, by rintro _ ⟨⟩; rfl⟩
  value_trimmed := ⟨by rintro _ ⟨⟩; rfl, by rintro _ ⟨⟩; rfl⟩
  free := by decide

def login : Request where
  clientIP := str "a"
  order := .inserted
  url := ⟨str "h", 8083, str "/auth", false⟩
  calls := [.addHeader loginCookie.name loginCookie.value]
  setters := by
    intro q hq
    obtain rfl := List.mem_singleton.mp hq
    exact ⟨loginCookie, rfl⟩
  endpoint_plain := ⟨by decide, by decide, by decide⟩
  query := .inl (by decide)
  host_plain := by decide
  small := by decide +kernel

theorem setters_calls (h : PlainHeader) {token : Bytes} (hname : h.name = str "Authorization")
    (hvalue : h.value = str "Bearer " ++ token) :
    ∀ q ∈ AuthClient.calls token, RequestOutgoming.Call.Setter q := by
  intro q hq
  unfold AuthClient.calls at hq
  rcases List.mem_cons.mp hq with rfl | hq
  · rw [← hname, ← hvalue]
    exact ⟨h, rfl⟩
  rcases List.mem_cons.mp hq with rfl | hq
  · trivial
  · obtain rfl := List.mem_singleton.mp hq
    trivial

def checkLogin : Request where
  clientIP := str "b"
  order := .inserted
  url := ⟨str "h", 8083, str "/auth/check", false⟩
  calls := AuthClient.calls (str "7F")
  setters := setters_calls bearerHeader rfl rfl
  endpoint_plain := ⟨by decide, by decide, by decide⟩
  query := .inl (by decide)
  host_plain := by decide
  small := by decide +kernel

/-- the check connects first, and is handled behind the login -/
def loginAndCheck : List (Sharing.Event Request Exchange.Event) :=
  [.enter checkLogin, .enter login, .act 1 (.send 73), .act 1 (.deliver 73), .act 0 (.send 82),
    .act 0 (.deliver 82), .act 0 (.write 101), .act 0 (.receive 101), .act 0 .finish]

set_option maxRecDepth 100000 in
theorem check_needs_login_memory : ∃ g x net,
    converse 0 (authServer memory) [] loginAndCheck = some g ∧ g.parts[0]? = some x ∧
    AuthClient.check 0 .inserted net (str "h") 8083 (str "7F") = some true ∧
    ∃ l h l', g.log = l ++ h :: l' ∧ h.part = 0 ∧
      ∃ t ∈ Given memory (str "todo") (fun w => {t | t ∈ w}) [] l,
        sameLetters t (denoted (str "todo") (str "7F")) := by
  have hs : (converse 0 (authServer memory) [] loginAndCheck).any (fun g =>
      g.parts[0]?.any fun x => x.result.any fun res => res.code = 200) = true := by
    unfold authServer authRoutes AuthHandler.handle CheckHandler.handle register
    simp only [show memory.schema = some (str "todo") from rfl, memory_select, memory_insert]
    decide +kernel
  obtain ⟨g, hrun, hg⟩ := (Option.any_eq_true _ _).mp hs
  obtain ⟨x, hx, hp⟩ := (Option.any_eq_true _ _).mp hg
  obtain ⟨res, hres, h200⟩ := (Option.any_eq_true _ _).mp hp
  have hq : AsksFor checkLogin (str "7F") := ⟨rfl, rfl⟩
  obtain ⟨x', r, hx', hserved⟩ := run_served (q := checkLogin) (i := 0) hrun rfl
    (RoutedPlainly.answers hq.routedPlainly)
  obtain rfl := Option.some.inj (hx'.symm.trans hx)
  have hnet : Exchange.Reaches ⟨fun _ _ => true, fun _ _ _ _ => x'.outcome⟩ checkLogin x' :=
    ⟨rfl, rfl⟩
  have hcheck := hq.check_eq 0 ⟨fun _ _ => true, fun _ _ _ _ => x'.outcome⟩
  rw [hserved.returned res hres _ hnet, Option.map_some, h200] at hcheck
  exact ⟨g, x', _, hrun, hx, hcheck, check_needs_login memory (str "todo") sameLetters _
    keepsTokens_memory plain_todo rfl 0 [] loginAndCheck g hrun 0 checkLogin rfl (str "7F")
    (by decide) hq x' hx (by rw [hres]; rfl) _ hnet hcheck⟩

end Todo
end ServerHttpLib
