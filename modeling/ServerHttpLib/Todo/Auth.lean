import ServerHttpLib.Exchange.Routes
import ServerHttpLib.Http.LazyParams
import ServerHttpLib.Http.Uuid4
import ServerHttpLib.Sql.Captures
import ServerHttpLib.Sql.Wrapper

/-!
# The service of the tokens (`micro_todo`, `auth`)

A client that logs in gets a token as a cookie, and the table of the tokens gets a row; another
service asks with `/auth/check` whether a token is in the table.  The database is reached through
`query` and `query_get`, which return what they return; the pointer to it is never null, since the
constructors of `ServerApp` make it.

* `says_select`, `says_insert`   each statement has one literal, and the token is all that a request
                                 can change of it.
-/

namespace ServerHttpLib

def RequestIncoming.getCookieValue (r : RequestIncoming) (name : Bytes) : Bytes :=
  r.readCookies.cookieParams.get name

theorem RequestIncoming.readHeaders_headers (r : RequestIncoming) :
    r.readHeaders.headers = r.getHeaders := by
  unfold readHeaders getHeaders
  split
  · rfl
  · rfl

namespace Todo
open LexState

/-- what the handlers use of the application -/
structure Backend (σ : Type) where
  query : Bytes → σ → Bool × σ
  queryGet : Bytes → σ → Option ResultSet × σ
  random : Uuid4.Random σ
  /-- the variable `MYSQL_DATABASE` of the environment -/
  schema : Option Bytes

def Backend.generate {σ : Type} (b : Backend σ) (w : σ) : Bytes × σ := Uuid4.generate b.random w

def kCookieName : Bytes := str "auth_token"
def kAuthTable : Bytes := str "auth_users"

/-- `res && res->next()` -/
def hasRow (res : Option ResultSet) : Bool := res.any (· ≠ [])

def json (code : Int) (body : Bytes) : Response :=
  (⟨code, body, []⟩ : Response).addHeader CONTENT_TYPE (str "application/json")

def setCookie (token : Bytes) : Bytes :=
  kCookieName ++ str "=" ++ token ++ str "; Path=/; HttpOnly; SameSite=Lax"

def dbNotConfigured : Response := json 500 (str "\x7b\"error\":\"db-not-configured\"\x7d")

def selectToken (schema token : Bytes) : Bytes :=
  buildQuery (str "SELECT id FROM `$0`.`$1` WHERE token='$2' LIMIT 1") [schema, kAuthTable, token]

def insertToken (schema token : Bytes) : Bytes :=
  buildQuery (str "INSERT INTO `$0`.`$1` (token) VALUES('$2')") [schema, kAuthTable, token]

section
variable {σ : Type} (b : Backend σ)

/-- the end of `AuthHandler::handle`: whether the row was inserted is not looked at -/
def register (schema token : Bytes) (req : RequestIncoming) (w : σ) : HandlerResult × σ :=
  let w := (b.query (insertToken schema token) w).2
  let ret := urlDecode (req.params.get (str "return"))
  if ret ≠ [] then
    (.ret (((⟨301, [], []⟩ : Response).addHeader (str "Location") ret).addHeader (str "Set-Cookie")
      (setCookie token)), w)
  else
    (.ret (((⟨200, str "\x7b\"created\":true\x7d", []⟩ : Response).addHeader (str "Set-Cookie")
      (setCookie token)).addHeader CONTENT_TYPE (str "application/json")), w)

def AuthHandler.handle : Handler σ := fun req w =>
  match b.schema with
  | none => (.ret dbNotConfigured, w)
  | some schema =>
    let token := req.getCookieValue kCookieName
    if token = [] then register b schema (b.generate w).1 req (b.generate w).2
    else
      let r := b.queryGet (selectToken schema token) w
      if hasRow r.1 then
        (.ret (((⟨200, str "\x7b\"status\":\"ok\"\x7d", []⟩ : Response).addHeader (str "Set-Cookie")
          (setCookie token)).addHeader CONTENT_TYPE (str "application/json")), r.2)
      else register b schema token req r.2

def bearer (authz : Bytes) : Bytes :=
  if str "Bearer " <+: authz then authz.drop (str "Bearer ").length else []

/-- the token of `CheckHandler::handle`: of the `Authorization` header, else the cookie, else a
parameter -/
def checkedToken (req : RequestIncoming) : Bytes :=
  let req := req.readHeaders
  let token := bearer (req.headers.get (str "Authorization"))
  if token ≠ [] then token
  else
    let token := req.getCookieValue kCookieName
    if token ≠ [] then token else req.params.get (str "token")

def CheckHandler.handle : Handler σ := fun req w =>
  match b.schema with
  | none => (.ret dbNotConfigured, w)
  | some schema =>
    let token := checkedToken req
    if token = [] then (.ret (json 401 (str "\x7b\"ok\":false\x7d")), w)
    else
      let r := b.queryGet (selectToken schema token) w
      if hasRow r.1 then (.ret (json 200 (str "\x7b\"ok\":true\x7d")), r.2)
      else (.ret (json 401 (str "\x7b\"ok\":false\x7d")), r.2)

def healthQuery : Bytes := str "SELECT DATABASE(), 1"

def HealthHandler.handle : Handler σ := fun _ w =>
  let r := b.queryGet healthQuery w
  (.ret (json 200 (if hasRow r.1 then str "\x7b\"status\":\"ok\"\x7d"
    else str "\x7b\"status\":\"sql fail\"\x7d")), r.2)

/-- the registrations of `main` -/
def authRoutes : List (Registration σ) :=
  [.addAppEndpoint (str "/health") .get ⟨HealthHandler.handle b, none⟩,
    .addAppEndpoint (str "/auth") .get ⟨AuthHandler.handle b, none⟩,
    .addAppEndpoint (str "/auth/check") .get ⟨CheckHandler.handle b, none⟩]

def authServer : Server σ := registered (authRoutes b)

end

/-! ## what the statements say -/

/-- a text around one literal, and what the literal denotes -/
structure Says (q before after value : Bytes) : Prop where
  text : ∃ body, q = before ++ squote :: (body ++ squote :: after)
  literal : literalsOf (asItems q) = [⟨.single, asItems value⟩]

def selectBefore (schema : Bytes) : Bytes :=
  str "SELECT id FROM `" ++ (schema ++ (str "`.`" ++ (kAuthTable ++ str "` WHERE token=")))

def selectAfter : Bytes := str " LIMIT 1"

def insertBefore (schema : Bytes) : Bytes :=
  str "INSERT INTO `" ++ (schema ++ (str "`.`" ++ (kAuthTable ++ str "` (token) VALUES(")))

def insertAfter : Bytes := str ")"

/-- the token that is looked up or inserted: with the names for `$0` and `$1`, if it has them -/
def denoted (schema token : Bytes) : Bytes := fillNames [schema, kAuthTable] 2 token

theorem denoted_free (schema : Bytes) {token : Bytes} (h : ch '$' ∉ token) :
    denoted schema token = token := fillNames_free h 2

/-- both statements name the schema and the table once -/
theorem fillNames_names {a b c table : Bytes} (ha : ch '$' ∉ a) (hb : ch '$' ∉ b) (hc : ch '$' ∉ c)
    (ht : ch '$' ∉ table) (schema : Bytes) :
    fillNames [schema, table] 2 (a ++ (placeholder 0 ++ (b ++ (placeholder 1 ++ c))))
      = a ++ (schema ++ (b ++ (table ++ c))) := by
  have h0 : placeholder 0 = ch '$' :: decimal 0 := rfl
  have h1 : placeholder 1 = ch '$' :: decimal 1 := rfl
  have hne := placeholder_ne_nil
  have hskip : ∀ s, ¬ placeholder 1 <+: ch '$' :: (str "0" ++ s) := by
    intro s h
    rw [show placeholder 1 = [ch '$', ch '1'] by decide, List.cons_prefix_cons] at h
    exact absurd (List.cons_prefix_cons.mp h.2).1 (by decide)
  have hzero : ch '$' ∉ str "0" := by decide
  have hpass1 : Cutting.replaceAll (placeholder 1) table
      (a ++ (placeholder 0 ++ (b ++ (placeholder 1 ++ c))))
        = a ++ (placeholder 0 ++ (b ++ (table ++ c))) := by
    have hplace : placeholder 0 = ch '$' :: str "0" := by decide
    rw [h1, Cutting.replaceAll_free ha, ← h1, hplace, List.cons_append,
      Cutting.replaceAll_skip (hne 1) (hskip _), h1, Cutting.replaceAll_free hzero,
      Cutting.replaceAll_free hb, ← h1, Cutting.replaceAll_hit (hne 1)]
    have hend := Cutting.replaceAll_free hc (decimal 1) table []
    rw [List.append_nil, ← h1, Cutting.replaceAll_nil (hne 1), List.append_nil] at hend
    rw [hend]
    rfl
  have hpass0 : Cutting.replaceAll (placeholder 0) schema
      (a ++ (placeholder 0 ++ (b ++ (table ++ c)))) = a ++ (schema ++ (b ++ (table ++ c))) := by
    have hrest : ch '$' ∉ b ++ (table ++ c) := by
      simp only [List.mem_append, not_or]
      exact ⟨hb, ht, hc⟩
    have hend := Cutting.replaceAll_free hrest (decimal 0) schema []
    rw [List.append_nil, ← h0, Cutting.replaceAll_nil (hne 0), List.append_nil] at hend
    rw [h0, Cutting.replaceAll_free ha, ← h0, Cutting.replaceAll_hit (hne 0), hend]
  show Cutting.replaceAll (placeholder 0) schema (Cutting.replaceAll (placeholder 1) table _) = _
  rw [hpass1, hpass0]

/-- a statement of the two: names outside of its literal, and the token in it -/
theorem says_statement {a b c post : Bytes} (hplain : Plain (a ++ (b ++ c)) ∧ Plain post)
    (hfree : ch '$' ∉ a ++ (b ++ (c ++ post)))
    (hpre : ¬ placeholder 2 <:+: a ++ (placeholder 0 ++ (b ++ (placeholder 1 ++ c))) ++ [squote])
    (hpost : ¬ placeholder 2 <:+: squote :: post)
    (hin : (out.run (a ++ (placeholder 0 ++ (b ++ (placeholder 1 ++ c))) ++ [squote])).inside
      = true) {schema : Bytes} (hs : Plain schema) (token : Bytes) :
    Says (buildQuery (a ++ (placeholder 0 ++ (b ++ (placeholder 1 ++ c)))
        ++ squote :: (placeholder 2 ++ squote :: post)) [schema, kAuthTable, token])
      (a ++ (schema ++ (b ++ (kAuthTable ++ c)))) post (denoted schema token) := by
  have htable : Plain kAuthTable := by decide
  have hnames : ∀ name ∈ [schema, kAuthTable], Plain name := by
    intro name hn
    rcases List.mem_cons.mp hn with rfl | hn
    · exact hs
    · obtain rfl := List.mem_singleton.mp hn
      exact htable
  simp only [List.mem_append, not_or] at hfree
  obtain ⟨ha, hb, hc, hp⟩ := hfree
  have hq := buildQuery_quoted hnames hpre hpost hin token
  have hfill : fillNames [schema, kAuthTable] 2 post = post := fillNames_free hp 2
  rw [show [schema, kAuthTable].length = 2 from rfl, fillNames_names ha hb hc (by decide) schema,
    hfill] at hq
  have hbefore : Plain (a ++ (schema ++ (b ++ (kAuthTable ++ c)))) := by
    intro x hx
    have habc := hplain.1 x
    simp only [List.mem_append] at hx habc
    rcases hx with hx | hx | hx | hx | hx
    · exact habc (.inl hx)
    · exact hs x hx
    · exact habc (.inr (.inl hx))
    · exact htable x hx
    · exact habc (.inr (.inr hx))
  exact ⟨⟨_, hq⟩, (congrArg (fun q => literalsOf (asItems q)) hq).trans
    (literalsOf_quoted hbefore hplain.2 _)⟩

theorem says_select {schema : Bytes} (hs : Plain schema) (token : Bytes) :
    Says (selectToken schema token) (selectBefore schema) selectAfter (denoted schema token) := by
  have htext : str "SELECT id FROM `$0`.`$1` WHERE token='$2' LIMIT 1"
      = str "SELECT id FROM `" ++ (placeholder 0 ++ (str "`.`" ++ (placeholder 1
        ++ str "` WHERE token="))) ++ squote :: (placeholder 2 ++ squote :: selectAfter) := by
    decide
  unfold selectToken
  rw [htext]
  exact says_statement (by decide) (by decide) (by decide) (by decide) (by decide) hs token

theorem says_insert {schema : Bytes} (hs : Plain schema) (token : Bytes) :
    Says (insertToken schema token) (insertBefore schema) insertAfter (denoted schema token) := by
  have htext : str "INSERT INTO `$0`.`$1` (token) VALUES('$2')"
      = str "INSERT INTO `" ++ (placeholder 0 ++ (str "`.`" ++ (placeholder 1
        ++ str "` (token) VALUES("))) ++ squote :: (placeholder 2 ++ squote :: insertAfter) := by
    decide
  unfold insertToken
  rw [htext]
  exact says_statement (by decide) (by decide) (by decide) (by decide) (by decide) hs token

end Todo
end ServerHttpLib
