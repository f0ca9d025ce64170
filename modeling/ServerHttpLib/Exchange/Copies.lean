import ServerHttpLib.Exchange.Routes
import ServerHttpLib.Http.FileContent

/-!
# Copies of the assets

A client keeps a file with the `ETag` it came with, and asks for it again with `If-None-Match`: a
304 lets it keep its copy.  The files change with the application, and other clients come between.

* `handle_fresh`   one answer of `FileContent` makes a copy that was the file at some time the file
                   as it is now;
* `copies_fresh`   so a copy is, behind any fetches in any conversation, what the file was when the
                   handler of the last fetch ran.
-/

namespace ServerHttpLib
open PosixPath

namespace FileContent

/-- the handler in an application `w` that holds the files `files w` -/
def requestHandler {σ : Type} (assetsRoot : Option Bytes) (sha256 : Bytes → Bytes)
    (files : σ → Bytes → Bytes) (authHandler : Option (Handler σ)) : RequestHandler σ where
  handle request w := (.ret (handle assetsRoot (files w) sha256 request), w)
  sequireHandler := authHandler

def asset (assetsRoot : Option Bytes) (fs : Bytes → Bytes) (path : Bytes) : Option Bytes :=
  (normalizeAssetPath assetsRoot path).bind fun p =>
    if fs p.native = [] then none else some (fs p.native)

variable {assetsRoot : Option Bytes} {fs sha256 : Bytes → Bytes} {request : RequestIncoming}

theorem asset_eq_some_iff {body : Bytes} :
    asset assetsRoot fs request.path = some body ↔ Finds assetsRoot fs request body := by
  unfold asset Finds
  constructor
  · intro h
    obtain ⟨p, hp, hbody⟩ := Option.bind_eq_some_iff.mp h
    split at hbody
    · exact absurd hbody (by simp)
    · rename_i hne
      obtain rfl := Option.some.inj hbody
      exact ⟨p, hp, rfl, hne⟩
  · rintro ⟨p, hp, rfl, hne⟩
    rw [hp, Option.bind_some, if_neg hne]

/-- the headers behind the type of a file -/
def IsTags (sha256 : Bytes → Bytes) (body : Bytes) (tags : List (Bytes × Bytes)) : Prop :=
  tags = [] ∨ tags = [(str "ETag", etagOf sha256 body),
    (str "Cache-Control", str "public, max-age=31536000, immutable")]

/-- the response of the handler for a file, with its type -/
theorem handle_found (sha256 : Bytes → Bytes) {body contentType : Bytes}
    (h : Finds assetsRoot fs request body)
    (htype : getContentType request.path = some contentType) : ∃ tags, IsTags sha256 body tags ∧
      (Unchanged sha256 request body → handle assetsRoot fs sha256 request
        = ⟨304, [], (CONTENT_TYPE, contentType) :: tags⟩) ∧
      (¬ Unchanged sha256 request body → handle assetsRoot fs sha256 request
        = ⟨200, body, (CONTENT_TYPE, contentType) :: tags⟩) := by
  obtain ⟨path, hpath, rfl, hne⟩ := h
  have htypeName : CONTENT_TYPE ≠ str "Content-Length" := by decide
  have hetag : str "ETag" ≠ str "Content-Length" := by decide
  have hcontrol : str "Cache-Control" ≠ str "Content-Length" := by decide
  have hinm : (request.getHeaders.get (str "If-None-Match") ≠ [] ∧
      request.getHeaders.get (str "If-None-Match") = etagOf sha256 (fs path.native)) ↔
        Unchanged sha256 request (fs path.native) :=
    ⟨And.right, fun hu => ⟨fun h0 => etagOf_ne_nil _ (hu.symm.trans h0), hu⟩⟩
  unfold handle
  rw [hpath, htype]
  dsimp only
  rw [if_neg hne]
  by_cases hhtml : contentType = ContentType.Html
  · refine ⟨[], .inl rfl, fun hu => ?_, fun hu => ?_⟩
    · rw [if_pos (hinm.mpr hu), if_neg (not_not_intro hhtml), Response.addHeader, if_neg htypeName]
      rfl
    · rw [if_neg (hinm.not.mpr hu), if_neg (not_not_intro hhtml), Response.addHeader,
        if_neg htypeName]
      rfl
  · refine ⟨_, .inr rfl, fun hu => ?_, fun hu => ?_⟩
    · rw [if_pos (hinm.mpr hu), if_pos hhtml]
      simp only [Response.addHeader, if_neg htypeName, if_neg hetag, if_neg hcontrol]
      rfl
    · rw [if_neg (hinm.not.mpr hu), if_pos hhtml]
      simp only [Response.addHeader, if_neg htypeName, if_neg hetag, if_neg hcontrol]
      rfl

/-! ## the responses are read back as they are -/

/-- a hash of which the client can read the digits -/
def PlainHash (sha256 : Bytes → Bytes) : Prop := ∀ b, cr ∉ sha256 b ∧ lf ∉ sha256 b

theorem replyHeader_type {path contentType : Bytes} (h : getContentType path = some contentType) :
    ReplyHeader (CONTENT_TYPE, contentType) := by
  obtain ⟨ext, -, rfl⟩ := Option.map_eq_some_iff.mp h
  cases hl : contentTypes.lookup ext with
  | none =>
    show ReplyHeader (CONTENT_TYPE, ContentType.OctetStream)
    decide +kernel
  | some t =>
    obtain ⟨l, l', he, -⟩ := List.lookup_eq_some_iff.mp hl
    have hall : ∀ e ∈ contentTypes, ReplyHeader (CONTENT_TYPE, e.2) := by decide +kernel
    exact hall (ext, t) (he ▸ by simp)

theorem replyHeader_etag (hsha : PlainHash sha256) (body : Bytes) :
    ReplyHeader (str "ETag", etagOf sha256 body) := by
  obtain ⟨hcr, hlf⟩ := hsha body
  have hcolon : ch ':' ∉ str "ETag" := by decide
  have hname : cr ∉ str "ETag" ∧ lf ∉ str "ETag" := by decide
  have hlength : (str "ETag").map asciiLower ≠ str "content-length" := by decide
  have hencoding : (str "ETag").map asciiLower ≠ str "transfer-encoding" := by decide
  refine ⟨hcolon, hname.1, hname.2, ?_, ?_, ?_, hlength, hencoding⟩
  · unfold etagOf
    simp only [List.mem_append, List.mem_singleton, not_or]
    exact ⟨⟨by decide, hcr⟩, by decide⟩
  · unfold etagOf
    simp only [List.mem_append, List.mem_singleton, not_or]
    exact ⟨⟨by decide, hlf⟩, by decide⟩
  · rintro _ ⟨⟩
    decide

theorem plainReply_handle (hsha : PlainHash sha256) (hfs : ∀ p, (fs p).length ≤ maxSize)
    (request : RequestIncoming) : PlainReply (handle assetsRoot fs sha256 request) := by
  rcases request_cases assetsRoot fs request with hrej | ⟨path, hpath, hnil⟩ | ⟨body, hb⟩
  · rw [handle_rejected hrej]
    exact ⟨by decide, by decide, by decide, fun _ hf => absurd hf List.not_mem_nil⟩
  · rw [handle_missing hpath hnil]
    exact Exchange.plainReply_404
  · by_cases hdot : ch '.' ∈ request.path
    · obtain ⟨contentType, htype⟩ := Option.isSome_iff_exists.mp
        ((getContentType_isSome request.path).mpr hdot)
      obtain ⟨tags, htags, hold, hnew⟩ := handle_found sha256 hb htype
      have hheaders : ∀ f ∈ (CONTENT_TYPE, contentType) :: tags, ReplyHeader f := by
        intro f hf
        rcases List.mem_cons.mp hf with rfl | hf
        · exact replyHeader_type htype
        rcases htags with rfl | rfl
        · exact absurd hf List.not_mem_nil
        · rcases List.mem_cons.mp hf with rfl | hf
          · exact replyHeader_etag hsha body
          · obtain rfl := List.mem_singleton.mp hf
            decide +kernel
      have hlong : body.length ≤ maxSize := by
        obtain ⟨p, -, rfl, -⟩ := hb
        exact hfs p.native
      by_cases hu : Unchanged sha256 request body
      · rw [hold hu]
        exact ⟨show (0 : Int) ≤ 304 by decide, show (304 : Int) < 2 ^ 31 by decide, Nat.zero_le _,
          hheaders⟩
      · rw [hnew hu]
        exact ⟨show (0 : Int) ≤ 200 by decide, show (200 : Int) < 2 ^ 31 by decide, hlong, hheaders⟩
    · rw [handle_undotted hb hdot]
      exact Exchange.plainReply_404

end FileContent

namespace Exchange
open RequestOutgoming FileContent

variable {σ : Type} {assetsRoot : Option Bytes} {sha256 : Bytes → Bytes} {files : σ → Bytes → Bytes}
  {path : Bytes}

/-! ## one fetch -/

/-- what a client keeps of a file -/
structure Copy where
  etag : Bytes
  body : Bytes
  deriving DecidableEq

/-- the copy behind a response -/
def keep (copy : Option Copy) (res : Response) : Option Copy :=
  if res.code = 304 then copy
  else if res.code = 200 then some ⟨res.getHeader (str "ETag"), res.body⟩
  else none

/-- what a client with this copy asks with; without a validator it wants the file -/
def validator (copy : Option Copy) : Option Bytes :=
  copy.bind fun c => if c.etag = [] then none else some c.etag

def Asks (copy : Option Copy) (q : Request) : Prop :=
  AssocMap.firstOf (headerCalls q.calls) (str "If-None-Match") = validator copy

/-- the copy is the file at some time -/
structure CopyOf (assetsRoot : Option Bytes) (sha256 : Bytes → Bytes) (files : σ → Bytes → Bytes)
    (path : Bytes) (w : σ) (c : Copy) : Prop where
  body : asset assetsRoot (files w) path = some c.body
  etag : c.etag = [] ∨ c.etag = etagOf sha256 c.body

/-- no two contents of the file have the same hash -/
def NoCollision (assetsRoot : Option Bytes) (sha256 : Bytes → Bytes) (files : σ → Bytes → Bytes)
    (path : Bytes) : Prop :=
  ∀ w w' body body', asset assetsRoot (files w) path = some body →
    asset assetsRoot (files w') path = some body' → sha256 body = sha256 body' → body = body'

theorem etagOf_inj {a b : Bytes} (h : etagOf sha256 a = etagOf sha256 b) : sha256 a = sha256 b := by
  unfold etagOf at h
  rw [List.append_assoc, List.append_assoc] at h
  exact List.append_cancel_right (List.append_cancel_left h)

theorem getHeader_tags {body contentType : Bytes} {tags : List (Bytes × Bytes)}
    (ht : IsTags sha256 body tags) (code : Int) (text : Bytes) :
    ((⟨code, text, (CONTENT_TYPE, contentType) :: tags⟩ : Response).asRead false 10).getHeader
      (str "ETag") = [] ∨
    ((⟨code, text, (CONTENT_TYPE, contentType) :: tags⟩ : Response).asRead false 10).getHeader
      (str "ETag") = etagOf sha256 body := by
  have h1 : (str "ETag" == CONTENT_TYPE) = false := by decide
  have h2 : (str "ETag" == str "Connection") = false := by decide
  unfold Response.getHeader Response.asRead connectionFields
  rcases ht with rfl | rfl
  · left
    simp [List.lookup_cons, List.lookup_nil, h1, h2]
  · right
    simp [List.lookup_cons, h1]

/-- **One answer makes the copy the file as it is.** -/
theorem handle_fresh (hdot : ch '.' ∈ path) (hcoll : NoCollision assetsRoot sha256 files path)
    {copy : Option Copy} (hcopy : ∀ c ∈ copy, ∃ w, CopyOf assetsRoot sha256 files path w c)
    {request : RequestIncoming} (hpath : request.path = path)
    (hinm : request.getHeaders.get (str "If-None-Match") = (validator copy).getD []) (w : σ) :
    (∀ c ∈ keep copy ((handle assetsRoot (files w) sha256 request).asRead false 10),
      CopyOf assetsRoot sha256 files path w c) ∧
    (keep copy ((handle assetsRoot (files w) sha256 request).asRead false 10)).map Copy.body
      = asset assetsRoot (files w) path := by
  subst hpath
  cases hasset : asset assetsRoot (files w) request.path with
  | none =>
    have hno : ∀ body, ¬ Finds assetsRoot (files w) request body := fun body hb => by
      rw [← asset_eq_some_iff, hasset] at hb
      exact absurd hb (by simp)
    have hcode : (handle assetsRoot (files w) sha256 request).code = 400 ∨
        (handle assetsRoot (files w) sha256 request).code = 404 := by
      rcases request_cases assetsRoot (files w) request with hrej | ⟨p, hp, hnil⟩ | ⟨body, hb⟩
      · exact .inl (by rw [handle_rejected hrej])
      · exact .inr (by rw [handle_missing hp hnil]; rfl)
      · exact absurd hb (hno body)
    have hkeep : keep copy ((handle assetsRoot (files w) sha256 request).asRead false 10)
        = none := by
      unfold keep Response.asRead
      dsimp only
      rcases hcode with h | h
      · rw [h]
        rfl
      · rw [h]
        rfl
    rw [hkeep]
    exact ⟨fun _ hc => absurd hc (by simp), rfl⟩
  | some body =>
    have hb := asset_eq_some_iff.mp hasset
    obtain ⟨contentType, htype⟩ := Option.isSome_iff_exists.mp
      ((getContentType_isSome request.path).mpr hdot)
    obtain ⟨tags, htags, hold, hnew⟩ := handle_found sha256 hb htype
    by_cases hu : Unchanged sha256 request body
    · -- the copy has the hash of the file
      have hne : (validator copy).getD [] = etagOf sha256 body := hinm.symm.trans hu
      obtain ⟨c, rfl, he⟩ : ∃ c, copy = some c ∧ c.etag = etagOf sha256 body := by
        unfold validator at hne
        cases copy with
        | none => exact absurd hne.symm (etagOf_ne_nil body)
        | some c =>
          refine ⟨c, rfl, ?_⟩
          by_cases h0 : c.etag = []
          · rw [Option.bind_some, if_pos h0] at hne
            exact absurd hne.symm (etagOf_ne_nil body)
          · rw [Option.bind_some, if_neg h0] at hne
            exact hne
      obtain ⟨w', hcw⟩ := hcopy c rfl
      have hsame : c.body = body := by
        rcases hcw.etag with h0 | h
        · exact absurd (he.symm.trans h0) (etagOf_ne_nil body)
        · exact hcoll w' w _ _ hcw.body hasset (etagOf_inj (h.symm.trans he))
      rw [hold hu]
      show (∀ c' ∈ some c, CopyOf assetsRoot sha256 files request.path w c') ∧
        some c.body = some body
      refine ⟨fun c' hc' => ?_, by rw [hsame]⟩
      obtain rfl := Option.mem_some.mp hc'
      exact ⟨hsame ▸ hasset, hcw.etag⟩
    · rw [hnew hu]
      refine ⟨fun c hc => ?_, rfl⟩
      obtain rfl := Option.mem_some.mp hc
      exact ⟨hasset, getHeader_tags htags 200 body⟩

/-! ## many fetches -/

/-- fetches of one path among the clients of a conversation, and the copy that they leave: each one
asks with the validator of the copy before it -/
inductive Fetches (es : List (Sharing.Event Request Event)) (g : Sharing.System Exchange Call σ)
    (path : Bytes) : List Nat → Option Copy → Prop where
  | nil : Fetches es g path [] none
  | snoc {is : List Nat} {copy : Option Copy} {i : Nat} {q : Request} {x : Exchange Unit}
      {res : Response} : Fetches es g path is copy → (Sharing.entered es)[i]? = some q →
      q.key = ⟨path, .get⟩ → Asks copy q → g.parts[i]? = some x → x.result = some res →
      x.lost = false → Fetches es g path (is ++ [i]) (keep copy res)

/-- the path leads to the files -/
def LeadsToFiles (assetsRoot : Option Bytes) (sha256 : Bytes → Bytes) (files : σ → Bytes → Bytes)
    (regs : List (Registration σ)) (path : Bytes) : Prop :=
  ∀ request w, route regs ⟨path, .get⟩ request w
    = (handle assetsRoot (files w) sha256 request, w)

/-- the method has the files as its handler, and the path is not that of an endpoint; a guard of the
files is not asked then -/
theorem leadsToFiles_handler {regs : List (Registration σ)} {auth : Option (Handler σ)}
    (hfree : AssocMap.firstOf (endpointsOf regs) ⟨path, .get⟩ = none)
    (h : AssocMap.lastOf (handlersOf regs) .get
      = some (requestHandler assetsRoot sha256 files auth).handle) :
    LeadsToFiles assetsRoot sha256 files regs path := by
  intro request w
  unfold route
  rw [hfree, h]
  rfl

theorem Asks.get {copy : Option Copy} {q : Request} {got : RequestIncoming} (h : Asks copy q)
    (harr : Arrives q got) :
    got.getHeaders.get (str "If-None-Match") = (validator copy).getD [] := by
  unfold Asks at h
  cases hv : validator copy with
  | none => exact harr.no_header _ (h.trans hv) (by decide)
  | some etag => exact harr.headers _ _ (h.trans hv)

/-- **A copy is the file as the last fetch met it.**  In any conversation, whatever the other
clients do to the files, and however often the client asked before. -/
theorem copies_fresh (fuel : Nat) (regs : List (Registration σ)) (w : σ)
    (es : List (Sharing.Event Request Event)) (g : Sharing.System Exchange Call σ)
    (hrun : converse fuel (registered regs) w es = some g)
    (assetsRoot : Option Bytes) (sha256 : Bytes → Bytes) (files : σ → Bytes → Bytes) (path : Bytes)
    (hdot : ch '.' ∈ path) (hfiles : LeadsToFiles assetsRoot sha256 files regs path)
    (hsha : PlainHash sha256) (hcoll : NoCollision assetsRoot sha256 files path)
    (hsize : ∀ w p, (files w p).length ≤ maxSize) (is : List Nat) (i : Nat) (copy : Option Copy)
    (hfetch : Fetches es g path (is ++ [i]) copy) :
    ∃ h, g.logOf i = [h] ∧ copy.map Copy.body = asset assetsRoot (files h.before) path := by
  have key : ∀ is copy, Fetches es g path is copy →
      (∀ c ∈ copy, ∃ w, CopyOf assetsRoot sha256 files path w c) ∧
      ∀ i ∈ is.getLast?, ∃ h, g.logOf i = [h] ∧
        copy.map Copy.body = asset assetsRoot (files h.before) path := by
    intro is copy hf
    induction hf with
    | nil => exact ⟨fun _ hc => absurd hc (by simp), fun _ hi => absurd hi (by simp)⟩
    | @snoc is copy i q x res hf hi hkey hasks hx hres hl ih =>
      have hplain : RoutedPlainly regs q := by
        intro got w _
        rw [hkey, hfiles]
        exact plainReply_handle hsha (hsize w) got
      obtain ⟨x', r, hx', hs⟩ := run_served hrun hi hplain.answers
      obtain rfl := Option.some.inj (hx'.symm.trans hx)
      obtain ⟨h, hlog, rfl⟩ := hs.answered res hres hl
      have hpath : (requestOf q.clientIP r).path = path :=
        congrArg EndpointKey.path (hs.arrives.endpointKey.trans hkey)
      obtain ⟨hcopy, hbody⟩ := handle_fresh hdot hcoll ih.1 hpath (hasks.get hs.arrives) h.before
      rw [replyOf_registered regs hs.arrives, hkey, hfiles]
      refine ⟨fun c hc => ⟨h.before, hcopy c hc⟩, fun i' hi' => ?_⟩
      rw [List.getLast?_concat] at hi'
      obtain rfl := Option.mem_some.mp hi'
      exact ⟨h, hlog, hbody⟩
  exact (key _ _ hfetch).2 i (by rw [List.getLast?_concat]; rfl)

/-! ## a file that is edited -/

/-- the digits of the hashes of two style sheets, and of nothing -/
def styleHash (body : Bytes) : Bytes :=
  if body = str "a{}" then
    str "5f546eb4606b5c2b7d2a449a5cc2bbb477ed5a246c7051ce871b12f2dbfc8419"
  else if body = str "b{}" then
    str "ef2a875407aca2dd75a7a1dccc3b202918a9bc8e543e0b3def3f34ccd5e56a7b"
  else str "e3b0c44298fc1c149afbf4c8996fb92427ae41e4649b934ca495991b7852b855"

def styleSheet (edited : Bool) : Bytes := if edited then str "b{}" else str "a{}"

def styleFiles (edited : Bool) (path : Bytes) : Bytes :=
  if path = str "assets/a.css" then styleSheet edited else []

def styleSite : List (Registration Bool) :=
  [.addHandler .get (requestHandler none styleHash styleFiles none).handle,
    .addEndpoint (str "/edit") .post (fun _ _ => (.ret ⟨200, str "done", []⟩, true)) none]

def unlessStill (edited : Bool) : PlainHeader where
  name := str "If-None-Match"
  value := etagOf styleHash (styleSheet edited)
  plain := by
    cases edited with
    | false => exact ⟨by decide, by decide, by decide, by decide, by decide, by decide⟩
    | true => exact ⟨by decide, by decide, by decide, by decide, by decide, by decide⟩
  name_trimmed := ⟨by rintro _ ⟨⟩; rfl, by rintro _ ⟨⟩; rfl⟩
  value_trimmed := by
    cases edited with
    | false => exact ⟨by rintro _ ⟨⟩; rfl, by rintro _ ⟨⟩; rfl⟩
    | true => exact ⟨by rintro _ ⟨⟩; rfl, by rintro _ ⟨⟩; rfl⟩
  free := by decide

/-- the request for the style sheet, with the validator of the copy that the client has -/
def styleFetch (copy : Option Bool) : Request where
  clientIP := str "a"
  order := .inserted
  url := ⟨str "h", 80, str "/a.css", false⟩
  calls := copy.toList.map fun edited =>
    .addHeader (unlessStill edited).name (unlessStill edited).value
  setters := by
    intro q hq
    obtain ⟨edited, -, rfl⟩ := List.mem_map.mp hq
    exact ⟨unlessStill edited, rfl⟩
  endpoint_plain := ⟨by decide, by decide, by decide⟩
  query := .inl (by decide)
  host_plain := by decide
  small := by
    cases copy with
    | none => decide +kernel
    | some edited =>
      cases edited with
      | false => decide +kernel
      | true => decide +kernel

def styleEdit : Request where
  clientIP := str "b"
  order := .inserted
  url := ⟨str "h", 80, str "/edit", false⟩
  calls := [.setMethod .post]
  setters := by
    intro q hq
    obtain rfl := List.mem_singleton.mp hq
    trivial
  endpoint_plain := ⟨by decide, by decide, by decide⟩
  query := .inl (by decide)
  host_plain := by decide
  small := by decide +kernel

/-- the style sheet is edited while the client has it, and asked for twice then -/
def styleRun : List (Sharing.Event Request Event) :=
  [.enter (styleFetch none), .enter styleEdit, .act 0 (.send 51), .act 0 (.deliver 51),
    .act 1 (.send 51), .act 0 (.write 210), .act 1 (.deliver 51), .act 0 (.receive 210),
    .act 0 .finish, .enter (styleFetch (some false)), .act 2 (.send 134), .act 2 (.deliver 134),
    .act 2 (.write 210), .act 2 (.receive 210), .act 2 .finish, .enter (styleFetch (some true)),
    .act 3 (.send 134), .act 3 (.deliver 134), .act 3 (.write 207), .act 3 (.receive 207),
    .act 3 .written, .act 3 .finish]

def styleCopy (edited : Bool) : Copy :=
  ⟨etagOf styleHash (styleSheet edited), styleSheet edited⟩

/-- client `i` turned one copy into another -/
def Turned (g : Sharing.System Exchange Call Bool) (i : Nat) (copy copy' : Option Copy) : Bool :=
  g.parts[i]?.any fun x => x.lost = false ∧ x.result.any fun res => keep copy res = copy'

theorem Fetches.turned {es : List (Sharing.Event Request Event)}
    {g : Sharing.System Exchange Call Bool} {is : List Nat} {copy copy' : Option Copy} {i : Nat}
    {q : Request} (hf : Fetches es g path is copy) (hi : (Sharing.entered es)[i]? = some q)
    (hkey : q.key = ⟨path, .get⟩) (hasks : Asks copy q) (h : Turned g i copy copy' = true) :
    Fetches es g path (is ++ [i]) copy' := by
  obtain ⟨x, hx, h⟩ := (Option.any_eq_true _ _).mp h
  obtain ⟨hl, h⟩ := of_decide_eq_true h
  obtain ⟨res, hres, h⟩ := (Option.any_eq_true _ _).mp h
  obtain rfl := of_decide_eq_true h
  exact .snoc hf hi hkey hasks hx hres hl

theorem asset_style (edited : Bool) :
    asset none (styleFiles edited) (str "/a.css") = some (styleSheet edited) := by
  cases edited with
  | false => decide +kernel
  | true => decide +kernel

theorem noCollision_style : NoCollision none styleHash styleFiles (str "/a.css") := by
  intro w w' body body' h h' hsha
  rw [asset_style, Option.some.injEq] at h h'
  subst h h'
  revert hsha
  revert w w'
  decide +kernel

set_option maxRecDepth 100000 in
theorem copies_fresh_style : ∃ g, converse 0 (registered styleSite) false styleRun = some g ∧
    Fetches styleRun g (str "/a.css") [0, 2, 3] (some (styleCopy true)) ∧
    ∃ h, g.logOf 3 = [h] ∧
      some (styleSheet true) = asset none (styleFiles h.before) (str "/a.css") := by
  have hs : (converse 0 (registered styleSite) false styleRun).any (fun g =>
      Turned g 0 none (some (styleCopy false)) ∧
      Turned g 2 (some (styleCopy false)) (some (styleCopy true)) ∧
      Turned g 3 (some (styleCopy true)) (some (styleCopy true))) = true := by decide +kernel
  obtain ⟨g, hrun, hg⟩ := (Option.any_eq_true _ _).mp hs
  obtain ⟨h0, h2, h3⟩ := of_decide_eq_true hg
  have hfiles : LeadsToFiles none styleHash styleFiles styleSite (str "/a.css") :=
    @leadsToFiles_handler _ _ _ _ _ _ none rfl rfl
  have hsha : PlainHash styleHash := by
    intro body
    unfold styleHash
    split
    · decide
    · split
      · decide
      · decide
  have hsize : ∀ w p, (styleFiles w p).length ≤ maxSize := by
    intro w p
    unfold styleFiles
    split
    · cases w with
      | false => decide
      | true => decide
    · decide
  have hf0 : Fetches styleRun g (str "/a.css") [0] (some (styleCopy false)) :=
    Fetches.nil.turned (q := styleFetch none) rfl rfl rfl h0
  have hf2 : Fetches styleRun g (str "/a.css") [0, 2] (some (styleCopy true)) :=
    hf0.turned (q := styleFetch (some false)) rfl rfl rfl h2
  have hfetch : Fetches styleRun g (str "/a.css") [0, 2, 3] (some (styleCopy true)) :=
    hf2.turned (q := styleFetch (some true)) rfl rfl rfl h3
  exact ⟨g, hrun, hfetch, copies_fresh 0 styleSite false styleRun g hrun none styleHash styleFiles
    (str "/a.css") (by decide) hfiles hsha noCollision_style hsize [0, 2] 3 _ hfetch⟩

end Exchange
end ServerHttpLib
