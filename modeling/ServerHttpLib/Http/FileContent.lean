import ServerHttpLib.Http.Assets
import ServerHttpLib.Http.Request

/-!
# Files of the assets (`FileContent::handle`)

The file system is a function from paths to contents, empty where there is no file; the hash is an
arbitrary function.  An exception anywhere in the handler makes the answer a 404, and
`get_file_ext` throws for a path without a dot.

* `handle_undotted`, `handle_dotted`   what becomes of a file that is found;
* `answersByTable_iff`                 the answer is the one that the file and the header call for,
                                       unless the path of the request, as sent, has no dot.
-/

namespace ServerHttpLib
open PosixPath

namespace ContentType

def Html : Bytes := str "text/html"
def OctetStream : Bytes := str "application/octet-stream"

end ContentType

/-- the table of `get_content_type` -/
def contentTypes : List (Bytes × Bytes) := [
  (str ".7z", str "application/x-7z-compressed"), (str ".bmp", str "image/bmp"),
  (str ".css", str "text/css"), (str ".csv", str "text/csv"),
  (str ".doc", str "application/msword"),
  (str ".docx", str "application/vnd.openxmlformats-officedocument.wordprocessingml.document"),
  (str ".eot", str "application/vnd.ms-fontobject"), (str ".gif", str "image/gif"),
  (str ".gz", str "application/gzip"), (str ".htm", str "text/html"),
  (str ".html", ContentType.Html), (str ".ico", str "image/x-icon"),
  (str ".jpeg", str "image/jpeg"), (str ".jpg", str "image/jpeg"),
  (str ".js", str "application/javascript"), (str ".json", str "application/json"),
  (str ".mp3", str "audio/mpeg"), (str ".mp4", str "video/mp4"),
  (str ".ogg", str "audio/ogg"), (str ".ogv", str "video/ogg"),
  (str ".pdf", str "application/pdf"), (str ".png", str "image/png"),
  (str ".ppt", str "application/vnd.ms-powerpoint"),
  (str ".pptx", str "application/vnd.openxmlformats-officedocument.presentationml.presentation"),
  (str ".rar", str "application/vnd.rar"), (str ".svg", str "image/svg+xml"),
  (str ".tar", str "application/x-tar"), (str ".ttf", str "font/ttf"),
  (str ".txt", str "text/plain"), (str ".wav", str "audio/wav"),
  (str ".webm", str "video/webm"), (str ".woff", str "font/woff"),
  (str ".woff2", str "font/woff2"), (str ".wasm", str "application/wasm"),
  (str ".xls", str "application/vnd.ms-excel"),
  (str ".xlsx", str "application/vnd.openxmlformats-officedocument.spreadsheetml.sheet"),
  (str ".xml", str "application/xml"), (str ".zip", str "application/zip")]

/-- `get_file_ext`; `none`: there is no dot, and `substr(npos)` throws -/
def getFileExt (path : Bytes) : Option Bytes :=
  if ch '.' ∈ path then some (ch '.' :: path.rtakeWhile (· ≠ ch '.')) else none

def getContentType (path : Bytes) : Option Bytes :=
  (getFileExt path).map fun ext => (contentTypes.lookup ext).getD ContentType.OctetStream

/-- the quoted hash -/
def etagOf (sha256 : Bytes → Bytes) (body : Bytes) : Bytes := [ch '"'] ++ sha256 body ++ [ch '"']

namespace FileContent

section
variable (assetsRoot : Option Bytes) (fs sha256 : Bytes → Bytes)

def handle (request : RequestIncoming) : Response :=
  match normalizeAssetPath assetsRoot request.path with
  | none => ⟨400, str "invalid path", []⟩
  | some normalizedPath =>
    let body := fs normalizedPath.native
    if body = [] then Response404
    else
      let etag := etagOf sha256 body
      let inm := request.getHeaders.get (str "If-None-Match")
      let response : Response := if inm ≠ [] ∧ inm = etag then ⟨304, [], []⟩ else ⟨200, body, []⟩
      match getContentType request.path with
      -- the exception is caught
      | none => Response404
      | some contentType =>
        let response := response.addHeader CONTENT_TYPE contentType
        if contentType ≠ ContentType.Html then
          (response.addHeader (str "ETag") etag).addHeader (str "Cache-Control")
            (str "public, max-age=31536000, immutable")
        else response

/-! ## the table of answers -/

/-- the file that the request asks for: its path is accepted, and it is not empty -/
def Finds (request : RequestIncoming) (body : Bytes) : Prop :=
  ∃ path, normalizeAssetPath assetsRoot request.path = some path ∧ fs path.native = body ∧ body ≠ []

/-- the client has the file already -/
def Unchanged (request : RequestIncoming) (body : Bytes) : Prop :=
  request.getHeaders.get (str "If-None-Match") = etagOf sha256 body

/-- **The answers as they should be** -/
structure AnswersByTable (request : RequestIncoming) : Prop where
  rejected : (handle assetsRoot fs sha256 request).code = 400 ↔
    normalizeAssetPath assetsRoot request.path = none
  missing : (handle assetsRoot fs sha256 request).code = 404 ↔
    ∃ path, normalizeAssetPath assetsRoot request.path = some path ∧ fs path.native = []
  unchanged : (handle assetsRoot fs sha256 request).code = 304 ↔
    ∃ body, Finds assetsRoot fs request body ∧ Unchanged sha256 request body
  unchanged_body : (handle assetsRoot fs sha256 request).code = 304 →
    (handle assetsRoot fs sha256 request).body = []
  served : ∀ body, Finds assetsRoot fs request body → ¬ Unchanged sha256 request body →
    (handle assetsRoot fs sha256 request).code = 200 ∧
      (handle assetsRoot fs sha256 request).body = body

variable {assetsRoot fs sha256} {request : RequestIncoming}

theorem addHeader_frame (r : Response) (name value : Bytes) :
    (r.addHeader name value).code = r.code ∧ (r.addHeader name value).body = r.body := by
  unfold Response.addHeader
  split
  · exact ⟨rfl, rfl⟩
  · exact ⟨rfl, rfl⟩

theorem etagOf_ne_nil (body : Bytes) : etagOf sha256 body ≠ [] := by simp [etagOf]

theorem getContentType_isSome (path : Bytes) :
    (getContentType path).isSome = true ↔ ch '.' ∈ path := by
  unfold getContentType getFileExt
  rw [Option.isSome_map]
  split
  · rename_i h
    exact iff_of_true rfl h
  · rename_i h
    exact iff_of_false Bool.false_ne_true h

theorem handle_rejected (h : normalizeAssetPath assetsRoot request.path = none) :
    handle assetsRoot fs sha256 request = ⟨400, str "invalid path", []⟩ := by
  unfold handle
  rw [h]

theorem handle_missing {path : Path} (h : normalizeAssetPath assetsRoot request.path = some path)
    (hfs : fs path.native = []) : handle assetsRoot fs sha256 request = Response404 := by
  unfold handle
  rw [h]
  exact if_pos hfs

theorem handle_undotted {body : Bytes} (h : Finds assetsRoot fs request body)
    (hdot : ch '.' ∉ request.path) : handle assetsRoot fs sha256 request = Response404 := by
  obtain ⟨path, hpath, rfl, hne⟩ := h
  have htype : getContentType request.path = none := by
    rw [← Option.not_isSome_iff_eq_none, getContentType_isSome]
    exact hdot
  unfold handle
  rw [hpath, htype]
  exact if_neg hne

theorem handle_dotted {body : Bytes} (h : Finds assetsRoot fs request body)
    (hdot : ch '.' ∈ request.path) :
    (Unchanged sha256 request body →
      (handle assetsRoot fs sha256 request).code = 304 ∧
        (handle assetsRoot fs sha256 request).body = []) ∧
    (¬ Unchanged sha256 request body →
      (handle assetsRoot fs sha256 request).code = 200 ∧
        (handle assetsRoot fs sha256 request).body = body) := by
  obtain ⟨path, hpath, rfl, hne⟩ := h
  obtain ⟨contentType, htype⟩ := Option.isSome_iff_exists.mp
    ((getContentType_isSome request.path).mpr hdot)
  have hframe : ∀ r : Response, ∀ r',
      r' = (if contentType ≠ ContentType.Html then
        ((r.addHeader CONTENT_TYPE contentType).addHeader (str "ETag")
          (etagOf sha256 (fs path.native))).addHeader (str "Cache-Control")
            (str "public, max-age=31536000, immutable")
        else r.addHeader CONTENT_TYPE contentType) → r'.code = r.code ∧ r'.body = r.body := by
    rintro r r' rfl
    split
    · simp only [addHeader_frame, and_self]
    · exact addHeader_frame r _ _
  have hframe := hframe _ (handle assetsRoot fs sha256 request)
    (by unfold handle; rw [hpath, htype]; exact if_neg hne)
  rw [hframe.1, hframe.2]
  constructor
  · intro hu
    rw [if_pos ⟨fun h0 => etagOf_ne_nil _ (hu.symm.trans h0), hu⟩]
    exact ⟨rfl, rfl⟩
  · intro hu
    rw [if_neg fun h0 => hu h0.2]
    exact ⟨rfl, rfl⟩

theorem finds_unique {a b : Bytes} (ha : Finds assetsRoot fs request a)
    (hb : Finds assetsRoot fs request b) : a = b := by
  obtain ⟨p, hp, rfl, -⟩ := ha
  obtain ⟨q, hq, rfl, -⟩ := hb
  rw [hp, Option.some.injEq] at hq
  rw [hq]

theorem request_cases (assetsRoot : Option Bytes) (fs : Bytes → Bytes)
    (request : RequestIncoming) : normalizeAssetPath assetsRoot request.path = none ∨
    (∃ path, normalizeAssetPath assetsRoot request.path = some path ∧ fs path.native = []) ∨
    ∃ body, Finds assetsRoot fs request body := by
  cases h : normalizeAssetPath assetsRoot request.path with
  | none => exact Or.inl rfl
  | some path =>
    by_cases hfs : fs path.native = []
    · exact Or.inr (Or.inl ⟨path, rfl, hfs⟩)
    · exact Or.inr (Or.inr ⟨_, path, h, rfl, hfs⟩)

/-- without a file only the first two rows of the table are left -/
theorem answersByTable_of_rows (h : ∀ body, ¬ Finds assetsRoot fs request body)
    (h304 : (handle assetsRoot fs sha256 request).code ≠ 304)
    (hrejected : (handle assetsRoot fs sha256 request).code = 400 ↔
      normalizeAssetPath assetsRoot request.path = none)
    (hmissing : (handle assetsRoot fs sha256 request).code = 404 ↔
      ∃ path, normalizeAssetPath assetsRoot request.path = some path ∧ fs path.native = []) :
    AnswersByTable assetsRoot fs sha256 request where
  rejected := hrejected
  missing := hmissing
  unchanged := iff_of_false h304 fun ⟨body, hb, _⟩ => h body hb
  unchanged_body := fun h0 => absurd h0 h304
  served := fun body hb => absurd hb (h body)

/-- without a file nothing can go wrong -/
theorem answersByTable_of_not_finds (h : ∀ body, ¬ Finds assetsRoot fs request body) :
    AnswersByTable assetsRoot fs sha256 request := by
  rcases request_cases assetsRoot fs request with hrej | ⟨path, hpath, hfs⟩ | ⟨body, hb⟩
  · have hr : handle assetsRoot fs sha256 request = _ := handle_rejected hrej
    apply answersByTable_of_rows h <;> rw [hr]
    · decide
    · exact iff_of_true rfl hrej
    · refine iff_of_false (by decide) ?_
      rintro ⟨path, hpath, -⟩
      rw [hrej] at hpath
      exact absurd hpath (by simp)
  · have hr : handle assetsRoot fs sha256 request = _ := handle_missing hpath hfs
    apply answersByTable_of_rows h <;> rw [hr]
    · decide
    · rw [hpath]
      exact iff_of_false (by decide) (by simp)
    · exact iff_of_true rfl ⟨path, hpath, hfs⟩
  · exact absurd hb (h body)

theorem answersByTable_of_dotted {body : Bytes} (hf : Finds assetsRoot fs request body)
    (hdot : ch '.' ∈ request.path) : AnswersByTable assetsRoot fs sha256 request := by
  have ⟨hold, hnew⟩ := @handle_dotted _ _ sha256 _ _ hf hdot
  have hfound : ∀ body', Finds assetsRoot fs request body' → body' = body := fun body' h =>
    finds_unique h hf
  obtain ⟨path, hpath, hfs, hne⟩ := hf
  have hmissing : ¬ ∃ path, normalizeAssetPath assetsRoot request.path = some path ∧
      fs path.native = [] := by
    rintro ⟨path', hpath', hfs'⟩
    rw [hpath, Option.some.injEq] at hpath'
    exact hne (by rw [← hfs, hpath', hfs'])
  have hrejected : normalizeAssetPath assetsRoot request.path ≠ none := by rw [hpath]; simp
  by_cases hu : Unchanged sha256 request body
  · obtain ⟨hcode, hbody⟩ := hold hu
    refine ⟨?_, ?_, ?_, fun _ => hbody, fun body' hf' hu' => ?_⟩
    · exact iff_of_false (by rw [hcode]; decide) hrejected
    · exact iff_of_false (by rw [hcode]; decide) hmissing
    · exact iff_of_true hcode ⟨body, ⟨path, hpath, hfs, hne⟩, hu⟩
    · exact absurd (hfound body' hf' ▸ hu) hu'
  · obtain ⟨hcode, hbody⟩ := hnew hu
    refine ⟨?_, ?_, ?_, fun h304 => ?_, fun body' hf' _ => ?_⟩
    · exact iff_of_false (by rw [hcode]; decide) hrejected
    · exact iff_of_false (by rw [hcode]; decide) hmissing
    · refine iff_of_false (by rw [hcode]; decide) ?_
      rintro ⟨body', hf', hu'⟩
      exact hu (hfound body' hf' ▸ hu')
    · rw [hcode] at h304
      exact absurd h304 (by decide)
    · exact ⟨hcode, hbody.trans (hfound body' hf').symm⟩

end

/-- **A request is answered by the table exactly if it finds no file or its path has a dot**, as it
was sent. -/
theorem answersByTable_iff (assetsRoot : Option Bytes) (fs sha256 : Bytes → Bytes)
    (request : RequestIncoming) : AnswersByTable assetsRoot fs sha256 request ↔
      ((∃ body, Finds assetsRoot fs request body) → ch '.' ∈ request.path) := by
  constructor
  · rintro h ⟨body, hf⟩
    by_contra hdot
    have hcode : (handle assetsRoot fs sha256 request).code = 404 := by
      rw [handle_undotted hf hdot]
      rfl
    obtain ⟨path', hpath', hfs'⟩ := h.missing.mp hcode
    obtain ⟨path, hpath, rfl, hne⟩ := hf
    rw [hpath, Option.some.injEq] at hpath'
    exact hne (hpath' ▸ hfs')
  · intro h
    by_cases hf : ∃ body, Finds assetsRoot fs request body
    · obtain ⟨body, hb⟩ := hf
      exact answersByTable_of_dotted hb (h ⟨body, hb⟩)
    · exact answersByTable_of_not_finds fun body hb => hf ⟨body, hb⟩

/-- the file `assets/LICENSE` is not served, and `assets/a.css` is not by the path `/a%2ecss` -/
theorem undotted_not_served :
    (handle none (fun path => if path = str "assets/LICENSE" then str "MIT" else []) id
      (.new (str "GET /LICENSE HTTP/1.1\r\n\r\n"))).code = 404 ∧
    ¬ AnswersByTable none (fun path => if path = str "assets/LICENSE" then str "MIT" else []) id
      (.new (str "GET /LICENSE HTTP/1.1\r\n\r\n")) ∧
    ¬ AnswersByTable none (fun path => if path = str "assets/a.css" then str "b" else []) id
      (.new (str "GET /a%2ecss HTTP/1.1\r\n\r\n")) := by
  refine ⟨by decide +kernel, fun h => ?_, fun h => ?_⟩
  · have hfinds : Finds none (fun path => if path = str "assets/LICENSE" then str "MIT" else [])
        (.new (str "GET /LICENSE HTTP/1.1\r\n\r\n")) (str "MIT") :=
      ⟨⟨str "assets/LICENSE"⟩, by decide +kernel, by decide, by decide⟩
    exact absurd (h.served _ hfinds (by unfold Unchanged; decide +kernel)).1 (by decide +kernel)
  · have hfinds : Finds none (fun path => if path = str "assets/a.css" then str "b" else [])
        (.new (str "GET /a%2ecss HTTP/1.1\r\n\r\n")) (str "b") :=
      ⟨⟨str "assets/a.css"⟩, by decide +kernel, by decide, by decide⟩
    exact absurd (h.served _ hfinds (by unfold Unchanged; decide +kernel)).1 (by decide +kernel)

end FileContent

end ServerHttpLib
