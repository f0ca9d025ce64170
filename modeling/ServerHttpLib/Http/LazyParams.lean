import ServerHttpLib.Http.ParamsCodec

/-!
# Form parameters that are parsed when they are first read

A request decodes its body at the first read of a form parameter and remembers that it has done so;
`set_data` replaces the body and nothing else.

* `Holds`               between calls the form parameters are those of the body at the first read;
* `formAnswers_iff`     the reads of a run answer like a parse of the present body if and only if at
                        each of them the body of the first read gives the same answer.
-/

namespace ServerHttpLib
open Cutting

namespace RequestIncoming

/-! ## the accessors -/

def readHeaders (r : RequestIncoming) : RequestIncoming :=
  if r.headers.isEmpty then r.parseHeaders else r

/-- one token of the cookie header: split at the first `=`, blanks removed -/
def setCookie (p : Params) (token : Bytes) : Params :=
  match cut [ch '='] (svStrip token) with
  | none => p
  | some (k, v) => p.set (svStrip k) (svStrip v)

def parseCookieParams (r : RequestIncoming) : RequestIncoming :=
  let r := r.readHeaders
  let tokens := ((r.headers.get (str "Cookie")).splitOn (ch ';')).filter (· ≠ [])
  { r with cookieParams := tokens.foldl setCookie r.cookieParams }

def readCookies (r : RequestIncoming) : RequestIncoming :=
  if r.cookieParams.isEmpty then r.parseCookieParams else r

def readForm (r : RequestIncoming) : RequestIncoming :=
  if r.postDataParams.isEmpty then r.parsePostDataParams else r

inductive Call where
  | setData (value : Bytes)
  | getPost (name : Bytes) (require : Bool)
  | getPostDataParam (name : Bytes)
  | getPostDataParams
  | getHeaders
  /-- `get_user_agent`, `get_content_type` and `get_accept_language` read one header -/
  | getHeader (name : Bytes)
  | getCookieParams
  | getCookieValue (name : Bytes)

inductive Answer where
  | done
  | value (v : Bytes)
  /-- a map, as the values that can be looked up in it -/
  | table (find? : Bytes → Option Bytes)
  /-- `ResponseException` -/
  | threw (code : Int) (message : Bytes)

/-- what `get_post` makes of the entry that it finds -/
def postAnswer (name : Bytes) (require : Bool) : Option Bytes → Answer
  | some v => .value v
  | none =>
    if require then .threw 400 (str "Post parameter " ++ name ++ str " is missing.")
    else .value []

def call (r : RequestIncoming) : Call → Answer × RequestIncoming
  | .setData value => (.done, r.setData value)
  | .getPost name require =>
    let r := r.parsePostDataParams
    (postAnswer name require (r.postDataParams.params.find? name), r)
  | .getPostDataParam name =>
    let r := r.readForm
    (.value (r.postDataParams.get name), r)
  | .getPostDataParams =>
    let r := r.readForm
    (.table r.postDataParams.params.find?, r)
  | .getHeaders =>
    let r := r.readHeaders
    (.table r.headers.params.find?, r)
  | .getHeader name =>
    let r := r.readHeaders
    (.value (r.headers.get name), r)
  | .getCookieParams =>
    let r := r.readCookies
    (.table r.cookieParams.params.find?, r)
  | .getCookieValue name =>
    let r := r.readCookies
    (.value (r.cookieParams.get name), r)

/-! ## the answers of a run -/

/-- the answer of a read of form parameters if the body is parsed for it; `none` for other calls -/
def eager (body : Bytes) : Call → Option Answer
  | .getPost name require =>
    some (postAnswer name require (AssocMap.lastOf (pairsOf body) name))
  | .getPostDataParam name => some (.value ((AssocMap.lastOf (pairsOf body) name).getD []))
  | .getPostDataParams => some (.table (AssocMap.lastOf (pairsOf body)))
  | _ => none

def bodyAfter (body : Bytes) : Call → Bytes
  | .setData value => value
  | _ => body

def parsedAfter (parsed : Option Bytes) (body : Bytes) (q : Call) : Option Bytes :=
  if (eager body q).isSome then some (parsed.getD body) else parsed

/-- the answers to the reads of form parameters -/
def formAnswers : RequestIncoming → List Call → List Answer
  | _, [] => []
  | r, q :: calls =>
    if (eager r.postData q).isSome then (r.call q).1 :: formAnswers (r.call q).2 calls
    else formAnswers (r.call q).2 calls

/-- the same with a parse of the present body at each read -/
def eagerAnswers : Bytes → List Call → List Answer
  | _, [] => []
  | body, q :: calls => (eager body q).toList ++ eagerAnswers (bodyAfter body q) calls

/-- at each read the body of the first read gives the answer of the present one -/
def SameAnswers : Option Bytes → Bytes → List Call → Prop
  | _, _, [] => True
  | parsed, body, q :: calls =>
    eager (parsed.getD body) q = eager body q ∧
      SameAnswers (parsedAfter parsed body q) (bodyAfter body q) calls

/-- the form parameters between two calls: those of `parsed`, the body at the first read -/
structure Holds (r : RequestIncoming) (parsed : Option Bytes) (body : Bytes) : Prop where
  data : r.postData = body
  flag : r.postDataParamsParsed = parsed.isSome
  fresh : parsed = none → r.decodedPostDataParams = .empty ∧ r.postDataParams = .empty
  view : ∀ b, parsed = some b → ∀ name,
    r.postDataParams.params.find? name = AssocMap.lastOf (pairsOf b) name

variable {r : RequestIncoming} {parsed : Option Bytes} {body : Bytes}

theorem holds_new (header : Bytes) : Holds (new header) none [] := by
  obtain ⟨h1, h2, h3⟩ := new_post header
  exact ⟨new_postData header, h1, fun _ => ⟨h2, h3⟩, fun _ h => absurd h (by simp)⟩

/-- the first read parses the body, a later one does not -/
theorem Holds.parse (h : Holds r parsed body) :
    Holds r.parsePostDataParams (some (parsed.getD body)) body := by
  unfold parsePostDataParams
  cases parsed with
  | some b =>
    have hflag : r.postDataParamsParsed = true := h.flag
    rw [if_pos hflag]
    exact ⟨h.data, h.flag, fun h => absurd h (by simp), h.view⟩
  | none =>
    obtain ⟨h1, h2⟩ := h.fresh rfl
    rw [if_neg (by rw [h.flag]; simp)]
    refine ⟨h.data, rfl, fun h => absurd h (by simp), fun b hb name => ?_⟩
    rw [Option.some.injEq] at hb
    subst hb
    show (copyParams (decodeTokens r.postData r.decodedPostDataParams)
      r.postDataParams).params.find? name = _
    rw [h1, h2, find?_copyParams, h.data]
    rfl

theorem Holds.readForm (h : Holds r parsed body) :
    Holds r.readForm (some (parsed.getD body)) body := by
  unfold RequestIncoming.readForm
  by_cases he : r.postDataParams.isEmpty = true
  · rw [if_pos he]
    exact h.parse
  · rw [if_neg he]
    cases parsed with
    | some b => exact h
    | none =>
      rw [(h.fresh rfl).2] at he
      exact absurd rfl he

theorem Holds.same (h : Holds r parsed body) {r' : RequestIncoming}
    (he : ∃ headers cookies, r' = { r with headers := headers, cookieParams := cookies }) :
    Holds r' parsed body := by
  obtain ⟨headers, cookies, rfl⟩ := he
  exact ⟨h.data, h.flag, h.fresh, h.view⟩

theorem readHeaders_frame (r : RequestIncoming) :
    ∃ headers, r.readHeaders = { r with headers := headers } := by
  unfold readHeaders parseHeaders
  split
  · split
    · exact ⟨_, rfl⟩
    · split
      · exact ⟨_, rfl⟩
      · exact ⟨_, rfl⟩
  · exact ⟨_, rfl⟩

theorem readCookies_frame (r : RequestIncoming) :
    ∃ headers cookies, r.readCookies = { r with headers := headers, cookieParams := cookies } := by
  obtain ⟨headers, he⟩ := readHeaders_frame r
  unfold readCookies parseCookieParams
  rw [he]
  split
  · exact ⟨headers, _, rfl⟩
  · exact ⟨_, _, rfl⟩

/-- **What a call does**: a read answers from the body of the first read. -/
theorem Holds.call (h : Holds r parsed body) (q : Call) :
    Holds (r.call q).2 (parsedAfter parsed body q) (bodyAfter body q) ∧
      ((eager body q).isSome → some (r.call q).1 = eager (parsed.getD body) q) := by
  have headers : Holds r.readHeaders parsed body := by
    obtain ⟨headers, he⟩ := readHeaders_frame r
    exact h.same ⟨headers, _, he⟩
  cases q with
  | setData value => exact ⟨⟨rfl, h.flag, h.fresh, h.view⟩, fun h => absurd h (by simp [eager])⟩
  | getPost name require =>
    refine ⟨h.parse, fun _ => ?_⟩
    show some (postAnswer name require (r.parsePostDataParams.postDataParams.params.find? name)) = _
    rw [h.parse.view _ rfl]
    rfl
  | getPostDataParam name =>
    refine ⟨h.readForm, fun _ => ?_⟩
    show some (Answer.value ((r.readForm.postDataParams.params.find? name).getD [])) = _
    rw [h.readForm.view _ rfl]
    rfl
  | getPostDataParams =>
    refine ⟨h.readForm, fun _ => ?_⟩
    show some (Answer.table r.readForm.postDataParams.params.find?) = _
    rw [funext (h.readForm.view _ rfl)]
    rfl
  | getHeaders => exact ⟨headers, fun h => absurd h (by simp [eager])⟩
  | getHeader name => exact ⟨headers, fun h => absurd h (by simp [eager])⟩
  | getCookieParams =>
    exact ⟨h.same (readCookies_frame r), fun h => absurd h (by simp [eager])⟩
  | getCookieValue name =>
    exact ⟨h.same (readCookies_frame r), fun h => absurd h (by simp [eager])⟩

theorem eager_isSome (body body' : Bytes) (q : Call) :
    (eager body q).isSome = (eager body' q).isSome := by
  cases q <;> rfl

theorem Holds.answers_iff (h : Holds r parsed body) (calls : List Call) :
    formAnswers r calls = eagerAnswers body calls ↔ SameAnswers parsed body calls := by
  induction calls generalizing r parsed body with
  | nil => exact iff_of_true rfl trivial
  | cons q calls ih =>
    obtain ⟨hnext, hanswer⟩ := h.call q
    unfold formAnswers eagerAnswers SameAnswers
    rw [h.data]
    cases he : eager body q with
    | none =>
      have hp : eager (parsed.getD body) q = none := by
        rw [← Option.not_isSome_iff_eq_none, eager_isSome _ body, he]
        simp
      rw [hp, if_neg (by simp)]
      simpa using ih hnext
    | some a =>
      rw [he] at hanswer
      have hp := hanswer rfl
      rw [if_pos Option.isSome_some, ← hp, Option.some.injEq, Option.toList_some,
        List.singleton_append, List.cons.injEq, ih hnext]

/-- **The form parameters of every run** are those of the present body if and only if at each read
the body that was there at the first read answers like it. -/
theorem formAnswers_iff (header : Bytes) (calls : List Call) :
    formAnswers (new header) calls = eagerAnswers [] calls ↔ SameAnswers none [] calls :=
  (holds_new header).answers_iff calls

/-- a read before the body is there -/
def earlyRead : List Call :=
  [.getPost (str "a") false, .setData (str "a=1"), .getPost (str "a") true]

/-- the parameter is reported missing -/
theorem early_read_sticks :
    formAnswers (new []) earlyRead
        = [.value [], .threw 400 (str "Post parameter a is missing.")] ∧
      eagerAnswers [] earlyRead = [.value [], .value (str "1")] ∧
      formAnswers (new []) earlyRead ≠ eagerAnswers [] earlyRead := by
  have h1 : formAnswers (new []) earlyRead
      = [.value [], .threw 400 (str "Post parameter a is missing.")] := by rfl
  have h2 : eagerAnswers [] earlyRead = [.value [], .value (str "1")] := by rfl
  refine ⟨h1, h2, ?_⟩
  rw [h1, h2]
  simp

end RequestIncoming
end ServerHttpLib
