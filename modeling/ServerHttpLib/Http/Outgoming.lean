import ServerHttpLib.Http.ParamsCodec

/-!
# What an outgoing request writes, and writing it again

`get_http_body` writes a head text with the fields of the request between a `Host` and a
`Connection` field, and the body (`getHttpBody_eq`).  It adds the fields that describe the body to
the object itself, and leaves fields alone that are there.  So the `Content-Length` of the first
body stays with the object:

* `LengthHeader`              what the header map says about the length, behind any calls;
* `consistent_text_iff`       what a text says about the length, if what was set has no line ends;
* `messages_consistent_iff`   the texts of an object tell the length of their bodies if and only if
                              the bodies behind the first one that is not empty have its length.
-/

namespace ServerHttpLib
open Cutting

/-! ## the text -/

def sentLine (m : Method) (path : Bytes) : Bytes :=
  methodToStr m ++ sp :: (path ++ sp :: str "HTTP/1.1")

def sentFields (host : Bytes) (es : List (Bytes × Bytes)) : List (Bytes × Bytes) :=
  (str "Host", host) :: (es ++ [(str "Connection", str "close")])

/-! ## the request line -/

theorem requestLine_sentLine (m : Method) {path : Bytes} (hp : sp ∉ path) :
    requestLine (sentLine m path) = (methodToStr m, path) := by
  have hm : sp ∉ methodToStr m := by cases m <;> decide
  unfold requestLine sentLine
  rw [cut_of_mem_free hm]
  simp only [cut_of_mem_free hp]

theorem setTarget_plain {r : RequestIncoming} (hr : r.path = []) {path : Bytes}
    (hp : ch '?' ∉ path) : r.setTarget path = { r with path := path } := by
  unfold RequestIncoming.setTarget
  by_cases h0 : path = []
  · rw [if_pos h0, h0, ← hr]
  · rw [if_neg h0, cut_singleton_none.mpr hp]

theorem lf_sentLine (m : Method) {target : Bytes} (ht : lf ∉ target) : lf ∉ sentLine m target := by
  have hm : lf ∉ methodToStr m := by cases m <;> decide
  simp only [sentLine, List.mem_append, List.mem_cons, not_or]
  exact ⟨hm, by decide, ht, by decide, by decide⟩

/-- what is read from the request line: the method, and the target as `setTarget` splits it -/
theorem new_headText (m : Method) {target : Bytes} (hsp : sp ∉ target) (hlf : lf ∉ target)
    (fields : List (Bytes × Bytes)) :
    RequestIncoming.new (headText (sentLine m target) fields)
      = { ({ header := headText (sentLine m target) fields, method := m } :
            RequestIncoming).setTarget target with
          headersPos := some ((sentLine m target).length + 1) } := by
  unfold RequestIncoming.new
  rw [parseHeader_headText (lf_sentLine m hlf) _ rfl, requestLine_sentLine m hsp,
    strToMethod_methodToStr]

/-! ## the parts of the text -/

namespace RequestOutgoming

theorem addBodyHeaders_frame (r : RequestOutgoming) (data : Bytes) :
    ∃ own view, r.addBodyHeaders data = { r with ownHeaders := own, headers := view } := by
  have add : ∀ r' : RequestOutgoming,
      (∃ own view, r' = { r with ownHeaders := own, headers := view }) → ∀ name value,
      ∃ own view, (if r'.headers.has name = true then r' else r'.addHeader name value)
        = { r with ownHeaders := own, headers := view } := by
    rintro r' ⟨own, view, rfl⟩ name value
    split <;> exact ⟨_, _, rfl⟩
  unfold addBodyHeaders
  by_cases hd : data = []
  · rw [if_pos hd]
    exact ⟨r.ownHeaders, r.headers, rfl⟩
  · rw [if_neg hd]
    exact add _ (add r ⟨r.ownHeaders, r.headers, rfl⟩ CONTENT_TYPE _) CONTENT_LENGTH _

def targetToSend (r : RequestOutgoming) (o : AssocMap.Order Bytes Bytes) : Bytes :=
  r.path ++ if r.params.isEmpty then [] else ch '?' :: r.params.toUrlEncoded o

theorem not_mem_targetToSend (r : RequestOutgoming) (o : AssocMap.Order Bytes Bytes) {d : UInt8}
    (hd : ∀ c, d ∉ encodeByte c) (hsep : d ∉ [ch '=', ch '&', ch '?']) (hpath : d ∉ r.path) :
    d ∉ r.targetToSend o := by
  simp only [List.mem_cons, List.not_mem_nil, or_false, not_or] at hsep
  unfold targetToSend
  rw [List.mem_append, not_or]
  refine ⟨hpath, ?_⟩
  split
  · exact List.not_mem_nil
  · rw [List.mem_cons, not_or]
    exact ⟨hsep.2.2, not_mem_toUrlEncoded o _ hd hsep.1 hsep.2.1⟩

def lineToSend (r : RequestOutgoming) (o : AssocMap.Order Bytes Bytes) : Bytes :=
  sentLine r.method (r.targetToSend o)

/-- the fields, with those that are added for the body -/
def fieldsToSend (r : RequestOutgoming) (o : AssocMap.Order Bytes Bytes) (host : Bytes) :
    List (Bytes × Bytes) :=
  sentFields host (o.list (r.addBodyHeaders (r.bodyToSend o)).headers.params)

/-- **The text of a request** is a head text and the body. -/
theorem getHttpBody_eq (r : RequestOutgoming) (o : AssocMap.Order Bytes Bytes) (host : Bytes) :
    (r.getHttpBody o host).1
      = headText (r.lineToSend o) (r.fieldsToSend o host) ++ r.bodyToSend o := by
  obtain ⟨own, view, he⟩ := addBodyHeaders_frame r (r.bodyToSend o)
  have e1 : str " HTTP/1.1\r\nHost: " = sp :: str "HTTP/1.1" ++ crlf ++ str "Host: " := by decide
  have e2 : str "Connection: close\r\n\r\n"
      = headerLine (str "Connection", str "close") ++ crlf := by decide
  have e3 : headerLine (str "Host", host) = str "Host: " ++ host ++ crlf := by
    unfold headerLine
    rw [show str "Host: " = str "Host" ++ str ": " by decide]
  have e4 : str " " = [sp] := by decide
  unfold getHttpBody lineToSend fieldsToSend targetToSend
  simp only [he, e1, e2, e4, headText, sentLine, sentFields, List.flatMap_cons,
    List.flatMap_append, List.flatMap_nil, List.append_nil, e3, List.append_assoc,
    List.cons_append, List.nil_append]

/-! ## one object, many calls -/

inductive Call where
  | setMethod (m : Method)
  | setPath (v : Bytes)
  | setParams (name value : Bytes)
  | setPostParams (name value : Bytes)
  | setData (v : Bytes)
  | setContentType (v : Bytes)
  | addHeader (name value : Bytes)
  /-- `o` is the order in which the maps yield their entries this time -/
  | getHttpBody (o : AssocMap.Order Bytes Bytes) (host : Bytes)

def after (r : RequestOutgoming) : Call → RequestOutgoming
  | .setMethod m => r.setMethod m
  | .setPath v => r.setPath v
  | .setParams name value => r.setParams name value
  | .setPostParams name value => r.setPostParams name value
  | .setData v => r.setData v
  | .setContentType v => r.setContentType v
  | .addHeader name value => r.addHeader name value
  | .getHttpBody o host => (r.getHttpBody o host).2

/-- a text that `get_http_body` returned, in its parts -/
structure Message where
  text : Bytes
  line : Bytes
  fields : List (Bytes × Bytes)
  body : Bytes
  text_eq : text = headText line fields ++ body

/-- its body is what stands behind the first empty line, if line and fields are plain -/
theorem Message.blockHead_text (m : Message) (hl : cr ∉ m.line)
    (hf : ∀ f ∈ m.fields, cr ∉ fieldText f) :
    Frames.blockHead crlf2 m.text = some (headText m.line m.fields, m.body) := by
  rw [m.text_eq]
  exact blockHead_headText hl hf m.body

def message (r : RequestOutgoming) (o : AssocMap.Order Bytes Bytes) (host : Bytes) : Message where
  text := (r.getHttpBody o host).1
  line := r.lineToSend o
  fields := r.fieldsToSend o host
  body := r.bodyToSend o
  text_eq := r.getHttpBody_eq o host

def messages : RequestOutgoming → List Call → List Message
  | _, [] => []
  | r, .getHttpBody o host :: calls =>
    r.message o host :: messages (r.after (.getHttpBody o host)) calls
  | r, q :: calls => messages (r.after q) calls

/-- the text tells the number of bytes behind its first blank line, and says nothing if there are
none -/
def Consistent (text : Bytes) : Prop :=
  ∃ head body, Frames.blockHead crlf2 text = some (head, body) ∧
    ((∃ f ∈ headFields head, isLengthName f.1) ↔ body ≠ []) ∧
    ∀ f ∈ headFields head, isLengthName f.1 → svStrip f.2 = decimal body.length

/-- the fields of the message tell the length of its body -/
structure Message.TellsLength (m : Message) : Prop where
  present : (∃ f ∈ m.fields, isLengthName f.1) ↔ m.body ≠ []
  value : ∀ f ∈ m.fields, isLengthName f.1 → svStrip f.2 = decimal m.body.length

def OneLine (s : Bytes) : Prop := cr ∉ s ∧ lf ∉ s

instance (s : Bytes) : Decidable (OneLine s) := inferInstanceAs (Decidable (_ ∧ _))

/-- a header that makes one line, which shows its name -/
structure OneField (name value : Bytes) : Prop where
  colon : ch ':' ∉ name
  name : OneLine name
  value : OneLine value

/-- what the call sets has no line ends -/
def Call.Unbroken : Call → Prop
  | .setPath v | .setContentType v => OneLine v
  | .addHeader name value => OneField name value
  | .getHttpBody _ host => OneLine host
  | _ => True

/-- no header is added under the name `Content-Length`, in any spelling -/
def Call.Allowed : Call → Prop
  | .addHeader name _ => ¬ isLengthName name
  | _ => True

/-- the bodies that the setters leave to be sent, call by call; `get_http_body` takes no part -/
def bodies : RequestOutgoming → List Call → List Bytes
  | _, [] => []
  | r, .getHttpBody o _ :: calls => r.bodyToSend o :: bodies r calls
  | r, q :: calls => bodies (r.after q) calls

/-- all bodies behind the first one that is not empty have its length -/
def Steady : List Bytes → Prop
  | [] => True
  | b :: bs => if b = [] then Steady bs else ∀ b' ∈ bs, b'.length = b.length

/-! ## the header map -/

/-- the header map holds the length `L` of an earlier body, or no length; both maps agree -/
structure LengthHeader (r : RequestOutgoming) (L : Option Nat) : Prop where
  sync : ∀ n, r.ownHeaders.find? n = r.headers.params.find? n
  length : r.headers.params.find? CONTENT_LENGTH = L.map decimal
  only : ∀ n, isLengthName n → n ≠ CONTENT_LENGTH → r.headers.params.find? n = none
  pos : ∀ l, L = some l → 0 < l

variable {r r' : RequestOutgoming} {L : Option Nat}

theorem isLengthName_contentLength : isLengthName CONTENT_LENGTH := by decide

theorem svStrip_decimal (n : Nat) : svStrip (decimal n) = decimal n := by
  have hblank : ∀ b ∈ decimal n, isBlank b = false := by
    intro b hb
    by_contra h
    have hdigit := isDigit_decimal hb
    rw [not_isDigit_of_isBlank (by simpa using h)] at hdigit
    exact absurd hdigit (by simp)
  exact svStrip_of_not_blank (fun b hb => hblank b (List.mem_of_head? hb))
    fun b hb => hblank b (List.mem_of_getLast? hb)

theorem not_isLengthName_contentType : ¬ isLengthName CONTENT_TYPE := by decide

theorem lengthHeader_new : LengthHeader {} none :=
  ⟨fun _ => rfl, rfl, fun _ _ _ => rfl, fun _ h => absurd h (by simp)⟩

theorem LengthHeader.same (h : LengthHeader r L) (ho : r'.ownHeaders = r.ownHeaders)
    (hv : r'.headers = r.headers) : LengthHeader r' L :=
  ⟨by rw [ho, hv]; exact h.sync, by rw [hv]; exact h.length, by rw [hv]; exact h.only, h.pos⟩

theorem LengthHeader.find?_addHeader (h : LengthHeader r L) (name value n : Bytes) :
    (r.addHeader name value).headers.params.find? n
      = if n = name then some ((r.headers.params.find? name).getD value)
        else r.headers.params.find? n := by
  show (r.headers.params.insertOrAssign name
    (((r.ownHeaders.insert name value).find? name).getD [])).find? n = _
  rw [AssocMap.find?_insertOrAssign, AssocMap.find?_insert, if_pos rfl, Option.getD_some, h.sync]

theorem LengthHeader.sync_addHeader (h : LengthHeader r L) (name value n : Bytes) :
    (r.addHeader name value).ownHeaders.find? n
      = (r.addHeader name value).headers.params.find? n := by
  rw [h.find?_addHeader]
  show (r.ownHeaders.insert name value).find? n = _
  rw [AssocMap.find?_insert, h.sync, h.sync]

theorem LengthHeader.addHeader (h : LengthHeader r L) {name : Bytes} (hn : ¬ isLengthName name)
    (value : Bytes) : LengthHeader (r.addHeader name value) L := by
  refine ⟨h.sync_addHeader name value, ?_, ?_, h.pos⟩
  · have hne : CONTENT_LENGTH ≠ name := fun e => hn (e ▸ isLengthName_contentLength)
    rw [h.find?_addHeader, if_neg hne, h.length]
  · intro n hl hc
    have hne : n ≠ name := fun e => hn (e ▸ hl)
    rw [h.find?_addHeader, if_neg hne, h.only n hl hc]

theorem LengthHeader.addLength (h : LengthHeader r none) {k : Nat} (hk : 0 < k) :
    LengthHeader (r.addHeader CONTENT_LENGTH (decimal k)) (some k) := by
  refine ⟨h.sync_addHeader CONTENT_LENGTH (decimal k), ?_, ?_, ?_⟩
  · rw [h.find?_addHeader, if_pos rfl, h.length]
    rfl
  · intro n hl hc
    rw [h.find?_addHeader, if_neg hc, h.only n hl hc]
  · intro l hl
    rw [Option.some.injEq] at hl
    exact hl ▸ hk

/-- **What `get_http_body` writes back**: the length of a body, unless there is a length already. -/
theorem LengthHeader.addBodyHeaders (h : LengthHeader r L) (data : Bytes) :
    LengthHeader (r.addBodyHeaders data)
      (if data = [] then L else some (L.getD data.length)) := by
  unfold RequestOutgoming.addBodyHeaders
  by_cases hd : data = []
  · rw [if_pos hd, if_pos hd]
    exact h
  · rw [if_neg hd, if_neg hd]
    have hpos : 0 < data.length := List.length_pos_iff.mpr hd
    have key : ∀ {r : RequestOutgoming}, LengthHeader r L →
        LengthHeader (if r.headers.has CONTENT_LENGTH then r
          else r.addHeader CONTENT_LENGTH (decimal data.length)) (some (L.getD data.length)) := by
      intro r hr
      have hhas : r.headers.has CONTENT_LENGTH = L.isSome := by
        show (r.headers.params.find? CONTENT_LENGTH).isSome = _
        rw [hr.length, Option.isSome_map]
      cases L with
      | none =>
        rw [hhas, if_neg (by simp)]
        exact hr.addLength hpos
      | some l =>
        rw [hhas, if_pos (by simp)]
        exact hr
    by_cases ht : r.headers.has CONTENT_TYPE = true
    · simp only [if_pos ht]
      exact key h
    · simp only [if_neg ht]
      exact key (h.addHeader not_isLengthName_contentType _)

theorem LengthHeader.after (h : LengthHeader r L) {q : Call} (hq : q.Allowed)
    (hget : ∀ o host, q ≠ .getHttpBody o host) : LengthHeader (r.after q) L := by
  cases q with
  | setMethod m => exact h.same rfl rfl
  | setPath v => exact h.same rfl rfl
  | setParams name value => exact h.same rfl rfl
  | setPostParams name value => exact h.same rfl rfl
  | setData v => exact h.same rfl rfl
  | setContentType v => exact h.addHeader not_isLengthName_contentType v
  | addHeader name value => exact h.addHeader hq value
  | getHttpBody o host => exact absurd rfl (hget o host)

/-! ## one message -/

theorem decimal_inj {a b : Nat} (h : decimal a = decimal b) : a = b := by
  have hd := congrArg (fun s => Numeral.value 10 (s.map digitVal)) h
  simpa only [value_decimal] using hd

/-- the fields of a message that tell a length are that of the header map -/
theorem mem_fieldsToSend {o : AssocMap.Order Bytes Bytes}
    (h : LengthHeader (r.addBodyHeaders (r.bodyToSend o)) L) (host : Bytes) (f : Bytes × Bytes) :
    f ∈ r.fieldsToSend o host ∧ isLengthName f.1 ↔
      ∃ l, L = some l ∧ f = (CONTENT_LENGTH, decimal l) := by
  have hmem : ∀ n v, (n, v) ∈ o.list (r.addBodyHeaders (r.bodyToSend o)).headers.params ↔
      (r.addBodyHeaders (r.bodyToSend o)).headers.params.find? n = some v := by
    intro n v
    rw [(o.perm _).mem_iff, AssocMap.find?_eq_some_iff]
  have hhost : ¬ isLengthName (str "Host") := by decide
  have hconnection : ¬ isLengthName (str "Connection") := by decide
  obtain ⟨n, v⟩ := f
  constructor
  · rintro ⟨hf, hn⟩
    have hf : (n, v) ∈ o.list (r.addBodyHeaders (r.bodyToSend o)).headers.params := by
      rcases List.mem_cons.mp hf with he | hf
      · rw [show n = str "Host" from congrArg Prod.fst he] at hn
        exact absurd hn hhost
      · rcases List.mem_append.mp hf with hf | hf
        · exact hf
        · rw [show n = str "Connection" from congrArg Prod.fst (List.mem_singleton.mp hf)] at hn
          exact absurd hn hconnection
    rw [hmem] at hf
    by_cases hc : n = CONTENT_LENGTH
    · rw [hc, h.length, Option.map_eq_some_iff] at hf
      obtain ⟨l, hl, rfl⟩ := hf
      exact ⟨l, hl, by rw [hc]⟩
    · rw [h.only n hn hc] at hf
      exact absurd hf (by simp)
  · rintro ⟨l, rfl, he⟩
    rw [Prod.mk.injEq] at he
    obtain ⟨rfl, rfl⟩ := he
    refine ⟨List.mem_cons_of_mem _ (List.mem_append_left _ ?_), isLengthName_contentLength⟩
    rw [hmem, h.length]
    rfl

/-- a message is consistent if its body has the length that the object remembers -/
theorem tellsLength_iff (h : LengthHeader r L) (o : AssocMap.Order Bytes Bytes) (host : Bytes) :
    (r.message o host).TellsLength ↔ ∀ l, L = some l → (r.bodyToSend o).length = l := by
  have hb := h.addBodyHeaders (r.bodyToSend o)
  have hmem := mem_fieldsToSend hb host
  generalize hL' : (if r.bodyToSend o = [] then L else some (L.getD (r.bodyToSend o).length)) = L'
    at hb hmem
  constructor
  · rintro ⟨hpresent, hvalue⟩ l rfl
    have hL : L' = some l := by
      rw [← hL']
      split
      · rfl
      · rfl
    obtain ⟨hf, hn⟩ := (hmem _).mpr ⟨l, hL, rfl⟩
    exact (decimal_inj ((svStrip_decimal l).symm.trans (hvalue _ hf hn))).symm
  · intro hlen
    by_cases hbody : r.bodyToSend o = []
    · have hL : L' = none := by
        rw [← hL', if_pos hbody]
        cases L with
        | none => rfl
        | some l =>
          have h1 := hlen l rfl
          have h2 := h.pos l rfl
          rw [hbody, List.length_nil] at h1
          omega
      have hnone : ∀ f ∈ r.fieldsToSend o host, ¬ isLengthName f.1 := by
        intro f hf hn
        obtain ⟨l, hl, -⟩ := (hmem f).mp ⟨hf, hn⟩
        rw [hL] at hl
        exact absurd hl (by simp)
      refine ⟨⟨?_, fun h => absurd hbody h⟩, fun f hf hn => absurd hn (hnone f hf)⟩
      rintro ⟨f, hf, hn⟩
      exact absurd hn (hnone f hf)
    · have hL : L' = some (r.bodyToSend o).length := by
        rw [← hL', if_neg hbody]
        cases L with
        | none => rfl
        | some l =>
          show some l = _
          rw [hlen l rfl]
      obtain ⟨hf, hn⟩ := (hmem _).mpr ⟨_, hL, rfl⟩
      refine ⟨⟨fun _ => hbody, fun _ => ⟨_, hf, hn⟩⟩, fun f hf hn => ?_⟩
      obtain ⟨l, hl, he⟩ := (hmem f).mp ⟨hf, hn⟩
      rw [hL, Option.some.injEq] at hl
      rw [he, ← hl]
      exact svStrip_decimal _

/-! ## one text -/

/-- the path and the headers of the object have no line ends -/
structure Unbroken (r : RequestOutgoming) : Prop where
  path : OneLine r.path
  fields : ∀ n v, r.headers.params.find? n = some v → OneField n v

theorem unbroken_new : Unbroken {} :=
  ⟨⟨List.not_mem_nil, List.not_mem_nil⟩, fun n v h => absurd h (by show none ≠ some v; simp)⟩

theorem Unbroken.addHeader (hu : Unbroken r) (h : LengthHeader r L) {name value : Bytes}
    (hf : OneField name value) : Unbroken (r.addHeader name value) := by
  refine ⟨hu.path, fun n v hv => ?_⟩
  rw [h.find?_addHeader] at hv
  split at hv
  · next hn =>
    rw [Option.some.injEq] at hv
    cases hold : r.headers.params.find? name with
    | none =>
      rw [hold, Option.getD_none] at hv
      rw [hn, ← hv]
      exact hf
    | some old =>
      rw [hold, Option.getD_some] at hv
      rw [hn, ← hv]
      exact hu.fields _ _ hold
  · exact hu.fields n v hv

theorem oneLine_decimal (n : Nat) : OneLine (decimal n) :=
  ⟨not_mem_decimal (by decide), not_mem_decimal (by decide)⟩

theorem Unbroken.addBodyHeaders (hu : Unbroken r) (h : LengthHeader r L) (data : Bytes) :
    Unbroken (r.addBodyHeaders data) := by
  have hlength : ∀ {r : RequestOutgoming}, Unbroken r → LengthHeader r L →
      Unbroken (if r.headers.has CONTENT_LENGTH then r
        else r.addHeader CONTENT_LENGTH (decimal data.length)) := by
    intro r hu h
    split
    · exact hu
    · exact hu.addHeader h ⟨by decide, by decide, oneLine_decimal _⟩
  have htype : ∀ value, OneLine value → Unbroken (r.addHeader CONTENT_TYPE value) := fun _ hv =>
    hu.addHeader h ⟨by decide, by decide, hv⟩
  unfold RequestOutgoming.addBodyHeaders
  split
  · exact hu
  · split
    · exact hlength hu h
    · next hnone =>
      refine hlength (htype _ ?_) (h.addHeader not_isLengthName_contentType _)
      split
      · have hget : r.headers.get CONTENT_TYPE = [] := by
          show (r.headers.params.find? CONTENT_TYPE).getD [] = []
          have hnone : ¬ (r.headers.params.find? CONTENT_TYPE).isSome = true := hnone
          rw [Option.not_isSome_iff_eq_none.mp hnone]
          rfl
        rw [hget]
        exact ⟨List.not_mem_nil, List.not_mem_nil⟩
      · decide

theorem Unbroken.after (hu : Unbroken r) (h : LengthHeader r L) {q : Call} (hq : q.Unbroken) :
    Unbroken (r.after q) := by
  cases q with
  | setPath v => exact ⟨hq, hu.fields⟩
  | setContentType v => exact hu.addHeader h ⟨by decide, by decide, hq⟩
  | addHeader name value => exact hu.addHeader h hq
  | getHttpBody o host => exact hu.addBodyHeaders h _
  | _ => exact ⟨hu.path, hu.fields⟩

theorem Unbroken.mem_fieldsToSend (hu : Unbroken r) (h : LengthHeader r L)
    (o : AssocMap.Order Bytes Bytes) {host : Bytes} (hhost : OneLine host) :
    ∀ f ∈ r.fieldsToSend o host, OneField f.1 f.2 := by
  intro f hf
  have hname : ch ':' ∉ str "Host" ∧ OneLine (str "Host") := by decide
  rcases List.mem_cons.mp hf with rfl | hf
  · exact ⟨hname.1, hname.2, hhost⟩
  · rcases List.mem_append.mp hf with hf | hf
    · rw [(o.perm _).mem_iff] at hf
      exact (hu.addBodyHeaders h _).fields f.1 f.2 (AssocMap.find?_eq_some_iff.mpr hf)
    · rw [List.mem_singleton.mp hf]
      exact ⟨by decide, by decide, by decide⟩

theorem Unbroken.lineToSend (hu : Unbroken r) (o : AssocMap.Order Bytes Bytes) :
    OneLine (r.lineToSend o) := by
  have hb := blanks_not_mem_encodeByte
  have key : ∀ d : UInt8, d ∉ methodToStr r.method → d ≠ sp → d ∉ str "HTTP/1.1" →
      d ∉ r.targetToSend o → d ∉ r.lineToSend o := by
    intro d hm hsp hv ht
    simp only [RequestOutgoming.lineToSend, sentLine, List.mem_append, List.mem_cons, not_or]
    exact ⟨hm, hsp, ht, hsp, hv⟩
  have hmethod : cr ∉ methodToStr r.method ∧ lf ∉ methodToStr r.method := by
    cases r.method <;> decide
  exact ⟨key cr hmethod.1 (by decide) (by decide)
      (r.not_mem_targetToSend o (fun c => (hb c).2.1) (by decide) hu.path.1),
    key lf hmethod.2 (by decide) (by decide)
      (r.not_mem_targetToSend o (fun c => (hb c).2.2) (by decide) hu.path.2)⟩

/-- **A text tells the length of its body if its fields do**, where nothing breaks its lines. -/
theorem consistent_text_iff (m : Message) (hline : OneLine m.line)
    (hfields : ∀ f ∈ m.fields, OneField f.1 f.2) : Consistent m.text ↔ m.TellsLength := by
  have hnot : ∀ d : UInt8, d ∉ str ": " → ∀ f ∈ m.fields, d ∉ f.1 → d ∉ f.2 → d ∉ fieldText f := by
    intro d hd f _ h1 h2
    simp only [fieldText, List.mem_append, not_or]
    exact ⟨⟨h1, hd⟩, h2⟩
  have hcr : ∀ f ∈ m.fields, cr ∉ fieldText f := fun f hf =>
    hnot cr (by decide) f hf (hfields f hf).name.1 (hfields f hf).value.1
  have hlf : ∀ f ∈ m.fields, lf ∉ fieldText f := fun f hf =>
    hnot lf (by decide) f hf (hfields f hf).name.2 (hfields f hf).value.2
  have hhead : headFields (headText m.line m.fields) = m.fields.map fun f => (f.1, sp :: f.2) :=
    headFields_headText hline.2 hlf fun f hf => (hfields f hf).colon
  have hblock := m.blockHead_text hline.1 hcr
  have hiff : Consistent m.text ↔
      ((∃ f ∈ headFields (headText m.line m.fields), isLengthName f.1) ↔ m.body ≠ []) ∧
        ∀ f ∈ headFields (headText m.line m.fields), isLengthName f.1 →
          svStrip f.2 = decimal m.body.length := by
    constructor
    · rintro ⟨head, body, hb, h⟩
      rw [hblock, Option.some.injEq, Prod.mk.injEq] at hb
      rw [hb.1, hb.2]
      exact h
    · exact fun h => ⟨_, _, hblock, h⟩
  have hblank : ∀ s, svStrip (sp :: s) = svStrip s := svStrip_cons_blank (by decide)
  rw [hiff, hhead, List.forall_mem_map]
  simp only [List.mem_map, exists_exists_and_eq_and, hblank]
  exact ⟨fun h => ⟨h.1, h.2⟩, fun h => ⟨h.present, h.value⟩⟩

/-! ## all messages -/

/-- two objects with the same body to send -/
structure SameBody (r r' : RequestOutgoming) : Prop where
  data : r.postData = r'.postData
  own : r.ownPostParams = r'.ownPostParams
  view : r.postDataParams = r'.postDataParams

theorem SameBody.bodyToSend (h : SameBody r r') (o : AssocMap.Order Bytes Bytes) :
    r.bodyToSend o = r'.bodyToSend o := by
  unfold RequestOutgoming.bodyToSend
  rw [h.data, h.own, h.view]

theorem SameBody.getHttpBody (h : SameBody r r') (o : AssocMap.Order Bytes Bytes) (host : Bytes) :
    SameBody (r.after (.getHttpBody o host)) r' := by
  obtain ⟨own, view, he⟩ := addBodyHeaders_frame r (r.bodyToSend o)
  have e : r.after (.getHttpBody o host) = { r with ownHeaders := own, headers := view } := he
  rw [e]
  exact ⟨h.data, h.own, h.view⟩

theorem SameBody.after (h : SameBody r r') {q : Call} (hget : ∀ o host, q ≠ .getHttpBody o host) :
    SameBody (r.after q) (r'.after q) := by
  cases q with
  | setPostParams name value =>
    refine ⟨h.data, ?_, ?_⟩
    · show r.ownPostParams.insertOrAssign name value = r'.ownPostParams.insertOrAssign name value
      rw [h.own]
    · show r.postDataParams.set name value = r'.postDataParams.set name value
      rw [h.view]
  | setData v => exact ⟨rfl, h.own, h.view⟩
  | getHttpBody o host => exact absurd rfl (hget o host)
  | _ => exact ⟨h.data, h.own, h.view⟩

/-- the bodies that the messages carry are those that the setters left -/
theorem messages_body (h : SameBody r r') (calls : List Call) :
    (messages r calls).map Message.body = bodies r' calls := by
  induction calls generalizing r r' with
  | nil => rfl
  | cons q calls ih =>
    cases q with
    | getHttpBody o host =>
      show r.bodyToSend o :: (messages (r.after (.getHttpBody o host)) calls).map Message.body
        = r'.bodyToSend o :: bodies r' calls
      rw [h.bodyToSend o, ih (h.getHttpBody o host)]
    | _ => exact ih (h.after fun _ _ => by simp)

/-- `Steady`, behind a body of length `L` -/
def SteadyBehind : Option Nat → List Bytes → Prop
  | none, bs => Steady bs
  | some l, bs => ∀ b ∈ bs, b.length = l

theorem steadyBehind_cons (L : Option Nat) (hpos : ∀ l, L = some l → 0 < l) (b : Bytes)
    (bs : List Bytes) : SteadyBehind L (b :: bs) ↔
      (∀ l, L = some l → b.length = l) ∧
        SteadyBehind (if b = [] then L else some (L.getD b.length)) bs := by
  cases L with
  | none =>
    show (if b = [] then Steady bs else ∀ b' ∈ bs, b'.length = b.length) ↔ _
    by_cases hb : b = []
    · rw [if_pos hb, if_pos hb]
      exact ⟨fun h => ⟨fun _ hl => absurd hl (by simp), h⟩, fun h => h.2⟩
    · rw [if_neg hb, if_neg hb]
      exact ⟨fun h => ⟨fun _ hl => absurd hl (by simp), h⟩, fun h => h.2⟩
  | some l =>
    have he : (if b = [] then some l else some ((some l).getD b.length)) = some l := by
      split
      · rfl
      · rfl
    rw [he]
    show (∀ b' ∈ b :: bs, b'.length = l) ↔ _ ∧ ∀ b' ∈ bs, b'.length = l
    rw [List.forall_mem_cons]
    refine and_congr ⟨fun h l' hl' => ?_, fun h => h l rfl⟩ Iff.rfl
    rw [Option.some.injEq] at hl'
    exact hl' ▸ h

theorem messages_consistent (h : LengthHeader r L) (hu : Unbroken r) (calls : List Call)
    (hq : ∀ q ∈ calls, q.Allowed ∧ q.Unbroken) :
    (∀ m ∈ messages r calls, Consistent m.text) ↔
      SteadyBehind L ((messages r calls).map Message.body) := by
  induction calls generalizing r L with
  | nil =>
    refine iff_of_true (fun m hm => absurd hm List.not_mem_nil) ?_
    cases L with
    | none => trivial
    | some l => exact fun b hb => absurd hb List.not_mem_nil
  | cons q calls ih =>
    have hq' : ∀ q ∈ calls, q.Allowed ∧ q.Unbroken := fun q hm => hq q (List.mem_cons_of_mem _ hm)
    obtain ⟨hallowed, hunbroken⟩ := hq q List.mem_cons_self
    have hu' := hu.after h hunbroken
    cases q with
    | getHttpBody o host =>
      have hb := h.addBodyHeaders (r.bodyToSend o)
      have htext : Consistent (r.message o host).text ↔ (r.message o host).TellsLength :=
        consistent_text_iff _ (hu.lineToSend o) (hu.mem_fieldsToSend h o hunbroken)
      show (∀ m ∈ r.message o host :: messages (r.after (.getHttpBody o host)) calls,
        Consistent m.text) ↔ SteadyBehind L (r.bodyToSend o
          :: (messages (r.after (.getHttpBody o host)) calls).map Message.body)
      rw [List.forall_mem_cons, htext, tellsLength_iff h, steadyBehind_cons L h.pos]
      exact and_congr Iff.rfl
        (ih (show LengthHeader (r.after (.getHttpBody o host)) _ from hb) hu' hq')
    | _ => exact ih (h.after hallowed fun _ _ => by simp) hu' hq'

/-- **The texts of one object tell the lengths of their bodies** if and only if the bodies behind
the first one that is not empty all have its length, where no line ends were set. -/
theorem messages_consistent_iff (calls : List Call) (hq : ∀ q ∈ calls, q.Allowed ∧ q.Unbroken) :
    (∀ m ∈ messages {} calls, Consistent m.text) ↔ Steady (bodies {} calls) := by
  have hb : (messages {} calls).map Message.body = bodies {} calls :=
    messages_body ⟨rfl, rfl, rfl⟩ calls
  have h := messages_consistent lengthHeader_new unbroken_new calls hq
  rw [hb] at h
  exact h

/-- a form that is sent twice, with another header the second time -/
def sentTwice : List Call :=
  [.setMethod .post, .setPath (str "/a"), .setPostParams (str "k") (str "v"),
    .getHttpBody .inserted (str "h"), .addHeader (str "X-Retry") (str "1"),
    .getHttpBody .inserted (str "h")]

theorem messages_consistent_iff_twice :
    (messages {} sentTwice).length = 2 ∧
      ((∀ m ∈ messages {} sentTwice, Consistent m.text) ↔ Steady (bodies {} sentTwice)) := by
  refine ⟨by decide +kernel, messages_consistent_iff sentTwice fun q hq => ?_⟩
  have hhost : OneLine (str "h") := by decide
  have hpath : OneLine (str "/a") := by decide
  have hfield : OneField (str "X-Retry") (str "1") := ⟨by decide, by decide, by decide⟩
  have hname : ¬ isLengthName (str "X-Retry") := by decide
  simp only [sentTwice, List.mem_cons, List.not_mem_nil, or_false] at hq
  rcases hq with rfl | rfl | rfl | rfl | rfl | rfl
  case inr.inl => exact ⟨trivial, hpath⟩
  case inr.inr.inr.inl => exact ⟨trivial, hhost⟩
  case inr.inr.inr.inr.inl => exact ⟨hname, hfield⟩
  case inr.inr.inr.inr.inr => exact ⟨trivial, hhost⟩
  all_goals exact ⟨trivial, trivial⟩

/-- an object that is sent again with a shorter body -/
def dataReplaced : List Call :=
  [.setData (str "hello"), .getHttpBody .inserted (str "h"), .setData (str "hi"),
    .getHttpBody .inserted (str "h")]

/-- what it sends the second time -/
def replacedHead : Bytes :=
  str "GET  HTTP/1.1\r\nHost: h\r\nContent-Type: \r\nContent-Length: 5\r\n"
    ++ str "Connection: close\r\n\r\n"

/-- the second text ends with a body of two bytes and announces five -/
theorem data_replaced_inconsistent :
    (∀ q ∈ dataReplaced, q.Allowed ∧ q.Unbroken) ∧ ∃ m ∈ messages {} dataReplaced,
      m.text = replacedHead ++ str "hi" ∧ ¬ Consistent m.text := by
  have hm : ((messages {} dataReplaced).any fun m => m.text = replacedHead ++ str "hi") = true := by
    decide +kernel
  obtain ⟨m, hmem, hm⟩ := List.any_eq_true.mp hm
  have htext := of_decide_eq_true hm
  refine ⟨fun q hq => ?_, m, hmem, htext, ?_⟩
  · have hhost : OneLine (str "h") := by decide
    simp only [dataReplaced, List.mem_cons, List.not_mem_nil, or_false] at hq
    rcases hq with rfl | rfl | rfl | rfl
    case inr.inl => exact ⟨trivial, hhost⟩
    case inr.inr.inr => exact ⟨trivial, hhost⟩
    all_goals exact ⟨trivial, trivial⟩
  · rw [htext]
    rintro ⟨head, body, hb, -, hvalue⟩
    have hblock : Frames.blockHead crlf2 (replacedHead ++ str "hi")
        = some (replacedHead, str "hi") := by decide +kernel
    rw [hblock, Option.some.injEq, Prod.mk.injEq] at hb
    obtain ⟨rfl, rfl⟩ := hb
    have hfield : (CONTENT_LENGTH, sp :: str "5") ∈ headFields replacedHead := by decide +kernel
    exact absurd (hvalue _ hfield isLengthName_contentLength) (by decide +kernel)

end RequestOutgoming
end ServerHttpLib
