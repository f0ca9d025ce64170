import ServerHttpLib.Client.ResponseRoundTrip
import ServerHttpLib.Session.LengthView
import ServerHttpLib.Session.RoundTrip

/-!
# A response that is encoded more than once

`get_http_header` pushes a `Content-Length` header onto the list of the response it is called on,
and writes the list.  The header stays for the next call, with the size of the body at the earlier
one.

* `lengthLines_encoded`   the length lines of an encoding, of headers that are read back as written;
* `reuse_iff`             every encoding has the one line for its own body, and leaves the headers
                          as they were, exactly if nothing is encoded; the lines alone are right
                          exactly up to the first encoding.
-/

namespace ServerHttpLib
open Cutting

/-- what is done with a response; `body` is a public member -/
inductive ResponseCall where
  | addHeader (name value : Bytes)
  | assignBody (body : Bytes)
  | getHttpHeader (keepAlive : Bool) (keepAliveTimeout : Nat)
  deriving DecidableEq

/-- one call of `get_http_header`: the response before and behind it, and the text -/
structure Encoding where
  before : Response
  text : Bytes
  after : Response

/-- the calls of `get_http_header` in a sequence of calls -/
def encodings : Response → List ResponseCall → List Encoding
  | _, [] => []
  | r, .addHeader name value :: calls => encodings (r.addHeader name value) calls
  | r, .assignBody body :: calls => encodings { r with body := body } calls
  | r, .getHttpHeader keepAlive keepAliveTimeout :: calls =>
    let e := r.getHttpHeader keepAlive keepAliveTimeout
    ⟨r, e.1, e.2⟩ :: encodings e.2 calls

def ResponseCall.encodes : ResponseCall → Bool
  | .getHttpHeader _ _ => true
  | _ => false

def encodingCount (calls : List ResponseCall) : Nat := calls.countP ResponseCall.encodes

theorem encodingCount_getHttpHeader (keepAlive : Bool) (keepAliveTimeout : Nat)
    (calls : List ResponseCall) :
    encodingCount (.getHttpHeader keepAlive keepAliveTimeout :: calls) = encodingCount calls + 1 :=
  List.countP_cons_of_pos rfl

/-- a header that is read back as written, and is not a length in another spelling than the one
that `add_header` drops -/
def ResponseCall.Plain : ResponseCall → Prop
  | .addHeader name value => PlainField (name, value) ∧
      (isLengthName name → name = str "Content-Length")
  | _ => True

/-- the only length line is that of the body -/
def Encoding.LengthOnce (e : Encoding) : Prop :=
  (fieldLines e.text).filter isLengthLine = [fieldText (lengthField e.before.body.length)]

/-- the call leaves the headers of the response as they were -/
def Encoding.KeepsHeaders (e : Encoding) : Prop := e.after.headers = e.before.headers

/-! ## the length lines of an encoding -/

/-- the headers of a response that are lengths -/
def lengthHeaders (r : Response) : List (Bytes × Bytes) :=
  r.headers.filter fun f => isLengthName f.1

theorem isLengthLine_fieldText {f : Bytes × Bytes} (hf : ch ':' ∉ f.1) :
    isLengthLine (fieldText f) = decide (isLengthName f.1) := by
  rw [Bool.eq_iff_iff, isLengthLine_iff, decide_eq_true_eq, cut_fieldText hf]
  constructor
  · rintro ⟨g, hg, hn⟩
    rw [Option.some.injEq] at hg
    rwa [← hg] at hn
  · exact fun h => ⟨_, rfl, h⟩

theorem plainField_decimal (name pre : Bytes) (hname : name ≠ [] ∧ ch ':' ∉ name)
    (hcr : cr ∉ name ++ pre) (hlf : lf ∉ name ++ pre) (n : Nat) :
    PlainField (name, pre ++ decimal n) := by
  rw [List.mem_append, not_or] at hcr hlf
  exact ⟨hname.1, hname.2, hcr.1, hlf.1, not_mem_append_decimal hcr.2 (by decide) n,
    not_mem_append_decimal hlf.2 (by decide) n⟩

theorem plain_lengthField (n : Nat) : PlainField (lengthField n) :=
  plainField_decimal (str "Content-Length") [] (by decide) (by decide) (by decide) n

theorem filter_lengthField (n : Nat) (fs : List (Bytes × Bytes)) :
    (lengthField n :: fs).filter (fun f => isLengthName f.1)
      = lengthField n :: fs.filter fun f => isLengthName f.1 := by
  have hname : isLengthName (str "Content-Length") := by decide
  exact List.filter_cons_of_pos (decide_eq_true hname)

theorem plain_connectionFields (keepAlive : Bool) (keepAliveTimeout : Nat) :
    ∀ f ∈ connectionFields keepAlive keepAliveTimeout, PlainField f ∧ ¬ isLengthName f.1 := by
  have hname : ¬ isLengthName (str "Connection") ∧ ¬ isLengthName (str "Keep-Alive") := by decide
  have hclose : PlainField (str "Connection", str "close") := by constructor <;> decide
  have hkeep : PlainField (str "Connection", str "keep-alive") := by constructor <;> decide
  have htime := plainField_decimal (str "Keep-Alive") (str "timeout=") (by decide) (by decide)
    (by decide) keepAliveTimeout
  intro f hf
  rcases mem_connectionFields hf with rfl | rfl | rfl
  · exact ⟨hclose, hname.1⟩
  · exact ⟨hkeep, hname.1⟩
  · exact ⟨htime, hname.2⟩

theorem lf_statusLine (code : Int) : lf ∉ statusLine code := by
  have hdecimal : lf ∉ decimalInt code := not_mem_decimalInt (by decide) (by decide)
  simp only [statusLine, List.mem_append, not_or]
  exact ⟨⟨by decide, hdecimal⟩, by decide⟩

/-- **The length lines** are those of the headers that earlier calls have left, and the new one. -/
theorem lengthLines_encoded {r : Response} (hr : ∀ f ∈ r.headers, PlainField f) (keepAlive : Bool)
    (keepAliveTimeout : Nat) :
    (fieldLines (r.getHttpHeader keepAlive keepAliveTimeout).1).filter isLengthLine
      = (lengthHeaders r).map fieldText ++ [fieldText (lengthField r.body.length)] := by
  have hconn := plain_connectionFields keepAlive keepAliveTimeout
  have hplain : ∀ f ∈ r.headers ++ lengthField r.body.length
      :: connectionFields keepAlive keepAliveTimeout, PlainField f := by
    intro f hf
    rw [List.mem_append, List.mem_cons] at hf
    rcases hf with hf | rfl | hf
    · exact hr f hf
    · exact plain_lengthField _
    · exact (hconn f hf).1
  have hlines : ∀ fs : List (Bytes × Bytes), (∀ f ∈ fs, PlainField f) →
      (fs.map fieldText).filter isLengthLine
        = (fs.filter fun f => isLengthName f.1).map fieldText := by
    intro fs hfs
    rw [List.filter_map]
    exact congrArg _ (List.filter_congr fun f hf => isLengthLine_fieldText (hfs f hf).colon)
  have hnone : (connectionFields keepAlive keepAliveTimeout).filter (fun f => isLengthName f.1)
      = [] := List.filter_eq_nil_iff.mpr fun f hf => by simpa using (hconn f hf).2
  rw [getHttpHeader_eq, fieldLines_headText (lf_statusLine r.code) hplain, List.filter_append,
    hlines _ hplain, List.filter_append, filter_lengthField, hnone, List.map_append,
    List.map_singleton]
  exact List.append_nil _

/-! ## sequences of calls -/

theorem lengthHeaders_addHeader {name value : Bytes} {r : Response}
    (h : ResponseCall.Plain (.addHeader name value)) :
    lengthHeaders (r.addHeader name value) = lengthHeaders r := by
  unfold Response.addHeader lengthHeaders
  by_cases hn : name = str "Content-Length"
  · rw [if_pos hn]
  · have hnot : ¬ isLengthName name := fun hl => hn (h.2 hl)
    rw [if_neg hn]
    show (r.headers ++ [(name, value)]).filter _ = _
    rw [List.filter_append, List.filter_cons_of_neg (by simpa using hnot), List.filter_nil,
      List.append_nil]

theorem plain_addHeader {name value : Bytes} {r : Response} (hr : ∀ f ∈ r.headers, PlainField f)
    (h : ResponseCall.Plain (.addHeader name value)) :
    ∀ f ∈ (r.addHeader name value).headers, PlainField f := by
  unfold Response.addHeader
  split
  · exact hr
  · intro f hf
    rw [List.mem_append, List.mem_singleton] at hf
    rcases hf with hf | rfl
    · exact hr f hf
    · exact h.1

/-- along a run: each encoding leaves one more length behind -/
theorem lengthOnce_iff (calls : List ResponseCall) (r : Response)
    (hr : ∀ f ∈ r.headers, PlainField f) (hc : ∀ q ∈ calls, q.Plain) :
    (∀ e ∈ encodings r calls, e.LengthOnce) ↔
      encodingCount calls = 0 ∨ (lengthHeaders r).length + encodingCount calls ≤ 1 := by
  induction calls generalizing r with
  | nil => exact ⟨fun _ => .inl rfl, fun _ _ he => absurd he List.not_mem_nil⟩
  | cons q calls ih =>
    have hrest : ∀ q ∈ calls, q.Plain := fun q hq => hc q (List.mem_cons_of_mem _ hq)
    have hq := hc q List.mem_cons_self
    cases q with
    | addHeader name value =>
      have hstep := ih (r.addHeader name value) (plain_addHeader hr hq) hrest
      rw [lengthHeaders_addHeader hq] at hstep
      exact hstep
    | assignBody body => exact ih { r with body := body } hr hrest
    | getHttpHeader keepAlive keepAliveTimeout =>
      have hnew : ∀ f ∈ (r.getHttpHeader keepAlive keepAliveTimeout).2.headers, PlainField f := by
        intro f hf
        rcases List.mem_append.mp hf with hf | hf
        · exact hr f hf
        · rw [List.mem_singleton.mp hf]
          exact plain_lengthField _
      have hcount : (lengthHeaders (r.getHttpHeader keepAlive keepAliveTimeout).2).length
          = (lengthHeaders r).length + 1 := by
        show ((r.headers ++ [lengthField r.body.length]).filter _).length = _
        rw [List.filter_append, filter_lengthField, List.length_append]
        rfl
      have hfirst : Encoding.LengthOnce ⟨r, (r.getHttpHeader keepAlive keepAliveTimeout).1,
          (r.getHttpHeader keepAlive keepAliveTimeout).2⟩ ↔ (lengthHeaders r).length = 0 := by
        rw [Encoding.LengthOnce, lengthLines_encoded hr, List.append_eq_singleton_iff]
        simp [List.length_eq_zero_iff]
      rw [encodings, List.forall_mem_cons, hfirst, ih _ hnew hrest, hcount,
        encodingCount_getHttpHeader]
      omega

theorem encodings_eq_nil_iff (calls : List ResponseCall) (r : Response) :
    (∀ e ∈ encodings r calls, e.KeepsHeaders) ↔ encodingCount calls = 0 := by
  induction calls generalizing r with
  | nil => exact ⟨fun _ => rfl, fun _ _ he => absurd he List.not_mem_nil⟩
  | cons q calls ih =>
    cases q with
    | addHeader name value => exact ih (r.addHeader name value)
    | assignBody body => exact ih { r with body := body }
    | getHttpHeader keepAlive keepAliveTimeout =>
      constructor
      · intro h
        have hfirst := h _ List.mem_cons_self
        have hlen := congrArg List.length hfirst
        simp [Response.getHttpHeader] at hlen
      · intro h
        rw [encodingCount_getHttpHeader] at h
        omega

/-- **A response is good for one encoding.**  In a sequence of calls every encoding has one length
line, that of the body, and leaves the headers as they were, exactly if there is no encoding.  The
lines alone, for plain headers, are right exactly if there is one encoding at most. -/
theorem reuse_iff (code : Int) (body : Bytes) (calls : List ResponseCall) :
    ((∀ e ∈ encodings ⟨code, body, []⟩ calls, e.LengthOnce ∧ e.KeepsHeaders) ↔
      encodingCount calls = 0) ∧
    ((∀ q ∈ calls, q.Plain) →
      ((∀ e ∈ encodings ⟨code, body, []⟩ calls, e.LengthOnce) ↔ encodingCount calls ≤ 1)) := by
  constructor
  · constructor
    · exact fun h => (encodings_eq_nil_iff calls _).mp fun e he => (h e he).2
    · intro h
      have hnil : ∀ r, encodings r calls = [] := by
        induction calls with
        | nil => exact fun _ => rfl
        | cons q calls ih =>
          cases q with
          | addHeader name value => exact fun r => ih h _
          | assignBody body => exact fun r => ih h _
          | getHttpHeader keepAlive keepAliveTimeout =>
            rw [encodingCount_getHttpHeader] at h
            omega
      intro e he
      rw [hnil] at he
      exact absurd he List.not_mem_nil
  · intro hc
    rw [lengthOnce_iff calls ⟨code, body, []⟩ (fun f hf => absurd hf List.not_mem_nil) hc]
    show _ ∨ 0 + _ ≤ 1 ↔ _
    omega

/-- the second encoding, behind a new body, has the length of the first one too -/
theorem reused_response :
    let calls := [.getHttpHeader false 0, .assignBody (str "longer"), .getHttpHeader false 0]
    ((encodings ⟨200, str "Ok", []⟩ calls).map fun e => (fieldLines e.text).filter isLengthLine)
      = [[str "Content-Length: 2"], [str "Content-Length: 2", str "Content-Length: 6"]] ∧
    ¬ ∀ e ∈ encodings ⟨200, str "Ok", []⟩ calls, e.LengthOnce ∧ e.KeepsHeaders := by
  refine ⟨by decide +kernel, fun h => ?_⟩
  exact absurd ((encodings_eq_nil_iff _ _).mp fun e he => (h e he).2) (by decide)

end ServerHttpLib
