import ServerHttpLib.Session.Framing

/-!
# What the session writes

The writes of a session, for any order in which its operations complete: for each request in turn
an interim response if its header block expects one, and one response.  `exchanges` says so, for a
list of requests and the application behind the handlers; a session that has scanned a header block
and waits for its body has started the interim response of that block too (`Talk`).

Nothing is assumed about the header blocks.  Where the sum of head and body length wraps, the copy
of the body throws and the session ends (`Crashed`).

* `tryParse_talk`      what one call of `try_parse_and_handle` adds;
* `run_settled`        the invariant of every run;
* `writes_in_order`    one operation at a time, and the writes in order.
-/

namespace ServerHttpLib
open Cutting Frames Conn

variable {σ : Type}

/-! ## the conversation -/

def Action.isWrite : Action → Bool
  | .writeInterim | .writeResponse _ _ => true
  | _ => false

def Conn.writes (c : Conn σ) : List Action := c.trace.filter Action.isWrite

/-- the header block that was scanned and whose request is not dispatched yet -/
def Conn.currentHead (c : Conn σ) : Option Bytes :=
  if c.s.haveHeaders then some (c.s.pending.take c.s.headersLen) else none

/-- the interim response to a header block, if one of its lines expects it -/
def interimFor (head : Bytes) : List Action := if refExpect head then [.writeInterim] else []

/-- the request object for a header block and a body -/
def requestOf (ip : Bytes) (r : Bytes × Bytes) : RequestIncoming :=
  ((RequestIncoming.new r.1).setUserIp ip).setData r.2

/-- the response to one request, and the application behind it -/
def replyTo (srv : Server σ) (ip : Bytes) (r : Bytes × Bytes) (w : σ) : Action × σ :=
  let a := respond srv (requestOf ip r) w
  (.writeResponse (a.1.getHttpHeader (keepsAlive (requestOf ip r)) 10).1 a.1.body, a.2)

/-- what is written for a list of requests, and the application behind the last of them -/
def exchanges (srv : Server σ) (ip : Bytes) : List (Bytes × Bytes) → σ → List Action × σ
  | [], w => ([], w)
  | r :: rs, w =>
    let a := replyTo srv ip r w
    let e := exchanges srv ip rs a.2
    (interimFor r.1 ++ a.1 :: e.1, e.2)

theorem exchanges_snoc (srv : Server σ) (ip : Bytes) (rs : List (Bytes × Bytes))
    (r : Bytes × Bytes) (w : σ) : exchanges srv ip (rs ++ [r]) w
      = ((exchanges srv ip rs w).1 ++ interimFor r.1
          ++ [(replyTo srv ip r (exchanges srv ip rs w).2).1],
        (replyTo srv ip r (exchanges srv ip rs w).2).2) := by
  induction rs generalizing w with
  | nil => rfl
  | cons r' rs ih =>
    show (interimFor r'.1 ++ _ :: (exchanges srv ip (rs ++ [r]) (replyTo srv ip r' w).2).1,
      (exchanges srv ip (rs ++ [r]) (replyTo srv ip r' w).2).2) = _
    rw [ih]
    simp only [exchanges, List.append_assoc, List.cons_append]

/-- the session has said what it had to, so far -/
structure Talk (srv : Server σ) (ip : Bytes) (w : σ) (c : Conn σ) : Prop where
  clientIP : c.s.clientIP = ip
  timeout : c.s.keepAliveTimeout = 10
  keepAlive : ∀ r, c.dispatched.getLast? = some r → c.s.keepAlive = keepsAlive (requestOf ip r)
  world : c.world = (exchanges srv ip c.dispatched w).2
  writes : c.writes
    = (exchanges srv ip c.dispatched w).1 ++ c.currentHead.toList.flatMap interimFor
  flight : Op.response ∈ c.outstanding →
    c.writes.getLast? = some (.writeResponse c.s.httpHeader c.s.httpBody)

/-- nothing was said between two states -/
structure Silent (c c' : Conn σ) : Prop where
  clientIP : c'.s.clientIP = c.s.clientIP
  timeout : c'.s.keepAliveTimeout = c.s.keepAliveTimeout
  keepAlive : c'.s.keepAlive = c.s.keepAlive
  world : c'.world = c.world
  dispatched : c'.dispatched = c.dispatched
  writes : c'.writes = c.writes
  currentHead : c'.currentHead = c.currentHead

variable {srv : Server σ} {ip : Bytes} {w : σ} {rcv : Bytes} {len : Bytes → Nat} {c c' : Conn σ}

theorem Silent.talk (hs : Silent c c') (ht : Talk srv ip w c)
    (hn : Op.response ∉ c'.outstanding) : Talk srv ip w c' where
  clientIP := hs.clientIP.trans ht.clientIP
  timeout := hs.timeout.trans ht.timeout
  keepAlive := by
    intro r hr
    rw [hs.dispatched] at hr
    exact hs.keepAlive.trans (ht.keepAlive r hr)
  world := by rw [hs.world, hs.dispatched, ht.world]
  writes := by rw [hs.writes, hs.dispatched, hs.currentHead, ht.writes]
  flight := fun h => absurd h hn

theorem Silent.trans {c'' : Conn σ} (h : Silent c c') (h' : Silent c' c'') : Silent c c'' :=
  ⟨h'.clientIP.trans h.clientIP, h'.timeout.trans h.timeout, h'.keepAlive.trans h.keepAlive,
    h'.world.trans h.world, h'.dispatched.trans h.dispatched, h'.writes.trans h.writes,
    h'.currentHead.trans h.currentHead⟩

theorem writes_emit {a : Action} (ha : a.isWrite = false) (c : Conn σ) :
    (c.emit a).writes = c.writes := by
  unfold writes emit
  rw [List.filter_append, List.filter_cons_of_neg (by simp [ha]), List.filter_nil,
    List.append_nil]

theorem silent_emit {a : Action} (ha : a.isWrite = false) (hd : ∀ h b, a ≠ .dispatch h b)
    (c : Conn σ) : Silent c (c.emit a) :=
  ⟨rfl, rfl, rfl, rfl, dispatched_emit c a hd, writes_emit ha c, rfl⟩

theorem silent_complete (op : Op) (c : Conn σ) : Silent c (c.complete op) :=
  ⟨rfl, rfl, rfl, rfl, rfl, rfl, rfl⟩

/-! ## the current header block -/

theorem Core.currentHead_eq (hc : Core len rcv c) {h r : Bytes}
    (hs : blockHead crlf2 c.s.pending = some (h, r)) (hh : c.s.haveHeaders = true) :
    c.currentHead = some h := by
  unfold currentHead
  rw [if_pos hh, (hc.lengths hs hh).1, blockHead_eq hs, List.take_left]

theorem currentHead_none (hh : c.s.haveHeaders = false) : c.currentHead = none := by
  unfold currentHead
  rw [hh]
  rfl

theorem Core.currentHead_append (hc : Core len rcv c) {s : SslSession} {data : Bytes}
    (hp : s.pending = c.s.pending ++ data) (hh : s.haveHeaders = c.s.haveHeaders)
    (hl : s.headersLen = c.s.headersLen) :
    (if s.haveHeaders then some (s.pending.take s.headersLen) else none) = c.currentHead := by
  unfold currentHead
  rw [hh, hp, hl]
  split
  · rename_i hhave
    obtain ⟨h, r, hs, hlen, -⟩ := hc.head hhave
    have hle := blockHead_length hs
    rw [hlen, List.take_append_of_le_length (by omega)]
  · rfl

theorem ensureCapacity_frame {s s' : SslSession} (h : s.ensureCapacity = .ok s') :
    s' = { s with buf := s'.buf } := by
  unfold SslSession.ensureCapacity at h
  generalize (if s.buf.isEmpty then List.replicate 8192 0 else s.buf) = buf at h
  by_cases hfull : s.used = buf.length
  · simp only [if_pos hfull] at h
    by_cases hmax : maxSize < buf.length * 2
    · rw [if_pos hmax] at h
      exact absurd h (by simp)
    · rw [if_neg hmax, Except.ok.injEq] at h
      rw [← h]
  · simp only [if_neg hfull, Except.ok.injEq] at h
    rw [← h]

theorem silent_doRead (hc : Idle len rcv c) : Silent c (doRead c) := by
  obtain ⟨-, -, hd, hp⟩ := doRead_spec hc
  unfold doRead at hd hp ⊢
  cases he : c.s.ensureCapacity with
  | error f => exact ⟨rfl, rfl, rfl, rfl, rfl, rfl, rfl⟩
  | ok s =>
    rw [he] at hd hp
    have hf := ensureCapacity_frame he
    have hhave : s.haveHeaders = c.s.haveHeaders := by rw [hf]
    have hlen : s.headersLen = c.s.headersLen := by rw [hf]
    refine ⟨?_, ?_, ?_, rfl, hd, writes_emit rfl _, ?_⟩
    · show s.clientIP = _
      rw [hf]
    · show s.keepAliveTimeout = _
      rw [hf]
    · show s.keepAlive = _
      rw [hf]
    · have hp' : s.pending = c.s.pending ++ [] := hp.trans (List.append_nil _).symm
      exact hc.toCore.currentHead_append hp' hhave hlen

theorem silent_afterRead (hc : Inv len rcv c) (data : Bytes)
    (hd : c.s.used + data.length ≤ c.s.buf.length) : Silent c (afterRead c data) := by
  have hp := (receive_spec hc.used_le data hd).2
  have h1 : Silent c ((c.complete (.read c.s.used c.s.buf.length)).emit .cancelTimer) :=
    (silent_complete _ c).trans (silent_emit rfl (by simp) _)
  exact ⟨rfl, rfl, rfl, rfl, h1.dispatched, h1.writes, hc.toCore.currentHead_append hp rfl rfl⟩

/-! ## taking a request out of the buffer -/

/-- a session in which a wrapped sum passed the length test: the copy of the body threw -/
structure Crashed (rcv : Bytes) (c : Conn σ) : Prop where
  takes : (requestReader scannedLength).Takes rcv c.dispatched c.s.pending
  head : ∃ h r, blockHead crlf2 c.s.pending = some (h, r) ∧ c.currentHead = some h
  outstanding : c.outstanding = []
  fault : c.fault = some .lengthError

theorem copyOut_too_long {s : SslSession} (hH : s.headersLen ≤ s.buf.length)
    (hb : s.buf.length ≤ 2 ^ 62) (hV : maxSize < s.contentLength) :
    s.copyOut = .error .lengthError := by
  have e1 : copyFrom s.buf 0 s.headersLen = .ok ((s.buf.drop 0).take s.headersLen) := by
    unfold copyFrom maxSize
    rw [if_neg (by omega), if_neg (by omega)]
  have e2 : copyFrom s.buf s.headersLen s.contentLength = .error .lengthError := by
    unfold copyFrom
    rw [if_pos hV]
  have h0 : s.contentLength ≠ 0 := by omega
  unfold SslSession.copyOut
  rw [e1]
  simp only [ne_eq, h0, not_false_eq_true, if_true, e2]
  rfl

/-- a sum that wraps passes the length test, and the copy of the body throws -/
theorem extract_overflow (srv : Server σ) (hc : Idle scannedLength rcv c) {h r : Bytes}
    (hs : blockHead crlf2 c.s.pending = some (h, r)) (hh : c.s.haveHeaders = true)
    (hwrap : 2 ^ 64 ≤ h.length + scannedLength h) :
    ∃ c', extractAndHandle srv c = (true, c') ∧ Silent c c' ∧ Crashed rcv c' := by
  obtain ⟨hH, hV⟩ := hc.lengths hs hh
  have hlen := blockHead_length hs
  rw [hc.pending_length] at hlen
  have hsize := hc.size_le
  have hu := hc.used_le
  have hlt : scannedLength h < 2 ^ 64 := Nat.mod_lt _ (Nat.two_pow_pos 64)
  have hsum : sizeT (c.s.headersLen + c.s.contentLength)
      = h.length + scannedLength h - 2 ^ 64 := by
    rw [hH, hV, sizeT]
    omega
  have hcopy : c.s.copyOut = .error .lengthError := by
    refine copyOut_too_long (by omega) hsize ?_
    rw [hV, maxSize]
    omega
  have hsil : Silent c ((c.emit (.extract c.s.headersLen c.s.contentLength c.s.used
      c.s.buf.length)).throw .lengthError) :=
    (silent_emit rfl (by simp) c).trans ⟨rfl, rfl, rfl, rfl, rfl, rfl, rfl⟩
  refine ⟨_, ?_, hsil, ?_, ⟨h, r, hs, ?_⟩, hc.outstanding, rfl⟩
  · unfold extractAndHandle
    rw [hsum, if_neg (by omega)]
    simp only [emit, hcopy]
  · rw [hsil.dispatched]
    exact hc.takes
  · rw [hsil.currentHead]
    exact hc.toCore.currentHead_eq hs hh

/-- how a call ends that found the head `h`, whatever length it announces -/
theorem extract_cases (srv : Server σ) (hc : Idle scannedLength rcv c) {h r : Bytes}
    (hs : blockHead crlf2 c.s.pending = some (h, r)) (hh : c.s.haveHeaders = true) :
    extractAndHandle srv c = (false, c) ∨
    (∃ c', extractAndHandle srv c = (true, c') ∧ Silent c c' ∧ Crashed rcv c') ∨
    ∃ (b : Bytes × Bytes) (c' : Conn σ), b.1 = h ∧ extractAndHandle srv c = (true, c') ∧
      c' = processRequest srv b.1 b.2 (extracted c) ∧ Inv scannedLength rcv c' := by
  by_cases hwrap : 2 ^ 64 ≤ h.length + scannedLength h
  · exact Or.inr (Or.inl (extract_overflow srv hc hs hh hwrap))
  · have hfit : Fits scannedLength h := ⟨rfl, fun _ => by omega⟩
    rcases extract_spec srv hc hs hh hfit with ⟨-, he⟩ | ⟨b, r', c', -, hb, he, hp, hI, -⟩
    · exact Or.inl he
    · exact Or.inr (Or.inr ⟨b, c', hb, he, hp, hI⟩)

theorem Talk.processRequest (ht : Talk srv ip w c) {b : Bytes × Bytes}
    (hcur : c.currentHead = some b.1) :
    Talk srv ip w (processRequest srv b.1 b.2 (extracted c)) := by
  have hx : Silent c (c.emit (.extract c.s.headersLen c.s.contentLength c.s.used c.s.buf.length)) :=
    silent_emit rfl (by simp) c
  have hd : (Conn.processRequest srv b.1 b.2 (extracted c)).dispatched = c.dispatched ++ [b] := by
    rw [(processRequest_spec srv b.1 b.2 (extracted c)).1]
    exact congrArg (· ++ [b]) hx.dispatched
  have hreq : Conn.request (extracted c).s b.1 b.2 = requestOf ip b := by
    show requestOf c.s.clientIP b = _
    rw [ht.clientIP]
  have htime : (extracted c).s.keepAliveTimeout = 10 := ht.timeout
  have hworld : (extracted c).world = (exchanges srv ip c.dispatched w).2 := ht.world
  have hreply : (replyTo srv ip b (exchanges srv ip c.dispatched w).2).1
      = .writeResponse (Conn.processRequest srv b.1 b.2 (extracted c)).s.httpHeader
          (Conn.processRequest srv b.1 b.2 (extracted c)).s.httpBody := by
    unfold replyTo Conn.processRequest
    simp only [hreq, htime, hworld]
    rfl
  have hw : (Conn.processRequest srv b.1 b.2 (extracted c)).writes
      = c.writes ++ [(replyTo srv ip b (exchanges srv ip c.dispatched w).2).1] := by
    rw [hreply, ← hx.writes]
    show (((_ ++ [_]) ++ [Action.dispatch b.1 b.2]) ++ [Action.writeResponse _ _]).filter _
      = (_ ++ [_]).filter _ ++ _
    rw [List.filter_append, List.filter_append _ [Action.dispatch b.1 b.2],
      List.filter_cons_of_neg (by simp [Action.isWrite]), List.filter_nil, List.append_nil]
    rfl
  refine ⟨ht.clientIP, ht.timeout, ?_, ?_, ?_, ?_⟩
  · intro r hr
    rw [hd, List.getLast?_concat, Option.some.injEq] at hr
    show keepsAlive (Conn.request (extracted c).s b.1 b.2) = _
    rw [hreq, hr]
  · show (respond srv (Conn.request (extracted c).s b.1 b.2) (extracted c).world).2 = _
    rw [hd, exchanges_snoc, hreq, hworld]
    rfl
  · rw [hw, hd, exchanges_snoc, currentHead_none rfl, ht.writes, hcur]
    simp
  · intro _
    rw [hw, List.getLast?_concat, hreply]

/-! ## one call of `try_parse_and_handle` -/

structure Settled (srv : Server σ) (ip : Bytes) (w : σ) (rcv : Bytes) (c : Conn σ) : Prop where
  talk : Talk srv ip w c
  state : Inv scannedLength rcv c ∨ Crashed rcv c

/-- a request was dispatched between two states, or none -/
def Dispatches (c c' : Conn σ) : Prop :=
  c'.dispatched = c.dispatched ∨ ∃ b, c'.dispatched = c.dispatched ++ [b]

theorem extract_talk (srv : Server σ) (hc : Idle scannedLength rcv c) (ht : Talk srv ip w c)
    {h r : Bytes} (hs : blockHead crlf2 c.s.pending = some (h, r)) (hh : c.s.haveHeaders = true) :
    extractAndHandle srv c = (false, c) ∨
    ∃ c', extractAndHandle srv c = (true, c') ∧ Settled srv ip w rcv c' ∧ Dispatches c c' := by
  rcases extract_cases srv hc hs hh with he | ⟨c', he, hsil, hcr⟩ | ⟨b, c', hb, he, hp, hI⟩
  · exact Or.inl he
  · right
    refine ⟨c', he, ⟨hsil.talk ht ?_, Or.inr hcr⟩, Or.inl hsil.dispatched⟩
    rw [hcr.outstanding]
    exact List.not_mem_nil
  · right
    have hcur : c.currentHead = some b.1 := by rw [hb, hc.toCore.currentHead_eq hs hh]
    have hd := (processRequest_spec srv b.1 b.2 (extracted c)).1
    have hx : (extracted c).dispatched = c.dispatched := dispatched_emit c _ (by simp)
    refine ⟨c', he, ⟨hp ▸ ht.processRequest hcur, Or.inl hI⟩, Or.inr ⟨b, ?_⟩⟩
    rw [hp, hd, hx]

theorem Talk.withHead (ht : Talk srv ip w c) (hc : Idle scannedLength rcv c) {h r : Bytes}
    (hs : blockHead crlf2 c.s.pending = some (h, r)) (hh : c.s.haveHeaders = false) :
    ({ c with s := c.s.withHead h } : Conn σ).currentHead = some h ∧
      c.writes = (exchanges srv ip c.dispatched w).1 ∧
      (refExpect h = false → Talk srv ip w { c with s := c.s.withHead h }) := by
  have hcur : ({ c with s := c.s.withHead h } : Conn σ).currentHead = some h :=
    (withHead_idle hc hs rfl).toCore.currentHead_eq hs rfl
  have hw : c.writes = (exchanges srv ip c.dispatched w).1 := by
    rw [ht.writes, currentHead_none hh]
    exact List.append_nil _
  refine ⟨hcur, hw, fun hx => ⟨ht.clientIP, ht.timeout, ht.keepAlive, ht.world, ?_, ht.flight⟩⟩
  rw [hcur, Option.toList_some, List.flatMap_singleton, interimFor, hx]
  show c.writes = _
  rw [hw]
  exact (List.append_nil _).symm

/-- **One call of `try_parse_and_handle`** keeps the conversation in order: it takes nothing, or it
ends with one write started, or with an exception. -/
theorem tryParse_talk (srv : Server σ) (hc : Idle scannedLength rcv c) (ht : Talk srv ip w c) :
    (∃ c', tryParseAndHandle srv c = (false, c') ∧ Idle scannedLength rcv c' ∧
      Talk srv ip w c' ∧ c'.dispatched = c.dispatched) ∨
    ∃ c', tryParseAndHandle srv c = (true, c') ∧ Settled srv ip w rcv c' ∧ Dispatches c c' := by
  unfold tryParseAndHandle
  by_cases hh : c.s.haveHeaders = true
  · rw [if_pos hh]
    obtain ⟨h, r, hs, -⟩ := hc.head hh
    rcases extract_talk srv hc ht hs hh with he | hx
    · exact Or.inl ⟨c, he, hc, ht, rfl⟩
    · exact Or.inr hx
  · rw [if_neg hh]
    have hh' : c.s.haveHeaders = false := by simpa using hh
    cases hs : blockHead crlf2 c.s.pending with
    | none =>
      rw [parseHead_none hs]
      exact Or.inl ⟨c, rfl, hc, ht, rfl⟩
    | some p =>
      obtain ⟨h, r⟩ := p
      have hw := withHead_idle hc hs rfl
      obtain ⟨hcur, hwrites, hquiet⟩ := ht.withHead hc hs hh'
      rw [parseHead_some hs]
      by_cases hx : refExpect h = true
      · right
        have hd : (({ c with s := c.s.withHead h } : Conn σ).start .interim
            .writeInterim).dispatched = c.dispatched := dispatched_start _ _ _ (by simp)
        refine ⟨_, if_pos hx, ⟨⟨ht.clientIP, ht.timeout, ?_, ?_, ?_, ?_⟩, Or.inl ⟨?_, ?_⟩⟩,
          Or.inl hd⟩
        · rw [hd]
          exact ht.keepAlive
        · rw [hd]
          exact ht.world
        · rw [hd, ← hwrites]
          show (c.trace ++ [Action.writeInterim]).filter _
            = c.writes ++ ({ c with s := c.s.withHead h } : Conn σ).currentHead.toList.flatMap _
          rw [hcur, Option.toList_some, List.flatMap_singleton, interimFor, if_pos hx,
            List.filter_append]
          rfl
        · show Op.response ∈ Op.interim :: c.outstanding → _
          rw [hc.outstanding]
          simp
        · exact hw.toCore.quiet rfl rfl rfl
        · refine .interim ?_ hc.fault rfl
          show Op.interim :: c.outstanding = _
          rw [hc.outstanding]
      · have hx' : (c.s.withHead h).expectContinue = false := by
          show refExpect h = false
          simpa using hx
        have hquiet := hquiet (by simpa using hx)
        simp only [hx', Bool.false_eq_true, if_false]
        rcases extract_talk srv hw hquiet hs rfl with he | hy
        · exact Or.inl ⟨_, he, hw, hquiet, rfl⟩
        · exact Or.inr hy

/-! ## events -/

theorem doRead_settled (hc : Idle scannedLength rcv c) (ht : Talk srv ip w c) :
    Settled srv ip w rcv (doRead c) := by
  refine ⟨(silent_doRead hc).talk ht ?_, Or.inl (doRead_inv hc)⟩
  rcases (doRead_spec hc).2.1 with ⟨ho, -⟩ | ⟨ho, -⟩
  · simp [ho]
  · simp [ho]

theorem Idle.settled (hc : Idle scannedLength rcv c) (ht : Talk srv ip w c) :
    Settled srv ip w rcv c := ⟨ht, Or.inl hc.closed⟩

theorem parse_settled (hc : Idle scannedLength rcv c) (ht : Talk srv ip w c) :
    (Settled srv ip w rcv (parseOrRead srv c) ∧ Dispatches c (parseOrRead srv c)) ∧
      Settled srv ip w rcv (tryParseAndHandle srv c).2 ∧
      Dispatches c (tryParseAndHandle srv c).2 := by
  unfold parseOrRead
  rcases tryParse_talk srv hc ht with ⟨c', he, hI, ht', hd⟩ | ⟨c', he, hS, hd⟩
  · rw [he]
    have hd' : (doRead c').dispatched = c.dispatched := (doRead_spec hI).2.2.1.trans hd
    exact ⟨⟨doRead_settled hI ht', Or.inl hd'⟩, hI.settled ht', Or.inl hd⟩
  · rw [he]
    exact ⟨⟨hS, hd⟩, hS, hd⟩

theorem onResponseDone_settled (hc : Idle scannedLength rcv c) (ht : Talk srv ip w c) :
    Settled srv ip w rcv (onResponseDone c) := by
  have hcancel : Silent c (c.emit .cancelTimer) := silent_emit rfl (by simp) c
  have harm : Silent c ((c.emit .cancelTimer).emit .armTimer) :=
    hcancel.trans (silent_emit rfl (by simp) _)
  have hshut : Silent c (c.emit .shutdown) := silent_emit rfl (by simp) c
  have hn : Op.response ∉ c.outstanding := by simp [hc.outstanding]
  unfold onResponseDone
  split
  · exact doRead_settled ((hc.emit rfl).emit rfl) (harm.talk ht hn)
  · exact (hc.emit rfl).settled (hshut.talk ht hn)

/-- **Every event keeps the conversation in order**: it dispatches at most one request, and none
while a response is being written. -/
theorem step_settled (hc : Settled srv ip w rcv c) {e : Event} (hstep : step srv c e = some c') :
    Settled srv ip w (rcv ++ e.bytes) c' ∧ Dispatches c c' ∧
      (Op.response ∈ c.outstanding → c'.dispatched = c.dispatched) := by
  rcases hc.state with hI | hcr
  · have hidle : ∀ op, c.outstanding = [op] → c.fault = none →
        Idle scannedLength rcv (c.complete op) ∧ Talk srv ip w (c.complete op) := by
      intro op ho hf
      have hi := complete_idle hI ho hf
      exact ⟨hi, (silent_complete op c).talk hc.talk (by simp [hi.outstanding])⟩
    obtain ⟨hf, ⟨data, rfl, ho, hd, rfl⟩ | ⟨rfl, off, n, ho, rfl⟩ | ⟨ok, rfl, ho, rfl⟩ |
      ⟨ok, rfl, ho, rfl⟩⟩ := step_cases srv hI hstep
    · have hi := (afterRead_spec hI ho hf data hd).1
      have hsil := silent_afterRead hI data hd
      have ht : Talk srv ip w (afterRead c data) := hsil.talk hc.talk (by simp [hi.outstanding])
      obtain ⟨⟨hS, hD⟩, -⟩ := parse_settled hi ht
      refine ⟨hS, ?_, fun h => absurd h (by simp [ho])⟩
      unfold Dispatches at hD
      rw [hsil.dispatched] at hD
      exact hD
    · obtain ⟨hi, ht⟩ := hidle _ ho hf
      rw [Event.bytes, List.append_nil]
      exact ⟨hi.settled ht, Or.inl rfl, fun _ => rfl⟩
    · obtain ⟨hi, ht⟩ := hidle _ ho hf
      have hd : (onResponseDone (c.complete .response)).dispatched = c.dispatched :=
        (onResponseDone_spec hi).2.1
      rw [Event.bytes, List.append_nil]
      exact ⟨onResponseDone_settled hi ht, Or.inl hd, fun _ => hd⟩
    · obtain ⟨hi, ht⟩ := hidle _ ho hf
      rw [Event.bytes, List.append_nil]
      unfold onInterimDone
      split
      · exact ⟨hi.settled ht, Or.inl rfl, fun _ => rfl⟩
      · split
        · obtain ⟨-, hS, hD⟩ := parse_settled hi ht
          exact ⟨hS, hD, fun h => absurd h (by simp [ho])⟩
        · have hd : (doRead (c.complete .interim)).dispatched = c.dispatched :=
            (doRead_spec hi).2.2.1
          exact ⟨doRead_settled hi ht, Or.inl hd, fun _ => hd⟩
  · -- no event happens behind an exception
    unfold step at hstep
    rw [hcr.fault] at hstep
    exact absurd hstep (by simp)

theorem accept_talk (srv : Server σ) (ip : Bytes) (w : σ) : Talk srv ip w (accept ip w) where
  clientIP := rfl
  timeout := rfl
  keepAlive := fun r h => absurd (show none = some r from h) (by simp)
  world := rfl
  writes := rfl
  flight := fun h => absurd h List.not_mem_nil

/-- **The conversation is in order in every state of every run.** -/
theorem run_settled (srv : Server σ) {ip : Bytes} {w : σ} {evs : List Event} {c : Conn σ}
    (hrun : run srv ip w evs = some c) : Settled srv ip w (received evs) c := by
  refine Runs.runs_induction (step srv) (doRead (accept ip w))
    (fun es c => Settled srv ip w (received es) c) ?_ ?_ hrun
  · exact doRead_settled (accept_idle scannedLength ip w) (accept_talk srv ip w)
  · intro es s e s' _ ih hs
    rw [received_snoc]
    exact (step_settled ih hs).1

/-! ## the result -/

theorem Settled.outstanding_le (hc : Settled srv ip w rcv c) : c.outstanding.length ≤ 1 := by
  rcases hc.state with hI | hcr
  · cases hI.mode with
    | closed ho _ => simp [ho]
    | failed ho _ _ => simp [ho]
    | reading ho _ _ => simp [ho]
    | responding ho _ _ => simp [ho]
    | interim ho _ _ => simp [ho]
  · simp [hcr.outstanding]

theorem Settled.takes (hc : Settled srv ip w rcv c) :
    (requestReader scannedLength).Takes rcv c.dispatched c.s.pending := by
  rcases hc.state with hI | hcr
  · exact hI.takes
  · exact hcr.takes

theorem mem_takes {s r : Bytes} {bs : List (Bytes × Bytes)}
    (h : (requestReader len).Takes s bs r) : ∀ b ∈ bs, lf ∈ b.1 ∧ b.2.length = len b.1 := by
  induction h with
  | nil s => exact fun b hb => absurd hb List.not_mem_nil
  | cons hn _ ih =>
    rename_i b bs _
    intro b' hb'
    rcases List.mem_cons.mp hb' with rfl | hb'
    · obtain ⟨h₁, b₁⟩ := b'
      obtain ⟨hs, hl⟩ := (blockNext_eq_some_iff crlf2 len).mp hn
      exact ⟨lf_mem_of_blockHead hs, hl.symm⟩
    · exact ih b' hb'

theorem Settled.mem_dispatched (hc : Settled srv ip w rcv c) {r : Bytes × Bytes}
    (hr : r ∈ c.dispatched) : lf ∈ r.1 ∧ r.2.length = scannedLength r.1 :=
  mem_takes hc.takes r hr

theorem Settled.currentHead (hc : Settled srv ip w rcv c) {h : Bytes}
    (hh : c.currentHead = some h) : ∃ r, blockHead crlf2 c.s.pending = some (h, r) := by
  rcases hc.state with hI | hcr
  · by_cases hhave : c.s.haveHeaders = true
    · obtain ⟨h', r, hs, -⟩ := hI.head hhave
      rw [hI.toCore.currentHead_eq hs hhave, Option.some.injEq] at hh
      exact ⟨r, hh ▸ hs⟩
    · rw [currentHead_none (by simpa using hhave)] at hh
      exact absurd hh (by simp)
  · obtain ⟨h', r, hs, hcur⟩ := hcr.head
    rw [hcur, Option.some.injEq] at hh
    exact ⟨r, hh ▸ hs⟩

/-- **One operation at a time, and everything in order**, in every state `c` of every run: at most
one operation is outstanding; an event dispatches at most one request, and none while a response
is being written, whose bytes stay in place; the dispatched requests are the first ones of the
bytes received, and the block that is waiting for its body is the next; and the writes are those
of the dispatched requests, followed by the interim response to the block that is waiting. -/
theorem writes_in_order (srv : Server σ) (ip : Bytes) (w : σ) (evs : List Event) (c : Conn σ)
    (hrun : run srv ip w evs = some c) :
    c.outstanding.length ≤ 1 ∧
    (∀ e c', step srv c e = some c' → c'.dispatched = c.dispatched ∨
      Op.response ∉ c.outstanding ∧ ∃ b, c'.dispatched = c.dispatched ++ [b]) ∧
    (Op.response ∈ c.outstanding →
      c.writes.getLast? = some (.writeResponse c.s.httpHeader c.s.httpBody)) ∧
    (requestReader scannedLength).Takes (received evs) c.dispatched c.s.pending ∧
    (∀ h, c.currentHead = some h → ∃ r, blockHead crlf2 c.s.pending = some (h, r)) ∧
    c.writes = (exchanges srv ip c.dispatched w).1 ++ c.currentHead.toList.flatMap interimFor := by
  have hc := run_settled srv hrun
  refine ⟨hc.outstanding_le, ?_, hc.talk.flight, hc.takes, fun h => hc.currentHead, hc.talk.writes⟩
  intro e c' hstep
  obtain ⟨-, hd | hd, hflight⟩ := step_settled hc hstep
  · exact Or.inl hd
  · by_cases hr : Op.response ∈ c.outstanding
    · exact Or.inl (hflight hr)
    · exact Or.inr ⟨hr, hd⟩

/-- a request that expects an interim response, its body behind it, and a second request -/
def expectedBody : List Event :=
  [.readOk (str "PUT /a HTTP/1.1\r\nexpect: 100-Continue\r\nContent-Length: 2\r\n\r\n"),
    .interimDone true, .readOk (str "hi"), .responseDone true,
    .readOk (str "GET /b HTTP/1.1\r\n\r\n"), .responseDone false]

set_option maxRecDepth 100000 in
theorem writes_in_order_expect :
    ∃ c, run Server.empty [] () expectedBody = some c ∧ c.dispatched.length = 2 ∧
      c.outstanding.length ≤ 1 ∧
      (∀ e c', step Server.empty c e = some c' → c'.dispatched = c.dispatched ∨
        Op.response ∉ c.outstanding ∧ ∃ b, c'.dispatched = c.dispatched ++ [b]) ∧
      (Op.response ∈ c.outstanding →
        c.writes.getLast? = some (.writeResponse c.s.httpHeader c.s.httpBody)) ∧
      (requestReader scannedLength).Takes (received expectedBody) c.dispatched c.s.pending ∧
      (∀ h, c.currentHead = some h → ∃ r, blockHead crlf2 c.s.pending = some (h, r)) ∧
      c.writes = (exchanges Server.empty [] c.dispatched ()).1
        ++ c.currentHead.toList.flatMap interimFor := by
  have hs : (run Server.empty [] () expectedBody).any (·.dispatched.length = 2) = true := by
    decide +kernel
  obtain ⟨c, hrun, hc⟩ := (Option.any_eq_true _ _).mp hs
  exact ⟨c, hrun, of_decide_eq_true hc,
    writes_in_order Server.empty [] () expectedBody c hrun⟩

end ServerHttpLib
