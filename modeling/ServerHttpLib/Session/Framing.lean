import ServerHttpLib.Session.Invariant

/-!
# The session takes the frames of the reference

`tryParse_spec` says what one call of `try_parse_and_handle` does with the buffered bytes: it asks
for more input, starts the interim response, or takes exactly the next frame.  From it every event
keeps the invariant (`step_inv`), and so does every run (`run_inv`).  The two results about whole
runs:

* `extract_in_bounds`   no length test that passes is fooled, as long as no sum wraps;
* `dispatched_prefix`   what was dispatched and what is buffered are the bytes received, and the
                        dispatched requests are the first ones of the reference parser.
-/

namespace ServerHttpLib
open Cutting Frames Conn

variable {σ : Type}

/-! ## taking one request out of the buffer -/

theorem copyOut_ok {s : SslSession} {h r : Bytes} {V : Nat}
    (hs : blockHead crlf2 s.pending = some (h, r)) (hH : s.headersLen = h.length)
    (hV : s.contentLength = V) (hle : h.length + V ≤ s.used) (hu : s.used ≤ s.buf.length)
    (hb : s.buf.length ≤ 2 ^ 62) : s.copyOut = .ok (h, r.take V) := by
  have hr : (s.buf.drop h.length).take V = r.take V := by
    have h1 : s.pending.drop h.length = r := by rw [blockHead_eq hs, List.drop_left]
    rw [← h1]
    unfold SslSession.pending
    rw [List.drop_take, List.take_take, Nat.min_eq_left (by omega)]
  have e1 : copyFrom s.buf 0 h.length = .ok h := by
    unfold copyFrom maxSize
    rw [if_neg (by omega), if_neg (by omega), List.drop_zero, take_head hs]
  have e2 : copyFrom s.buf h.length V = .ok (r.take V) := by
    unfold copyFrom maxSize
    rw [if_neg (by omega), if_neg (by omega), hr]
  unfold SslSession.copyOut
  rw [hH, hV, e1]
  by_cases h0 : V = 0
  · subst h0
    simp only [ne_eq, not_true_eq_false, if_false, List.take_zero]
    rfl
  · simp only [ne_eq, h0, not_false_eq_true, if_true, e2]
    rfl

theorem shift_spec {s : SslSession} {n : Nat} (hn : sizeT (s.headersLen + s.contentLength) = n)
    (hle : n ≤ s.used) (hu : s.used ≤ s.buf.length) :
    s.shift.pending = s.pending.drop n ∧ s.shift.buf.length = s.buf.length ∧
      s.shift.used = s.used - n ∧ s.shift.haveHeaders = false := by
  have hp : (s.buf.drop n).take (s.used - n) = s.pending.drop n := by
    unfold SslSession.pending
    rw [List.drop_take]
  have hlen : ((s.buf.drop n).take (s.used - n)).length = s.used - n := by
    rw [List.length_take, List.length_drop]
    omega
  unfold SslSession.shift
  simp only [hn]
  by_cases h0 : 0 < s.used - n
  · simp only [h0, if_true]
    refine ⟨?_, ?_, trivial, trivial⟩
    · show ((s.buf.drop n).take (s.used - n) ++ s.buf.drop (s.used - n)).take (s.used - n) = _
      rw [List.take_left' hlen, hp]
    · rw [List.length_append, hlen, List.length_drop]
      omega
  · simp only [h0, if_false]
    refine ⟨?_, trivial, trivial, trivial⟩
    show s.buf.take (s.used - n) = _
    rw [← hp, show s.used - n = 0 by omega, List.take_zero, List.take_zero]

/-! ## one call of `try_parse_and_handle` -/

variable {len : Bytes → Nat} {rcv : Bytes} {c : Conn σ}

theorem processRequest_spec (srv : Server σ) (h b : Bytes) (c : Conn σ) :
    (processRequest srv h b c).dispatched = c.dispatched ++ [(h, b)] ∧
      (processRequest srv h b c).s.pending = c.s.pending ∧
      (processRequest srv h b c).s.buf = c.s.buf ∧ (processRequest srv h b c).s.used = c.s.used ∧
      (processRequest srv h b c).s.haveHeaders = c.s.haveHeaders ∧
      (processRequest srv h b c).outstanding = .response :: c.outstanding ∧
      (processRequest srv h b c).fault = c.fault ∧
      ∀ a ∈ (processRequest srv h b c).trace, a ∈ c.trace ∨ a.quiet = true ∨ a = .dispatch h b := by
  refine ⟨?_, rfl, rfl, rfl, rfl, rfl, rfl, ?_⟩
  · unfold processRequest
    simp only
    rw [dispatched_start _ _ _ (by simp)]
    simp [emit, dispatched, List.filterMap_append]
  · intro a ha
    simp only [processRequest, start, emit, List.mem_append, List.mem_singleton] at ha
    rcases ha with (ha | rfl) | rfl
    · exact Or.inl ha
    · exact Or.inr (Or.inr rfl)
    · exact Or.inr (Or.inl rfl)

/-- the frame `b` has been taken out of the buffer and is about to be dispatched -/
structure Taken (len : Bytes → Nat) (rcv : Bytes) (b : Bytes × Bytes) (c : Conn σ) : Prop where
  size : ∃ k, 13 ≤ k ∧ k ≤ 62 ∧ c.s.buf.length = 2 ^ k
  used_le : c.s.used ≤ c.s.buf.length
  takes : (requestReader len).Takes rcv (c.dispatched ++ [b]) c.s.pending
  noHead : c.s.haveHeaders = false
  extracts : ∀ H V u n, Action.extract H V u n ∈ c.trace → H + V ≤ u ∧ u ≤ n
  offered : ∀ off n, Action.read off n ∈ c.trace → off < n
  outstanding : c.outstanding = []
  fault : c.fault = none

theorem Taken.processRequest_inv (srv : Server σ) {b : Bytes × Bytes} (hc : Taken len rcv b c) :
    Inv len rcv (processRequest srv b.1 b.2 c) := by
  obtain ⟨pd, pp, pb, pu, ph, po, pf, pt⟩ := processRequest_spec srv b.1 b.2 c
  refine ⟨⟨?_, ?_, ?_, ?_, ?_, ?_⟩, .responding ?_ ?_ ?_⟩
  · rw [pb]
    exact hc.size
  · rw [pb, pu]
    exact hc.used_le
  · rw [pd, pp]
    exact hc.takes
  · intro h
    rw [ph, hc.noHead] at h
    exact absurd h Bool.false_ne_true
  · intro H V u n hm
    rcases pt _ hm with hm | hm | hm
    · exact hc.extracts H V u n hm
    · exact absurd hm (by simp [Action.quiet])
    · exact absurd hm (by simp)
  · intro off n hm
    rcases pt _ hm with hm | hm | hm
    · exact hc.offered off n hm
    · exact absurd hm (by simp [Action.quiet])
    · exact absurd hm (by simp)
  · rw [po, hc.outstanding]
  · rw [pf, hc.fault]
  · rw [ph, hc.noHead]

/-- `try_parse_and_handle` behind its length test, where `process_request` begins -/
def extracted (c : Conn σ) : Conn σ :=
  { c.emit (.extract c.s.headersLen c.s.contentLength c.s.used c.s.buf.length) with
    s := c.s.shift }

theorem extracted_taken (hc : Idle len rcv c) {b : Bytes × Bytes} {r : Bytes} {n : Nat}
    (hn : c.s.headersLen + c.s.contentLength = n) (hw : sizeT n = n) (hle : n ≤ c.s.used)
    (hb : blockNext crlf2 len c.s.pending = some (b, r)) (hr : c.s.pending.drop n = r) :
    Taken len rcv b (extracted c) ∧ (extracted c).dispatched = c.dispatched ∧
      (extracted c).s.pending = r := by
  subst hn
  obtain ⟨hp, hbl, hus, hhv⟩ := shift_spec hw hle hc.used_le
  have hdisp : (extracted c).dispatched = c.dispatched := dispatched_emit c _ (by simp)
  have hpend : (extracted c).s.pending = r := hp.trans hr
  refine ⟨⟨?_, ?_, ?_, hhv, ?_, ?_, hc.outstanding, hc.fault⟩, hdisp, hpend⟩
  · obtain ⟨k, hk, hk', he⟩ := hc.size
    exact ⟨k, hk, hk', hbl.trans he⟩
  · show c.s.shift.used ≤ c.s.shift.buf.length
    rw [hbl, hus]
    have := hc.used_le
    omega
  · rw [hdisp, hpend]
    exact hc.takes.snoc hb
  · intro H V u m hm
    simp only [extracted, emit, List.mem_append, List.mem_singleton, Action.extract.injEq] at hm
    rcases hm with hm | ⟨rfl, rfl, rfl, rfl⟩
    · exact hc.extracts H V u m hm
    · exact ⟨hle, hc.used_le⟩
  · intro off m hm
    simp only [extracted, emit, List.mem_append, List.mem_singleton, reduceCtorEq, or_false] at hm
    exact hc.offered off m hm

/-- how a call ends that found the head `h`: too few bytes, or the frame is taken -/
theorem extract_spec (srv : Server σ) (hc : Idle len rcv c) {h r : Bytes}
    (hs : blockHead crlf2 c.s.pending = some (h, r)) (hh : c.s.haveHeaders = true)
    (hfit : Fits len h) :
    (blockNext crlf2 len c.s.pending = none ∧ extractAndHandle srv c = (false, c)) ∨
    ∃ b r' c', blockNext crlf2 len c.s.pending = some (b, r') ∧ b.1 = h ∧
      extractAndHandle srv c = (true, c') ∧ c' = processRequest srv b.1 b.2 (extracted c) ∧
      Inv len rcv c' ∧ c'.outstanding = [.response] ∧ c'.fault = none ∧
      c'.dispatched = c.dispatched ++ [b] ∧ c'.s.pending = r' := by
  obtain ⟨hH, hV⟩ := hc.lengths hs hh
  have hlen := blockHead_length hs
  rw [hc.pending_length] at hlen
  have hsize := hc.size_le
  have hu := hc.used_le
  have hn : c.s.headersLen + c.s.contentLength = h.length + len h := by rw [hH, hV]
  have hw : sizeT (h.length + len h) = h.length + len h := sizeT_of_lt (hfit.sum (by omega))
  have hnext := blockNext_of_head crlf2 len hs
  unfold extractAndHandle
  rw [hn, hw]
  by_cases hle : len h ≤ r.length
  · right
    rw [if_neg (by omega)]
    rw [if_pos hle] at hnext
    have hcopy := copyOut_ok hs hH hV (by omega) hu hsize
    simp only [emit, hcopy]
    have hdrop : c.s.pending.drop (h.length + len h) = r.drop (len h) := by
      rw [blockHead_eq hs, ← List.drop_drop, List.drop_left]
    obtain ⟨ht, hd, hp⟩ := extracted_taken hc hn hw (by omega) hnext hdrop
    obtain ⟨pd, pp, _, _, _, po, pf, _⟩ :=
      processRequest_spec srv h (r.take (len h)) (extracted c)
    exact ⟨_, _, _, hnext, rfl, rfl, rfl, ht.processRequest_inv srv,
      po.trans (by rw [ht.outstanding]), pf.trans ht.fault, by rw [← hd]; exact pd, pp.trans hp⟩
  · left
    rw [if_pos (by omega)]
    rw [if_neg hle] at hnext
    exact ⟨hnext, rfl⟩

theorem withHead_idle (hc : Idle len rcv c) {h r : Bytes}
    (hs : blockHead crlf2 c.s.pending = some (h, r)) (hscan : sizeT (refLength h) = len h) :
    Idle len rcv { c with s := c.s.withHead h } where
  size := hc.size
  used_le := hc.used_le
  takes := hc.takes
  head := fun _ => ⟨h, r, hs, rfl, hscan⟩
  extracts := hc.extracts
  offered := hc.offered
  outstanding := hc.outstanding
  fault := hc.fault

/-- **One call of `try_parse_and_handle`**: no frame is complete; or the head has just been read
and asks for an interim response; or the next frame is taken and handled. -/
theorem tryParse_spec (srv : Server σ) (hc : Idle len rcv c)
    (hfit : ∀ h r, blockHead crlf2 c.s.pending = some (h, r) → Fits len h) :
    (∃ c', tryParseAndHandle srv c = (false, c') ∧ Idle len rcv c' ∧
      blockNext crlf2 len c.s.pending = none ∧ c'.dispatched = c.dispatched ∧
      c'.s.pending = c.s.pending) ∨
    (∃ h r c', tryParseAndHandle srv c = (true, c') ∧ Inv len rcv c' ∧
      blockHead crlf2 c.s.pending = some (h, r) ∧ refExpect h = true ∧
      c'.outstanding = [.interim] ∧ c'.dispatched = c.dispatched ∧ c'.s.pending = c.s.pending) ∨
    (∃ b r c', tryParseAndHandle srv c = (true, c') ∧ Inv len rcv c' ∧
      blockNext crlf2 len c.s.pending = some (b, r) ∧ c'.outstanding = [.response] ∧
      c'.fault = none ∧ c'.dispatched = c.dispatched ++ [b] ∧ c'.s.pending = r) := by
  unfold tryParseAndHandle
  by_cases hh : c.s.haveHeaders = true
  · rw [if_pos hh]
    obtain ⟨h, r, hs, _, _⟩ := hc.head hh
    rcases extract_spec srv hc hs hh (hfit h r hs) with ⟨hn, he⟩ | hx
    · exact Or.inl ⟨c, he, hc, hn, rfl, rfl⟩
    · obtain ⟨b, r', c', hn, -, he, -, hI, ho, hf, hd, hp⟩ := hx
      exact Or.inr (Or.inr ⟨b, r', c', he, hI, hn, ho, hf, hd, hp⟩)
  · rw [if_neg hh]
    cases hs : blockHead crlf2 c.s.pending with
    | none =>
      rw [parseHead_none hs]
      exact Or.inl ⟨c, rfl, hc, blockNext_none_of_head crlf2 len hs, rfl, rfl⟩
    | some p =>
      obtain ⟨h, r⟩ := p
      have hF := hfit h r hs
      have hw := withHead_idle hc hs hF.scan
      rw [parseHead_some hs]
      by_cases hx : refExpect h = true
      · right; left
        refine ⟨h, r, _, if_pos hx, ⟨hw.toCore.quiet rfl rfl rfl, ?_⟩, rfl, hx, ?_, ?_, rfl⟩
        · exact .interim (by show _ :: c.outstanding = _; rw [hc.outstanding]) hc.fault rfl
        · show Op.interim :: c.outstanding = _
          rw [hc.outstanding]
        · exact dispatched_start _ _ _ (by simp)
      · have hx' : (c.s.withHead h).expectContinue = false := by
          show refExpect h = false
          simpa using hx
        simp only [hx', Bool.false_eq_true, if_false]
        rcases extract_spec srv hw hs rfl hF with ⟨hn, he⟩ | hy
        · exact Or.inl ⟨_, he, hw, hn, rfl, rfl⟩
        · obtain ⟨b, r', c', hn, -, he, -, hI, ho, hf, hd, hp⟩ := hy
          exact Or.inr (Or.inr ⟨b, r', c', he, hI, hn, ho, hf, hd, hp⟩)

/-! ## events -/

def Event.bytes : Event → Bytes
  | .readOk data => data
  | .readErr => []
  | .responseDone _ => []
  | .interimDone _ => []

theorem received_snoc (evs : List Event) (e : Event) :
    received (evs ++ [e]) = received evs ++ e.bytes := by
  unfold received reads
  rw [List.filterMap_append, List.flatten_append]
  cases e <;> simp [Event.bytes]

theorem receive_spec {s : SslSession} (hu : s.used ≤ s.buf.length) (data : Bytes)
    (hd : s.used + data.length ≤ s.buf.length) :
    (s.receive s.used data).buf.length = s.buf.length ∧
      (s.receive s.used data).pending = s.pending ++ data := by
  have hl : (s.buf.take s.used ++ data).length = s.used + data.length := by
    rw [List.length_append, List.length_take, Nat.min_eq_left hu]
  constructor
  · show (s.buf.take s.used ++ data ++ s.buf.drop (s.used + data.length)).length = _
    rw [List.length_append, hl, List.length_drop]
    omega
  · show (s.buf.take s.used ++ data ++ s.buf.drop (s.used + data.length)).take
      (s.used + data.length) = _
    rw [List.take_left' hl]
    rfl

def afterRead (c : Conn σ) (data : Bytes) : Conn σ :=
  let c := (c.complete (.read c.s.used c.s.buf.length)).emit .cancelTimer
  { c with s := c.s.receive c.s.used data }

theorem afterRead_spec (hc : Inv len rcv c) (ho : c.outstanding = [.read c.s.used c.s.buf.length])
    (hf : c.fault = none) (data : Bytes) (hd : c.s.used + data.length ≤ c.s.buf.length) :
    Idle len (rcv ++ data) (afterRead c data) ∧ (afterRead c data).dispatched = c.dispatched ∧
      (afterRead c data).s.pending = c.s.pending ++ data := by
  obtain ⟨hl, hp⟩ := receive_spec hc.used_le data hd
  have hempty : c.outstanding.erase (.read c.s.used c.s.buf.length) = [] := by
    rw [ho, List.erase_cons_head]
  have hdisp : (afterRead c data).dispatched = c.dispatched := dispatched_emit _ _ (by simp)
  have hq : Core len rcv ((c.complete (.read c.s.used c.s.buf.length)).emit .cancelTimer) :=
    hc.toCore.quiet rfl rfl rfl
  refine ⟨⟨⟨?_, ?_, ?_, ?_, hq.extracts, hq.offered⟩, hempty, hf⟩, hdisp, hp⟩
  · obtain ⟨k, hk, hk', he⟩ := hc.size
    exact ⟨k, hk, hk', hl.trans he⟩
  · show c.s.used + data.length ≤ (c.s.receive c.s.used data).buf.length
    rw [hl]
    exact hd
  · rw [hdisp]
    show (requestReader len).Takes (rcv ++ data) _ (c.s.receive c.s.used data).pending
    rw [hp]
    exact hc.takes.append data
  · intro hh
    obtain ⟨h, r, hs, hH, hV⟩ := hc.head hh
    refine ⟨h, r ++ data, ?_, hH, hV⟩
    show blockHead crlf2 (c.s.receive c.s.used data).pending = _
    rw [hp]
    exact blockHead_append hs data

theorem pendingRead_eq (c : Conn σ) {off n : Nat} (h : c.outstanding = [.read off n]) :
    c.pendingRead = some (off, n) := by
  unfold pendingRead
  rw [h]
  rfl

theorem complete_idle (hc : Inv len rcv c) {op : Op} (ho : c.outstanding = [op])
    (hf : c.fault = none) : Idle len rcv (c.complete op) :=
  ⟨hc.toCore.same rfl rfl, by show c.outstanding.erase op = []; rw [ho, List.erase_cons_head], hf⟩

theorem Idle.closed (hc : Idle len rcv c) : Inv len rcv c :=
  ⟨hc.toCore, .closed hc.outstanding hc.fault⟩

/-- a parse, and the next read unless it took a request or started an interim response -/
def parseOrRead (srv : Server σ) (c : Conn σ) : Conn σ :=
  match tryParseAndHandle srv c with
  | (true, c') => c'
  | (false, c') => doRead c'

/-- **The events that can happen**, and the handlers they run: the one that is outstanding. -/
theorem step_cases (srv : Server σ) (hc : Inv len rcv c) {e : Event} {c' : Conn σ}
    (hstep : step srv c e = some c') : c.fault = none ∧
    ((∃ data, e = .readOk data ∧ c.outstanding = [.read c.s.used c.s.buf.length] ∧
        c.s.used + data.length ≤ c.s.buf.length ∧ c' = parseOrRead srv (afterRead c data)) ∨
      (e = .readErr ∧ ∃ off n, c.outstanding = [.read off n] ∧ c' = c.complete (.read off n)) ∨
      (∃ ok, e = .responseDone ok ∧ c.outstanding = [.response] ∧
        c' = onResponseDone (c.complete .response)) ∨
      (∃ ok, e = .interimDone ok ∧ c.outstanding = [.interim] ∧
        c' = onInterimDone srv (c.complete .interim) ok)) := by
  unfold step at hstep
  cases hm : hc.mode with
  | closed ho hf =>
    rw [hf] at hstep
    cases e <;> simp [pendingRead, ho] at hstep
  | failed ho hf hu =>
    rw [hf] at hstep
    simp at hstep
  | reading ho hf hu =>
    rw [hf] at hstep
    refine ⟨hf, ?_⟩
    cases e with
    | readOk data =>
      simp only [Option.isSome_none, Bool.false_eq_true, if_false, pendingRead_eq c ho,
        Option.ite_none_right_eq_some, Option.some.injEq] at hstep
      exact Or.inl ⟨data, rfl, ho, hstep.1, hstep.2.symm⟩
    | readErr =>
      simp only [Option.isSome_none, Bool.false_eq_true, if_false, pendingRead_eq c ho,
        Option.map_some, Option.some.injEq] at hstep
      exact Or.inr (Or.inl ⟨rfl, _, _, ho, hstep.symm⟩)
    | responseDone ok => simp [ho] at hstep
    | interimDone ok => simp [ho] at hstep
  | responding ho hf hh =>
    rw [hf] at hstep
    refine ⟨hf, ?_⟩
    cases e with
    | responseDone ok =>
      simp only [Option.isSome_none, Bool.false_eq_true, if_false, ho, List.mem_singleton, if_true,
        Option.some.injEq] at hstep
      exact Or.inr (Or.inr (Or.inl ⟨ok, rfl, ho, hstep.symm⟩))
    | readOk data => simp [pendingRead, ho] at hstep
    | readErr => simp [pendingRead, ho] at hstep
    | interimDone ok => simp [ho] at hstep
  | interim ho hf hh =>
    rw [hf] at hstep
    refine ⟨hf, ?_⟩
    cases e with
    | interimDone ok =>
      simp only [Option.isSome_none, Bool.false_eq_true, if_false, ho, List.mem_singleton, if_true,
        Option.some.injEq] at hstep
      exact Or.inr (Or.inr (Or.inr ⟨ok, rfl, ho, hstep.symm⟩))
    | readOk data => simp [pendingRead, ho] at hstep
    | readErr => simp [pendingRead, ho] at hstep
    | responseDone ok => simp [ho] at hstep

theorem parse_inv (srv : Server σ) (hc : Idle len rcv c)
    (hfit : ∀ h r, blockHead crlf2 c.s.pending = some (h, r) → Fits len h) :
    Inv len rcv (parseOrRead srv c) ∧ Inv len rcv (tryParseAndHandle srv c).2 := by
  unfold parseOrRead
  rcases tryParse_spec srv hc hfit with ⟨c', he, hI, _⟩ | ⟨_, _, c', he, hI, _⟩ |
    ⟨_, _, c', he, hI, _⟩
  · rw [he]
    exact ⟨doRead_inv hI, hI.closed⟩
  · rw [he]
    exact ⟨hI, hI⟩
  · rw [he]
    exact ⟨hI, hI⟩

theorem onResponseDone_spec (hc : Idle len rcv c) : Inv len rcv (onResponseDone c) ∧
    (onResponseDone c).dispatched = c.dispatched ∧ (onResponseDone c).s.pending = c.s.pending ∧
    Op.interim ∉ (onResponseDone c).outstanding := by
  unfold onResponseDone
  split
  · have hi : Idle len rcv ((c.emit .cancelTimer).emit .armTimer) := (hc.emit rfl).emit rfl
    obtain ⟨hC, hw, hd, hp⟩ := doRead_spec hi
    rw [dispatched_emit _ _ (by simp), dispatched_emit _ _ (by simp)] at hd
    exact ⟨⟨hC, hw.mode⟩, hd, hp, hw.no_interim⟩
  · refine ⟨(hc.emit rfl).closed, dispatched_emit _ _ (by simp), rfl, ?_⟩
    show Op.interim ∉ c.outstanding
    simp [hc.outstanding]

/-- **Every event keeps the invariant.** -/
theorem step_inv (srv : Server σ) (hc : Inv len rcv c) {e : Event} {c' : Conn σ}
    (hfit : ∀ h, IsHead crlf2 len (rcv ++ e.bytes) h → Fits len h)
    (hstep : step srv c e = some c') : Inv len (rcv ++ e.bytes) c' := by
  obtain ⟨hf, ⟨data, rfl, ho, hd, rfl⟩ | ⟨rfl, off, n, ho, rfl⟩ | ⟨ok, rfl, ho, rfl⟩ |
    ⟨ok, rfl, ho, rfl⟩⟩ := step_cases srv hc hstep
  · have hi := (afterRead_spec hc ho hf data hd).1
    exact (parse_inv srv hi fun h _ hs => hfit h (hi.isHead hs)).1
  · rw [Event.bytes, List.append_nil]
    exact (complete_idle hc ho hf).closed
  · rw [Event.bytes, List.append_nil]
    exact (onResponseDone_spec (complete_idle hc ho hf)).1
  · have hi := complete_idle hc ho hf
    rw [Event.bytes, List.append_nil] at hfit ⊢
    unfold onInterimDone
    split
    · exact hi.closed
    · split
      · exact (parse_inv srv hi fun h _ hs => hfit h (hi.isHead hs)).2
      · exact doRead_inv hi

theorem accept_idle (len : Bytes → Nat) (ip : Bytes) (w : σ) :
    Idle len [] (accept ip w : Conn σ) where
  size := ⟨13, le_refl _, by norm_num, by
    show (List.replicate 8192 (0 : UInt8)).length = _
    rw [List.length_replicate]
    norm_num⟩
  used_le := Nat.zero_le _
  takes := .nil []
  head := fun h => absurd h Bool.false_ne_true
  extracts := fun _ _ _ _ h => absurd h List.not_mem_nil
  offered := fun _ _ h => absurd h List.not_mem_nil
  outstanding := rfl
  fault := rfl

/-- **The invariant holds in every state of every run** whose heads fit. -/
theorem run_inv (srv : Server σ) {ip : Bytes} {w : σ} {evs : List Event} {c : Conn σ}
    (hfit : ∀ h, IsHead crlf2 len (received evs) h → Fits len h)
    (hrun : run srv ip w evs = some c) : Inv len (received evs) c := by
  have key := Runs.runs_induction (step srv) (doRead (accept ip w))
    (fun es c => (∀ h, IsHead crlf2 len (received es) h → Fits len h) → Inv len (received es) c)
    (fun _ => doRead_inv (accept_idle len ip w))
    (fun es s e s' _ ih hs hf => by
      rw [received_snoc] at hf ⊢
      exact step_inv srv (ih fun h hh => hf h (hh.append e.bytes)) hf hs) hrun
  exact key hfit

/-! ## the two results about runs -/

/-- the body length that the session computes for a head: the announced one in a `size_t` -/
def scannedLength (h : Bytes) : Nat := sizeT (refLength h)

/-- **As long as no sum of head and body length wraps**, every request is taken from bytes that
were received, and the only exception that can leave a handler is that of a buffer which can no
longer grow, after `2^62` bytes. -/
theorem extract_in_bounds (srv : Server σ) (ip : Bytes) (w : σ) (evs : List Event) (c : Conn σ)
    (hrun : run srv ip w evs = some c)
    (hsum : ∀ h, IsHead crlf2 scannedLength (received evs) h →
      h.length + scannedLength h < 2 ^ 64) :
    (∀ H V u n, Action.extract H V u n ∈ c.trace → H + V ≤ u ∧ u ≤ n) ∧
      (c.fault = none ∨ c.fault = some .resizeError ∧ 2 ^ 62 ≤ (received evs).length) := by
  have hI : Inv scannedLength (received evs) c :=
    run_inv srv (fun h hh => ⟨rfl, fun _ => hsum h hh⟩) hrun
  refine ⟨hI.extracts, ?_⟩
  have hrcv : c.s.used ≤ (received evs).length := by
    rw [takes_joined hI.takes, List.length_append, hI.pending_length]
    omega
  cases hI.mode with
  | closed _ hf => exact Or.inl hf
  | failed _ hf hu => exact Or.inr ⟨hf, hu.trans hrcv⟩
  | reading _ hf _ => exact Or.inl hf
  | responding _ hf _ => exact Or.inl hf
  | interim _ hf _ => exact Or.inl hf

/-- two reads of a request with a body -/
def exampleReads : List Event :=
  [.readOk (str "PUT /a HTTP/1.1\r\nContent-Le"), .readOk (str "ngth: 2\r\n\r\nhi")]

set_option maxRecDepth 100000 in
theorem extract_in_bounds_put :
    ∃ c, run Server.empty [] () exampleReads = some c ∧ c.dispatched.length = 1 ∧
      (∀ H V u n, Action.extract H V u n ∈ c.trace → H + V ≤ u ∧ u ≤ n) ∧
      (c.fault = none ∨ c.fault = some .resizeError ∧ 2 ^ 62 ≤ (received exampleReads).length) := by
  have hs : (run Server.empty [] () exampleReads).any (·.dispatched.length = 1) = true := by
    decide +kernel
  obtain ⟨c, hrun, hc⟩ := (Option.any_eq_true _ _).mp hs
  refine ⟨c, hrun, of_decide_eq_true hc,
    extract_in_bounds Server.empty [] () exampleReads c hrun fun h hh => ?_⟩
  have hn : blockNext crlf2 scannedLength (received exampleReads)
      = some ((str "PUT /a HTTP/1.1\r\nContent-Length: 2\r\n\r\n", str "hi"), []) := by
    decide +kernel
  rw [hh.eq_of_single crlf2_ne_nil hn]
  decide +kernel

set_option maxRecDepth 100000 in
/-- a sum that wraps passes the length test, and the copy of the body throws -/
theorem extract_out_of_bounds :
    ∃ c, run Server.empty [] () [.readOk (str
        "GET / HTTP/1.1\r\nContent-Length: 18446744073709551615\r\n\r\n")] = some c ∧
      Action.extract 56 18446744073709551615 56 8192 ∈ c.trace ∧
      ¬ 56 + 18446744073709551615 ≤ 56 ∧ c.fault = some .lengthError := by
  have hs : (run Server.empty [] () [.readOk (str
      "GET / HTTP/1.1\r\nContent-Length: 18446744073709551615\r\n\r\n")]).any (fun c =>
        .extract 56 18446744073709551615 56 8192 ∈ c.trace ∧
          c.fault = some .lengthError) = true := by
    decide +kernel
  obtain ⟨c, hrun, hc⟩ := (Option.any_eq_true _ _).mp hs
  obtain ⟨h1, h2⟩ := of_decide_eq_true hc
  exact ⟨c, hrun, h1, by norm_num, h2⟩

/-- **The session agrees with the reference parser** in every state of every run, for every
continuation `future` of the stream. -/
theorem dispatched_prefix (srv : Server σ) (ip : Bytes) (w : σ) (evs : List Event) (c : Conn σ)
    (future : Bytes) (hrun : run srv ip w evs = some c)
    (hlen : ∀ h, IsHead crlf2 refLength (received evs ++ future) h → refLength h < 2 ^ 63) :
    joined c.dispatched ++ c.s.buf.take c.s.used = received evs ∧
      (c.s.buf.take c.s.used).length = c.s.used ∧
      c.dispatched <+: refReader.frames (received evs ++ future) ∧
      ∀ off n, Action.read off n ∈ c.trace → off < n := by
  have hfit : ∀ h, IsHead crlf2 refLength (received evs) h → Fits refLength h := by
    intro h hh
    have hlt := hlen h (hh.append future)
    exact ⟨sizeT_of_lt (by omega), fun _ => by omega⟩
  have hI := run_inv srv hfit hrun
  exact ⟨(takes_joined hI.takes).symm, hI.pending_length, hI.takes.isPrefix_frames future,
    hI.offered⟩

set_option maxRecDepth 100000 in
theorem dispatched_prefix_put :
    ∃ c, run Server.empty [] () exampleReads = some c ∧ c.dispatched.length = 1 ∧
      joined c.dispatched ++ c.s.buf.take c.s.used = received exampleReads ∧
      (c.s.buf.take c.s.used).length = c.s.used ∧
      c.dispatched <+: refReader.frames (received exampleReads ++ []) ∧
      ∀ off n, Action.read off n ∈ c.trace → off < n := by
  have hs : (run Server.empty [] () exampleReads).any (·.dispatched.length = 1) = true := by
    decide +kernel
  obtain ⟨c, hrun, hc⟩ := (Option.any_eq_true _ _).mp hs
  refine ⟨c, hrun, of_decide_eq_true hc,
    dispatched_prefix Server.empty [] () exampleReads c [] hrun fun h hh => ?_⟩
  have hn : blockNext crlf2 refLength (received exampleReads ++ [])
      = some ((str "PUT /a HTTP/1.1\r\nContent-Length: 2\r\n\r\n", str "hi"), []) := by
    decide +kernel
  rw [hh.eq_of_single crlf2_ne_nil hn]
  decide +kernel

end ServerHttpLib
