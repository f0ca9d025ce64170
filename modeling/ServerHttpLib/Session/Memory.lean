import ServerHttpLib.Session.Pipelining

/-!
# The memory of a session

The buffer of a session is doubled when it is full before a read, and never gets smaller.  A read
behind a response finds room, since the bytes of the request have left the buffer; and a read
behind a parse that took nothing, or behind an interim response, finds a part of one request there.
So the buffer of a session is at most twice the longest request, however many of them it serves and
however they arrive.
-/

namespace ServerHttpLib
open Cutting Frames Conn

variable {σ : Type} {len : Bytes → Nat} {rcv : Bytes} {c c' : Conn σ}

/-! ## what changes the size of the buffer -/

theorem parseHead_frame (s : SslSession) :
    s.parseHead.2.buf = s.buf ∧ s.parseHead.2.used = s.used := by
  unfold SslSession.parseHead
  split
  · exact ⟨rfl, rfl⟩
  · dsimp only
    split
    · exact ⟨rfl, rfl⟩
    · exact ⟨rfl, rfl⟩

theorem extract_bufLength (srv : Server σ) (hu : c.s.used ≤ c.s.buf.length) :
    (extractAndHandle srv c).2.s.buf.length = c.s.buf.length := by
  unfold extractAndHandle
  by_cases hlen : c.s.used < sizeT (c.s.headersLen + c.s.contentLength)
  · rw [if_pos hlen]
  · rw [if_neg hlen]
    dsimp only
    cases hcopy : c.s.copyOut with
    | error f =>
      simp only [emit, hcopy]
      rfl
    | ok b =>
      simp only [emit, hcopy]
      rw [(processRequest_spec srv b.1 b.2 _).2.2.1]
      exact (shift_spec rfl (Nat.le_of_not_lt hlen) hu).2.1

theorem tryParse_bufLength (srv : Server σ) (hu : c.s.used ≤ c.s.buf.length) :
    (tryParseAndHandle srv c).2.s.buf.length = c.s.buf.length := by
  unfold tryParseAndHandle
  by_cases hh : c.s.haveHeaders = true
  · rw [if_pos hh]
    exact extract_bufLength srv hu
  · rw [if_neg hh]
    obtain ⟨hb, hused⟩ := parseHead_frame c.s
    generalize c.s.parseHead = p at hb hused ⊢
    obtain ⟨ok, s⟩ := p
    cases ok with
    | false => exact congrArg List.length hb
    | true =>
      dsimp only at hb hused ⊢
      by_cases hx : s.expectContinue = true
      · rw [if_pos hx]
        exact congrArg List.length hb
      · rw [if_neg hx]
        have hu' : s.used ≤ s.buf.length := by
          rw [hb, hused]
          exact hu
        exact (@extract_bufLength σ { c with s := s } srv hu').trans (congrArg List.length hb)

theorem doRead_bufLength (hpos : c.s.buf ≠ []) :
    (doRead c).s.buf.length = c.s.buf.length ∨
      c.s.used = c.s.buf.length ∧ (doRead c).s.buf.length = 2 * c.s.used := by
  have hne : c.s.buf.isEmpty = false := by simpa using hpos
  unfold doRead SslSession.ensureCapacity
  simp only [hne, Bool.false_eq_true, if_false]
  by_cases hfull : c.s.used = c.s.buf.length
  · by_cases hmax : maxSize < c.s.buf.length * 2
    · simp only [if_pos hfull, if_pos hmax]
      exact .inl rfl
    · simp only [if_pos hfull, if_neg hmax]
      refine .inr ⟨hfull, ?_⟩
      show (c.s.buf ++ List.replicate c.s.buf.length 0).length = _
      rw [List.length_append, List.length_replicate]
      omega
  · simp only [if_neg hfull]
    exact .inl rfl

/-! ## the bound -/

/-- the buffer is within the bound for requests of at most `N` bytes, and the next read finds room
if a response is being written -/
structure Roomy (N : Nat) (c : Conn σ) : Prop where
  size : c.s.buf.length ≤ max 8192 (2 * N)
  room : Op.response ∈ c.outstanding → c.s.used < c.s.buf.length

theorem Core.buf_ne_nil (hc : Core len rcv c) : c.s.buf ≠ [] :=
  List.ne_nil_of_length_pos hc.size_pos

/-- a read behind which there is room, or that does not have more than a part of a request before
it -/
theorem Roomy.doRead {N : Nat} (hI : Idle len rcv c) (h : c.s.buf.length ≤ max 8192 (2 * N))
    (hu : c.s.used < c.s.buf.length ∨ c.s.used ≤ N) : Roomy N (doRead c) := by
  obtain ⟨-, hw, -⟩ := doRead_spec hI
  refine ⟨?_, fun hr => ?_⟩
  · rcases doRead_bufLength hI.toCore.buf_ne_nil with he | ⟨hfull, he⟩
    · exact he ▸ h
    · rw [he]
      have hN : c.s.used ≤ N := hu.resolve_left (by omega)
      omega
  · rcases hw with ⟨ho, -⟩ | ⟨ho, -⟩
    · exact absurd hr (by simp [ho])
    · exact absurd hr (by simp [ho])

/-! ## one event -/

/-- one complete request, with an `Expect` header or without; its size is that of an object in
memory -/
structure WholeRequest (r : Bytes × Bytes) : Prop where
  head : blockHead crlf2 r.1 = some (r.1, [])
  length : refLength r.1 = r.2.length
  size : r.1.length + r.2.length < 2 ^ 64

variable {reqs : List (Bytes × Bytes)} {N : Nat}

theorem messages_of_whole (hreq : ∀ r ∈ reqs, WholeRequest r) : Messages crlf2 refLength reqs :=
  fun r hr => ⟨(hreq r hr).head, (hreq r hr).length⟩

theorem fits_of_isHead (hreq : ∀ r ∈ reqs, WholeRequest r) {s h : Bytes} (hs : s <+: joined reqs)
    (hh : IsHead crlf2 refLength s h) : Fits refLength h := by
  obtain ⟨r, hr, rfl⟩ := hh.mem_of_isPrefix crlf2_ne_nil (messages_of_whole hreq) hs
  have hsize := (hreq r hr).size
  have hlength := (hreq r hr).length
  exact ⟨sizeT_of_lt (by omega), fun _ => by omega⟩

/-- without a complete request, less than one request waits -/
theorem prefix_le (hN : ∀ r ∈ reqs, r.1.length + r.2.length ≤ N) {s : Bytes}
    (hs : s <+: joined reqs) (h0 : completeBy reqs s.length = 0) : s.length ≤ N := by
  cases reqs with
  | nil =>
    rw [joined_nil] at hs
    rw [List.prefix_nil.mp hs]
    exact Nat.zero_le N
  | cons r rs =>
    rw [completeBy] at h0
    split at h0
    · exact absurd h0 (by simp)
    · have := hN r List.mem_cons_self
      omega

section
variable (srv : Server σ) (hreq : ∀ r ∈ reqs, WholeRequest r)
  (hN : ∀ r ∈ reqs, r.1.length + r.2.length ≤ N)
include hreq hN

theorem used_le_of_next_none (hc : Core refLength rcv c) (hs : rcv <+: joined reqs)
    (hn : blockNext crlf2 refLength c.s.pending = none) : c.s.used ≤ N := by
  have hmsg := messages_of_whole hreq
  have htake := hc.takes
  have hpre := htake.isPrefix_of_messages hmsg hs
  rw [List.prefix_iff_eq_take.mp hpre] at htake
  obtain ⟨hrest, -⟩ := Reader.Takes.completeBy_eq hpre.length_le hs htake
  rw [← hc.pending_length]
  rcases (hmsg.drop _).next_of_isPrefix crlf2_ne_nil hrest with ⟨b, bs, r, -, hn', -⟩ | ⟨-, h0⟩
  · exact absurd (hn.symm.trans hn') (by simp)
  · exact prefix_le (fun r hr => hN r (List.mem_of_mem_drop hr)) hrest h0

/-- a parse that takes a request leaves room, and one that does not finds a part of a request -/
theorem parse_roomy (hc : Idle refLength rcv c) (hs : rcv <+: joined reqs)
    (hsize : c.s.buf.length ≤ max 8192 (2 * N)) :
    Roomy N (parseOrRead srv c) ∧ Roomy N (tryParseAndHandle srv c).2 := by
  have hfit : ∀ h r, blockHead crlf2 c.s.pending = some (h, r) → Fits refLength h := fun h r hh =>
    fits_of_isHead hreq hs (hc.isHead hh)
  have hbuf := tryParse_bufLength srv hc.toCore.used_le
  unfold parseOrRead
  rcases tryParse_spec srv hc hfit with ⟨c', he, hI', hn, -, hp'⟩ |
    ⟨h, r, c', he, -, -, -, ho, -⟩ | ⟨b, r, c', he, hI', hn, ho, -, -, hp'⟩
  · rw [he] at hbuf ⊢
    have hu : c'.s.used ≤ N :=
      used_le_of_next_none hreq hN hI'.toCore hs (hp'.symm ▸ hn)
    exact ⟨Roomy.doRead hI' (hbuf ▸ hsize) (.inr hu),
      hbuf ▸ hsize, fun hr => absurd hr (by simp [hI'.outstanding])⟩
  · rw [he] at hbuf ⊢
    have hroomy : Roomy N c' := ⟨hbuf ▸ hsize, fun hr => absurd hr (by simp [ho])⟩
    exact ⟨hroomy, hroomy⟩
  · rw [he] at hbuf ⊢
    have hroomy : Roomy N c' := by
      refine ⟨hbuf ▸ hsize, fun _ => ?_⟩
      -- the request has left the buffer, and a request is not empty
      have hlt : r.length < c.s.pending.length := (requestReader refLength).shrink hn
      have hused := hc.toCore.pending_length
      have hused' := hI'.toCore.pending_length
      have hle := hc.toCore.used_le
      rw [hp'] at hused'
      have hbuf : c'.s.buf.length = c.s.buf.length := hbuf
      omega
    exact ⟨hroomy, hroomy⟩

/-- behind an interim response: either the request is complete, or a part of it is there -/
theorem interim_roomy (hc : Idle refLength rcv c) (hs : rcv <+: joined reqs)
    (hh : c.s.haveHeaders = true) (hsize : c.s.buf.length ≤ max 8192 (2 * N)) (ok : Bool) :
    Roomy N (onInterimDone srv c ok) := by
  unfold onInterimDone
  split
  · exact ⟨hsize, fun hr => absurd hr (by simp [hc.outstanding])⟩
  · split
    · exact (parse_roomy srv hreq hN hc hs hsize).2
    · next hshort =>
      obtain ⟨h, r, hhead, hlen, hcontent⟩ := hc.head hh
      have hused := hc.toCore.pending_length
      rw [blockHead_length hhead] at hused
      have hle := hc.toCore.used_le
      have hmax := hc.toCore.size_le
      have hsum := (fits_of_isHead hreq hs (hc.isHead hhead)).sum (by omega)
      rw [hlen, hcontent, sizeT_of_lt hsum] at hshort
      have hn : blockNext crlf2 refLength c.s.pending = none := by
        unfold blockNext
        rw [hhead]
        exact if_neg (by omega)
      exact Roomy.doRead hc hsize (.inr (used_le_of_next_none hreq hN hc.toCore hs hn))

theorem step_roomy (hinv : Inv refLength rcv c) {e : Event} (hs : rcv ++ e.bytes <+: joined reqs)
    (hr : Roomy N c) (hstep : step srv c e = some c') : Roomy N c' := by
  obtain ⟨hf, ⟨data, rfl, ho, hd, rfl⟩ | ⟨rfl, off, n, ho, rfl⟩ | ⟨ok, rfl, ho, rfl⟩ |
    ⟨ok, rfl, ho, rfl⟩⟩ := step_cases srv hinv hstep
  · obtain ⟨hi, -⟩ := afterRead_spec hinv ho hf data hd
    exact (parse_roomy srv hreq hN hi hs ((receive_spec hinv.used_le data hd).1 ▸ hr.size)).1
  · exact ⟨hr.size, fun h => absurd h (by simp [complete, ho])⟩
  · have hi := complete_idle hinv ho hf
    unfold onResponseDone
    by_cases hka : (c.complete .response).s.keepAlive = true
    · rw [if_pos hka]
      exact Roomy.doRead ((hi.emit rfl).emit rfl) hr.size (.inl (hr.room (by simp [ho])))
    · rw [if_neg hka]
      exact ⟨hr.size, fun h => absurd h (by simp [emit, complete, ho])⟩
  · have hhave : c.s.haveHeaders = true := by
      cases hinv.mode with
      | interim _ _ hh => exact hh
      | closed ho' _ => exact absurd (ho'.symm.trans ho) (by simp)
      | failed ho' _ _ => exact absurd (ho'.symm.trans ho) (by simp)
      | reading ho' _ _ => exact absurd (ho'.symm.trans ho) (by simp)
      | responding ho' _ _ => exact absurd (ho'.symm.trans ho) (by simp)
    have hs : rcv <+: joined reqs := (List.prefix_append _ _).trans hs
    exact interim_roomy srv hreq hN (complete_idle hinv ho hf) hs hhave hr.size ok

end

/-! ## whole runs -/

/-- **The memory of a session is bounded by its longest request.**  In every state of every run in
which a session receives a part of a stream of complete requests, its buffer has at most twice the
bytes of the longest of them, or its first size; and if that is less than the longest allocation,
no handler throws. -/
theorem buffer_bounded (srv : Server σ) (ip : Bytes) (w : σ) (reqs : List (Bytes × Bytes)) (N : Nat)
    (evs : List Event) (c : Conn σ) (hreq : ∀ r ∈ reqs, WholeRequest r)
    (hN : ∀ r ∈ reqs, r.1.length + r.2.length ≤ N) (hrun : run srv ip w evs = some c)
    (hs : received evs <+: joined reqs) :
    c.s.buf.length ≤ max 8192 (2 * N) ∧ (2 * N < 2 ^ 62 → c.fault = none) := by
  have hinv : ∀ {es : List Event} {s : Conn σ}, received es <+: joined reqs →
      run srv ip w es = some s → Inv refLength (received es) s := fun hs' hrun' =>
    run_inv srv (fun h hh => fits_of_isHead hreq hs' hh) hrun'
  have key := Runs.runs_induction (step srv) (doRead (accept ip w))
    (fun es c => received es <+: joined reqs → Roomy N c) (fun _ => ?_)
    (fun es s e s' hrun' ih hst hs' => ?_) hrun
  · have hr := key hs
    refine ⟨hr.size, fun hlt => ?_⟩
    have hI := hinv hs hrun
    cases hI.mode with
    | closed _ hf => exact hf
    | failed _ _ hu =>
      have h1 := hI.used_le
      have h2 := hr.size
      omega
    | reading _ hf _ => exact hf
    | responding _ hf _ => exact hf
    | interim _ hf _ => exact hf
  · refine Roomy.doRead (accept_idle refLength ip w) ?_ (.inr (Nat.zero_le N))
    show (List.replicate 8192 (0 : UInt8)).length ≤ _
    rw [List.length_replicate]
    exact Nat.le_max_left _ _
  · rw [received_snoc] at hs'
    have hs : received es <+: joined reqs := (List.prefix_append _ _).trans hs'
    exact step_roomy srv hreq hN (hinv hs hrun') hs' (ih hs) hst

/-- a request that does not fit the first buffer, and asks for an interim response -/
def bigRequest : Bytes × Bytes :=
  (str "POST /big HTTP/1.1\r\nExpect: 100-continue\r\nContent-Length: 9000\r\n\r\n",
    List.replicate 9000 (ch 'x'))

/-- the first part of it fills the buffer -/
def bigReads : List Event :=
  [.readOk ((joined [bigRequest]).take 8192), .interimDone true,
    .readOk ((joined [bigRequest]).drop 8192)]

set_option maxRecDepth 100000 in
theorem buffer_bounded_big :
    ∃ c, run Server.empty [] () bigReads = some c ∧ c.dispatched.length = 1 ∧
      c.s.buf.length = 16384 ∧ c.s.buf.length ≤ max 8192 (2 * 9066) ∧
      (2 * 9066 < 2 ^ 62 → c.fault = none) := by
  have hrun : (run Server.empty [] () bigReads).any
      (fun c => c.dispatched.length = 1 ∧ c.s.buf.length = 16384) = true := by
    decide +kernel
  obtain ⟨c, hrun, hc⟩ := (Option.any_eq_true _ _).mp hrun
  obtain ⟨hd, hbuf⟩ := of_decide_eq_true hc
  have hbody : bigRequest.2.length = 9000 := List.length_replicate
  have hhead : bigRequest.1.length = 66 := by decide +kernel
  have hwhole : WholeRequest bigRequest :=
    ⟨by decide +kernel, by rw [hbody]; decide +kernel, by rw [hbody, hhead]; norm_num⟩
  have hrcv : received bigReads <+: joined [bigRequest] := by
    have he : received bigReads = joined [bigRequest] := by
      show [(joined [bigRequest]).take 8192, (joined [bigRequest]).drop 8192].flatten = _
      rw [List.flatten_cons, List.flatten_cons, List.flatten_nil, List.append_nil,
        List.take_append_drop]
    rw [he]
  refine ⟨c, hrun, hd, hbuf, buffer_bounded Server.empty [] () [bigRequest] 9066 bigReads c
    (fun r hr => List.mem_singleton.mp hr ▸ hwhole) (fun r hr => ?_) hrun hrcv⟩
  rw [List.mem_singleton.mp hr, hbody, hhead]

end ServerHttpLib
