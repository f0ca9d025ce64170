import ServerHttpLib.Session.Framing
import ServerHttpLib.Lib.Pacing

/-!
# Requests sent back to back

A session parses behind a read, not behind the write of a response: of several requests that are
complete in its buffer it takes one, and the next one waits until more bytes arrive.  So it takes
one request behind each read, as long as there are complete ones:

* `run_paced`             the requests dispatched in a run are the first `paced` ones;
* `run_waiting`           until there is one the session has a read outstanding;
* `dispatched_all_iff`    all requests are dispatched if and only if, behind every read, the reads
                          to come are at least as many as the requests that are not complete.
-/

namespace ServerHttpLib
open Cutting Frames Conn

variable {σ : Type}

/-- one complete request without an `Expect` header; its size is that of an object in memory -/
structure CompleteRequest (r : Bytes × Bytes) : Prop where
  head : blockHead crlf2 r.1 = some (r.1, [])
  length : refLength r.1 = r.2.length
  expect : refExpect r.1 = false
  size : r.1.length + r.2.length < 2 ^ 64

variable {reqs : List (Bytes × Bytes)}

theorem messages_of_complete (hreq : ∀ r ∈ reqs, CompleteRequest r) :
    Messages crlf2 refLength reqs :=
  fun r hr => ⟨(hreq r hr).head, (hreq r hr).length⟩

theorem fits_of_complete {r : Bytes × Bytes} (hr : CompleteRequest r) : Fits refLength r.1 := by
  have hs := hr.size
  have hl := hr.length
  exact ⟨sizeT_of_lt (by omega), fun _ => by omega⟩

theorem complete_of_isHead (hreq : ∀ r ∈ reqs, CompleteRequest r) {s h : Bytes}
    (hs : s <+: joined reqs) (hh : IsHead crlf2 refLength s h) :
    Fits refLength h ∧ refExpect h = false := by
  obtain ⟨r, hr, rfl⟩ := hh.mem_of_isPrefix crlf2_ne_nil (messages_of_complete hreq) hs
  exact ⟨fits_of_complete (hreq r hr), (hreq r hr).expect⟩

/-! ## one event -/

/-- the requests taken so far are as many as the pace allows -/
structure PacedAt (reqs : List (Bytes × Bytes)) (evs : List Event) (c : Conn σ) : Prop where
  inv : Inv refLength (received evs) c
  dispatched : c.dispatched = reqs.take (paced reqs (reads evs))
  le : paced reqs (reads evs) ≤ completeBy reqs (received evs).length
  noInterim : Op.interim ∉ c.outstanding

theorem reads_snoc_read (evs : List Event) (data : Bytes) :
    reads (evs ++ [.readOk data]) = reads evs ++ [data] := by
  simp [reads, List.filterMap_append]

theorem reads_snoc (evs : List Event) {e : Event} (he : ∀ data, e ≠ .readOk data) :
    reads (evs ++ [e]) = reads evs := by
  cases e with
  | readOk data => exact absurd rfl (he data)
  | _ => simp [reads, List.filterMap_append]

theorem PacedAt.quiet {evs : List Event} {c c' : Conn σ} (hp : PacedAt reqs evs c) {e : Event}
    (he : ∀ data, e ≠ .readOk data) (hI : Inv refLength (received evs) c')
    (hd : c'.dispatched = c.dispatched) (hn : Op.interim ∉ c'.outstanding) :
    PacedAt reqs (evs ++ [e]) c' := by
  have hr : received (evs ++ [e]) = received evs := by
    unfold received
    rw [reads_snoc evs he]
  exact ⟨hr ▸ hI, by rw [hd, hp.dispatched, reads_snoc evs he],
    by rw [reads_snoc evs he, hr]; exact hp.le, hn⟩

/-- a parse behind new bytes takes the next request if it is complete -/
theorem parse_paced (srv : Server σ) (hreq : ∀ r ∈ reqs, CompleteRequest r) {rcv : Bytes}
    {c : Conn σ} {d : Nat} (hc : Idle refLength rcv c) (hs : rcv <+: joined reqs)
    (hd : c.dispatched = reqs.take d) (hle : d ≤ completeBy reqs rcv.length) :
    Inv refLength rcv (parseOrRead srv c) ∧
      (parseOrRead srv c).dispatched = reqs.take (min (d + 1) (completeBy reqs rcv.length)) ∧
      Op.interim ∉ (parseOrRead srv c).outstanding := by
  have hfit : ∀ h r, blockHead crlf2 c.s.pending = some (h, r) → Fits refLength h := fun h r hh =>
    (complete_of_isHead hreq hs (hc.isHead hh)).1
  have hI := (parse_inv srv hc hfit).1
  have htake := hc.takes
  rw [hd] at htake
  have hdl : d ≤ reqs.length := hle.trans (completeBy_le reqs _)
  obtain ⟨hpre, hcb⟩ := Reader.Takes.completeBy_eq hdl hs htake
  have hmsg := (messages_of_complete hreq).drop d
  refine ⟨hI, ?_⟩
  unfold parseOrRead
  rcases tryParse_spec srv hc hfit with ⟨c', he, hI', hn, hd', -⟩ |
    ⟨h, r, c', -, -, hs', hx, -⟩ | ⟨b, r, c', he, -, hn, ho, -, hd', -⟩
  · -- no request is complete
    obtain ⟨-, hw, hd₂, -⟩ := doRead_spec hI'
    rw [he]
    rcases hmsg.next_of_isPrefix crlf2_ne_nil hpre with ⟨b, bs, r, -, hn', -⟩ | ⟨-, h0⟩
    · rw [hn] at hn'
      exact absurd hn' (by simp)
    · refine ⟨?_, hw.no_interim⟩
      rw [hd₂, hd', hd, hcb, h0, Nat.min_eq_right (by omega), Nat.add_zero]
  · -- an interim response is not wanted
    have := (complete_of_isHead hreq hs (hc.isHead hs')).2
    rw [hx] at this
    exact absurd this (by simp)
  · rw [he]
    refine ⟨?_, by simp [ho]⟩
    rcases hmsg.next_of_isPrefix crlf2_ne_nil hpre with ⟨b', bs, r', hbs, hn', -, hpos⟩ | ⟨hn', -⟩
    · rw [hn, Option.some.injEq, Prod.mk.injEq] at hn'
      obtain ⟨rfl, -⟩ := hn'
      have hget : reqs[d]? = some b := by
        rw [← List.head?_drop, hbs]
        rfl
      rw [hd', hd, hcb, Nat.min_eq_left (by omega), List.take_add_one, hget]
      rfl
    · rw [hn] at hn'
      exact absurd hn' (by simp)

theorem step_paced (srv : Server σ) (hreq : ∀ r ∈ reqs, CompleteRequest r) {evs : List Event}
    {c c' : Conn σ} {e : Event} (hp : PacedAt reqs evs c)
    (hs : received (evs ++ [e]) <+: joined reqs) (hstep : step srv c e = some c') :
    PacedAt reqs (evs ++ [e]) c' := by
  obtain ⟨hf, ⟨data, rfl, ho, hd, rfl⟩ | ⟨rfl, off, n, ho, rfl⟩ | ⟨ok, rfl, ho, rfl⟩ |
    ⟨ok, rfl, ho, rfl⟩⟩ := step_cases srv hp.inv hstep
  · obtain ⟨hi, hd₁, -⟩ := afterRead_spec hp.inv ho hf data hd
    have hrcv : received (evs ++ [.readOk data]) = received evs ++ data := received_snoc evs _
    have hle : paced reqs (reads evs) ≤ completeBy reqs (received evs ++ data).length := by
      refine hp.le.trans (completeBy_mono reqs ?_)
      rw [List.length_append]
      exact Nat.le_add_right _ _
    rw [hrcv] at hs
    obtain ⟨hI, hd₂, hn⟩ := parse_paced srv hreq hi hs (hd₁.trans hp.dispatched) hle
    have hpace : paced reqs (reads (evs ++ [.readOk data]))
        = min (paced reqs (reads evs) + 1) (completeBy reqs (received evs ++ data).length) := by
      rw [reads_snoc_read, paced_snoc, List.flatten_append, List.flatten_singleton]
      rfl
    exact ⟨hrcv ▸ hI, by rw [hd₂, hpace], by rw [hpace, hrcv]; exact Nat.min_le_right _ _, hn⟩
  · have hi := complete_idle hp.inv ho hf
    exact hp.quiet (by simp) hi.closed rfl (by simp [hi.outstanding])
  · obtain ⟨hI, hd, -, hn⟩ := onResponseDone_spec (complete_idle hp.inv ho hf)
    exact hp.quiet (by simp) hI hd hn
  · exact absurd (by simp [ho]) hp.noInterim

/-! ## whole runs -/

/-- **What a run dispatches**, while it receives a part of the stream of the requests -/
theorem run_paced (srv : Server σ) {ip : Bytes} {w : σ} {evs : List Event} {c : Conn σ}
    (hreq : ∀ r ∈ reqs, CompleteRequest r) (hrun : run srv ip w evs = some c)
    (hs : received evs <+: joined reqs) : PacedAt reqs evs c := by
  have key := Runs.runs_induction (step srv) (doRead (accept ip w))
    (fun es c => received es <+: joined reqs → PacedAt reqs es c) (fun _ => ?_)
    (fun es s e s' _ ih hst hs' => ?_) hrun
  · exact key hs
  · obtain ⟨hC, hw, hd, -⟩ := doRead_spec (accept_idle refLength ip w)
    exact ⟨⟨hC, hw.mode⟩, hd, Nat.zero_le _, hw.no_interim⟩
  · refine step_paced srv hreq (ih ?_) hs' hst
    rw [received_snoc] at hs'
    exact (List.prefix_append _ _).trans hs'

theorem run_waiting (srv : Server σ) {ip : Bytes} {w : σ} {evs : List Event} {c : Conn σ}
    (hreq : ∀ r ∈ reqs, CompleteRequest r) (hrun : run srv ip w evs = some c)
    (hs : received evs <+: joined reqs) (herr : Event.readErr ∉ evs) (hd : c.dispatched = []) :
    Waiting c := by
  have key := Runs.runs_induction (step srv) (doRead (accept ip w))
    (fun es c => received es <+: joined reqs → Event.readErr ∉ es → c.dispatched = [] → Waiting c)
    (fun _ _ _ => (doRead_spec (accept_idle refLength ip w)).2.1) ?_ hrun
  · exact key hs herr hd
  · intro es s e s' hrun ih hst hs' herr hd
    rw [List.mem_append, List.mem_singleton, not_or] at herr
    have hs : received es <+: joined reqs := by
      rw [received_snoc] at hs'
      exact (List.prefix_append _ _).trans hs'
    have hp := run_paced srv hreq hrun hs
    obtain ⟨hf, ⟨data, rfl, ho, hle, rfl⟩ | ⟨rfl, -⟩ | ⟨ok, rfl, ho, rfl⟩ | ⟨ok, rfl, ho, rfl⟩⟩ :=
      step_cases srv hp.inv hst
    · have hi := (afterRead_spec hp.inv ho hf data hle).1
      rw [received_snoc] at hs'
      have hcomplete := fun h hh => complete_of_isHead hreq hs' (h := h) hh
      unfold parseOrRead at hd ⊢
      rcases tryParse_spec srv hi fun h r hh => (hcomplete h (hi.isHead hh)).1 with
        ⟨c', he, hI', -⟩ | ⟨h, r, c', -, -, hh, hx, -⟩ | ⟨b, r, c', he, -, -, -, -, hd', -⟩
      · rw [he]
        exact (doRead_spec hI').2.1
      · have := (hcomplete h (hi.isHead hh)).2
        rw [hx] at this
        exact absurd this (by simp)
      · rw [he] at hd
        exact absurd (hd'.symm.trans hd) (by simp)
    · exact absurd rfl herr.2
    · -- a response is only outstanding behind a dispatch
      have hd₀ := (onResponseDone_spec (complete_idle hp.inv ho hf)).2.1
      rcases ih hs herr.1 (hd₀.symm.trans hd) with ⟨ho', -⟩ | ⟨ho', -⟩
      · exact absurd (ho.symm.trans ho') (by simp)
      · exact absurd (ho.symm.trans ho') (by simp)
    · exact absurd (by simp [ho]) hp.noInterim

/-! ## a single request -/

section
variable {r : Bytes × Bytes} {ip : Bytes} {w : σ} {evs : List Event} {c : Conn σ}

theorem joined_single (r : Bytes × Bytes) : joined [r] = r.1 ++ r.2 := by
  rw [joined_cons, joined_nil, List.append_nil]

/-- as long as a part of a request is missing the session waits for it -/
theorem waiting_single (srv : Server σ) (hr : CompleteRequest r) (hrun : run srv ip w evs = some c)
    (herr : Event.readErr ∉ evs) (hs : received evs <+: r.1 ++ r.2)
    (hne : received evs ≠ r.1 ++ r.2) : c.dispatched = [] ∧ Waiting c := by
  have hreq : ∀ r' ∈ [r], CompleteRequest r' := fun r' hr' => List.mem_singleton.mp hr' ▸ hr
  rw [← joined_single] at hs hne
  have hp := run_paced srv hreq hrun hs
  have hlt : (received evs).length < r.1.length + r.2.length := by
    have h1 := hs.length_le
    have h2 : (received evs).length ≠ (joined [r]).length := fun he => hne (hs.eq_of_length he)
    rw [joined_single, List.length_append] at h1 h2
    omega
  have hzero : paced [r] (reads evs) = 0 := by
    have hle := hp.le
    rw [completeBy, if_neg (by simpa using hlt)] at hle
    omega
  have hd : c.dispatched = [] := by rw [hp.dispatched, hzero, List.take_zero]
  exact ⟨hd, run_waiting srv hreq hrun hs herr hd⟩

theorem dispatched_single (srv : Server σ) (hr : CompleteRequest r)
    (hrun : run srv ip w evs = some c) (hrcv : received evs = r.1 ++ r.2) :
    c.dispatched = [r] ∧ c.s.used = 0 := by
  have hreq : ∀ r' ∈ [r], CompleteRequest r' := fun r' hr' => List.mem_singleton.mp hr' ▸ hr
  rw [← joined_single] at hrcv
  have hp := run_paced srv hreq hrun (hrcv ▸ List.prefix_refl _)
  have hone : 1 ≤ paced [r] (reads evs) := by
    rw [le_paced_iff (completeBy_zero crlf2_ne_nil (messages_of_complete hreq))]
    intro j hj
    by_cases hlast : j = (reads evs).length
    · have hall : ((reads evs).take j).flatten = joined [r] := by
        rw [hlast, List.take_length]
        exact hrcv
      rw [hall, completeBy_joined]
      exact Nat.le_add_right _ _
    · omega
  have hd : c.dispatched = [r] := by rw [hp.dispatched, List.take_of_length_le hone]
  have hpend : c.s.pending = [] := by
    have h1 := takes_joined hp.inv.takes
    rw [hd, hrcv] at h1
    exact List.self_eq_append_right.mp h1
  refine ⟨hd, ?_⟩
  rw [← hp.inv.pending_length, hpend]
  rfl

end

/-! ## all requests -/

/-- **All requests are dispatched** behind the last read if and only if behind each read, and at
the start, the reads to come are at least as many as the requests that are not complete yet. -/
theorem dispatched_all_iff (srv : Server σ) (ip : Bytes) (w : σ) (reqs : List (Bytes × Bytes))
    (evs : List Event) (c : Conn σ) (hreq : ∀ r ∈ reqs, CompleteRequest r)
    (hrun : run srv ip w evs = some c) (hrcv : received evs = joined reqs) :
    c.dispatched = reqs ↔ ∀ j ≤ (reads evs).length,
      reqs.length ≤ completeBy reqs ((reads evs).take j).flatten.length
        + ((reads evs).length - j) := by
  have hp := run_paced srv hreq hrun (hrcv ▸ List.prefix_refl _)
  have h0 := completeBy_zero crlf2_ne_nil (messages_of_complete hreq)
  rw [← le_paced_iff h0, hp.dispatched, List.take_eq_self_iff]

/-- a keep-alive request with an empty body -/
def pingRequest : Bytes × Bytes := (str "GET /ping HTTP/1.1\r\nHost: h\r\n\r\n", [])

theorem complete_pingRequest : CompleteRequest pingRequest :=
  ⟨by decide +kernel, by decide +kernel, by decide +kernel, by decide +kernel⟩

/-- two requests, one in each read -/
def pingTwice : List Event :=
  [.readOk pingRequest.1, .responseDone true, .readOk pingRequest.1, .responseDone true]

set_option maxRecDepth 100000 in
theorem dispatched_all_iff_ping :
    ∃ c, run Server.empty [] () pingTwice = some c ∧
      (c.dispatched = [pingRequest, pingRequest] ↔ ∀ j ≤ (reads pingTwice).length,
        [pingRequest, pingRequest].length
          ≤ completeBy [pingRequest, pingRequest] ((reads pingTwice).take j).flatten.length
            + ((reads pingTwice).length - j)) := by
  have hs : (run Server.empty [] () pingTwice).isSome = true := by decide +kernel
  obtain ⟨c, hrun⟩ := Option.isSome_iff_exists.mp hs
  refine ⟨c, hrun, dispatched_all_iff Server.empty [] () _ _ c (fun r hr => ?_) hrun
    (by decide +kernel)⟩
  have : r = pingRequest := by simpa using hr
  exact this ▸ complete_pingRequest

set_option maxRecDepth 100000 in
/-- two requests in one read: the session waits for more bytes with the second one in its buffer -/
theorem request_left_waiting :
    ∃ c, run Server.empty [] () [.readOk (joined [pingRequest, pingRequest]), .responseDone true]
        = some c ∧
      CompleteRequest pingRequest ∧ c.dispatched = [pingRequest] ∧ c.s.pending = pingRequest.1 ∧
      c.outstanding = [.read 31 8192] := by
  have hs : (run Server.empty [] () [.readOk (joined [pingRequest, pingRequest]),
      .responseDone true]).any (fun c => c.dispatched = [pingRequest] ∧
        c.s.pending = pingRequest.1 ∧ c.outstanding = [.read 31 8192]) = true := by
    decide +kernel
  obtain ⟨c, hrun, hc⟩ := (Option.any_eq_true _ _).mp hs
  obtain ⟨h1, h2, h3⟩ := of_decide_eq_true hc
  exact ⟨c, hrun, complete_pingRequest, h1, h2, h3⟩

end ServerHttpLib
