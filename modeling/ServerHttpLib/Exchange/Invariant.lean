import ServerHttpLib.Exchange.Model
import ServerHttpLib.Client.Truncation

/-!
# The invariant of an exchange

The session is a run that has received a first part of the request; what the client has read, what
is under way and what the session has not written yet is the response, if the connection is not
lost; and the result of the client, once there is one, is the response or a part of it.

* `Inv`                  the invariant;
* `Inv.whole_read`       a client that stops reading has the whole response;
* `Inv.step`             every event keeps the invariant.
-/

namespace ServerHttpLib
open Cutting Frames

namespace Exchange

variable {σ : Type} {fuel : Nat} {srv : Server σ} {ip : Bytes} {w : σ} {r : Bytes × Bytes}
  {x x' : Exchange σ}

def wholeText (srv : Server σ) (ip : Bytes) (w : σ) (r : Bytes × Bytes) : Bytes :=
  replyText (replyOf srv ip w r) false 10

def wholeReply (srv : Server σ) (ip : Bytes) (w : σ) (r : Bytes × Bytes) : Response :=
  (replyOf srv ip w r).asRead false 10

/-- what the client may return behind a lost connection -/
def Partial (whole res : Response) : Prop := res = notSent ∨ PartOf whole res

structure Inv (srv : Server σ) (ip : Bytes) (w : σ) (r : Bytes × Bytes) (x : Exchange σ) :
    Prop where
  run : ∃ evs, Conn.run srv ip w evs = some x.conn ∧ received evs ++ x.up <+: r.1 ++ r.2 ∧
    (x.lost = false → .readErr ∉ evs ∧ received evs ++ x.up ++ x.toSend = r.1 ++ r.2)
  idle : x.conn.outstanding ≠ [.response] → x.toWrite = []
  silent : x.conn.dispatched = [] → x.segs.flatten ++ x.down = []
  sent : x.segs.flatten ++ x.down <+: wholeText srv ip w r
  flow : x.lost = false → x.conn.dispatched = [r] →
    x.segs.flatten ++ x.down ++ x.toWrite = wholeText srv ip w r
  closed : x.closed = (x.lost || x.conn.outstanding.isEmpty)
  result : ∀ res, x.result = some res →
    (res = wholeReply srv ip w r ∨ x.lost = true ∧ Partial (wholeReply srv ip w r) res) ∧
      (x.conn.dispatched = [r] ∨ res = notSent ∨ res.code = 0)

/-! ## the stages of the session -/

theorem writeText_idle {evs : List ServerHttpLib.Event} {c : Conn σ} (hc : Serving r evs c)
    (ho : c.outstanding ≠ [.response]) : c.writeText = [] := by
  unfold Conn.writeText
  cases hc with
  | waiting _ h _ _ => simp [h]
  | failed _ h _ => simp [h]
  | responding _ h _ => exact absurd h ho
  | closed _ h _ => simp [h]

theorem Inv.stage (hr : ClosingRequest ip r) (h : Inv srv ip w r x) : ∃ evs,
    Conn.run srv ip w evs = some x.conn ∧ received evs ++ x.up <+: r.1 ++ r.2 ∧
      received evs <+: r.1 ++ r.2 ∧ Serving r evs x.conn ∧
      (x.lost = false → .readErr ∉ evs ∧ received evs ++ x.up ++ x.toSend = r.1 ++ r.2) := by
  obtain ⟨evs, hrun, hup, hl⟩ := h.run
  have hs := (List.prefix_append _ _).trans hup
  exact ⟨evs, hrun, hup, hs, run_serving srv hr hrun hs, hl⟩

theorem waiting_of_readOk (hr : ClosingRequest ip r) {evs : List ServerHttpLib.Event}
    {c c' : Conn σ} {data : Bytes} (hrun : Conn.run srv ip w evs = some c)
    (hs : received evs <+: r.1 ++ r.2) (hstep : Conn.step srv c (.readOk data) = some c') :
    c.dispatched = [] ∧ c.outstanding ≠ [] := by
  have hp := run_paced srv hr.forall hrun (joined_single r ▸ hs)
  have ho : c.outstanding = [.read c.s.used c.s.buf.length] := by
    obtain ⟨-, ⟨_, -, ho, -⟩ | ⟨he, -⟩ | ⟨_, he, -⟩ | ⟨_, he, -⟩⟩ := step_cases srv hp.inv hstep
    · exact ho
    · exact absurd he (by simp)
    · exact absurd he (by simp)
    · exact absurd he (by simp)
  refine ⟨?_, by simp [ho]⟩
  cases run_serving srv hr hrun hs with
  | waiting hd _ _ _ => exact hd
  | failed hd _ _ => exact hd
  | responding _ ho' _ => exact absurd (ho.symm.trans ho') (by simp)
  | closed _ ho' _ => exact absurd (ho.symm.trans ho') (by simp)

/-! ## the events -/

theorem Inv.send (h : Inv srv ip w r x) {n : Nat} (hl : x.lost = false) :
    Inv srv ip w r { x with toSend := x.toSend.drop n, up := x.up ++ x.toSend.take n } := by
  obtain ⟨evs, hrun, hup, hall⟩ := h.run
  obtain ⟨herr, he⟩ := hall hl
  have hall' : received evs ++ (x.up ++ x.toSend.take n) ++ x.toSend.drop n = r.1 ++ r.2 := by
    rw [← he]
    simp only [List.append_assoc, List.take_append_drop]
  refine ⟨⟨evs, hrun, ⟨_, hall'⟩, fun _ => ⟨herr, hall'⟩⟩, h.idle, h.silent, h.sent, h.flow,
    h.closed, h.result⟩

theorem Inv.deliver (hr : ClosingRequest ip r) (h : Inv srv ip w r x) {n : Nat} {c : Conn σ}
    (hstep : Conn.step srv x.conn (.readOk (x.up.take n)) = some c) :
    Inv srv ip w r (x.handled (x.up.drop n) c) := by
  obtain ⟨evs, hrun, hup, hs, -, hall⟩ := h.stage hr
  obtain ⟨hd, ho⟩ := waiting_of_readOk hr hrun hs hstep
  have hrun' : Conn.run srv ip w (evs ++ [.readOk (x.up.take n)]) = some c :=
    (Runs.runs_snoc _).mpr ⟨_, hrun, hstep⟩
  have hrcv : received (evs ++ [.readOk (x.up.take n)]) ++ x.up.drop n = received evs ++ x.up := by
    rw [received_snoc, Event.bytes, List.append_assoc, List.take_append_drop]
  have hs' : received (evs ++ [.readOk (x.up.take n)]) <+: r.1 ++ r.2 :=
    (List.prefix_append _ _).trans (hrcv ▸ hup)
  obtain ⟨hstage, hsome⟩ := serving_readOk srv hr hrun hs' hstep hd
  have hnone := h.silent hd
  refine ⟨⟨_, hrun', ?_, ?_⟩, writeText_idle hstage, fun _ => hnone, h.sent, ?_, ?_, ?_⟩
  · show _ ++ x.up.drop n <+: _
    rw [hrcv]
    exact hup
  · intro hl
    obtain ⟨herr, he⟩ := hall hl
    refine ⟨by simp [herr], ?_⟩
    show _ ++ x.up.drop n ++ x.toSend = _
    rw [hrcv]
    exact he
  · intro _ hd'
    show x.segs.flatten ++ x.down ++ c.writeText = _
    rw [hnone, List.nil_append]
    cases hstage with
    | waiting h0 _ _ _ => exact absurd (h0.symm.trans hd') (by simp)
    | failed h0 _ _ => exact absurd (h0.symm.trans hd') (by simp)
    | responding _ ho' _ => exact reply_written hr hrun' hs' hd' ho'
    | closed _ ho' _ => exact absurd ho' hsome
  · show (x.closed || c.outstanding.isEmpty) = (x.lost || c.outstanding.isEmpty)
    rw [h.closed]
    have : x.conn.outstanding.isEmpty = false := by simpa using ho
    rw [this, Bool.or_false]
  · intro res hres
    obtain ⟨h1, h2⟩ := h.result res hres
    refine ⟨h1, Or.inr ?_⟩
    rcases h2 with h2 | h2
    · rw [hd] at h2
      exact absurd h2 (by simp)
    · exact h2

theorem Inv.write (hr : ClosingRequest ip r) (h : Inv srv ip w r x) {n : Nat}
    (hl : x.lost = false) (hn : 0 < n ∧ n ≤ x.toWrite.length) :
    Inv srv ip w r { x with toWrite := x.toWrite.drop n, down := x.down ++ x.toWrite.take n } := by
  have ho : x.conn.outstanding = [.response] := by
    by_contra hne
    have h0 := congrArg List.length (h.idle hne)
    rw [List.length_nil] at h0
    omega
  have hd : x.conn.dispatched = [r] := by
    obtain ⟨evs, -, -, -, hstage, -⟩ := h.stage hr
    cases hstage with
    | waiting _ ho' _ _ => exact absurd (ho.symm.trans ho') (by simp)
    | failed _ ho' _ => exact absurd (ho.symm.trans ho') (by simp)
    | responding hd _ _ => exact hd
    | closed hd _ _ => exact hd
  have hflow := h.flow hl hd
  have hflow' : x.segs.flatten ++ (x.down ++ x.toWrite.take n) ++ x.toWrite.drop n
      = wholeText srv ip w r := by
    rw [← hflow]
    simp only [List.append_assoc, List.take_append_drop]
  refine ⟨h.run, fun hne => absurd ho hne, fun h0 => ?_, ⟨_, hflow'⟩, fun _ _ => hflow', h.closed,
    h.result⟩
  rw [hd] at h0
  exact absurd h0 (by simp)

theorem Inv.responded_conn (hr : ClosingRequest ip r) (h : Inv srv ip w r x) {ok : Bool}
    {c : Conn σ} (hstep : Conn.step srv x.conn (.responseDone ok) = some c) :
    x.conn.dispatched = [r] ∧ c.dispatched = [r] ∧ c.outstanding = [] := by
  obtain ⟨evs, hrun, -, hs, hstage, -⟩ := h.stage hr
  have hp := run_paced srv hr.forall hrun (joined_single r ▸ hs)
  obtain ⟨hf, ⟨_, he, -⟩ | ⟨he, -⟩ | ⟨_, -, ho, rfl⟩ | ⟨_, he, -⟩⟩ := step_cases srv hp.inv hstep
  · exact absurd he (by simp)
  · exact absurd he (by simp)
  · cases hstage with
    | waiting _ ho' _ _ => exact absurd (ho.symm.trans ho') (by simp)
    | failed _ ho' _ => exact absurd (ho.symm.trans ho') (by simp)
    | responding hd _ _ =>
      obtain ⟨hd', ho', -⟩ := responseDone_closes hr hrun hd (complete_idle hp.inv ho hf)
      exact ⟨hd, hd', ho'⟩
    | closed _ ho' _ => exact absurd (ho.symm.trans ho') (by simp)
  · exact absurd he (by simp)

/-- the write of the session completes, or fails: the session closes -/
theorem Inv.responded (hr : ClosingRequest ip r) (h : Inv srv ip w r x) {ok : Bool} {c : Conn σ}
    (hstep : Conn.step srv x.conn (.responseDone ok) = some c)
    (hw : x.lost = false → x.toWrite = []) : Inv srv ip w r (x.handled x.up c) := by
  obtain ⟨evs, hrun, hup, hs, hstage, hall⟩ := h.stage hr
  have hrun' : Conn.run srv ip w (evs ++ [.responseDone ok]) = some c :=
    (Runs.runs_snoc _).mpr ⟨_, hrun, hstep⟩
  have hrcv : received (evs ++ [.responseDone ok]) = received evs := by
    rw [received_snoc, Event.bytes, List.append_nil]
  obtain ⟨hd, hd', ho'⟩ := h.responded_conn hr hstep
  have hidle : c.writeText = [] := by
    unfold Conn.writeText
    simp [ho']
  refine ⟨⟨_, hrun', hrcv ▸ hup, fun hl => ?_⟩, fun _ => hidle, fun h0 => ?_, h.sent,
    fun hl _ => ?_, ?_, fun res hres => ⟨(h.result res hres).1, Or.inl hd'⟩⟩
  · obtain ⟨herr, he⟩ := hall hl
    exact ⟨by simp [herr], hrcv ▸ he⟩
  · have h0 : c.dispatched = [] := h0
    rw [hd'] at h0
    exact absurd h0 (by simp)
  · show x.segs.flatten ++ x.down ++ c.writeText = _
    rw [hidle, ← hw hl]
    exact h.flow hl hd
  · show (x.closed || c.outstanding.isEmpty) = (x.lost || c.outstanding.isEmpty)
    rw [ho', List.isEmpty_nil, Bool.or_true, Bool.or_true]

theorem Inv.readFailed_conn (hr : ClosingRequest ip r) (h : Inv srv ip w r x) {c : Conn σ}
    (hstep : Conn.step srv x.conn .readErr = some c) :
    c.dispatched = x.conn.dispatched ∧ x.conn.outstanding ≠ [] ∧ c.outstanding = [] := by
  obtain ⟨evs, hrun, -, hs, -⟩ := h.stage hr
  have hp := run_paced srv hr.forall hrun (joined_single r ▸ hs)
  obtain ⟨hf, ⟨_, he, -⟩ | ⟨-, _, _, ho, rfl⟩ | ⟨_, he, -⟩ | ⟨_, he, -⟩⟩ :=
    step_cases srv hp.inv hstep
  · exact absurd he (by simp)
  · exact ⟨rfl, by simp [ho], (complete_idle hp.inv ho hf).outstanding⟩
  · exact absurd he (by simp)
  · exact absurd he (by simp)

theorem Inv.readFailed (hr : ClosingRequest ip r) (h : Inv srv ip w r x) {c : Conn σ}
    (hl : x.lost = true) (hstep : Conn.step srv x.conn .readErr = some c) :
    Inv srv ip w r (x.handled x.up c) := by
  obtain ⟨evs, hrun, hup, hs, hstage, -⟩ := h.stage hr
  have hrun' : Conn.run srv ip w (evs ++ [.readErr]) = some c :=
    (Runs.runs_snoc _).mpr ⟨_, hrun, hstep⟩
  have hrcv : received (evs ++ [.readErr]) = received evs := by
    rw [received_snoc, Event.bytes, List.append_nil]
  have hs' : received (evs ++ [.readErr]) <+: r.1 ++ r.2 := hrcv ▸ hs
  obtain ⟨hd, -⟩ := h.readFailed_conn hr hstep
  have hlost : ∀ {p : Prop}, (x.handled x.up c).lost = false → p := fun h0 => by
    have h0 : x.lost = false := h0
    rw [hl] at h0
    exact absurd h0 (by simp)
  refine ⟨⟨_, hrun', hrcv ▸ hup, hlost⟩, writeText_idle (run_serving srv hr hrun' hs'), ?_, h.sent,
    hlost, ?_, ?_⟩
  · intro h0
    exact h.silent (hd ▸ h0)
  · show (x.closed || c.outstanding.isEmpty) = (x.lost || c.outstanding.isEmpty)
    rw [h.closed, hl, Bool.true_or, Bool.true_or]
  · intro res hres
    obtain ⟨h1, h2⟩ := h.result res hres
    exact ⟨h1, hd ▸ h2⟩

theorem Inv.receive (h : Inv srv ip w r x) (n : Nat) :
    Inv srv ip w r { x with segs := x.segs ++ [x.down.take n], down := x.down.drop n } := by
  have he : (x.segs ++ [x.down.take n]).flatten ++ x.down.drop n = x.segs.flatten ++ x.down := by
    rw [List.flatten_append, List.flatten_singleton, List.append_assoc, List.take_append_drop]
  refine ⟨h.run, h.idle, ?_, ?_, ?_, h.closed, h.result⟩
  · intro hd
    exact he.trans (h.silent hd)
  · show _ ++ x.down.drop n <+: _
    rw [he]
    exact h.sent
  · intro hl hd
    show _ ++ x.down.drop n ++ x.toWrite = _
    rw [he]
    exact h.flow hl hd

theorem Inv.lose (h : Inv srv ip w r x) (n k : Nat) : Inv srv ip w r
    { x with lost := true, closed := true, up := x.up.take n, down := x.down.take k } := by
  obtain ⟨evs, hrun, hup, -⟩ := h.run
  have hdown : x.segs.flatten ++ x.down.take k <+: x.segs.flatten ++ x.down :=
    (List.prefix_append_right_inj _).mpr (List.take_prefix _ _)
  have hup' : received evs ++ x.up.take n <+: r.1 ++ r.2 :=
    ((List.prefix_append_right_inj _).mpr (List.take_prefix _ _)).trans hup
  refine ⟨⟨evs, hrun, hup', fun hl => absurd hl (by simp)⟩, h.idle, ?_, hdown.trans h.sent,
    fun hl => absurd hl (by simp), rfl, ?_⟩
  · intro hd
    have h0 := h.silent hd
    rw [h0] at hdown
    exact List.prefix_nil.mp hdown
  · intro res hres
    obtain ⟨h1, h2⟩ := h.result res hres
    exact ⟨h1.imp id fun h1 => ⟨rfl, h1.2⟩, h2⟩

/-! ## the client returns -/

theorem readResponse_nothing {segs : List Bytes} (h : segs.flatten = []) :
    readResponse fuel segs = some ⟨0, [], []⟩ := by
  rw [readResponse_joined, h]
  rfl

/-- a client that stops reading has the whole response, if the connection was not lost -/
theorem Inv.whole_read (hr : ClosingRequest ip r) (hreply : PlainReply (replyOf srv ip w r))
    (h : Inv srv ip w r x) (hl : x.lost = false) {res : Response}
    (hres : readResponse fuel x.segs = some res)
    (hend : wantsMore x.segs.flatten = false ∨ x.down = [] ∧ x.closed = true) :
    res = wholeReply srv ip w r := by
  obtain ⟨evs, hrun, hup, hs, hstage, hall⟩ := h.stage hr
  have hopen : x.closed = true → x.conn.outstanding = [] := by
    intro hc
    have h0 := h.closed
    rw [hc, hl, Bool.false_or] at h0
    simpa using h0.symm
  have hd : x.conn.dispatched = [r] := by
    rcases dispatched_le_single hr hrun hs with hd | hd
    · -- nothing was written, and the connection is open
      exfalso
      have hnone : x.segs.flatten = [] := (List.append_eq_nil_iff.mp (h.silent hd)).1
      rcases hend with hw | ⟨-, hc⟩
      · rw [hnone] at hw
        exact absurd hw (by decide)
      · cases hstage with
        | waiting _ ho _ _ => exact absurd (ho.symm.trans (hopen hc)) (by simp)
        | failed _ _ he => exact (hall hl).1 he
        | responding hd' _ _ => exact absurd (hd'.symm.trans hd) (by simp)
        | closed hd' _ _ => exact absurd (hd'.symm.trans hd) (by simp)
    · exact hd
  have hflow := h.flow hl hd
  rcases hend with hw | ⟨hdown, hc⟩
  · -- the rest of the response does not change the result
    obtain ⟨r₀, hfinal⟩ := produces_final x.segs hw
    obtain ⟨k, hk⟩ := hfinal []
    have h1 := readResponse_mono hres k
    rw [List.append_nil] at hk
    rw [Nat.add_comm, hk fuel, Option.some.injEq] at h1
    have hrest : (x.segs ++ [x.down ++ x.toWrite]).flatten = wholeText srv ip w r := by
      rw [List.flatten_append, List.flatten_singleton, ← List.append_assoc]
      exact hflow
    obtain ⟨r', hread, -, hwhole⟩ := readResponse_part hreply false 10
      (x.segs ++ [x.down ++ x.toWrite]) (hrest ▸ List.prefix_refl _)
    obtain ⟨k', hk'⟩ := hfinal [x.down ++ x.toWrite]
    have h2 := hk' 0
    rw [hread, Option.some.injEq] at h2
    rw [← h1, ← h2]
    exact hwhole hrest
  · have hidle := h.idle (by simp [hopen hc])
    have hall : x.segs.flatten = wholeText srv ip w r := by
      rw [← hflow, hdown, hidle, List.append_nil, List.append_nil]
    obtain ⟨r', hread, -, hwhole⟩ := readResponse_part hreply false 10 x.segs
      (hall ▸ List.prefix_refl _)
    rw [hread, Option.some.injEq] at hres
    rw [← hres]
    exact hwhole hall

theorem Inv.finish (hr : ClosingRequest ip r) (hreply : PlainReply (replyOf srv ip w r))
    (h : Inv srv ip w r x) {res : Response} (hres : readResponse fuel x.segs = some res)
    (hend : wantsMore x.segs.flatten = false ∨ x.down = [] ∧ x.closed = true) :
    Inv srv ip w r { x with result := some res } := by
  refine ⟨h.run, h.idle, h.silent, h.sent, h.flow, h.closed, fun res' hres' => ?_⟩
  obtain rfl : res = res' := Option.some.inj hres'
  constructor
  · cases hl : x.lost with
    | false => exact Or.inl (h.whole_read hr hreply hl hres hend)
    | true =>
      obtain ⟨r', hread, hpart, -⟩ := readResponse_part hreply false 10 x.segs
        ((List.prefix_append _ _).trans h.sent)
      rw [hread, Option.some.injEq] at hres
      exact Or.inr ⟨rfl, Or.inr (hres ▸ hpart)⟩
  · obtain ⟨evs, hrun, -, hs, -⟩ := h.stage hr
    rcases dispatched_le_single hr hrun hs with hd | hd
    · have hnone : x.segs.flatten = [] := (List.append_eq_nil_iff.mp (h.silent hd)).1
      rw [readResponse_nothing hnone, Option.some.injEq] at hres
      exact Or.inr (Or.inr (by rw [← hres]))
    · exact Or.inl hd

theorem start_conn (ip : Bytes) (w : σ) (text : Bytes) :
    (start ip w text).conn = Conn.doRead (Conn.accept ip w) := by
  simp only [start]

theorem start_run (srv : Server σ) (ip : Bytes) (w : σ) (text : Bytes) :
    Conn.run srv ip w [] = some (start ip w text).conn := by
  rw [start_conn]
  exact Runs.runs_nil _ _

theorem start_waiting (hr : ClosingRequest ip r) (srv : Server σ) (text : Bytes) :
    (start ip w text).conn.dispatched = [] ∧ (start ip w text).conn.outstanding ≠ [] := by
  have hnone : (start ip w text).conn.dispatched = [] := by
    rw [start_conn]
    exact (doRead_spec (accept_idle refLength ip w)).2.2.1
  refine ⟨hnone, ?_⟩
  cases run_serving srv hr (start_run srv ip w text) List.nil_prefix with
  | waiting _ ho _ _ => simp [ho]
  | failed _ _ he => exact absurd he List.not_mem_nil
  | responding _ ho _ => simp [ho]
  | closed hd _ _ => exact absurd (hnone.symm.trans hd) (by simp)

theorem inv_start (hr : ClosingRequest ip r) :
    Inv srv ip w r (start ip w (r.1 ++ r.2) : Exchange σ) := by
  obtain ⟨hnone, hopen⟩ := start_waiting (w := w) hr srv (r.1 ++ r.2)
  refine ⟨⟨[], start_run srv ip w _, List.nil_prefix, fun _ => ⟨List.not_mem_nil, rfl⟩⟩,
    fun _ => rfl, fun _ => rfl, List.nil_prefix, ?_, ?_, fun res h => absurd h (by simp [start])⟩
  · intro _ hd
    exact absurd (hnone.symm.trans hd) (by simp)
  · show false = (false || _)
    rw [Bool.false_or]
    simpa using hopen

/-- the only write of the session is that of the response -/
theorem Inv.completeWrite (hr : ClosingRequest ip r) (h : Inv srv ip w r x) (ok : Bool) :
    Exchange.completeWrite x.conn ok = none ∨
      Exchange.completeWrite x.conn ok = some (.responseDone ok) := by
  unfold Exchange.completeWrite
  obtain ⟨evs, -, -, -, hstage, -⟩ := h.stage hr
  cases hstage with
  | waiting _ ho _ _ => simp [ho]
  | failed _ ho _ => simp [ho]
  | responding _ ho _ => simp [ho]
  | closed _ ho _ => simp [ho]

/-- **Every event keeps the invariant.** -/
theorem Inv.step (hr : ClosingRequest ip r) (hreply : PlainReply (replyOf srv ip w r))
    (h : Inv srv ip w r x) {e : Event} (hstep : x.step fuel srv e = some x') :
    Inv srv ip w r x' := by
  cases e with
  | send n =>
    simp only [Exchange.step, Option.ite_none_right_eq_some, Option.some.injEq] at hstep
    obtain ⟨⟨hl, -⟩, rfl⟩ := hstep
    exact h.send hl
  | deliver n =>
    simp only [Exchange.step, Option.ite_none_right_eq_some, Option.map_eq_some_iff] at hstep
    obtain ⟨-, c, hc, rfl⟩ := hstep
    exact h.deliver hr hc
  | write n =>
    simp only [Exchange.step, Option.ite_none_right_eq_some, Option.some.injEq] at hstep
    obtain ⟨⟨hl, hn⟩, rfl⟩ := hstep
    exact h.write hr hl hn
  | written =>
    simp only [Exchange.step, Option.ite_none_right_eq_some, Option.map_eq_some_iff,
      Option.bind_eq_some_iff] at hstep
    obtain ⟨⟨-, hw⟩, c, ⟨e, he, hc⟩, rfl⟩ := hstep
    rcases h.completeWrite hr true with h0 | h0
    · rw [h0] at he
      exact absurd he (by simp)
    · rw [h0, Option.some.injEq] at he
      exact h.responded hr (he ▸ hc) fun _ => hw
  | receive n =>
    simp only [Exchange.step, Option.ite_none_right_eq_some, Option.some.injEq] at hstep
    obtain ⟨-, rfl⟩ := hstep
    exact h.receive n
  | finish =>
    simp only [Exchange.step, Option.ite_none_right_eq_some, Option.map_eq_some_iff] at hstep
    obtain ⟨⟨-, hend⟩, res, hres, rfl⟩ := hstep
    exact h.finish hr hreply hres hend
  | lose n k =>
    simp only [Exchange.step, Option.ite_none_right_eq_some, Option.some.injEq] at hstep
    obtain ⟨-, rfl⟩ := hstep
    exact h.lose n k
  | serverError =>
    simp only [Exchange.step, Option.ite_none_right_eq_some, Option.map_eq_some_iff] at hstep
    obtain ⟨hl, c, hc, rfl⟩ := hstep
    rcases h.completeWrite hr false with h0 | h0
    · rw [h0] at hc
      exact h.readFailed hr hl hc
    · rw [h0] at hc
      exact h.responded hr hc fun h1 => absurd (hl.symm.trans h1) (by simp)
  | sendError =>
    simp only [Exchange.step, Option.ite_none_right_eq_some, Option.some.injEq] at hstep
    obtain ⟨⟨hl, -⟩, rfl⟩ := hstep
    refine ⟨h.run, h.idle, h.silent, h.sent, h.flow, h.closed, fun res hres => ?_⟩
    obtain rfl : notSent = res := Option.some.inj hres
    exact ⟨Or.inr ⟨hl, Or.inl rfl⟩, Or.inr (Or.inl rfl)⟩

end Exchange
end ServerHttpLib
