import ServerHttpLib.Session.Exchanges
import ServerHttpLib.Session.RoundTrip
import ServerHttpLib.Client.Truncation

/-!
# A session that serves one request and closes

A client of this library sends one request per connection and asks for it to be closed.  What a
session can be while it receives a part of such a request: it waits for more, it writes the
response, or it is closed, because of a read error or behind the response.

* `run_serving`          the stages, in every run;
* `serving_received`     the request is dispatched when the last byte of it has arrived;
* `reply_written`        what is written is the response of the handlers.
-/

namespace ServerHttpLib
open Cutting Frames Conn

variable {σ : Type}

/-- the bytes that an outstanding write sends -/
def Conn.writeText (c : Conn σ) : Bytes :=
  if .response ∈ c.outstanding then c.s.httpHeader ++ c.s.httpBody
  else if .interim ∈ c.outstanding then str "HTTP/1.1 100 Continue\r\n\r\n"
  else []

/-- the response to a single request that closes the connection -/
def replyOf (srv : Server σ) (ip : Bytes) (w : σ) (r : Bytes × Bytes) : Response :=
  (respond srv (requestOf ip r) w).1

/-- a complete request that closes the connection, and that a buffer can hold -/
structure ClosingRequest (ip : Bytes) (r : Bytes × Bytes) : Prop where
  complete : CompleteRequest r
  closes : keepsAlive (requestOf ip r) = false
  small : (r.1 ++ r.2).length < 2 ^ 62

/-- the stages of a session that serves the request `r` -/
inductive Serving (r : Bytes × Bytes) (evs : List Event) (c : Conn σ) : Prop
  | waiting (hd : c.dispatched = []) (ho : c.outstanding = [.read c.s.used c.s.buf.length])
      (hf : c.fault = none) (hu : c.s.used < c.s.buf.length)
  | failed (hd : c.dispatched = []) (ho : c.outstanding = []) (he : .readErr ∈ evs)
  | responding (hd : c.dispatched = [r]) (ho : c.outstanding = [.response])
      (hf : c.fault = none)
  | closed (hd : c.dispatched = [r]) (ho : c.outstanding = [])
      (hs : c.trace.getLast? = some .shutdown)

variable {srv : Server σ} {ip : Bytes} {w : σ} {r : Bytes × Bytes} {evs : List Event}
  {c c' : Conn σ}

theorem ClosingRequest.forall (hr : ClosingRequest ip r) : ∀ r' ∈ [r], CompleteRequest r' :=
  fun _ hr' => List.mem_singleton.mp hr' ▸ hr.complete

theorem dispatched_le_single (hr : ClosingRequest ip r) (hrun : run srv ip w evs = some c)
    (hs : received evs <+: r.1 ++ r.2) : c.dispatched = [] ∨ c.dispatched = [r] := by
  rw [← joined_single] at hs
  have hp := (run_paced srv hr.forall hrun hs).dispatched
  cases hk : paced [r] (reads evs) with
  | zero => exact Or.inl (by rw [hp, hk, List.take_zero])
  | succ k => exact Or.inr (by rw [hp, hk, List.take_of_length_le (by simp)])

/-- the request is dispatched when its last byte has arrived, and not before -/
theorem serving_received (hr : ClosingRequest ip r) (hrun : run srv ip w evs = some c)
    (hs : received evs <+: r.1 ++ r.2) :
    c.dispatched = [r] ↔ received evs = r.1 ++ r.2 := by
  constructor
  · intro hd
    have ht := takes_joined (run_settled srv hrun).takes
    rw [hd, joined_single] at ht
    refine hs.eq_of_length_le ?_
    rw [ht]
    simp only [List.length_append]
    omega
  · exact fun he => (dispatched_single srv hr.complete hrun he).1

theorem used_le_received (hr : ClosingRequest ip r) (hrun : run srv ip w evs = some c)
    (hs : received evs <+: r.1 ++ r.2) : c.s.used < 2 ^ 62 := by
  rw [← joined_single] at hs
  have hp := (run_paced srv hr.forall hrun hs).inv
  have hlen := hs.length_le
  rw [joined_single] at hlen
  have hsmall := hr.small
  have hused : c.s.used ≤ (received evs).length := by
    rw [takes_joined hp.takes, List.length_append, hp.pending_length]
    omega
  omega

/-- a session that has just read waits for more, or it has dispatched the request -/
theorem serving_readOk (srv : Server σ) (hr : ClosingRequest ip r)
    (hrun : run srv ip w evs = some c) {data : Bytes}
    (hs : received (evs ++ [.readOk data]) <+: r.1 ++ r.2)
    (hstep : step srv c (.readOk data) = some c') (hd : c.dispatched = []) :
    Serving r (evs ++ [.readOk data]) c' ∧ c'.outstanding ≠ [] := by
  have hrun' : run srv ip w (evs ++ [.readOk data]) = some c' :=
    (Runs.runs_snoc _).mpr ⟨c, hrun, hstep⟩
  have hs₀ : received evs <+: joined [r] := by
    rw [received_snoc, ← joined_single] at hs
    exact (List.prefix_append _ _).trans hs
  have hused := used_le_received hr hrun' hs
  have hp := run_paced srv hr.forall hrun hs₀
  obtain ⟨hf, ⟨data', he, ho, hle, rfl⟩ | ⟨he, -⟩ | ⟨ok, he, -⟩ | ⟨ok, he, -⟩⟩ :=
    step_cases srv hp.inv hstep
  · rw [Event.readOk.injEq] at he
    subst he
    obtain ⟨hi, hd₁, -⟩ := afterRead_spec hp.inv ho hf data hle
    have hcomplete : ∀ h t, blockHead crlf2 (afterRead c data).s.pending = some (h, t) →
        Fits refLength h ∧ refExpect h = false := by
      intro h t hh
      refine complete_of_isHead hr.forall ?_ (hi.isHead hh)
      rw [received_snoc, ← joined_single] at hs
      exact hs
    unfold parseOrRead at hrun' hused ⊢
    rcases tryParse_spec srv hi fun h t hh => (hcomplete h t hh).1 with
      ⟨c₁, he, hI, -, hd₂, -⟩ | ⟨h, t, c₁, -, -, hh, hx, -⟩ | ⟨b, t, c₁, he, -, -, ho₂, hf₂, hd₂, -⟩
    · -- the request is not complete
      rw [he] at hused ⊢
      obtain ⟨-, hw, hd₃, -⟩ := doRead_spec hI
      have hnone : (doRead c₁).dispatched = [] := hd₃.trans (hd₂.trans (hd₁.trans hd))
      rcases hw with ⟨ho₂, hf₂, hu₂⟩ | ⟨-, -, hu₂⟩
      · exact ⟨.waiting hnone ho₂ hf₂ hu₂, by simp [ho₂]⟩
      · have hlt : (doRead c₁).s.used < 2 ^ 62 := hused
        omega
    · -- an interim response is not wanted
      rw [(hcomplete h t hh).2] at hx
      exact absurd hx (by simp)
    · rw [he] at hrun' ⊢
      have hone : c₁.dispatched = [r] := by
        rcases dispatched_le_single hr hrun' hs with h | h
        · rw [h] at hd₂
          exact absurd hd₂ (by simp)
        · exact h
      exact ⟨.responding hone ho₂ hf₂, by simp [ho₂]⟩
  · exact absurd he (by simp)
  · exact absurd he (by simp)
  · exact absurd he (by simp)

/-- behind the response the connection is shut down, as the request asked for it -/
theorem responseDone_closes (hr : ClosingRequest ip r) (hrun : run srv ip w evs = some c)
    (hd : c.dispatched = [r]) {len : Bytes → Nat} {rcv : Bytes}
    (hidle : Idle len rcv (c.complete .response)) :
    (onResponseDone (c.complete .response)).dispatched = [r] ∧
      (onResponseDone (c.complete .response)).outstanding = [] ∧
      (onResponseDone (c.complete .response)).trace.getLast? = some .shutdown := by
  have hka : c.s.keepAlive = false := by
    rw [(run_settled srv hrun).talk.keepAlive r (by rw [hd]; rfl), hr.closes]
  have hclose : ¬ (c.complete .response).s.keepAlive = true := by
    show ¬ c.s.keepAlive = true
    rw [hka]
    simp
  have he : onResponseDone (c.complete .response) = (c.complete .response).emit .shutdown :=
    if_neg hclose
  rw [he]
  exact ⟨(dispatched_emit _ _ (by simp)).trans hd, hidle.outstanding, List.getLast?_concat⟩

/-- **The stages of a session** in every run that receives a part of a request. -/
theorem run_serving (srv : Server σ) (hr : ClosingRequest ip r)
    (hrun : run srv ip w evs = some c) (hs : received evs <+: r.1 ++ r.2) :
    Serving r evs c := by
  refine Runs.runs_induction (step srv) (doRead (accept ip w))
    (fun es c => received es <+: r.1 ++ r.2 → Serving r es c) (fun _ => ?_) ?_ hrun hs
  · obtain ⟨-, hw, hd, -⟩ := doRead_spec (accept_idle refLength ip w)
    rcases hw with ⟨ho, hf, hu⟩ | ⟨-, -, hu⟩
    · exact .waiting hd ho hf hu
    · have hrun₀ : run srv ip w [] = some (doRead (accept ip w)) := Runs.runs_nil _ _
      have hlt := used_le_received hr hrun₀ List.nil_prefix
      omega
  · intro es s e s' hrun ih hst hs
    have hs₀ : received es <+: r.1 ++ r.2 := by
      rw [received_snoc] at hs
      exact (List.prefix_append _ _).trans hs
    have hstage := ih hs₀
    have hp := run_paced srv hr.forall hrun (joined_single r ▸ hs₀)
    obtain ⟨hf, ⟨data, rfl, ho, -, -⟩ | ⟨rfl, off, n, ho, rfl⟩ | ⟨ok, rfl, ho, rfl⟩ |
      ⟨ok, rfl, ho, rfl⟩⟩ := step_cases srv hp.inv hst
    · cases hstage with
      | waiting hd _ _ _ => exact (serving_readOk srv hr hrun hs hst hd).1
      | failed _ ho' _ => exact absurd (ho.symm.trans ho') (by simp)
      | responding _ ho' _ => exact absurd (ho.symm.trans ho') (by simp)
      | closed _ ho' _ => exact absurd (ho.symm.trans ho') (by simp)
    · have hidle := complete_idle hp.inv ho hf
      cases hstage with
      | waiting hd _ _ _ => exact .failed hd hidle.outstanding (by simp)
      | failed _ ho' _ => exact absurd (ho.symm.trans ho') (by simp)
      | responding _ ho' _ => exact absurd (ho.symm.trans ho') (by simp)
      | closed _ ho' _ => exact absurd (ho.symm.trans ho') (by simp)
    · have hidle := complete_idle hp.inv ho hf
      cases hstage with
      | waiting _ ho' _ _ => exact absurd (ho.symm.trans ho') (by simp)
      | failed _ ho' _ => exact absurd (ho.symm.trans ho') (by simp)
      | responding hd _ _ =>
        obtain ⟨hd', ho', hs'⟩ := responseDone_closes hr hrun hd hidle
        exact .closed hd' ho' hs'
      | closed _ ho' _ => exact absurd (ho.symm.trans ho') (by simp)
    · exact absurd (by simp [ho]) hp.noInterim

theorem reply_written (hr : ClosingRequest ip r) (hrun : run srv ip w evs = some c)
    (hs : received evs <+: r.1 ++ r.2) (hd : c.dispatched = [r])
    (ho : c.outstanding = [.response]) : c.writeText = replyText (replyOf srv ip w r) false 10 := by
  have ht := (run_settled srv hrun).talk
  have hhave : c.s.haveHeaders = false := by
    cases (run_paced srv hr.forall hrun (joined_single r ▸ hs)).inv.mode with
    | closed ho' _ => exact absurd (ho.symm.trans ho') (by simp)
    | failed ho' _ _ => exact absurd (ho.symm.trans ho') (by simp)
    | reading ho' _ _ => exact absurd (ho.symm.trans ho') (by simp)
    | responding _ _ hh => exact hh
    | interim ho' _ _ => exact absurd (ho.symm.trans ho') (by simp)
  have hw : c.writes = interimFor r.1 ++ [(replyTo srv ip r w).1] := by
    rw [ht.writes, hd, currentHead_none hhave]
    exact List.append_nil _
  have hflight := ht.flight (by simp [ho])
  rw [hw, List.getLast?_concat, Option.some.injEq] at hflight
  unfold replyTo at hflight
  rw [hr.closes, Action.writeResponse.injEq] at hflight
  unfold writeText replyText replyOf
  rw [if_pos (by simp [ho]), ← hflight.1, ← hflight.2]

theorem world_after (hrun : run srv ip w evs = some c) :
    (c.dispatched = [] → c.world = w) ∧
      (c.dispatched = [r] → c.world = (respond srv (requestOf ip r) w).2) := by
  have hw := (run_settled srv hrun).talk.world
  constructor
  · intro hd
    rw [hw, hd]
    rfl
  · intro hd
    rw [hw, hd]
    rfl

end ServerHttpLib
