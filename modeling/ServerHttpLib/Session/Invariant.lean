import ServerHttpLib.Session.Reference

/-!
# The invariant of a session

For a length function `len` that agrees with the scan on the heads of the stream (`Fits`), a
session that has received `rcv` has taken some frames of `blockReader crlf2 len` from it and holds
the rest in its buffer (`Core`), and at most one operation is outstanding (`Mode`).

* `ensureCapacity_spec`   room for a read, behind the bytes received, or an exception;
* `doRead_spec`           what a session that reads again waits for, and that nothing is lost.
-/

namespace ServerHttpLib
open Cutting Frames Conn

/-- the reader of requests whose body length is `len` of the head -/
def requestReader (len : Bytes → Nat) : Reader UInt8 (Bytes × Bytes) :=
  blockReader crlf2 len crlf2_ne_nil

/-- the scan computes `len` of this head, and its length test does not wrap -/
structure Fits (len : Bytes → Nat) (h : Bytes) : Prop where
  scan : sizeT (refLength h) = len h
  sum : h.length ≤ 2 ^ 62 → h.length + len h < 2 ^ 64

variable {σ : Type}

/-- what holds between two handler calls, apart from the outstanding operations -/
structure Core (len : Bytes → Nat) (rcv : Bytes) (c : Conn σ) : Prop where
  size : ∃ k, 13 ≤ k ∧ k ≤ 62 ∧ c.s.buf.length = 2 ^ k
  used_le : c.s.used ≤ c.s.buf.length
  takes : (requestReader len).Takes rcv c.dispatched c.s.pending
  head : c.s.haveHeaders = true → ∃ h r, blockHead crlf2 c.s.pending = some (h, r) ∧
    c.s.headersLen = h.length ∧ c.s.contentLength = len h
  extracts : ∀ H V u n, Action.extract H V u n ∈ c.trace → H + V ≤ u ∧ u ≤ n
  offered : ∀ off n, Action.read off n ∈ c.trace → off < n

/-- the outstanding operation, if there is one -/
inductive Mode (c : Conn σ) : Prop
  | closed (ho : c.outstanding = []) (hf : c.fault = none)
  | failed (ho : c.outstanding = []) (hf : c.fault = some .resizeError) (hu : 2 ^ 62 ≤ c.s.used)
  | reading (ho : c.outstanding = [.read c.s.used c.s.buf.length]) (hf : c.fault = none)
      (hu : c.s.used < c.s.buf.length)
  | responding (ho : c.outstanding = [.response]) (hf : c.fault = none)
      (hh : c.s.haveHeaders = false)
  | interim (ho : c.outstanding = [.interim]) (hf : c.fault = none) (hh : c.s.haveHeaders = true)

/-- nothing is outstanding and the handler that runs may go on -/
structure Idle (len : Bytes → Nat) (rcv : Bytes) (c : Conn σ) : Prop extends Core len rcv c where
  outstanding : c.outstanding = []
  fault : c.fault = none

structure Inv (len : Bytes → Nat) (rcv : Bytes) (c : Conn σ) : Prop extends Core len rcv c where
  mode : Mode c

variable {len : Bytes → Nat} {rcv : Bytes} {c : Conn σ}

theorem Core.size_le (h : Core len rcv c) : c.s.buf.length ≤ 2 ^ 62 := by
  obtain ⟨k, _, hk, he⟩ := h.size
  rw [he]
  exact Nat.pow_le_pow_right (by norm_num) hk

theorem Core.size_pos (h : Core len rcv c) : 0 < c.s.buf.length := by
  obtain ⟨k, _, _, he⟩ := h.size
  rw [he]
  exact Nat.two_pow_pos k

theorem Core.pending_length (h : Core len rcv c) : c.s.pending.length = c.s.used := by
  unfold SslSession.pending
  rw [List.length_take, Nat.min_eq_left h.used_le]

/-- once the head is known, the lengths read from it are stored -/
theorem Core.lengths (hc : Core len rcv c) {h r : Bytes}
    (hs : blockHead crlf2 c.s.pending = some (h, r)) (hh : c.s.haveHeaders = true) :
    c.s.headersLen = h.length ∧ c.s.contentLength = len h := by
  obtain ⟨h', r', hs', hH, hV⟩ := hc.head hh
  obtain ⟨rfl, rfl⟩ : h = h' ∧ r = r' := by
    rw [hs, Option.some.injEq, Prod.mk.injEq] at hs'
    exact hs'
  exact ⟨hH, hV⟩

theorem Core.isHead (hc : Core len rcv c) {h r : Bytes}
    (hs : blockHead crlf2 c.s.pending = some (h, r)) : IsHead crlf2 len rcv h :=
  .of_takes hc.takes (.here hs)

/-! ## actions that leave the framing alone -/

theorem dispatched_emit (c : Conn σ) (a : Action) (ha : ∀ h b, a ≠ .dispatch h b) :
    (c.emit a).dispatched = c.dispatched := by
  unfold emit dispatched
  rw [List.filterMap_append]
  cases a with
  | dispatch h b => exact absurd rfl (ha h b)
  | _ => simp

theorem dispatched_start (c : Conn σ) (op : Op) (a : Action) (ha : ∀ h b, a ≠ .dispatch h b) :
    (c.start op a).dispatched = c.dispatched := dispatched_emit c a ha

/-- an action that is neither a dispatch nor one the bounds speak about -/
def Action.quiet : Action → Bool
  | .read _ _ | .extract _ _ _ _ | .dispatch _ _ => false
  | _ => true

theorem Action.quiet_ne_dispatch {a : Action} (ha : a.quiet = true) (h b : Bytes) :
    a ≠ .dispatch h b := by
  rintro rfl
  exact absurd ha (by simp [Action.quiet])

theorem Core.trace_append {c' : Conn σ} {a : Action} (hc : Core len rcv c) (hs : c'.s = c.s)
    (ht : c'.trace = c.trace ++ [a]) (ha : ∀ h b, a ≠ .dispatch h b)
    (hx : ∀ H V u n, a = .extract H V u n → H + V ≤ u ∧ u ≤ n)
    (hr : ∀ off n, a = .read off n → off < n) : Core len rcv c' := by
  have hd : c'.dispatched = c.dispatched := by
    have h1 := dispatched_emit c a ha
    unfold emit dispatched at h1
    unfold dispatched
    rw [ht]
    exact h1
  refine ⟨hs ▸ hc.size, hs ▸ hc.used_le, ?_, hs ▸ hc.head, ?_, ?_⟩
  · rw [hd, hs]
    exact hc.takes
  · intro H V u n hm
    rw [ht, List.mem_append, List.mem_singleton] at hm
    exact hm.elim (hc.extracts H V u n) fun e => hx H V u n e.symm
  · intro off n hm
    rw [ht, List.mem_append, List.mem_singleton] at hm
    exact hm.elim (hc.offered off n) fun e => hr off n e.symm

theorem Core.quiet {c' : Conn σ} {a : Action} (hc : Core len rcv c) (hs : c'.s = c.s)
    (ht : c'.trace = c.trace ++ [a]) (ha : a.quiet = true) : Core len rcv c' := by
  refine hc.trace_append hs ht (Action.quiet_ne_dispatch ha) ?_ ?_
  · rintro H V u n rfl
    exact absurd ha (by simp [Action.quiet])
  · rintro off n rfl
    exact absurd ha (by simp [Action.quiet])

theorem Core.same {c' : Conn σ} (hc : Core len rcv c) (hs : c'.s = c.s) (ht : c'.trace = c.trace) :
    Core len rcv c' := by
  have hd : c'.dispatched = c.dispatched := by unfold dispatched; rw [ht]
  exact ⟨hs ▸ hc.size, hs ▸ hc.used_le, by rw [hd, hs]; exact hc.takes, hs ▸ hc.head,
    ht ▸ hc.extracts, ht ▸ hc.offered⟩

theorem Idle.emit (hc : Idle len rcv c) {a : Action} (ha : a.quiet = true) :
    Idle len rcv (c.emit a) :=
  ⟨hc.toCore.quiet rfl rfl ha, hc.outstanding, hc.fault⟩

/-! ## `do_read` -/

/-- `ensure_capacity` leaves the received bytes and makes room behind them, or throws -/
theorem ensureCapacity_spec (hc : Core len rcv c) :
    (∃ s, c.s.ensureCapacity = .ok s ∧ (∃ k, 13 ≤ k ∧ k ≤ 62 ∧ s.buf.length = 2 ^ k) ∧
      s.used = c.s.used ∧ s.used < s.buf.length ∧ s.pending = c.s.pending ∧
      s.haveHeaders = c.s.haveHeaders ∧ s.headersLen = c.s.headersLen ∧
      s.contentLength = c.s.contentLength) ∨
    (c.s.ensureCapacity = .error .resizeError ∧ 2 ^ 62 ≤ c.s.used) := by
  obtain ⟨k, hk, hk', he⟩ := hc.size
  have hne : c.s.buf.isEmpty = false := by
    rw [List.isEmpty_eq_false_iff, ← List.length_pos_iff]
    exact hc.size_pos
  have hle := hc.used_le
  unfold SslSession.ensureCapacity
  simp only [hne, Bool.false_eq_true, if_false]
  by_cases hfull : c.s.used = c.s.buf.length
  · rw [if_pos hfull]
    by_cases hk62 : k = 62
    · right
      rw [if_pos (by rw [he, hk62, maxSize]; norm_num), hfull, he, hk62]
      exact ⟨rfl, le_refl _⟩
    · left
      have hlt : 2 ^ k ≤ 2 ^ 61 := Nat.pow_le_pow_right (by norm_num) (by omega)
      have h2 : c.s.buf.length * 2 = 2 ^ (k + 1) := by rw [he, pow_succ]
      rw [if_neg (by rw [he, maxSize]; omega)]
      refine ⟨_, rfl, ⟨k + 1, by omega, by omega, ?_⟩, rfl, ?_, ?_, rfl, rfl, rfl⟩
      · show (c.s.buf ++ List.replicate c.s.buf.length 0).length = _
        rw [List.length_append, List.length_replicate, ← h2]
        omega
      · show c.s.used < (c.s.buf ++ List.replicate c.s.buf.length 0).length
        rw [List.length_append, List.length_replicate]
        have := hc.size_pos
        omega
      · show (c.s.buf ++ List.replicate c.s.buf.length 0).take c.s.used = c.s.buf.take c.s.used
        rw [List.take_append_of_le_length hle]
  · left
    rw [if_neg hfull]
    exact ⟨_, rfl, ⟨k, hk, hk', he⟩, rfl, by show c.s.used < c.s.buf.length; omega, rfl, rfl, rfl,
      rfl⟩

/-- a read is outstanding on free space, or the buffer cannot grow any more -/
def Waiting (c : Conn σ) : Prop :=
  (c.outstanding = [.read c.s.used c.s.buf.length] ∧ c.fault = none ∧ c.s.used < c.s.buf.length) ∨
    (c.outstanding = [] ∧ c.fault = some .resizeError ∧ 2 ^ 62 ≤ c.s.used)

theorem Waiting.mode (h : Waiting c) : Mode c := by
  rcases h with ⟨ho, hf, hu⟩ | ⟨ho, hf, hu⟩
  · exact .reading ho hf hu
  · exact .failed ho hf hu

theorem Waiting.no_interim (h : Waiting c) : Op.interim ∉ c.outstanding := by
  rcases h with ⟨ho, -⟩ | ⟨ho, -⟩ <;> simp [ho]

theorem doRead_spec (hc : Idle len rcv c) : Core len rcv (doRead c) ∧ Waiting (doRead c) ∧
    (doRead c).dispatched = c.dispatched ∧ (doRead c).s.pending = c.s.pending := by
  unfold doRead
  rcases ensureCapacity_spec hc.toCore with ⟨s, hs, hsize, hu, hlt, hp, hh, hl, hcl⟩ | ⟨he, hu⟩
  · rw [hs]
    have hd : ({ c with s := s }.start (.read s.used s.buf.length)
        (.read s.used s.buf.length)).dispatched = c.dispatched :=
      dispatched_start _ _ _ (by simp)
    refine ⟨⟨hsize, hlt.le, ?_, ?_, ?_, ?_⟩, Or.inl ⟨?_, hc.fault, hlt⟩, hd, hp⟩
    · rw [hd]
      show (requestReader len).Takes rcv c.dispatched s.pending
      rw [hp]
      exact hc.takes
    · intro h
      show ∃ h r, blockHead crlf2 s.pending = some (h, r) ∧ s.headersLen = _ ∧ s.contentLength = _
      rw [hp, hl, hcl]
      exact hc.head (hh ▸ h)
    · intro H V u n hm
      simp only [start, List.mem_append, List.mem_singleton, reduceCtorEq, or_false] at hm
      exact hc.extracts H V u n hm
    · intro off n hm
      simp only [start, List.mem_append, List.mem_singleton, Action.read.injEq] at hm
      rcases hm with hm | ⟨rfl, rfl⟩
      · exact hc.offered off n hm
      · exact hlt
    · show Op.read s.used s.buf.length :: c.outstanding = _
      rw [hc.outstanding]
      rfl
  · rw [he]
    exact ⟨hc.toCore.same rfl rfl, Or.inr ⟨hc.outstanding, rfl, hu⟩, rfl, rfl⟩

theorem doRead_inv (hc : Idle len rcv c) : Inv len rcv (doRead c) :=
  ⟨(doRead_spec hc).1, (doRead_spec hc).2.1.mode⟩

end ServerHttpLib
