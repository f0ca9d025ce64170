import ServerHttpLib.Lib.Progress
import ServerHttpLib.Sql.Ownership

/-!
# The mutex is given back

No operation waits for a mutex that it has itself, and none ends inside of a critical section; so
the operation that has the mutex can always go on, and it gives the mutex back as long as it is
scheduled, whatever the others do meanwhile and however the driver answers.  The bound on the depth
of calls plays no role in that: no critical section is ended by it.

* `Kept.moves`      who is not waiting for the mutex can make a step;
* `ranking`         while the mutex is locked, what is left of its operation only gets less;
* `mutex_released`  nobody is stuck, and the mutex is free again and again.
-/

namespace ServerHttpLib
open Programs MysqlWrapper Runs

namespace System

def Label.number : Label → Option Nat
  | .start _ => none
  | .act number _ | .finish number => some number

/-- the step is one of the operation that has the mutex -/
def HolderActs (s : System) (l : Label) : Prop :=
  ∃ number ∈ l.number, ∃ op, s.operations[number]? = some op ∧ op.hasMutex = true

/-- what is left of the operation that has the mutex -/
def holderRest (s : System) : MysqlWrapper.Method (Option PooledConnection) :=
  ((s.operations.find? Running.hasMutex).map Running.rest).getD (return none)

/-- `p'` is what is left of `p` behind its next action -/
inductive Follows : (p' p : MysqlWrapper.Method (Option PooledConnection)) → Prop
  | intro (a : Act) (k : a.Reply → MysqlWrapper.Method (Option PooledConnection)) (r : a.Reply) :
    Follows (k r) (.step a k)

theorem wellFounded_follows : WellFounded Follows := by
  refine ⟨fun p => ?_⟩
  induction p with
  | done r => exact ⟨_, fun p' h => nomatch h⟩
  | step a k ih =>
    refine ⟨_, fun p' h => ?_⟩
    cases h with
    | intro _ _ r => exact ih r

/-- the driver refuses new connections -/
def refusing : (call : DriverCall) → call.Reply := driverAnswers (.error 2003) (.ok ())

variable {fuel : Nat} {s s' : System} {op : Running} {number : Nat}

/-! ## nobody is stuck -/

theorem Kept.not_lock (h : Kept s) (hop : op ∈ s.operations) (hm : op.hasMutex = true)
    {k : Act.lock.Reply → MysqlWrapper.Method (Option PooledConnection)} :
    op.rest ≠ .step .lock k := by
  intro hrest
  have hcontract := h.contract op hop
  rw [hrest] at hcontract
  have hnone : op.hand.critical = none := hcontract.1.2
  rw [Running.hasMutex, hnone] at hm
  exact absurd hm (by simp)

/-- **An operation that does not wait for the mutex of another one can make a step.** -/
theorem Kept.moves (h : Kept s) (hop : s.operations[number]? = some op)
    (hm : s.mutex = true → op.hasMutex = true) :
    ∃ l s', l.number = some number ∧ step fuel s l = some s' := by
  obtain ⟨exclusive, rest, hand⟩ := op
  cases rest with
  | done r =>
    refine ⟨.finish number, s.finishBehind number exclusive r, rfl, ?_⟩
    rw [step]
    simp only [hop]
  | step a k =>
    have hposs : s.possible a (s.reply refusing a) = true := by
      cases a with
      | lock =>
        cases hmutex : s.mutex with
        | false => simp [possible, hmutex]
        | true => exact absurd rfl (h.not_lock (List.mem_of_getElem? hop) (hm hmutex))
      | driver call => cases call <;> rfl
      | _ => rfl
    refine ⟨.act number refusing, s.actBehind number ⟨exclusive, .step a k, hand⟩ a
      (s.reply refusing a) (k (s.reply refusing a)), rfl, ?_⟩
    rw [step]
    simp only [hop]
    exact if_pos hposs

theorem Kept.exists_holder (h : Kept s) (hm : s.mutex = true) :
    ∃ (number : Nat) (op : Running), s.operations[number]? = some op ∧ op.hasMutex = true ∧
      ∀ (number' : Nat) (op' : Running), s.operations[number']? = some op' →
        op'.hasMutex = true → number' = number := by
  have hcount := h.mutex
  rw [hm] at hcount
  obtain ⟨op, hop, hhas⟩ := List.countP_pos_iff.mp (Nat.lt_of_lt_of_eq Nat.one_pos hcount.symm)
  obtain ⟨number, hnumber⟩ := List.getElem?_of_mem hop
  refine ⟨number, op, hnumber, hhas, fun number' op' hnumber' hhas' => ?_⟩
  by_contra hne
  obtain ⟨pre, post, hs, -, herase⟩ := split_getElem? hnumber
  have hop' : op' ∈ pre ++ post := by
    rw [← herase]
    exact List.mem_eraseIdx_iff_getElem?.mpr ⟨number', hne, hnumber'⟩
  have hnone := h.critical_unique hs hop' hhas'
  rw [Running.hasMutex, hnone] at hhas
  exact absurd hhas (by simp)

/-! ## what is left of a critical section -/

theorem holderRest_of_false {pre post : List Running} (hs : s.operations = pre ++ op :: post)
    (hop : op.hasMutex = false) :
    s.holderRest
      = (((pre ++ post).find? Running.hasMutex).map Running.rest).getD (return none) := by
  unfold holderRest
  rw [hs, List.find?_append, List.find?_append, List.find?_cons_of_neg (by simp [hop])]

theorem Kept.holderRest_of_true {pre post : List Running} (h : Kept s)
    (hs : s.operations = pre ++ op :: post) (hop : op.hasMutex = true) :
    s.holderRest = op.rest := by
  unfold holderRest
  have hpre : pre.find? Running.hasMutex = none := by
    refine List.find?_eq_none.mpr fun q hq hhas => ?_
    have hnone := h.critical_unique hs (List.mem_append_left post hq) hhas
    rw [Running.hasMutex, hnone] at hop
    exact absurd hop (by simp)
  rw [hs, List.find?_append, hpre, List.find?_cons_of_pos hop]
  rfl

theorem Kept.holderRest_start (h : Kept s) (hm : s.mutex = true) {operation : Operation}
    (hs : startOperation fuel s operation = some s') : s'.holderRest = s.holderRest := by
  rcases startOperation_cases hs with ⟨host, login, password, rfl, hnone, rfl⟩ |
    ⟨-, held, destroyed, -, rfl⟩
  · obtain ⟨number, op, hop, -⟩ := h.exists_holder hm
    rw [hnone] at hop
    exact absurd hop (by simp)
  · exact @holderRest_of_false _ _ [] s.operations rfl rfl

theorem Acting.hasMutex_false {hand : Hand} {a : Act} {r : a.Reply} (h : Acting s hand a r)
    (hm : s.mutex = true) (hc : hand.critical = none) :
    (hand.next s.wrapper a r).critical.isSome = false := by
  have hb := h.mutex_behind
  rw [hc, hm] at hb
  cases a with
  | lock =>
    have hp : (!s.mutex) = true := h.possible
    rw [hm] at hp
    exact absurd hp (by simp)
  | unlock => rfl
  | _ =>
    have hb : 0 + 1 = _ + 1 := hb
    exact Bool.toNat_eq_zero.mp (by omega)

theorem Kept.holderRest_act (h : Kept s) (hm : s.mutex = true)
    {answer : (call : DriverCall) → call.Reply} (hs : step fuel s (.act number answer) = some s') :
    s'.mutex = false ∨ Follows s'.holderRest s.holderRest ∨
      s'.holderRest = s.holderRest ∧ ¬ HolderActs s (.act number answer) := by
  obtain ⟨exclusive, a, k, hand, hop, hposs, rfl⟩ := step_act hs
  have hkept := kept_act h hop answer hposs
  obtain ⟨pre, post, hsplit, hset, -⟩ := split_getElem? hop
  have hact := h.acting (List.mem_of_getElem? hop) rfl hposs
  cases hc : hand.critical with
  | none =>
    refine .inr (.inr ⟨?_, ?_⟩)
    · rw [holderRest_of_false hsplit (by rw [Running.hasMutex, hc]; rfl)]
      exact holderRest_of_false (hset _) (hact.hasMutex_false hm hc)
    · rintro ⟨_, hn, op, hop', hhas⟩
      obtain rfl := Option.some.inj hn
      obtain rfl := Option.some.inj (hop.symm.trans hop')
      rw [Running.hasMutex, hc] at hhas
      exact absurd hhas (by simp)
  | some c =>
    have hhas : (⟨exclusive, .step a k, hand⟩ : Running).hasMutex = true := by
      rw [Running.hasMutex, hc]
      rfl
    cases hb : mutexBehind s.mutex a with
    | false => exact .inl hb
    | true =>
      have hmutex := hact.mutex_behind
      rw [hc, hb, hm] at hmutex
      have hnext : (hand.next s.wrapper a (s.reply answer a)).critical.isSome = true := by
        rw [← Bool.toNat_eq_one]
        simp only [Option.isSome_some, Bool.toNat_true] at hmutex
        omega
      refine .inr (.inl ?_)
      rw [hkept.holderRest_of_true (hset _) hnext, h.holderRest_of_true hsplit hhas]
      exact .intro a k _

theorem Kept.holderRest_finish (h : Kept s) (hs : step fuel s (.finish number) = some s') :
    s'.mutex = false ∨ s'.holderRest = s.holderRest ∧ ¬ HolderActs s (.finish number) := by
  obtain ⟨exclusive, r, hand, hop, rfl⟩ := step_finish hs
  obtain ⟨pre, post, hsplit, -, herase⟩ := split_getElem? hop
  cases exclusive with
  | true => exact .inl (by simp [finishBehind])
  | false =>
    have hdone : hand = ⟨.idle, handedOut r, none⟩ := h.contract _ (List.mem_of_getElem? hop)
    right
    refine ⟨?_, ?_⟩
    · rw [holderRest_of_false hsplit (by rw [Running.hasMutex, hdone]; rfl)]
      exact congrArg
        (fun l : List Running => ((l.find? Running.hasMutex).map Running.rest).getD (return none))
        herase
    · rintro ⟨_, hn, op, hop', hhas⟩
      obtain rfl := Option.some.inj hn
      obtain rfl := Option.some.inj (hop.symm.trans hop')
      rw [Running.hasMutex, hdone] at hhas
      exact absurd hhas (by simp)

/-- **While the mutex is locked, what is left of its operation only gets less.** -/
theorem ranking (fuel : Nat) : Ranking (step fuel) Kept (fun s => s.mutex = false) HolderActs
    Follows holderRest where
  keeps := kept_step
  moves := by
    intro s s' l h hm hs
    have hm : s.mutex = true := by simpa using hm
    cases l with
    | start operation =>
      refine .inr (.inr ⟨h.holderRest_start hm hs, fun ⟨_, hn, _⟩ => ?_⟩)
      exact absurd hn (by simp [Label.number])
    | act number answer => exact h.holderRest_act hm hs
    | finish number => exact (h.holderRest_finish hs).imp_right .inr

/-! ## the result -/

/-- nobody is stuck, and the mutex is given back -/
structure Live (fuel : Nat) (s : System) : Prop where
  /-- an operation that does not wait for the mutex of another one can make a step -/
  moves : ∀ (number : Nat) (op : Running), s.operations[number]? = some op →
    (s.mutex = true → op.hasMutex = true) → ∃ l s', l.number = some number ∧ step fuel s l = some s'
  /-- the locked mutex belongs to one operation -/
  holder : s.mutex = true → ∃ (number : Nat) (op : Running), s.operations[number]? = some op ∧
    op.hasMutex = true ∧ ∀ (number' : Nat) (op' : Running), s.operations[number']? = some op' →
      op'.hasMutex = true → number' = number
  /-- a run that goes on for ever, and that schedules the operation that has the mutex again and
  again -/
  freed : ∀ (st : Nat → System) (ls : Nat → Label), st 0 = s → Endless (step fuel) st ls →
    (∀ n, ∃ m, n ≤ m ∧ ((st m).mutex = false ∨ HolderActs (st m) (ls m))) →
      ∀ n, ∃ m, n ≤ m ∧ (st m).mutex = false

/-- **The mutex is given back**, from every state of every run on. -/
theorem mutex_released (fuel : Nat) (es : List Label) (s : System)
    (hrun : runs (step fuel) start es = some s) : Live fuel s where
  moves _ _ hop hm := (kept_run hrun).moves hop hm
  holder := (kept_run hrun).exists_holder
  freed := by
    intro st ls h0 hend hfair
    exact (ranking fuel).reaches wellFounded_follows hend (h0 ▸ kept_run hrun) hfair

/-- two callers ask for a connection, and the second one has locked the mutex -/
def twoCallers : List Label :=
  [.start .getConnection, .start .getConnection, .act 0 refusing]

theorem mutex_released_locked : ∃ s, runs (step 0) start twoCallers = some s ∧
    s.mutex = true ∧ s.operations.length = 2 ∧ Live 0 s :=
  ⟨_, rfl, rfl, rfl, mutex_released 0 twoCallers _ rfl⟩

end System

end ServerHttpLib
