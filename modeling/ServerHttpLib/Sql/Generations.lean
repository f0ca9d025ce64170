import ServerHttpLib.Sql.Ownership

/-!
# Generations and reconnects

`reconnect` increases `_generation`, and a connection that is released with another generation is
deleted.  The generation of a new connection is read in a step of its own behind the call of the
driver, so a connection that was opened before a reconnect can get the generation behind it.

* `Dated`           the invariant: the generation of a connection is that of the epoch in which it
                    was opened;
* `Undisturbed`     no reconnect takes its step while a new connection has no generation yet;
* `none_outdated`   in such runs the pool has no connection from before the last reconnect.
-/

namespace ServerHttpLib
open Programs MysqlWrapper Runs

/-- the value of `_generation` behind `epoch` reconnects -/
def generationOf (epoch : Nat) : UInt64 := UInt64.ofNat (1 + epoch)

theorem generationOf_succ (epoch : Nat) : generationOf (epoch + 1) = generationOf epoch + 1 := by
  unfold generationOf
  rw [← Nat.add_assoc, UInt64.ofNat_add]
  rfl

theorem dvd_of_generationOf_eq {e epoch : Nat} (hle : e ≤ epoch)
    (h : generationOf e = generationOf epoch) : 2 ^ 64 ∣ epoch - e := by
  have hmod := congrArg UInt64.toNat h
  unfold generationOf at hmod
  rw [UInt64.toNat_ofNat', UInt64.toNat_ofNat'] at hmod
  omega

namespace History

/-- the generation is that of the epoch in which the connection was opened -/
def Matches (h : History) (p : PooledConnection) : Prop :=
  ∃ e, (p.connection, e) ∈ h.created ∧ p.generation = generationOf e

/-- an open connection is of this epoch, or its generation differs from that of this epoch -/
def Young (h : History) : Prop := ∀ x ∈ h.created, x.1 ∉ h.deleted → x.1 ∉ h.lost →
  x.2 = h.epoch ∨ ¬ 2 ^ 64 ∣ h.epoch - x.2

end History

namespace System

structure Dated (s : System) : Prop where
  generation : s.wrapper.generation = generationOf s.history.epoch
  owned : ∀ op ∈ s.operations, ∀ p ∈ op.hand.own, s.history.Matches p
  held : ∀ p ∈ s.held, s.history.Matches p
  pool : ∀ p ∈ s.wrapper.connections, ∃ e, (p.connection, e) ∈ s.history.created ∧
    p.generation = generationOf e ∧ s.history.completed ≤ e
  stage : ∀ op ∈ s.operations, ∀ conn ∈ op.hand.stage.connection,
    (conn, s.history.epoch) ∈ s.history.created
  young : s.history.Young
  past : ∀ x ∈ s.history.created, x.2 ≤ s.history.epoch
  completed : s.history.completed ≤ s.history.epoch
  free : s.mutex = false → s.history.completed = s.history.epoch

theorem dated_start : Dated start where
  generation := rfl
  owned _ h := absurd h List.not_mem_nil
  held _ h := absurd h List.not_mem_nil
  pool _ h := absurd h List.not_mem_nil
  stage _ h := absurd h List.not_mem_nil
  young _ h := absurd h List.not_mem_nil
  past _ h := absurd h List.not_mem_nil
  completed := le_refl _
  free _ := rfl

end System

/-- the next action increases `_generation` -/
def Running.bumps (op : Running) (m : MysqlWrapper) : Bool :=
  match op.rest with
  | .step (.update f) _ => (f m).generation ≠ m.generation
  | _ => false

namespace System

/-- If the step increases `_generation`, then no operation has a connection that has no generation
yet, and no open connection gets the current generation again because the counter wraps around. -/
def Undisturbed (s : System) : Label → Prop
  | .act number _ => ∀ op ∈ s.operations[number]?, op.bumps s.wrapper = true →
      (∀ q ∈ s.operations, q.hand.stage = .idle) ∧
        ∀ x ∈ s.history.created, x.1 ∉ s.history.deleted → x.1 ∉ s.history.lost →
          ¬ 2 ^ 64 ∣ s.history.epoch + 1 - x.2
  | _ => True

instance (s : System) : DecidablePred (Undisturbed s)
  | .act number _ => inferInstanceAs (Decidable (∀ op ∈ s.operations[number]?, _))
  | .start _ | .finish _ => .isTrue trivial

/-! ## one action -/

section
variable {s s' : System} {pre post : List Running} {op op' : Running}

theorem Dated.replace (h : Dated s) (hs : s.operations = pre ++ op :: post)
    (hs' : s'.operations = pre ++ op' :: post) (hheld : s'.held = s.held)
    (hcreated : ∀ x ∈ s.history.created, x ∈ s'.history.created)
    (hgeneration : s'.wrapper.generation = generationOf s'.history.epoch)
    (howned : ∀ p ∈ op'.hand.own, s'.history.Matches p)
    (hpool : ∀ p ∈ s'.wrapper.connections, ∃ e, (p.connection, e) ∈ s'.history.created ∧
      p.generation = generationOf e ∧ s'.history.completed ≤ e)
    (hstage : s'.history.epoch = s.history.epoch ∧ (∀ conn ∈ op'.hand.stage.connection,
        (conn, s'.history.epoch) ∈ s'.history.created) ∨
      ∀ q ∈ s'.operations, q.hand.stage = .idle)
    (hyoung : s'.history.Young) (hpast : ∀ x ∈ s'.history.created, x.2 ≤ s'.history.epoch)
    (hcompleted : s'.history.completed ≤ s'.history.epoch)
    (hfree : s'.mutex = false → s'.history.completed = s'.history.epoch) : Dated s' := by
  have hmono : ∀ p, s.history.Matches p → s'.history.Matches p := by
    rintro p ⟨e, he, hg⟩
    exact ⟨e, hcreated _ he, hg⟩
  have hmem : ∀ q, q ∈ s'.operations → q = op' ∨ q ∈ s.operations := by
    intro q hq
    exact ((mem_middle hs').mp hq).imp_right fun hq => (mem_middle hs).mpr (.inr hq)
  refine ⟨hgeneration, fun q hq p hp => ?_, fun p hp => ?_, hpool, fun q hq conn hconn => ?_,
    hyoung, hpast, hcompleted, hfree⟩
  · rcases hmem q hq with rfl | hq
    · exact howned p hp
    · exact hmono p (h.owned q hq p hp)
  · rw [hheld] at hp
    exact hmono p (h.held p hp)
  · rcases hstage with ⟨hepoch, hstage⟩ | hidle
    · rcases hmem q hq with rfl | hq
      · exact hstage conn hconn
      · rw [hepoch]
        exact hcreated _ (h.stage q hq conn hconn)
    · rw [hidle q hq] at hconn
      exact absurd hconn (by simp [Stage.connection])

theorem Dated.quiet (h : Dated s) (hs : s.operations = pre ++ op :: post)
    (hs' : s'.operations = pre ++ op' :: post) (hheld : s'.held = s.held)
    (hcreated : ∀ x ∈ s.history.created, x ∈ s'.history.created)
    (hnew : ∀ x ∈ s'.history.created, x ∈ s.history.created ∨ x.2 = s.history.epoch)
    (hconns : s'.wrapper.connections = s.wrapper.connections)
    (hgeneration : s'.wrapper.generation = s.wrapper.generation)
    (hepoch : s'.history.epoch = s.history.epoch)
    (hcompleted : s'.history.completed = s.history.completed)
    (hdeleted : s.history.deleted ⊆ s'.history.deleted) (hlost : s.history.lost ⊆ s'.history.lost)
    (howned : ∀ p ∈ op'.hand.own, s'.history.Matches p)
    (hstage : ∀ conn ∈ op'.hand.stage.connection,
      (conn, s.history.epoch) ∈ s'.history.created)
    (hmutex : s'.mutex = false → s.mutex = false) : Dated s' := by
  refine h.replace hs hs' hheld hcreated ?_ howned ?_ (.inl ⟨hepoch, ?_⟩) ?_ ?_ ?_ ?_
  · rw [hgeneration, hepoch]
    exact h.generation
  · intro p hp
    rw [hconns] at hp
    obtain ⟨e, he, hg, hle⟩ := h.pool p hp
    exact ⟨e, hcreated _ he, hg, hcompleted ▸ hle⟩
  · rw [hepoch]
    exact hstage
  · intro x hx hd hl
    rw [hepoch]
    rcases hnew x hx with hx | hx
    · exact h.young x hx (fun hm => hd (hdeleted hm)) fun hm => hl (hlost hm)
    · exact .inl hx
  · intro x hx
    rw [hepoch]
    rcases hnew x hx with hx | hx
    · exact h.past x hx
    · exact le_of_eq hx
  · rw [hepoch, hcompleted]
    exact h.completed
  · intro hm
    rw [hepoch, hcompleted]
    exact h.free (hmutex hm)

theorem Dated.still (h : Dated s) (hs : s.operations = pre ++ op :: post)
    (hs' : s'.operations = pre ++ op' :: post) (hheld : s'.held = s.held)
    (hwrapper : s'.wrapper = s.wrapper) (hhistory : s'.history = s.history)
    (howned : ∀ p ∈ op'.hand.own, s.history.Matches p)
    (hstage : ∀ conn ∈ op'.hand.stage.connection, (conn, s.history.epoch) ∈ s.history.created)
    (hmutex : s'.mutex = false → s.mutex = false) : Dated s' := by
  refine h.quiet hs hs' hheld ?_ ?_ (congrArg _ hwrapper) (congrArg _ hwrapper) ?_ ?_ ?_ ?_ ?_ ?_
    hmutex <;> rw [hhistory]
  · exact fun _ hx => hx
  · exact fun _ hx => .inl hx
  · exact List.Subset.refl _
  · exact List.Subset.refl _
  · exact howned
  · exact hstage

end

/-! ## the actions -/

section
variable {s : System} {hand : Hand}

theorem matches_tag (h : Dated s) {op : Running} (hop : op ∈ s.operations) {p : PooledConnection}
    (hp : p ∈ (op.hand.tag s.wrapper.generation).own) : s.history.Matches p := by
  unfold Hand.tag at hp
  split at hp
  · next conn hs =>
    rcases Multiset.mem_cons.mp hp with rfl | hp
    · exact ⟨s.history.epoch, h.stage op hop conn (by rw [hs]; rfl), h.generation⟩
    · exact h.owned op hop p hp
  · exact h.owned op hop p hp

/-- a connection in hand that has the current generation is of the current epoch -/
theorem epoch_of_current (hk : Kept s) (h : Dated s) {op : Running} (hop : op ∈ s.operations)
    {p : PooledConnection} (hp : p ∈ op.hand.own) (hg : p.generation = s.wrapper.generation) :
    (p.connection, s.history.epoch) ∈ s.history.created := by
  obtain ⟨e, he, hge⟩ := h.owned op hop p hp
  have hconn : p.connection ∈ op.hand.connections :=
    Multiset.mem_add.mpr (.inl (Multiset.mem_map_of_mem _ hp))
  have haway := hk.not_mem_away hop hconn
  have hdvd := dvd_of_generationOf_eq (h.past _ he) (hge.symm.trans (hg.trans h.generation))
  rcases h.young _ he (fun hd => haway (by simp [away, hd])) (fun hl => haway (by simp [away, hl]))
    with hepoch | hyoung
  · exact hepoch ▸ he
  · exact absurd hdvd hyoung

theorem epoch_of_tag (hk : Kept s) (h : Dated s) {op : Running} (hop : op ∈ s.operations)
    {p : PooledConnection} (hp : p ∈ (op.hand.tag s.wrapper.generation).own)
    (hg : p.generation = s.wrapper.generation) :
    (p.connection, s.history.epoch) ∈ s.history.created := by
  unfold Hand.tag at hp
  split at hp
  · next conn hs =>
    rcases Multiset.mem_cons.mp hp with rfl | hp
    · exact h.stage op hop conn (by rw [hs]; rfl)
    · exact epoch_of_current hk h hop hp hg
  · exact epoch_of_current hk h hop hp hg

theorem stage_tag (generation : UInt64) {conn : Connection}
    (hc : conn ∈ (hand.tag generation).stage.connection) : conn ∈ hand.stage.connection := by
  unfold Hand.tag at hc
  split at hc
  · exact absurd hc (by simp [Stage.connection])
  · exact hc

theorem stage_named_made {conn : Connection} (hc : conn ∈ (hand.named .made).stage.connection) :
    conn ∈ hand.stage.connection := by
  unfold Hand.named at hc
  split at hc
  · next hs => rw [hs]; exact hc
  · exact hc

theorem stage_named_idle {conn : Connection}
    (hc : conn ∈ (hand.named fun _ => .idle).stage.connection) : conn ∈ hand.stage.connection := by
  unfold Hand.named at hc
  split at hc
  · exact absurd hc (by simp [Stage.connection])
  · exact hc

theorem stage_members (m : MysqlWrapper) {seen : MysqlWrapper} {conn : Connection}
    (hc : conn ∈ (hand.next m .members seen).stage.connection) :
    conn ∈ hand.stage.connection := by
  cases hs : hand.stage with
  | connected conn' =>
    simp only [Hand.next, hs] at hc
    split at hc <;> exact hc
  | _ =>
    simp only [Hand.next, hs] at hc
    exact hs ▸ stage_tag _ hc

theorem own_members (m : MysqlWrapper) {seen : MysqlWrapper} {p : PooledConnection}
    (hp : p ∈ (hand.next m .members seen).own) : p ∈ (hand.tag seen.generation).own := by
  cases hs : hand.stage with
  | connected conn =>
    simp only [Hand.next, hs] at hp
    exact Multiset.mem_of_le (hand.own_le_tag _) hp
  | _ =>
    simp only [Hand.next, hs] at hp
    exact hp

/-- what a `setSchema` that throws leaves behind -/
theorem record_error (h : History) (stage : Stage) (m : MysqlWrapper) (conn : Connection)
    (schema : Bytes) (code : Int) :
    let h' := h.record stage m (.driver (.setSchema conn schema)) (.error code)
    h'.created = h.created ∧ h'.epoch = h.epoch ∧ h'.completed = h.completed ∧
      h'.deleted = h.deleted ∧ h.lost ⊆ h'.lost := by
  simp only [History.record]
  split
  · exact ⟨rfl, rfl, rfl, rfl, List.subset_cons_self _ _⟩
  · exact ⟨rfl, rfl, rfl, rfl, List.Subset.refl _⟩

/-- what an update makes of the pool and the counter -/
theorem updated {f : MysqlWrapper → MysqlWrapper} {r : (Act.update f).Reply}
    (hact : Acting s hand (.update f) r) :
    ((f s.wrapper).generation = s.wrapper.generation ∨
      (f s.wrapper).generation = s.wrapper.generation + 1) ∧
    ∀ p ∈ (f s.wrapper).connections, p ∈ s.wrapper.connections ∨
      p ∈ (hand.tag s.wrapper.generation).own ∧ p.generation = (f s.wrapper).generation := by
  cases hc : hand.critical with
  | none =>
    obtain ⟨h1, h2⟩ := hact.same_pool hc
    exact ⟨.inl h2, fun p hp => .inl (h1 ▸ hp)⟩
  | some c =>
    have hf : hand.MayUpdate f := hact.may
    have hknows := hact.knows c hc
    unfold Hand.MayUpdate at hf
    rw [hc] at hf
    exact (hf s.wrapper hknows.pool.symm hknows.generation.symm).2

theorem dated_update_same (hk : Kept s) (h : Dated s) {number : Nat} {exclusive : Bool}
    {f : MysqlWrapper → MysqlWrapper} {k : Unit → MysqlWrapper.Method (Option PooledConnection)}
    (hop : s.operations[number]? = some ⟨exclusive, .step (.update f) k, hand⟩)
    (hact : Acting s hand (.update f) ())
    (hsame : (f s.wrapper).generation = s.wrapper.generation) :
    Dated (s.actBehind number ⟨exclusive, .step (.update f) k, hand⟩ (.update f) () (k ())) := by
  obtain ⟨pre, post, hs, hset, -⟩ := split_getElem? hop
  have hmem : (⟨exclusive, .step (.update f) k, hand⟩ : Running) ∈ s.operations :=
    List.mem_of_getElem? hop
  have hrecord : (s.actBehind number ⟨exclusive, .step (.update f) k, hand⟩ (.update f) ()
      (k ())).history = s.history := if_pos hsame
  refine h.replace hs (hset _) rfl (fun x hx => hrecord ▸ hx) ?_ ?_ ?_ (.inl ⟨?_, ?_⟩) ?_ ?_ ?_ ?_
    <;> rw [hrecord]
  · exact hsame.trans h.generation
  · exact fun p hp => matches_tag h hmem hp
  · intro p hp
    rcases (updated hact).2 p hp with hp | ⟨hp, hg⟩
    · exact h.pool p hp
    · have hcurrent := hg.trans hsame
      exact ⟨s.history.epoch, epoch_of_tag hk h hmem hp hcurrent,
        hcurrent.trans h.generation, h.completed⟩
  · exact fun conn hc => h.stage _ hmem conn (stage_tag _ hc)
  · exact h.young
  · exact h.past
  · exact h.completed
  · exact h.free

/-- nothing in hand has the generation that comes next -/
theorem generation_ne_next (hk : Kept s) (h : Dated s) {op : Running} (hop : op ∈ s.operations)
    (hwrap : ∀ x ∈ s.history.created, x.1 ∉ s.history.deleted → x.1 ∉ s.history.lost →
      ¬ 2 ^ 64 ∣ s.history.epoch + 1 - x.2) {p : PooledConnection} (hp : p ∈ op.hand.own) :
    p.generation ≠ generationOf (s.history.epoch + 1) := by
  intro hg
  obtain ⟨e, he, hge⟩ := h.owned op hop p hp
  have haway := hk.not_mem_away hop
    (Multiset.mem_add.mpr (.inl (Multiset.mem_map_of_mem (·.connection) hp)))
  have hdvd := dvd_of_generationOf_eq (Nat.le_succ_of_le (h.past _ he)) (hge.symm.trans hg)
  exact absurd hdvd (hwrap _ he (fun hd => haway (by simp [away, hd]))
    fun hl => haway (by simp [away, hl]))

/-- an update that increases `_generation`, where no new connection waits for its generation -/
theorem dated_bump (hk : Kept s) (h : Dated s) {number : Nat} {exclusive : Bool}
    {f : MysqlWrapper → MysqlWrapper} {k : Unit → MysqlWrapper.Method (Option PooledConnection)}
    (hop : s.operations[number]? = some ⟨exclusive, .step (.update f) k, hand⟩)
    (hact : Acting s hand (.update f) ())
    (hbump : (f s.wrapper).generation ≠ s.wrapper.generation)
    (hidle : ∀ q ∈ s.operations, q.hand.stage = .idle)
    (hwrap : ∀ x ∈ s.history.created, x.1 ∉ s.history.deleted → x.1 ∉ s.history.lost →
      ¬ 2 ^ 64 ∣ s.history.epoch + 1 - x.2) :
    Dated (s.actBehind number ⟨exclusive, .step (.update f) k, hand⟩ (.update f) () (k ())) := by
  obtain ⟨pre, post, hs, hset, -⟩ := split_getElem? hop
  have hmem : (⟨exclusive, .step (.update f) k, hand⟩ : Running) ∈ s.operations :=
    List.mem_of_getElem? hop
  have hrecord : (s.actBehind number ⟨exclusive, .step (.update f) k, hand⟩ (.update f) ()
      (k ())).history = { s.history with epoch := s.history.epoch + 1 } := if_neg hbump
  obtain ⟨hnext, hpool⟩ := updated hact
  have hgeneration : (f s.wrapper).generation = generationOf (s.history.epoch + 1) := by
    rw [hnext.resolve_left hbump, h.generation, generationOf_succ]
  have htag : hand.tag s.wrapper.generation = hand := by
    have hs' : hand.stage = .idle := hidle _ hmem
    rw [Hand.tag, hs']
  refine h.replace hs (hset _) rfl (fun x hx => hrecord ▸ hx) ?_ ?_ ?_ (.inr ?_) ?_ ?_ ?_ ?_
  · rw [hrecord]
    exact hgeneration
  · rw [hrecord]
    exact fun p hp => matches_tag h hmem hp
  · rw [hrecord]
    intro p hp
    rcases hpool p hp with hp | ⟨hp, hpg⟩
    · exact h.pool p hp
    · rw [htag] at hp
      exact absurd (hpg.trans hgeneration) (generation_ne_next hk h hmem hwrap hp)
  · intro q hq
    rcases (mem_middle (hset _)).mp (show q ∈ s.operations.set number _ from hq) with rfl | hq
    · show (hand.tag s.wrapper.generation).stage = .idle
      rw [htag]
      exact hidle _ hmem
    · exact hidle q ((mem_middle hs).mpr (.inr hq))
  · rw [hrecord]
    exact fun x hx hd hl => .inr (hwrap x hx hd hl)
  · rw [hrecord]
    exact fun x hx => Nat.le_succ_of_le (h.past x hx)
  · rw [hrecord]
    exact Nat.le_succ_of_le h.completed
  · -- only an operation that has the mutex increases the counter
    exact fun (hfree : s.mutex = false) =>
      absurd (hact.same_pool (hact.critical_eq_none hfree)).2 hbump

theorem dated_driver (h : Dated s) {number : Nat} {exclusive : Bool} {call : DriverCall}
    {k : call.Reply → MysqlWrapper.Method (Option PooledConnection)}
    (hop : s.operations[number]? = some ⟨exclusive, .step (.driver call) k, hand⟩)
    (answer : (call : DriverCall) → call.Reply) :
    Dated (s.actBehind number ⟨exclusive, .step (.driver call) k, hand⟩ (.driver call)
      (s.reply answer (.driver call)) (k (s.reply answer (.driver call)))) := by
  obtain ⟨pre, post, hs, hset, -⟩ := split_getElem? hop
  have hmem : (⟨exclusive, .step (.driver call) k, hand⟩ : Running) ∈ s.operations :=
    List.mem_of_getElem? hop
  have howned := h.owned _ hmem
  have hstage := h.stage _ hmem
  cases call with
  | connect host user password =>
    cases hr : answer (.connect host user password) with
    | ok conn =>
      simp only [reply, hr]
      refine h.quiet hs (hset _) rfl (fun _ hx => List.mem_cons_of_mem _ hx) (fun x hx => ?_)
        rfl rfl rfl rfl (List.Subset.refl _) (List.Subset.refl _) (fun p hp => ?_)
        (fun c hc => ?_) id
      · rcases List.mem_cons.mp hx with rfl | hx
        · exact .inr rfl
        · exact .inl hx
      · obtain ⟨e, he, hg⟩ := howned p hp
        exact ⟨e, List.mem_cons_of_mem _ he, hg⟩
      · obtain rfl := Option.some.inj hc
        exact List.mem_cons_self
    | error code =>
      simp only [reply, hr]
      exact h.still hs (hset _) rfl rfl rfl howned hstage id
  | setSchema conn schema =>
    cases hr : answer (.setSchema conn schema) with
    | ok u =>
      simp only [reply, hr]
      refine h.quiet hs (hset _) rfl (fun _ hx => hx) (fun _ hx => .inl hx) rfl rfl rfl rfl
        (List.Subset.refl _) (List.Subset.refl _) ?_
        (fun c hc => hstage c (stage_named_made hc)) id
      exact fun p hp => howned p ((hand.named_critical .made).2 ▸ hp)
    | error code =>
      simp only [reply, hr]
      have howned' : ∀ p ∈ (hand.named fun _ => .idle).own, s.history.Matches p :=
        fun p hp => howned p ((hand.named_critical fun _ => .idle).2 ▸ hp)
      have hstage' : ∀ c ∈ (hand.named fun _ => .idle).stage.connection,
          (c, s.history.epoch) ∈ s.history.created := fun c hc => hstage c (stage_named_idle hc)
      obtain ⟨h1, h2, h3, h4, h5⟩ :=
        record_error s.history hand.stage s.wrapper conn schema code
      refine h.quiet hs (hset _) rfl (fun x hx => h1 ▸ hx) (fun x hx => .inl (h1 ▸ hx)) rfl rfl h2
        h3 (fun c hc => h4 ▸ hc) h5 (fun p hp => ?_) (fun c hc => h1 ▸ hstage' c hc) id
      obtain ⟨e, he, hg⟩ := howned' p hp
      exact ⟨e, h1 ▸ he, hg⟩
  | delete conn =>
    exact h.quiet hs (hset _) rfl (fun _ hx => hx) (fun _ hx => .inl hx) rfl rfl rfl rfl
      (List.subset_cons_self _ _) (List.Subset.refl _)
      (fun p hp => howned p (Multiset.mem_of_le (Multiset.filter_le _ _) hp)) hstage id
  | _ =>
    exact h.still hs (hset _) rfl rfl rfl howned hstage id

/-- **An action of an operation** keeps the invariant, if no reconnect disturbs. -/
theorem dated_act (hk : Kept s) (h : Dated s) {number : Nat} {exclusive : Bool} {a : Act}
    {k : a.Reply → MysqlWrapper.Method (Option PooledConnection)}
    (hop : s.operations[number]? = some ⟨exclusive, .step a k, hand⟩)
    (answer : (call : DriverCall) → call.Reply) (hposs : s.possible a (s.reply answer a) = true)
    (hok : Undisturbed s (.act number answer)) :
    Dated (s.actBehind number ⟨exclusive, .step a k, hand⟩ a (s.reply answer a)
      (k (s.reply answer a))) := by
  obtain ⟨pre, post, hs, hset, -⟩ := split_getElem? hop
  have hmem : (⟨exclusive, .step a k, hand⟩ : Running) ∈ s.operations := List.mem_of_getElem? hop
  have hact : Acting s hand a (s.reply answer a) := hk.acting hmem rfl hposs
  have howned := h.owned _ hmem
  have hstage := h.stage _ hmem
  cases a with
  | lock =>
    refine h.still hs (hset _) rfl rfl rfl (fun p hp => ?_) hstage
      fun hm => absurd hm (by simp [actBehind, mutexBehind])
    rcases Multiset.mem_add.mp hp with hp | hp
    · exact howned p hp
    · obtain ⟨e, he, hg, -⟩ := h.pool p (Multiset.mem_coe.mp hp)
      exact ⟨e, he, hg⟩
  | unlock =>
    obtain ⟨hidle, c, hc, hle, hcur⟩ := hact.may
    have hknows := hact.knows c hc
    refine h.replace hs (hset _) rfl (fun _ hx => hx) h.generation
      (fun p hp => howned p (Multiset.mem_of_le (Multiset.sub_le_self _ _) hp)) ?_
      (.inl ⟨rfl, hstage⟩) h.young h.past (le_refl _) fun _ => rfl
    intro p hp
    have hp' : p ∈ c.pool := hknows.pool ▸ hp
    have hcurrent := (hcur p hp').trans hknows.generation
    exact ⟨s.history.epoch,
      epoch_of_current hk h hmem (Multiset.mem_of_le hle (Multiset.mem_coe.mpr hp')) hcurrent,
      hcurrent.trans h.generation, le_refl _⟩
  | members =>
    refine h.still hs (hset _) rfl rfl rfl ?_ ?_ id
    · exact fun p hp => matches_tag h hmem (own_members s.wrapper hp)
    · exact fun conn hc => hstage conn (stage_members s.wrapper hc)
  | update f =>
    by_cases hsame : (f s.wrapper).generation = s.wrapper.generation
    · exact dated_update_same hk h hop hact hsame
    · obtain ⟨hidle, hwrap⟩ := hok _ hop (decide_eq_true hsame)
      exact dated_bump hk h hop hact hsame hidle hwrap
  | driver call => exact dated_driver h hop answer

end

/-! ## runs -/

theorem dated_startOperation {s s' : System} (h : Dated s) {fuel : Nat} {op : Operation}
    (hs : startOperation fuel s op = some s') : Dated s' := by
  rcases startOperation_cases hs with ⟨host, login, password, rfl, -, rfl⟩ |
    ⟨-, held, destroyed, hheld, rfl⟩
  · refine { h with owned := fun q hq p hp => ?_, stage := fun q hq conn hc => ?_, free := ?_ }
    · rcases List.mem_cons.mp hq with rfl | hq
      · obtain ⟨e, he, hg, -⟩ := h.pool p (Multiset.mem_coe.mp hp)
        exact ⟨e, he, hg⟩
      · exact h.owned q hq p hp
    · rcases List.mem_cons.mp hq with rfl | hq
      · exact absurd hc (by simp [Hand.havingPool, Stage.connection])
      · exact h.stage q hq conn hc
    · exact fun hm => absurd hm (by simp)
  · have hall : ∀ p ∈ op.returned ++ held, s.history.Matches p := fun p hp =>
      h.held p (hheld.mem_iff.mpr hp)
    refine { h with
      owned := fun q hq p hp => ?_
      held := fun p hp => hall p (List.mem_append_right _ hp)
      stage := fun q hq conn hc => ?_ }
    · rcases List.mem_cons.mp hq with rfl | hq
      · exact hall p (List.mem_append_left _ (Multiset.mem_coe.mp hp))
      · exact h.owned q hq p hp
    · rcases List.mem_cons.mp hq with rfl | hq
      · exact absurd hc (by simp [Operation.given, Stage.connection])
      · exact h.stage q hq conn hc

theorem dated_finish {s : System} (hk : Kept s) (h : Dated s) {number : Nat} {exclusive : Bool}
    {r : Except Thrown (Option PooledConnection)} {hand : Hand}
    (hop : s.operations[number]? = some ⟨exclusive, .done r, hand⟩) :
    Dated (s.finishBehind number exclusive r) := by
  have hmem : (⟨exclusive, .done r, hand⟩ : Running) ∈ s.operations := List.mem_of_getElem? hop
  have hdone : Done exclusive r hand := hk.contract _ hmem
  have hsub : s.operations.eraseIdx number ⊆ s.operations := List.eraseIdx_subset
  cases exclusive with
  | false =>
    obtain rfl : hand = ⟨.idle, handedOut r, none⟩ := hdone
    refine { h with
      owned := fun q hq => h.owned q (hsub hq)
      held := fun p hp => ?_
      stage := fun q hq => h.stage q (hsub hq)
      free := fun hm => h.free ((Bool.and_true _).symm.trans hm) }
    rcases List.mem_append.mp hp with hp | hp
    · exact h.owned _ hmem p (Multiset.mem_coe.mpr hp)
    · exact h.held p hp
  | true =>
    obtain ⟨hr, c, rfl, hcurrent⟩ := (show handedOut r = [] ∧ _ from hdone)
    have hknows := hk.knows _ hmem c rfl
    refine { h with
      owned := fun q hq => h.owned q (hsub hq)
      held := fun p hp => ?_
      pool := fun p hp => ?_
      stage := fun q hq => h.stage q (hsub hq)
      completed := le_refl _
      free := fun _ => rfl }
    · have hp' : p ∈ handedOut r ++ s.held := hp
      rw [hr] at hp'
      exact h.held p hp'
    · -- all of the pool is in the hands of `connect`
      have hp' : p ∈ c.pool := hknows.pool ▸ hp
      have hg := (hcurrent p hp').trans hknows.generation
      exact ⟨s.history.epoch, epoch_of_current hk h hmem (Multiset.mem_coe.mpr hp') hg,
        hg.trans h.generation, le_refl _⟩

theorem dated_step {fuel : Nat} {s s' : System} {l : Label} (hk : Kept s) (h : Dated s)
    (hok : Undisturbed s l) (hs : step fuel s l = some s') : Dated s' := by
  cases l with
  | start op => exact dated_startOperation h hs
  | act number answer =>
    obtain ⟨exclusive, a, k, hand, hop, hposs, rfl⟩ := step_act hs
    exact dated_act hk h hop answer hposs hok
  | finish number =>
    obtain ⟨exclusive, r, hand, hop, rfl⟩ := step_finish hs
    exact dated_finish hk h hop

/-- the pool has no connection from before the last completed reconnect -/
def NoneOutdated (s : System) : Prop := ∀ p ∈ s.wrapper.connections, ∀ e,
  (p.connection, e) ∈ s.history.created → s.history.completed ≤ e

/-- **Generation soundness**: where no reconnect disturbs, no connection from before a reconnect is
in the pool behind it, in any later state. -/
theorem none_outdated {fuel : Nat} {ls : List Label} {s : System}
    (h : runs (step fuel) start ls = some s) (hok : Along (step fuel) Undisturbed start ls) :
    NoneOutdated s := by
  have hboth : Kept s ∧ Dated s := runs_along (P := fun s => Kept s ∧ Dated s)
    (fun s l s' hP ho hs => ⟨kept_step hP.1 hs, dated_step hP.1 hP.2 ho hs⟩)
    ⟨kept_start, dated_start⟩ hok h
  intro p hp e he
  obtain ⟨e', he', -, hle⟩ := hboth.2.pool p hp
  have heq : e = e' := by
    have := List.inj_on_of_nodup_map hboth.1.once he he' rfl
    exact (Prod.mk.inj this).2
  exact heq ▸ hle

/-- a whole `reconnect` that opens no connection -/
def reconnectRun : List Label := oneOperation .reconnect 11 (driverAnswers (.error 2003) (.ok ()))

def fresh : System :=
  { start with
    wrapper := ⟨[], [], [], [], [], 2⟩
    history := ⟨1, 1, [], [], [], fun _ => none⟩ }

theorem reconnectRun_fresh : runs (step 0) start reconnectRun = some fresh := rfl

/-- a connection goes to a caller and comes back -/
def callRun : List Label :=
  oneCaller ++ oneOperation (.release ⟨1, 2⟩) 4 (driverAnswers (.ok 1) (.ok ()))

def refilled : System :=
  { fresh with
    wrapper := ⟨[], [], [], [], [⟨1, 2⟩], 2⟩
    history := ⟨1, 1, [(1, 1)], [], [], fun _ => none⟩ }

theorem callRun_refilled : runs (step 0) fresh callRun = some refilled := rfl

theorem none_outdated_reconnect : runs (step 0) start (reconnectRun ++ callRun) = some refilled ∧
    refilled.wrapper.connections = [⟨1, 2⟩] ∧ refilled.history.completed = 1 ∧
    NoneOutdated refilled := by
  have h : runs (step 0) start (reconnectRun ++ callRun) = some refilled :=
    runs_trans reconnectRun_fresh callRun_refilled
  refine ⟨h, rfl, rfl, none_outdated h (along_append.mpr ⟨by decide +kernel, fun s hs => ?_⟩)⟩
  obtain rfl : fresh = s := Option.some.inj (reconnectRun_fresh.symm.trans hs)
  decide +kernel

/-- a `get_connection` that has opened its connection and not yet read the generation -/
def opening : List Label :=
  .start .getConnection :: List.replicate 9 (.act 0 (driverAnswers (.ok 1) (.ok ())))

def opened : System :=
  { start with
    operations := [⟨false, do let m ← members; return some ⟨1, m.generation⟩, ⟨.made 1, 0, none⟩⟩]
    history := ⟨0, 0, [(1, 0)], [], [], fun _ => none⟩ }

theorem opening_opened : runs (step 0) start opening = some opened := rfl

def reconnected : System :=
  { opened with
    wrapper := ⟨[], [], [], [], [], 2⟩
    history := ⟨1, 1, [(1, 0)], [], [], fun _ => none⟩ }

theorem reconnectRun_reconnected : runs (step 0) opened reconnectRun = some reconnected := rfl

/-- the connection gets its generation, and goes to the caller and back -/
def returning : List Label :=
  .act 0 (driverAnswers (.ok 1) (.ok ())) :: .finish 0
    :: oneOperation (.release ⟨1, 2⟩) 4 (driverAnswers (.ok 1) (.ok ()))

def outdated : System :=
  { start with
    wrapper := ⟨[], [], [], [], [⟨1, 2⟩], 2⟩
    history := ⟨1, 1, [(1, 0)], [], [], fun _ => none⟩ }

theorem returning_outdated : runs (step 0) reconnected returning = some outdated := rfl

/-- connection 1 was opened before the reconnect, and is in the pool behind it -/
theorem outdated_in_pool :
    runs (step 0) start (opening ++ reconnectRun ++ returning) = some outdated ∧
      outdated.wrapper.connections = [⟨1, 2⟩] ∧ (1, 0) ∈ outdated.history.created ∧
      outdated.history.completed = 1 ∧ ¬ NoneOutdated outdated := by
  have hrun : runs (step 0) start (opening ++ reconnectRun) = some reconnected :=
    runs_trans opening_opened reconnectRun_reconnected
  refine ⟨runs_trans hrun returning_outdated, rfl, List.mem_singleton_self _, rfl, fun h => ?_⟩
  exact absurd (h ⟨1, 2⟩ (List.mem_singleton_self _) 0 (List.mem_singleton_self _)) (by decide)

end System

end ServerHttpLib
