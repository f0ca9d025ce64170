import Mathlib.Tactic.Abel
import ServerHttpLib.Sql.Hands

/-!
# Every connection is in one place

At any time a connection that the driver opened is in the pool (or in the hands of the operation
that has the mutex), held by a caller, in the hands of another operation, deleted, or lost because
`setSchema` threw in `create_connection`.  It is in one of these places only.

* `Kept`            the invariant: what the operations have in hand, and the sum of all places;
* `kept_act`        an action of an operation keeps it;
* `exclusive`       so no connection has two owners, and none is used behind its end;
* `accounted_iff`   and each is in the pool, held or deleted when nothing runs, if none was lost.
-/

namespace ServerHttpLib
open Programs MysqlWrapper Runs

namespace System

def connectionsOf (l : List PooledConnection) : Multiset Connection := l.map (·.connection)

theorem connectionsOf_append (l l' : List PooledConnection) :
    connectionsOf (l ++ l') = connectionsOf l + connectionsOf l' := by
  rw [connectionsOf, List.map_append, ← Multiset.coe_add]
  rfl

theorem connectionsOf_perm {l l' : List PooledConnection} (h : l.Perm l') :
    connectionsOf l = connectionsOf l' :=
  Multiset.coe_eq_coe.mpr (h.map _)

def away (s : System) : Multiset Connection :=
  connectionsOf s.held + (s.history.deleted + s.history.lost)

def outside (s : System) : Multiset Connection :=
  (if s.mutex then 0 else connectionsOf s.wrapper.connections) + s.away

def inHand (operations : List Running) : Multiset Connection :=
  (operations.map fun op => op.hand.connections).sum

/-- what an operation that has the mutex knows of the members -/
structure Knows (s : System) (own : Multiset PooledConnection) (c : Critical) : Prop where
  pool : c.pool = s.wrapper.connections
  generation : c.generation = s.wrapper.generation
  owned : (c.pool : Multiset PooledConnection) ≤ own + c.gone
  gone : c.gone.map (·.connection) ≤ s.history.deleted

structure Kept (s : System) : Prop where
  contract : ∀ op ∈ s.operations, Spec op.hand op.rest (Done op.exclusive)
  places : (s.history.created.map Prod.fst : Multiset Connection) = s.outside + inHand s.operations
  once : (s.history.created.map Prod.fst).Nodup
  mutex : s.operations.countP Running.hasMutex = s.mutex.toNat
  knows : ∀ op ∈ s.operations, ∀ c ∈ op.hand.critical, s.Knows op.hand.own c
  current : s.mutex = false → ∀ p ∈ s.wrapper.connections, p.generation = s.wrapper.generation

theorem kept_start : Kept start where
  contract _ h := absurd h List.not_mem_nil
  places := rfl
  once := List.nodup_nil
  mutex := rfl
  knows _ h := absurd h List.not_mem_nil
  current _ _ h := absurd h List.not_mem_nil

/-! ## lists of operations -/

theorem split_getElem? {α : Type} {l : List α} {n : Nat} {x : α} (h : l[n]? = some x) :
    ∃ pre post, l = pre ++ x :: post ∧ (∀ y, l.set n y = pre ++ y :: post) ∧
      l.eraseIdx n = pre ++ post := by
  obtain ⟨hn, hx⟩ := List.getElem?_eq_some_iff.mp h
  refine ⟨l.take n, l.drop (n + 1), ?_,
    fun y => List.set_eq_take_append_cons_drop.trans (if_pos hn),
    List.eraseIdx_eq_take_drop_succ l n⟩
  rw [← hx, List.getElem_cons_drop, List.take_append_drop]

theorem mem_middle {α : Type} {l pre post : List α} {x y : α} (h : l = pre ++ x :: post) :
    y ∈ l ↔ y = x ∨ y ∈ pre ++ post := by
  rw [h, List.perm_middle.mem_iff, List.mem_cons]

theorem inHand_split (pre post : List Running) (op : Running) :
    inHand (pre ++ op :: post) = op.hand.connections + inHand (pre ++ post) := by
  unfold inHand
  rw [List.map_append, List.map_append, List.map_cons, List.sum_append, List.sum_append,
    List.sum_cons]
  abel

end System

/-! ## what an action does to the hand -/

namespace Hand

variable (hand : Hand)

theorem tag_connections (generation : UInt64) :
    (hand.tag generation).connections = hand.connections := by
  unfold tag
  split
  · next conn hs =>
    unfold connections
    rw [hs, Multiset.map_cons]
    show conn ::ₘ _ + 0 = _ + {conn}
    rw [add_zero, ← Multiset.singleton_add, add_comm]
  · rfl

theorem tag_critical (generation : UInt64) : (hand.tag generation).critical = hand.critical := by
  unfold tag
  split <;> rfl

theorem own_le_tag (generation : UInt64) : hand.own ≤ (hand.tag generation).own := by
  unfold tag
  split
  · exact Multiset.le_cons_self _ _
  · exact le_refl _

theorem named_made_connections : (hand.named .made).connections = hand.connections := by
  unfold named
  split
  · next conn hs =>
    unfold connections
    rw [hs]
    rfl
  · rfl

theorem named_critical (stage : Connection → Stage) :
    (hand.named stage).critical = hand.critical ∧ (hand.named stage).own = hand.own := by
  unfold named
  split <;> exact ⟨rfl, rfl⟩

theorem named_idle_connections {conn : Connection} (hs : hand.stage = .naming conn) :
    hand.connections = {conn} + (hand.named fun _ => .idle).connections := by
  unfold named connections
  rw [hs]
  show hand.own.map (·.connection) + ({conn} : Multiset Connection)
    = {conn} + (hand.own.map (·.connection) + 0)
  rw [add_zero, add_comm]

theorem named_of_ne (stage : Connection → Stage) (hs : ∀ conn, hand.stage ≠ .naming conn) :
    hand.named stage = hand := by
  unfold named
  split
  · next conn h => exact absurd h (hs conn)
  · rfl

theorem drop_connections {conn : Connection} (hnd : hand.connections.Nodup)
    (hconn : conn ∈ hand.own.map (·.connection)) :
    hand.connections = {conn} + (hand.drop conn).connections ∧
      (hand.own.filter fun p => p.connection = conn).map (·.connection) = {conn} := by
  have hown : (hand.own.map (·.connection)).Nodup :=
    (Multiset.nodup_add.mp (show Multiset.Nodup (_ + _) from hnd)).1
  have hfilter : (hand.own.filter fun p => p.connection = conn).map (·.connection) = {conn} := by
    have h := Multiset.filter_map (· = conn) (·.connection) hand.own
    rw [Multiset.filter_eq', Multiset.count_eq_one_of_mem hown hconn, Multiset.replicate_one] at h
    exact h.symm
  refine ⟨?_, hfilter⟩
  have hsplit := Multiset.filter_add_not (fun p => p.connection = conn) hand.own
  unfold connections
  conv_lhs => rw [← hsplit, Multiset.map_add, hfilter]
  exact add_assoc _ _ _

end Hand

/-! ## one action -/

namespace System

/-- an operation with `hand` performs `a` in the state `s`, and is answered with `r` -/
structure Acting (s : System) (hand : Hand) (a : Act) (r : a.Reply) : Prop where
  may : hand.May a
  knows : ∀ c ∈ hand.critical, s.Knows hand.own c
  mutex : hand.critical.isSome → s.mutex = true
  once : hand.connections.Nodup
  possible : s.possible a r = true

namespace Acting

variable {s : System} {hand : Hand} {a : Act} {r : a.Reply}

theorem critical_eq_none (h : Acting s hand a r) (hfree : s.mutex = false) :
    hand.critical = none := by
  rw [← Option.not_isSome_iff_eq_none]
  intro hsome
  exact absurd (hfree.symm.trans (h.mutex hsome)) (by simp)

theorem same_pool (h : Acting s hand a r) (hc : hand.critical = none) :
    (a.effect s.wrapper).connections = s.wrapper.connections ∧
      (a.effect s.wrapper).generation = s.wrapper.generation := by
  cases a with
  | update f =>
    have hf : hand.MayUpdate f := h.may
    unfold Hand.MayUpdate at hf
    rw [hc] at hf
    exact hf s.wrapper
  | _ => exact ⟨rfl, rfl⟩

theorem deleted_le (s : System) (stage : Stage) (a : Act) (r : a.Reply) :
    (s.history.deleted : Multiset Connection)
      ≤ (s.history.record stage s.wrapper a r).deleted := by
  cases a with
  | update f =>
    rw [History.record]
    split <;> exact le_refl _
  | driver call =>
    cases call with
    | connect _ _ _ => cases r <;> exact le_refl _
    | setSchema _ _ =>
      cases r with
      | ok _ => exact le_refl _
      | error _ =>
        simp only [History.record]
        split <;> exact le_refl _
    | delete conn => exact Multiset.le_cons_self _ _
    | _ => exact le_refl _
  | _ => exact le_refl _

/-- who has the mutex behind the action -/
theorem mutex_behind (h : Acting s hand a r) :
    hand.critical.isSome.toNat + (mutexBehind s.mutex a).toNat
      = (hand.next s.wrapper a r).critical.isSome.toNat + s.mutex.toNat := by
  cases a with
  | lock =>
    have hp : (!s.mutex) = true := h.possible
    have hfree : s.mutex = false := by simpa using hp
    have hc : hand.critical = none := h.may.2
    rw [hfree, hc]
    rfl
  | unlock =>
    obtain ⟨-, c, hc, -⟩ := h.may
    have hsome : hand.critical.isSome = true := by rw [Option.mem_def.mp hc]; rfl
    rw [hsome, h.mutex hsome]
    rfl
  | members =>
    have : (hand.next s.wrapper .members r).critical = hand.critical := by
      simp only [Hand.next]
      split
      · rfl
      · exact hand.tag_critical _
    rw [this]
    rfl
  | update f =>
    show _ = ((hand.critical.map _).isSome).toNat + _
    rw [Option.isSome_map]
    rfl
  | driver call =>
    cases call with
    | connect _ _ _ => cases r <;> rfl
    | setSchema _ _ =>
      cases r with
      | ok _ =>
        show _ = (hand.named .made).critical.isSome.toNat + _
        rw [(hand.named_critical _).1]
        rfl
      | error _ =>
        show _ = (hand.named fun _ => .idle).critical.isSome.toNat + _
        rw [(hand.named_critical _).1]
        rfl
    | delete conn =>
      show _ = ((hand.critical.map _).isSome).toNat + _
      rw [Option.isSome_map]
      rfl
    | _ => rfl

theorem current_behind (h : Acting s hand a r)
    (hcur : s.mutex = false → ∀ p ∈ s.wrapper.connections, p.generation = s.wrapper.generation)
    (hfree : mutexBehind s.mutex a = false) :
    ∀ p ∈ (a.effect s.wrapper).connections, p.generation = (a.effect s.wrapper).generation := by
  have hsame : s.mutex = false →
      ∀ p ∈ (a.effect s.wrapper).connections, p.generation = (a.effect s.wrapper).generation := by
    intro hm
    have hc := h.critical_eq_none hm
    rw [(h.same_pool hc).1, (h.same_pool hc).2]
    exact hcur hm
  cases a with
  | lock => exact absurd hfree (by simp [mutexBehind])
  | unlock =>
    obtain ⟨-, c, hc, -, hg⟩ := h.may
    have hk := h.knows c hc
    show ∀ p ∈ s.wrapper.connections, p.generation = s.wrapper.generation
    rw [← hk.pool, ← hk.generation]
    exact hg
  | _ => exact hsame hfree

theorem knows_behind (h : Acting s hand a r) (number : Nat) (exclusive : Bool)
    (p rest : MysqlWrapper.Method (Option PooledConnection)) :
    ∀ c ∈ (hand.next s.wrapper a r).critical,
      (s.actBehind number ⟨exclusive, p, hand⟩ a r rest).Knows (hand.next s.wrapper a r).own c := by
  -- what is known where pool, generation and deletions are as before
  have hsame : ∀ own, hand.own ≤ own → (∀ m, (a.effect m).connections = m.connections) →
      (∀ m, (a.effect m).generation = m.generation) →
      ∀ c ∈ hand.critical, (s.actBehind number ⟨exclusive, p, hand⟩ a r rest).Knows own c := by
    intro own hown h1 h2 c hc
    have hk := h.knows c hc
    exact ⟨hk.pool.trans (h1 s.wrapper).symm, hk.generation.trans (h2 s.wrapper).symm,
      hk.owned.trans (add_le_add hown (le_refl _)), hk.gone.trans (deleted_le s hand.stage a r)⟩
  cases a with
  | lock =>
    intro c hc
    obtain rfl := Option.some.inj hc
    exact ⟨rfl, rfl, by rw [add_zero]; exact Multiset.le_add_left _ _, Multiset.zero_le _⟩
  | unlock => exact fun c hc => absurd hc (by simp [Hand.next])
  | members =>
    simp only [Hand.next]
    split
    · exact hsame _ (le_refl _) (fun _ => rfl) fun _ => rfl
    · rw [hand.tag_critical]
      exact hsame _ (hand.own_le_tag _) (fun _ => rfl) fun _ => rfl
  | update f =>
    intro c' hc'
    obtain ⟨c, hc, rfl⟩ := Option.mem_map.mp hc'
    have hk := h.knows c hc
    have hf : hand.MayUpdate f := h.may
    unfold Hand.MayUpdate at hf
    rw [Option.mem_def.mp hc] at hf
    exact ⟨rfl, rfl, (hf s.wrapper hk.pool.symm hk.generation.symm).1,
      hk.gone.trans (deleted_le s hand.stage (.update f) r)⟩
  | driver call =>
    cases call with
    | connect _ _ _ => cases r <;> exact hsame _ (le_refl _) (fun _ => rfl) fun _ => rfl
    | setSchema _ _ =>
      cases r with
      | ok _ =>
        simp only [Hand.next, (hand.named_critical _).1, (hand.named_critical _).2]
        exact hsame _ (le_refl _) (fun _ => rfl) fun _ => rfl
      | error _ =>
        simp only [Hand.next, (hand.named_critical _).1, (hand.named_critical _).2]
        exact hsame _ (le_refl _) (fun _ => rfl) fun _ => rfl
    | delete conn =>
      intro c' hc'
      obtain ⟨c, hc, rfl⟩ := Option.mem_map.mp hc'
      have hk := h.knows c hc
      have hsplit := Multiset.filter_add_not (fun p => p.connection = conn) hand.own
      refine ⟨hk.pool, hk.generation, ?_, ?_⟩
      · refine hk.owned.trans (le_of_eq ?_)
        show _ = hand.own.filter (fun p => p.connection ≠ conn)
          + (c.gone + hand.own.filter fun p => p.connection = conn)
        conv_lhs => rw [← hsplit]
        abel
      · show (c.gone + hand.own.filter fun p => p.connection = conn).map _
          ≤ ((conn :: s.history.deleted : List Connection) : Multiset Connection)
        rw [Multiset.map_add, (hand.drop_connections h.once (h.may.1 conn rfl)).2,
          ← Multiset.cons_coe, ← Multiset.singleton_add, add_comm]
        exact add_le_add (le_refl _) hk.gone
    | _ => exact hsame _ (le_refl _) (fun _ => rfl) fun _ => rfl

theorem outside_locked {s : System} (h : s.mutex = true) : s.outside = s.away := by
  rw [outside, if_pos h, zero_add]

theorem outside_free {s : System} (h : s.mutex = false) :
    s.outside = connectionsOf s.wrapper.connections + s.away := by
  rw [outside, h]
  rfl

theorem away_congr {s s' : System} (h1 : s'.held = s.held)
    (h2 : s'.history.deleted = s.history.deleted) (h3 : s'.history.lost = s.history.lost) :
    s'.away = s.away := by
  rw [away, away, h1, h2, h3]

theorem outside_add {s s' : System} {x : Multiset Connection} (hm : s'.mutex = s.mutex)
    (hw : s'.wrapper = s.wrapper) (ha : s'.away = x + s.away) : s'.outside = x + s.outside := by
  rw [outside, outside, hm, hw, ha]
  abel

theorem outside_update (h : Acting s hand a r) {s' : System} (hm : s'.mutex = s.mutex)
    (hw : s'.wrapper = a.effect s.wrapper) (ha : s'.away = s.away) : s'.outside = s.outside := by
  cases hlocked : s.mutex with
  | true => rw [outside_locked hlocked, outside_locked (hm.trans hlocked), ha]
  | false =>
    have hc := h.critical_eq_none hlocked
    rw [outside_free hlocked, outside_free (hm.trans hlocked), ha, hw, (h.same_pool hc).1]

theorem away_deleted {s s' : System} {conn : Connection} (h : s'.held = s.held)
    (hhistory : s'.history = { s.history with deleted := conn :: s.history.deleted }) :
    s'.away = {conn} + s.away := by
  rw [away, away, h, hhistory, ← Multiset.cons_coe, ← Multiset.singleton_add]
  abel

theorem away_lost {s s' : System} {conn : Connection} (h : s'.held = s.held)
    (hhistory : s'.history = { s.history with lost := conn :: s.history.lost }) :
    s'.away = {conn} + s.away := by
  rw [away, away, h, hhistory, ← Multiset.cons_coe, ← Multiset.singleton_add]
  abel

end Acting

/-! ## where the connections are -/

/-- the connections that were opened are outside, in `hand`, or with the others -/
def Placed (s : System) (hand : Hand) (others : Multiset Connection) : Prop :=
  (s.history.created.map Prod.fst : Multiset Connection) = s.outside + (hand.connections + others)

section
variable {s s' : System} {hand hand' : Hand} {others : Multiset Connection}

theorem Placed.moved (h : Placed s hand others) (opened : Multiset Connection)
    (hcreated : (s'.history.created.map Prod.fst : Multiset Connection)
      = opened + (s.history.created.map Prod.fst : Multiset Connection))
    (hplaces : s'.outside + hand'.connections = opened + (s.outside + hand.connections)) :
    Placed s' hand' others := by
  unfold Placed at h ⊢
  rw [hcreated, h, ← add_assoc s'.outside, hplaces]
  abel

theorem Placed.same (h : Placed s hand others) (hcreated : s'.history.created = s.history.created)
    (houtside : s'.outside = s.outside) (hhand : hand'.connections = hand.connections) :
    Placed s' hand' others := by
  unfold Placed at h ⊢
  rw [hcreated, houtside, hhand]
  exact h

end

namespace Acting

section
variable {s : System} {op : Running} {others : Multiset Connection} (number : Nat)
  (rest : MysqlWrapper.Method (Option PooledConnection))

theorem placed_lock {r : Act.lock.Reply} (h : Acting s op.hand .lock r)
    (hp : Placed s op.hand others) :
    Placed (s.actBehind number op .lock r rest) (op.hand.next s.wrapper .lock r) others := by
  have hposs : (!s.mutex) = true := h.possible
  have hfree : s.mutex = false := by simpa using hposs
  refine hp.moved 0 (zero_add _).symm ?_
  have hhand : (op.hand.next s.wrapper .lock r).connections
      = connectionsOf s.wrapper.connections + op.hand.connections := by
    show (op.hand.own + (s.wrapper.connections : Multiset PooledConnection)).map _ + _ = _
    rw [Multiset.map_add, add_comm (op.hand.own.map _), add_assoc]
    rfl
  rw [hhand, outside_free hfree, outside_locked rfl, zero_add]
  show s.away + _ = _
  abel

theorem placed_unlock {r : Act.unlock.Reply} (h : Acting s op.hand .unlock r)
    (hp : Placed s op.hand others) :
    Placed (s.actBehind number op .unlock r rest) (op.hand.next s.wrapper .unlock r) others := by
  obtain ⟨-, c, hc, hle, -⟩ := h.may
  have hlocked : s.mutex = true := h.mutex (by rw [Option.mem_def.mp hc]; rfl)
  rw [(h.knows c hc).pool] at hle
  refine hp.moved 0 (zero_add _).symm ?_
  have hhand : op.hand.connections = connectionsOf s.wrapper.connections
      + (op.hand.next s.wrapper .unlock r).connections := by
    rw [Hand.connections]
    conv_lhs => rw [← tsub_add_cancel_of_le hle, Multiset.map_add, add_comm (Multiset.map _ _),
      add_assoc]
    rfl
  rw [hhand, outside_locked hlocked, outside_free rfl, zero_add]
  show connectionsOf s.wrapper.connections + s.away + _ = _
  abel

theorem placed_members {r : Act.members.Reply} (hp : Placed s op.hand others) :
    Placed (s.actBehind number op .members r rest) (op.hand.next s.wrapper .members r)
      others := by
  refine hp.same rfl rfl ?_
  simp only [Hand.next]
  split
  · next conn hs =>
    unfold Hand.connections
    rw [hs]
    dsimp only
    split <;> rfl
  · exact op.hand.tag_connections _

theorem placed_update {f : MysqlWrapper → MysqlWrapper} {r : (Act.update f).Reply}
    (h : Acting s op.hand (.update f) r) (hp : Placed s op.hand others) :
    Placed (s.actBehind number op (.update f) r rest) (op.hand.next s.wrapper (.update f) r)
      others := by
  have hrecord : (s.history.record op.hand.stage s.wrapper (.update f) r).created
        = s.history.created ∧
      (s.history.record op.hand.stage s.wrapper (.update f) r).deleted = s.history.deleted ∧
      (s.history.record op.hand.stage s.wrapper (.update f) r).lost = s.history.lost := by
    rw [History.record]
    split <;> exact ⟨rfl, rfl, rfl⟩
  exact hp.same hrecord.1 (h.outside_update rfl rfl (away_congr rfl hrecord.2.1 hrecord.2.2))
    (op.hand.tag_connections _)

theorem placed_connect {host user password : Bytes} {conn : Connection}
    (h : Acting s op.hand (.driver (.connect host user password)) (.ok conn))
    (hp : Placed s op.hand others) :
    Placed (s.actBehind number op (.driver (.connect host user password)) (.ok conn) rest)
      (op.hand.next s.wrapper (.driver (.connect host user password)) (.ok conn)) others := by
  refine hp.moved {conn} ?_ ?_
  · rw [Multiset.singleton_add]
    rfl
  · have hhand : (op.hand.next s.wrapper (.driver (.connect host user password))
        (.ok conn)).connections = {conn} + op.hand.connections := by
      have hidle : op.hand.stage = .idle := h.may.2
      unfold Hand.connections
      rw [hidle]
      show op.hand.own.map (·.connection) + ({conn} : Multiset Connection)
        = {conn} + (op.hand.own.map (·.connection) + 0)
      rw [add_zero, add_comm]
    rw [hhand]
    show s.outside + _ = _
    abel

/-- a connection that was to be named is lost, other ones stay where they are -/
theorem placed_setSchema_error {conn : Connection} {schema : Bytes} {code : Int}
    (h : Acting s op.hand (.driver (.setSchema conn schema)) (.error code))
    (hp : Placed s op.hand others) :
    Placed (s.actBehind number op (.driver (.setSchema conn schema)) (.error code) rest)
      (op.hand.next s.wrapper (.driver (.setSchema conn schema)) (.error code)) others := by
  by_cases hs : op.hand.stage = .naming conn
  · have hrecord : s.history.record op.hand.stage s.wrapper (.driver (.setSchema conn schema))
        (.error code) = { s.history with lost := conn :: s.history.lost } := if_pos hs
    have hout : (s.actBehind number op (.driver (.setSchema conn schema)) (.error code)
        rest).outside = {conn} + s.outside := outside_add rfl rfl (away_lost rfl hrecord)
    have hcreated : (s.history.record op.hand.stage s.wrapper (.driver (.setSchema conn schema))
        (.error code)).created = s.history.created := by rw [hrecord]
    refine hp.moved 0 ?_ ?_
    · rw [zero_add, ← hcreated]
      rfl
    · rw [op.hand.named_idle_connections hs, hout]
      show {conn} + s.outside + (op.hand.named fun _ => .idle).connections = _
      abel
  · have hne : ∀ conn', op.hand.stage ≠ .naming conn' := by
      intro conn' h'
      exact hs (h.may.2 conn' h' ▸ h')
    have hrecord : s.history.record op.hand.stage s.wrapper (.driver (.setSchema conn schema))
        (.error code) = s.history := if_neg hs
    exact hp.same (congrArg History.created hrecord)
      (h.outside_update rfl rfl (away_congr rfl (congrArg History.deleted hrecord)
        (congrArg History.lost hrecord)))
      (congrArg Hand.connections (op.hand.named_of_ne _ hne))

theorem placed_delete {conn : Connection} {r : (Act.driver (.delete conn)).Reply}
    (h : Acting s op.hand (.driver (.delete conn)) r) (hp : Placed s op.hand others) :
    Placed (s.actBehind number op (.driver (.delete conn)) r rest)
      (op.hand.next s.wrapper (.driver (.delete conn)) r) others := by
  have hout : (s.actBehind number op (.driver (.delete conn)) r rest).outside
      = {conn} + s.outside := outside_add rfl rfl (away_deleted rfl rfl)
  refine hp.moved 0 (zero_add _).symm ?_
  rw [(op.hand.drop_connections h.once (h.may.1 conn rfl)).1, hout]
  show {conn} + s.outside + (op.hand.drop conn).connections = _
  abel

/-- **No action loses sight of a connection.** -/
theorem placed_behind {a : Act} {r : a.Reply} (h : Acting s op.hand a r)
    (hp : Placed s op.hand others) :
    Placed (s.actBehind number op a r rest) (op.hand.next s.wrapper a r) others := by
  cases a with
  | lock => exact h.placed_lock number rest hp
  | unlock => exact h.placed_unlock number rest hp
  | members => exact placed_members number rest hp
  | update f => exact h.placed_update number rest hp
  | driver call =>
    cases call with
    | connect host user password =>
      cases r with
      | ok conn => exact h.placed_connect number rest hp
      | error _ => exact hp.same rfl rfl rfl
    | setSchema conn schema =>
      cases r with
      | ok _ => exact hp.same rfl rfl op.hand.named_made_connections
      | error code => exact h.placed_setSchema_error number rest hp
    | delete conn => exact h.placed_delete number rest hp
    | _ => exact hp.same rfl rfl rfl

end

section
variable {s : System} {hand : Hand} {a : Act} {r : a.Reply}

/-- a new connection was not opened before -/
theorem once_behind (h : Acting s hand a r) (number : Nat) (exclusive : Bool)
    (p rest : MysqlWrapper.Method (Option PooledConnection))
    (honce : (s.history.created.map Prod.fst).Nodup) :
    ((s.actBehind number ⟨exclusive, p, hand⟩ a r rest).history.created.map Prod.fst).Nodup := by
  cases a with
  | update f =>
    show ((s.history.record hand.stage s.wrapper (.update f) r).created.map Prod.fst).Nodup
    rw [History.record]
    split <;> exact honce
  | driver call =>
    cases call with
    | connect host user password =>
      cases r with
      | ok conn =>
        have hposs : (!(s.history.created.map Prod.fst).contains conn) = true := h.possible
        have hnew : conn ∉ s.history.created.map Prod.fst := by
          simpa using hposs
        exact List.nodup_cons.mpr ⟨hnew, honce⟩
      | error _ => exact honce
    | setSchema conn schema =>
      cases r with
      | ok _ => exact honce
      | error code =>
        show ((s.history.record hand.stage s.wrapper (.driver (.setSchema conn schema))
          (.error code)).created.map Prod.fst).Nodup
        simp only [History.record]
        split <;> exact honce
    | _ => exact honce
  | _ => exact honce

end

end Acting

/-! ## the invariant along a run -/

theorem Kept.mutex_of_critical {s : System} (h : Kept s) {op : Running} (hop : op ∈ s.operations)
    (hc : op.hasMutex) : s.mutex = true := by
  have hpos : 0 < s.operations.countP Running.hasMutex := List.countP_pos_iff.mpr ⟨op, hop, hc⟩
  rw [h.mutex] at hpos
  cases hm : s.mutex with
  | true => rfl
  | false =>
    rw [hm] at hpos
    exact absurd hpos (by decide)

section
variable {s s' : System} {pre post : List Running} {op op' : Running}

theorem Kept.critical_unique (h : Kept s) (hs : s.operations = pre ++ op :: post)
    (hop' : op' ∈ pre ++ post) (hc' : op'.hasMutex) : op.hand.critical = none := by
  rw [← Option.not_isSome_iff_eq_none]
  intro (hc : op.hasMutex = true)
  have hpos : 0 < (pre ++ post).countP Running.hasMutex :=
    List.countP_pos_iff.mpr ⟨op', hop', hc'⟩
  have hm := h.mutex
  rw [hs, List.countP_append, List.countP_cons_of_pos hc] at hm
  rw [List.countP_append] at hpos
  have hle := Bool.toNat_le s.mutex
  omega

theorem Kept.placed (h : Kept s) (hs : s.operations = pre ++ op :: post) :
    Placed s op.hand (inHand (pre ++ post)) := by
  rw [Placed, h.places, hs, inHand_split]

theorem Kept.nodup_split (h : Kept s) (hs : s.operations = pre ++ op :: post) :
    (s.outside + (op.hand.connections + inHand (pre ++ post))).Nodup := by
  rw [← (show _ = _ from h.placed hs)]
  exact Multiset.coe_nodup.mpr h.once

theorem Kept.settled (h : Kept s) (hm : s.mutex = false) : s.wrapper.Settled := by
  refine ⟨Multiset.coe_nodup.mp ?_, h.current hm⟩
  have hnd := Multiset.coe_nodup.mpr h.once
  rw [h.places, Acting.outside_free hm] at hnd
  exact (Multiset.nodup_add.mp (Multiset.nodup_add.mp hnd).1).1

theorem Kept.replace (h : Kept s) (hs : s.operations = pre ++ op :: post)
    (hs' : s'.operations = pre ++ op' :: post)
    (hcontract : Spec op'.hand op'.rest (Done op'.exclusive))
    (hplaced : Placed s' op'.hand (inHand (pre ++ post)))
    (honce : (s'.history.created.map Prod.fst).Nodup)
    (hmutex : op.hasMutex.toNat + s'.mutex.toNat = op'.hasMutex.toNat + s.mutex.toNat)
    (hknows : ∀ c ∈ op'.hand.critical, s'.Knows op'.hand.own c)
    (hpool : op.hand.critical = none → s'.wrapper.connections = s.wrapper.connections ∧
      s'.wrapper.generation = s.wrapper.generation)
    (hdeleted : (s.history.deleted : Multiset Connection) ≤ s'.history.deleted)
    (hcurrent : s'.mutex = false → ∀ p ∈ s'.wrapper.connections,
      p.generation = s'.wrapper.generation) : Kept s' where
  contract q hq := by
    rcases (mem_middle hs').mp hq with rfl | hq
    · exact hcontract
    · exact h.contract q ((mem_middle hs).mpr (.inr hq))
  places := by rw [hs', inHand_split, show _ = _ from hplaced]
  once := honce
  mutex := by
    have hm := h.mutex
    have hcount : ∀ q : Running, (pre ++ q :: post).countP Running.hasMutex
        = (pre ++ post).countP Running.hasMutex + q.hasMutex.toNat := by
      intro q
      rw [List.countP_append, List.countP_append, List.countP_cons]
      cases q.hasMutex <;> simp [Nat.add_assoc]
    rw [hs, hcount] at hm
    rw [hs', hcount]
    omega
  knows q hq c hc := by
    rcases (mem_middle hs').mp hq with rfl | hq
    · exact hknows c hc
    · -- then the operation that acts does not have the mutex
      have hmutex : q.hasMutex := by
        rw [Running.hasMutex, Option.mem_def.mp hc]
        rfl
      have hk := h.knows q ((mem_middle hs).mpr (.inr hq)) c hc
      obtain ⟨h1, h2⟩ := hpool (h.critical_unique hs hq hmutex)
      exact ⟨hk.pool.trans h1.symm, hk.generation.trans h2.symm, hk.owned,
        hk.gone.trans hdeleted⟩
  current := hcurrent

end

theorem Kept.acting {s : System} (h : Kept s) {op : Running} (hop : op ∈ s.operations) {a : Act}
    {k : a.Reply → MysqlWrapper.Method (Option PooledConnection)} (hrest : op.rest = .step a k)
    {r : a.Reply}
    (hposs : s.possible a r = true) : Acting s op.hand a r := by
  have hcontract := h.contract op hop
  rw [hrest] at hcontract
  obtain ⟨pre, post, hs⟩ := List.append_of_mem hop
  have hnd := Multiset.nodup_add.mp (h.nodup_split hs)
  exact ⟨hcontract.1, h.knows op hop, h.mutex_of_critical hop,
    (Multiset.nodup_add.mp hnd.2.1).1, hposs⟩

/-- **An action of an operation** keeps the invariant. -/
theorem kept_act {s : System} (h : Kept s) {number : Nat} {exclusive : Bool} {a : Act}
    {k : a.Reply → MysqlWrapper.Method (Option PooledConnection)} {hand : Hand}
    (hop : s.operations[number]? = some ⟨exclusive, .step a k, hand⟩)
    (answer : (call : DriverCall) → call.Reply) (hposs : s.possible a (s.reply answer a) = true) :
    Kept (s.actBehind number ⟨exclusive, .step a k, hand⟩ a (s.reply answer a)
      (k (s.reply answer a))) := by
  obtain ⟨pre, post, hs, hset, -⟩ := split_getElem? hop
  have hmem : (⟨exclusive, .step a k, hand⟩ : Running) ∈ s.operations := List.mem_of_getElem? hop
  have hact : Acting s hand a (s.reply answer a) := h.acting hmem rfl hposs
  have hmoves : handling.moves hand a (s.reply answer a)
      (hand.next s.wrapper a (s.reply answer a)) := by
    refine ⟨s.wrapper, fun c hc => ⟨(h.knows _ hmem c hc).pool, (h.knows _ hmem c hc).generation⟩,
      ?_, rfl⟩
    cases a with
    | lock =>
      have hp : (!s.mutex) = true := hposs
      exact h.settled (by simpa using hp)
    | members => exact rfl
    | _ => trivial
  exact h.replace hs (hset _) ((h.contract _ hmem).2 _ _ hmoves)
    (hact.placed_behind number _ (h.placed hs))
    (hact.once_behind number exclusive _ _ h.once) hact.mutex_behind
    (hact.knows_behind number exclusive _ _) hact.same_pool
    (Acting.deleted_le s hand.stage a _) (hact.current_behind h.current)

theorem Kept.begin {s s' : System} (h : Kept s) {op : Running}
    (hs' : s'.operations = op :: s.operations) (hw : s'.wrapper = s.wrapper)
    (hh : s'.history = s.history) (hcontract : Spec op.hand op.rest (Done op.exclusive))
    (hplaces : s'.outside + op.hand.connections = s.outside)
    (hmutex : s'.mutex.toNat = op.hasMutex.toNat + s.mutex.toNat)
    (hknows : ∀ c ∈ op.hand.critical, s'.Knows op.hand.own c) : Kept s' where
  contract q hq := by
    rw [hs', List.mem_cons] at hq
    rcases hq with rfl | hq
    · exact hcontract
    · exact h.contract q hq
  places := by
    rw [hh, h.places, ← hplaces, hs', ← List.nil_append (op :: _), inHand_split, List.nil_append]
    abel
  once := hh ▸ h.once
  mutex := by
    rw [hs', List.countP_cons, h.mutex, hmutex, Nat.add_comm]
    cases op.hasMutex <;> rfl
  knows q hq c hc := by
    rw [hs', List.mem_cons] at hq
    rcases hq with rfl | hq
    · exact hknows c hc
    · have hk := h.knows q hq c hc
      exact ⟨hw ▸ hk.pool, hw ▸ hk.generation, hk.owned, hh ▸ hk.gone⟩
  current hm := by
    rw [hw]
    refine h.current ?_
    rw [hm] at hmutex
    have hz : s.mutex.toNat = 0 := by
      rw [Bool.toNat_false] at hmutex
      omega
    exact Bool.toNat_eq_zero.mp hz

theorem Kept.begin_given {s s' : System} (h : Kept s) (fuel : Nat) {op : Operation}
    (hop : op.isConnect = false)
    (hs' : s'.operations = ⟨false, op.program fuel, op.given⟩ :: s.operations)
    (hw : s'.wrapper = s.wrapper) (hh : s'.history = s.history) (hm : s'.mutex = s.mutex)
    (hheld : connectionsOf s'.held + op.given.connections = connectionsOf s.held) : Kept s' := by
  have hc : op.given.critical = none := rfl
  have haway : s'.away + op.given.connections = s.away := by
    rw [away, away, hh, ← hheld]
    abel
  refine h.begin hs' hw hh (spec_program fuel op hop) ?_ ?_ ?_
  · show s'.outside + op.given.connections = _
    rw [outside, outside, hm, hw, ← haway, add_assoc]
  · rw [hm, Running.hasMutex, hc]
    exact (Nat.zero_add _).symm
  · exact fun c hc' => absurd hc' (by rw [hc]; simp)

theorem kept_startOperation {s s' : System} (h : Kept s) (fuel : Nat) (op : Operation)
    (hs : startOperation fuel s op = some s') : Kept s' := by
  rcases startOperation_cases hs with ⟨host, login, password, rfl, hnone, rfl⟩ |
    ⟨hop, held, destroyed, hheld, rfl⟩
  · -- nothing runs, so the mutex is free
    have hfree : s.mutex = false := by
      have hm := h.mutex
      rw [hnone] at hm
      exact Bool.toNat_eq_zero.mp hm.symm
    refine h.begin rfl rfl rfl (spec_exclusive fuel host login password (h.settled hfree)) ?_ ?_ ?_
    · rw [Acting.outside_locked rfl, Acting.outside_free hfree, add_comm]
      show connectionsOf s.wrapper.connections + 0 + s.away = _
      rw [add_zero]
    · rw [hfree]
      rfl
    · intro c hc
      obtain rfl := Option.some.inj hc
      exact ⟨rfl, rfl, by rw [add_zero]; exact le_refl _, Multiset.zero_le _⟩
  · refine h.begin_given fuel hop rfl rfl rfl rfl ?_
    rw [connectionsOf_perm hheld, connectionsOf_append, add_comm]
    exact congrArg (· + connectionsOf held) (add_zero _)

theorem Kept.remove {s s' : System} (h : Kept s) {pre post : List Running} {op : Running}
    (hs : s.operations = pre ++ op :: post) (hs' : s'.operations = pre ++ post)
    (hw : s'.wrapper = s.wrapper) (hcreated : s'.history.created = s.history.created)
    (hdeleted : s'.history.deleted = s.history.deleted)
    (hplaces : s'.outside = s.outside + op.hand.connections)
    (hmutex : op.hasMutex.toNat + s'.mutex.toNat = s.mutex.toNat)
    (hcurrent : s'.mutex = false → ∀ p ∈ s.wrapper.connections,
      p.generation = s.wrapper.generation) : Kept s' where
  contract q hq := h.contract q ((mem_middle hs).mpr (.inr (hs' ▸ hq)))
  places := by rw [hcreated, show _ = _ from h.placed hs, hplaces, hs', add_assoc]
  once := hcreated ▸ h.once
  mutex := by
    have hm := h.mutex
    rw [hs, List.countP_append, List.countP_cons] at hm
    rw [hs', List.countP_append]
    have hone : (if op.hasMutex = true then 1 else 0) = op.hasMutex.toNat := by
      cases op.hasMutex <;> rfl
    omega
  knows q hq c hc := by
    have hk := h.knows q ((mem_middle hs).mpr (.inr (hs' ▸ hq))) c hc
    exact ⟨hw ▸ hk.pool, hw ▸ hk.generation, hk.owned, hdeleted ▸ hk.gone⟩
  current hm := hw ▸ hcurrent hm

theorem kept_finish {s : System} (h : Kept s) {number : Nat} {exclusive : Bool}
    {r : Except Thrown (Option PooledConnection)} {hand : Hand}
    (hop : s.operations[number]? = some ⟨exclusive, .done r, hand⟩) :
    Kept (s.finishBehind number exclusive r) := by
  obtain ⟨pre, post, hs, -, herase⟩ := split_getElem? hop
  have hmem : (⟨exclusive, .done r, hand⟩ : Running) ∈ s.operations := List.mem_of_getElem? hop
  have hdone : Done exclusive r hand := h.contract _ hmem
  cases exclusive with
  | false =>
    obtain rfl : hand = ⟨.idle, handedOut r, none⟩ := hdone
    have hmutex : (s.finishBehind number false r).mutex = s.mutex := Bool.and_true _
    refine h.remove hs herase rfl rfl rfl ?_ (by rw [hmutex]; exact Nat.zero_add _) fun hm =>
      h.current (hmutex.symm.trans hm)
    have haway : (s.finishBehind number false r).away = connectionsOf (handedOut r) + s.away := by
      have hheld : connectionsOf (s.finishBehind number false r).held
          = connectionsOf (handedOut r) + connectionsOf s.held := connectionsOf_append _ _
      rw [away, away, hheld, add_assoc]
      rfl
    rw [Acting.outside_add hmutex rfl haway, add_comm]
    exact congrArg (s.outside + ·) (add_zero _).symm
  | true =>
    obtain ⟨hr, c, hc⟩ := (show handedOut r = [] ∧ _ from hdone)
    obtain ⟨rfl, hcurrent⟩ := hc
    have hk := h.knows _ hmem c rfl
    have hlocked : s.mutex = true := h.mutex_of_critical hmem rfl
    have hfree : (s.finishBehind number true r).mutex = false := Bool.and_false _
    have haway : (s.finishBehind number true r).away = s.away := by
      refine Acting.away_congr ?_ rfl rfl
      show handedOut r ++ s.held = s.held
      rw [hr]
      rfl
    refine h.remove hs herase rfl rfl rfl ?_ (by rw [hfree, hlocked]; rfl) fun _ => ?_
    · rw [Acting.outside_free hfree, Acting.outside_locked hlocked, haway, add_comm]
      show s.away + connectionsOf s.wrapper.connections = s.away + (connectionsOf c.pool + 0)
      rw [hk.pool, add_zero]
    · rw [← hk.pool, ← hk.generation]
      exact hcurrent

theorem kept_step {fuel : Nat} {s s' : System} {l : Label} (h : Kept s)
    (hs : step fuel s l = some s') : Kept s' := by
  cases l with
  | start op => exact kept_startOperation h fuel op hs
  | act number answer =>
    obtain ⟨exclusive, a, k, hand, hop, hposs, rfl⟩ := step_act hs
    exact kept_act h hop answer hposs
  | finish number =>
    obtain ⟨exclusive, r, hand, hop, rfl⟩ := step_finish hs
    exact kept_finish h hop

/-- **The invariant holds along every run.** -/
theorem kept_run {fuel : Nat} {ls : List Label} {s : System}
    (h : runs (step fuel) start ls = some s) : Kept s :=
  runs_induction (step fuel) start (fun _ s => Kept s) kept_start
    (fun _ _ _ _ _ hk hs => kept_step hk hs) h

/-! ## what is in hand -/

theorem mem_inHand {operations : List Running} {op : Running} (hop : op ∈ operations)
    {conn : Connection} (hconn : conn ∈ op.hand.connections) : conn ∈ inHand operations := by
  obtain ⟨pre, post, rfl⟩ := List.append_of_mem hop
  rw [inHand_split]
  exact Multiset.mem_add.mpr (.inl hconn)

section
variable {s : System} (h : Kept s)
include h

theorem Kept.nodup : (s.outside + inHand s.operations).Nodup := by
  rw [← h.places]
  exact Multiset.coe_nodup.mpr h.once

theorem Kept.not_mem_away {op : Running} (hop : op ∈ s.operations) {conn : Connection}
    (hconn : conn ∈ op.hand.connections) : conn ∉ s.away := by
  have hdisj := (Multiset.nodup_add.mp h.nodup).2.2
  intro haway
  exact Multiset.disjoint_left.mp hdisj (Multiset.mem_add.mpr (.inr haway)) (mem_inHand hop hconn)

end

end System

end ServerHttpLib
