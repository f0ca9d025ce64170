import Mathlib.Data.Multiset.OrderedMonoid
import ServerHttpLib.Sql.Serving
import ServerHttpLib.Sql.Threads

/-!
# What the operations do with their connections

Each method with what it has in hand before and behind it.  The mutex hands the pool over to the
operation that locks it; what the operation puts into the pool it must have in hand, and when it
unlocks the mutex, all of the pool must be in hand, alive and of the current generation.

* `handling`                what an operation may do, and what it has in hand behind it;
* `spec_getConnection`      a connection in hand at the end, or none if it throws;
* `spec_releaseConnection`  nothing in hand at the end;
* `spec_program`            and so for every operation.
-/

namespace ServerHttpLib
open Programs MysqlWrapper

/-- a pool whose mutex is free -/
structure MysqlWrapper.Settled (m : MysqlWrapper) : Prop where
  nodup : (m.connections.map (·.connection)).Nodup
  generation : ∀ p ∈ m.connections, p.generation = m.generation

/-- the connection that a call of the driver uses; `setSchema` is left out, which `set_schema` calls
for the pool without the mutex -/
def MysqlWrapper.DriverCall.used : DriverCall → Option Connection
  | isClosed conn | isValid conn | close conn | delete conn | createStatement conn
  | execute _ conn _ | executeQuery _ conn _ => some conn
  | _ => none

namespace Hand

/-- what an operation may make of the members -/
def MayUpdate (hand : Hand) (f : MysqlWrapper → MysqlWrapper) : Prop :=
  match hand.critical with
  | none => ∀ m, (f m).connections = m.connections ∧ (f m).generation = m.generation
  | some c => ∀ m, m.connections = c.pool → m.generation = c.generation →
      ((f m).connections : Multiset PooledConnection) ≤ (hand.tag m.generation).own + c.gone ∧
        ((f m).generation = m.generation ∨ (f m).generation = m.generation + 1) ∧
        ∀ p ∈ (f m).connections, p ∈ m.connections ∨
          p ∈ (hand.tag m.generation).own ∧ p.generation = (f m).generation

/-- all of the pool is in hand and of the current generation -/
def MayLeave (hand : Hand) : Prop :=
  hand.stage = .idle ∧ ∃ c ∈ hand.critical,
    (c.pool : Multiset PooledConnection) ≤ hand.own ∧ ∀ p ∈ c.pool, p.generation = c.generation

def May (hand : Hand) : Act → Prop
  | .lock => hand.stage = .idle ∧ hand.critical = none
  | .unlock => hand.MayLeave
  | .members => True
  | .update f => hand.MayUpdate f
  | .driver call =>
    (∀ conn ∈ call.used, conn ∈ hand.own.map (·.connection)) ∧
      match call with
      | .connect _ _ _ => hand.stage = .idle
      | .setSchema conn _ => ∀ conn', hand.stage = .naming conn' → conn = conn'
      | _ => True

def Fits (hand : Hand) (m : MysqlWrapper) : Prop :=
  ∀ c ∈ hand.critical, c.pool = m.connections ∧ c.generation = m.generation

/-- what a reply says about the members -/
def Tells (m : MysqlWrapper) : (a : Act) → a.Reply → Prop
  | .lock, _ => m.Settled
  | .members, seen => seen = m
  | _, _ => True

end Hand

def handling : Tracking Act.Reply Hand where
  allowed := Hand.May
  moves hand a r hand' := ∃ m, hand.Fits m ∧ Hand.Tells m a r ∧ hand' = hand.next m a r

namespace MysqlWrapper

variable {α β : Type}

/-- with `hand` before it, the method ends as `Q` says -/
abbrev Spec (hand : Hand) (p : Method α) (Q : Except Thrown α → Hand → Prop) : Prop :=
  p.Tracks handling Q hand

/-- a result, and what is in hand behind it -/
def Ends (ok : α → Hand → Prop) (error : Thrown → Hand → Prop) : Except Thrown α → Hand → Prop
  | .ok v, hand => ok v hand
  | .error e, hand => error e hand

abbrev Yields (ok : α → Hand → Prop) : Except Thrown α → Hand → Prop := Ends ok fun _ _ => False

section
variable {hand : Hand} {own : Multiset PooledConnection} {Q : Except Thrown α → Hand → Prop}
  {ok : α → Hand → Prop} {error : Thrown → Hand → Prop}

/-! ## rules -/

theorem Spec.bind {p : Method α} {f : α → Method β} {Q : Except Thrown β → Hand → Prop}
    (h : Spec hand p (Ends ok error)) (hok : ∀ v hand', ok v hand' → Spec hand' (f v) Q)
    (herror : ∀ e hand', error e hand' → Q (.error e) hand') : Spec hand (p >>= f) Q :=
  Program.Tracks.bind h hok herror

/-- behind a method that does not throw -/
theorem Spec.next {p : Method α} {f : α → Method β} {Q : Except Thrown β → Hand → Prop}
    (h : Spec hand p (Yields ok)) (hok : ∀ v hand', ok v hand' → Spec hand' (f v) Q) :
    Spec hand (p >>= f) Q :=
  Spec.bind h hok fun _ _ he => he.elim

theorem spec_act {a : Act} {f : a.Reply → Method α} (ha : hand.May a)
    (h : ∀ r m, hand.Fits m → Hand.Tells m a r → Spec (hand.next m a r) (f r) Q) :
    Spec hand (act a >>= f) Q := by
  refine ⟨ha, ?_⟩
  rintro r _ ⟨m, hm, hr, rfl⟩
  exact h r m hm hr

theorem spec_lock {f : Unit → Method α}
    (h : ∀ m : MysqlWrapper, m.Settled →
      Spec ⟨.idle, own + m.connections, some ⟨m.connections, m.generation, 0⟩⟩ (f ()) Q) :
    Spec ⟨.idle, own, none⟩ (lock >>= f) Q :=
  spec_act (a := .lock) ⟨rfl, rfl⟩ fun _ m _ hm => h m hm

theorem spec_unlock {c : Critical} {f : Unit → Method α}
    (hc : (c.pool : Multiset PooledConnection) ≤ own)
    (hg : ∀ p ∈ c.pool, p.generation = c.generation)
    (h : Spec ⟨.idle, own - c.pool, none⟩ (f ()) Q) :
    Spec ⟨.idle, own, some c⟩ (unlock >>= f) Q := by
  refine spec_act (a := .unlock) ⟨rfl, c, rfl, hc, hg⟩ fun _ m hm _ => ?_
  have hpool : c.pool = m.connections := (hm c rfl).1
  rw [hpool] at h
  exact h

theorem spec_members {c : Option Critical} {f : MysqlWrapper → Method α}
    (h : ∀ m, (∀ c' ∈ c, c'.pool = m.connections ∧ c'.generation = m.generation) →
      Spec ⟨.idle, own, c⟩ (f m) Q) : Spec ⟨.idle, own, c⟩ (members >>= f) Q := by
  refine spec_act (a := .members) trivial fun seen m hm hs => ?_
  obtain rfl : seen = m := hs
  exact h seen hm

theorem spec_update_pool {stage : Stage} {c : Critical} {g : MysqlWrapper → MysqlWrapper}
    {f : Unit → Method α} (pool : List PooledConnection) (generation : UInt64)
    (hg : ∀ m : MysqlWrapper, m.connections = c.pool → m.generation = c.generation →
      (g m).connections = pool ∧ (g m).generation = generation)
    (hle : (pool : Multiset PooledConnection)
      ≤ ((⟨stage, own, some c⟩ : Hand).tag c.generation).own + c.gone)
    (hgen : generation = c.generation ∨ generation = c.generation + 1)
    (hmem : ∀ p ∈ pool, p ∈ c.pool ∨
      p ∈ ((⟨stage, own, some c⟩ : Hand).tag c.generation).own ∧ p.generation = generation)
    (h : Spec { (⟨stage, own, some c⟩ : Hand).tag c.generation with
      critical := some ⟨pool, generation, c.gone⟩ } (f ()) Q) :
    Spec ⟨stage, own, some c⟩ (update g >>= f) Q := by
  refine spec_act (a := .update g) ?_ fun _ m hm _ => ?_
  · intro m hpool hgeneration
    rw [(hg m hpool hgeneration).1, (hg m hpool hgeneration).2, hpool, hgeneration]
    exact ⟨hle, hgen, hmem⟩
  · obtain ⟨hpool, hgeneration⟩ := hm c rfl
    obtain ⟨h1, h2⟩ := hg m hpool.symm hgeneration.symm
    rw [← h1, ← h2, hgeneration] at h
    exact h

theorem spec_update_rest {g : MysqlWrapper → MysqlWrapper} {c : Option Critical}
    {f : Unit → Method α}
    (hg : ∀ m, (g m).connections = m.connections ∧ (g m).generation = m.generation)
    (hc : ∀ c' ∈ c, (c'.pool : Multiset PooledConnection) ≤ own + c'.gone)
    (h : Spec ⟨.idle, own, c⟩ (f ()) Q) : Spec ⟨.idle, own, c⟩ (update g >>= f) Q := by
  cases c with
  | none => exact spec_act (a := .update g) hg fun _ m _ _ => h
  | some c =>
    refine spec_act (a := .update g) ?_ fun _ m hm _ => ?_
    · intro m hm _
      rw [(hg m).1, (hg m).2, hm]
      exact ⟨hc c rfl, .inl rfl, fun p hp => .inl hp⟩
    · have hcrit : (⟨(g m).connections, (g m).generation, c.gone⟩ : Critical) = c := by
        rw [(hg m).1, (hg m).2, ← (hm c rfl).1, ← (hm c rfl).2]
      show Spec ⟨.idle, own, some ⟨(g m).connections, (g m).generation, c.gone⟩⟩ (f ()) Q
      rw [hcrit]
      exact h

theorem Spec.catchSql {p : Method α} {handler : Int → Method α}
    (h : Spec hand p (Ends ok error)) (hok : ∀ v hand', ok v hand' → Q (.ok v) hand')
    (hsql : ∀ code hand', error (.sql code) hand' → Spec hand' (handler code) Q)
    (hrest : ∀ e hand', (∀ code, e ≠ .sql code) → error e hand' → Q (.error e) hand') :
    Spec hand (catchSql p handler) Q := by
  refine Program.Tracks.catching h hok fun e hand' he => ?_
  cases e with
  | sql code => exact hsql code hand' he
  | invalidArgument => exact hrest _ hand' (by simp) he
  | outOfFuel => exact hrest _ hand' (by simp) he

/-- the method leaves in hand what is there -/
abbrev Keeps (hand : Hand) (p : Method α) : Prop := Spec hand p fun _ hand' => hand' = hand

theorem Keeps.bind {p : Method α} {f : α → Method β} {Q : Except Thrown β → Hand → Prop}
    (h : Keeps hand p) (hok : ∀ v, Spec hand (f v) Q) (herror : ∀ e, Q (.error e) hand) :
    Spec hand (p >>= f) Q :=
  Program.Tracks.bind h (fun v _ he => he ▸ hok v) fun e _ he => he ▸ herror e

theorem keeps_iff {p : Method α} : Keeps hand p ↔ p.Preserves handling (· = hand) := by
  constructor
  · rintro h _ rfl
    exact h
  · exact fun h => h hand rfl

/-! ## calls of the driver -/

abbrev Same (hand : Hand) : α → Hand → Prop := fun _ hand' => hand' = hand

/-- a `sql::SQLException` with the same hand -/
abbrev Threw (hand : Hand) : Thrown → Hand → Prop := fun e hand' =>
  (∃ code, e = .sql code) ∧ hand' = hand

theorem ofSql_error {β : Type} {r : Except Int β} {e : Thrown} (h : ofSql r = .error e) :
    ∃ code, e = .sql code := by
  cases r with
  | ok v => exact absurd h (by simp [ofSql])
  | error code => exact ⟨code, (Except.error.inj h).symm⟩

theorem spec_call {call : DriverCall} {g : call.Reply → Except Thrown α}
    (ha : hand.May (.driver call)) (h : ∀ r m, Q (g r) (hand.next m (.driver call) r)) :
    Spec hand (.step (.driver call) fun r => .done (g r)) Q := by
  refine ⟨ha, ?_⟩
  rintro r _ ⟨m, -, -, rfl⟩
  exact h r m

theorem spec_plain {call : DriverCall} {g : call.Reply → Except Thrown α}
    (ha : hand.May (.driver call)) (hn : ∀ m r, hand.next m (.driver call) r = hand)
    (hg : ∀ r e, g r = .error e → ∃ code, e = .sql code) :
    Spec hand (.step (.driver call) fun r => .done (g r)) (Ends (Same hand) (Threw hand)) := by
  refine spec_call ha fun r m => ?_
  cases hr : g r with
  | ok v => exact hn m r
  | error e => exact ⟨hg r e hr, hn m r⟩

section
variable {conn : Connection} (hconn : conn ∈ hand.own.map (·.connection))
include hconn

theorem may_use {call : DriverCall} (hu : call.used = some conn) : hand.May (.driver call) := by
  refine ⟨fun conn' h => ?_, ?_⟩
  · rw [hu, Option.mem_some] at h
    exact h ▸ hconn
  · cases call <;> first | exact trivial | exact absurd hu (by simp [DriverCall.used])

theorem spec_isClosed : Spec hand (isClosed conn) (Ends (Same hand) (Threw hand)) :=
  spec_plain (may_use hconn rfl) (fun _ _ => rfl) fun _ _ => ofSql_error

theorem spec_isValid : Spec hand (isValid conn) (Ends (Same hand) (Threw hand)) :=
  spec_plain (may_use hconn rfl) (fun _ _ => rfl) fun _ _ => ofSql_error

theorem spec_close : Spec hand (close conn) (Ends (Same hand) (Threw hand)) :=
  spec_plain (may_use hconn rfl) (fun _ _ => rfl) fun _ _ => ofSql_error

theorem spec_createStatement : Spec hand (createStatement conn) (Ends (Same hand) (Threw hand)) :=
  spec_plain (may_use hconn rfl) (fun _ _ => rfl) fun _ _ => ofSql_error

theorem spec_execute (origin : Origin) (q : Bytes) :
    Spec hand (execute origin conn q) (Ends (Same hand) (Threw hand)) :=
  spec_plain (may_use hconn rfl) (fun _ _ => rfl) fun _ _ => ofSql_error

theorem spec_executeQuery (origin : Origin) (q : Bytes) :
    Spec hand (executeQuery origin conn q) (Ends (Same hand) (Threw hand)) :=
  spec_plain (may_use hconn rfl) (fun _ _ => rfl) fun _ _ => ofSql_error

end

end

/-! ## one connection -/

section
variable {own : Multiset PooledConnection} {c : Option Critical}

theorem spec_driverConnect (host user password : Bytes) :
    Spec ⟨.idle, own, c⟩ (driverConnect host user password)
      (Ends (fun conn hand' => hand' = ⟨.connected conn, own, c⟩) (Threw ⟨.idle, own, c⟩)) := by
  refine spec_call ⟨fun _ h => absurd h (by simp [DriverCall.used]), rfl⟩ fun r m => ?_
  cases r with
  | ok conn => exact rfl
  | error code => exact ⟨⟨code, rfl⟩, rfl⟩

/-- reading the members in `create_connection` behind the call of the driver -/
theorem spec_members_connected {α : Type} {conn : Connection} {f : MysqlWrapper → Method α}
    {Q : Except Thrown α → Hand → Prop}
    (hmade : ∀ m : MysqlWrapper, m.schema = [] → Spec ⟨.made conn, own, c⟩ (f m) Q)
    (hnaming : ∀ m : MysqlWrapper, m.schema ≠ [] → Spec ⟨.naming conn, own, c⟩ (f m) Q) :
    Spec ⟨.connected conn, own, c⟩ (members >>= f) Q := by
  refine spec_act (a := .members) trivial fun m _ _ _ => ?_
  by_cases hs : m.schema = []
  · have h := hmade m hs
    simpa only [Hand.next, if_pos hs] using h
  · have h := hnaming m hs
    simpa only [Hand.next, if_neg hs] using h

theorem spec_naming {conn : Connection} (schema : Bytes) :
    Spec ⟨.naming conn, own, c⟩ (driverSetSchema conn schema)
      (Ends (fun _ hand' => hand' = ⟨.made conn, own, c⟩) (Threw ⟨.idle, own, c⟩)) := by
  refine spec_call ⟨fun _ h => absurd h (by simp [DriverCall.used]), ?_⟩ fun r m => ?_
  · intro conn' h
    exact Stage.naming.inj h
  · cases r with
    | ok _ => exact rfl
    | error code => exact ⟨⟨code, rfl⟩, rfl⟩

theorem spec_createConnection : Spec ⟨.idle, own, c⟩ createConnection
    (Ends (fun conn hand' => hand' = ⟨.made conn, own, c⟩) (Threw ⟨.idle, own, c⟩)) := by
  refine spec_members fun m _ => ?_
  refine (spec_driverConnect _ _ _).bind (fun conn hand' hc => ?_) fun _ _ he => he
  subst hc
  refine spec_members_connected (fun m' hs => ?_) fun m' hs => ?_
  · rw [if_pos hs]
    exact rfl
  · rw [if_neg hs]
    refine (spec_naming m'.schema).bind (fun _ _ hn => ?_) fun _ _ he => he
    exact hn

theorem spec_delete {conn : Connection} (hconn : conn ∈ own.map (·.connection)) :
    Spec ⟨.idle, own, c⟩ (delete conn)
      (Yields fun _ hand' => hand' = (⟨.idle, own, c⟩ : Hand).drop conn) :=
  ⟨may_use hconn rfl, by rintro r _ ⟨m, -, -, rfl⟩; exact rfl⟩

end

theorem spec_closeQuietly {hand : Hand} {conn : Connection}
    (hconn : conn ∈ hand.own.map (·.connection)) :
    Spec hand (closeQuietly conn) (Yields (Same hand)) := by
  refine Program.Tracks.catching (Q := Ends (Same hand) (Threw hand)) ?_ (fun _ _ h => h)
    fun _ _ he => he.2
  refine (spec_isClosed hconn).bind (fun closed _ h => ?_) fun _ _ he => he
  rw [h]
  split
  · exact rfl
  · exact spec_close hconn

theorem spec_usable {hand : Hand} {conn : Connection}
    (hconn : conn ∈ hand.own.map (·.connection)) :
    Spec hand (usable conn) (Yields (Same hand)) := by
  have hbody : Spec hand
      (do
        let closed ← isClosed conn
        let valid ← (if closed then pure false else isValid conn : Method Bool)
        return !shouldReplaceConnection closed valid)
      (Ends (Same hand) (Threw hand)) := by
    refine (spec_isClosed hconn).bind (fun closed _ h => ?_) fun _ _ he => he
    rw [h]
    have hvalid : Spec hand (if closed then pure false else isValid conn : Method Bool)
        (Ends (Same hand) (Threw hand)) := by
      split
      · exact rfl
      · exact spec_isValid hconn
    exact hvalid.bind (fun _ _ h => h) fun _ _ he => he
  refine hbody.catchSql (fun _ _ h => h) (fun _ _ he => he.2) fun e _ hne he => ?_
  obtain ⟨code, hcode⟩ := he.1
  exact hne code hcode

theorem mem_having (pooled : PooledConnection) :
    pooled.connection ∈ (Hand.having pooled).own.map (·.connection) :=
  Multiset.mem_map_of_mem _ (Multiset.mem_singleton_self pooled)

theorem drop_having (pooled : PooledConnection) :
    (Hand.having pooled).drop pooled.connection = .empty := by
  have h : ({pooled} : Multiset PooledConnection).filter
      (fun p => p.connection ≠ pooled.connection) = 0 := by
    refine Multiset.filter_eq_nil.mpr fun p hp hne => hne ?_
    rw [Multiset.mem_singleton.mp hp]
  rw [Hand.drop, Hand.having, h]
  rfl

/-- the ways that a connection is disposed of -/
theorem spec_dispose {α : Type} (pooled : PooledConnection) {f : Unit → Method α}
    {Q : Except Thrown α → Hand → Prop} (h : Spec .empty (f ()) Q) :
    Spec (.having pooled) (do
      closeQuietly pooled.connection
      let r ← delete pooled.connection
      f r) Q := by
  refine (spec_closeQuietly (mem_having pooled)).next fun _ _ hc => ?_
  rw [hc]
  refine (spec_delete (mem_having pooled)).next fun _ _ hd => ?_
  rw [hd]
  exact (drop_having pooled).symm ▸ h

/-! ## getting a connection and giving it back -/

theorem spec_lock_empty {α : Type} {f : Unit → Method α} {Q : Except Thrown α → Hand → Prop}
    (h : ∀ m : MysqlWrapper, m.Settled → Spec (.havingPool m) (f ()) Q) :
    Spec .empty (lock >>= f) Q := by
  refine spec_lock fun m hm => ?_
  rw [zero_add]
  exact h m hm

theorem spec_unlock_pool {α : Type} {m : MysqlWrapper} (hm : m.Settled) {f : Unit → Method α}
    {Q : Except Thrown α → Hand → Prop} (h : Spec .empty (f ()) Q) :
    Spec (.havingPool m) (unlock >>= f) Q := by
  refine spec_unlock (le_refl _) hm.generation ?_
  show Spec ⟨.idle, (m.connections : Multiset PooledConnection) - m.connections, none⟩ _ _
  rw [tsub_self]
  exact h

theorem spec_awaitConnection {m : MysqlWrapper} (hm : m.Settled) :
    Spec (.havingPool m) awaitConnection
      (Yields fun _ hand' => ∃ m' : MysqlWrapper, m'.Settled ∧ hand' = .havingPool m') := by
  refine spec_members fun m' _ => ?_
  split
  · refine spec_unlock_pool hm ?_
    have h := spec_lock_empty (f := fun r => pure r)
      (Q := Yields fun _ hand' => ∃ m' : MysqlWrapper, m'.Settled ∧ hand' = .havingPool m')
      fun m hm => ⟨m, hm, rfl⟩
    exact h
  · exact ⟨m, hm, rfl⟩

theorem spec_takePooled : Spec .empty takePooled
    (Yields fun taken hand' => hand' = taken.elim .empty .having) := by
  refine spec_lock_empty fun m₀ h₀ => (spec_awaitConnection h₀).next fun _ _ hm => ?_
  obtain ⟨m, hm, rfl⟩ := hm
  refine spec_members fun m' hm' => ?_
  have hpool : m.connections = m'.connections := (hm' _ rfl).1
  cases hlast : m'.connections.getLast? with
  | none => exact spec_unlock_pool hm rfl
  | some pooled =>
    -- the pool is what stays there and the connection at its back
    have hsplit : m.connections.dropLast ++ [pooled] = m.connections :=
      List.dropLast_append_getLast? pooled (hpool ▸ hlast)
    have hsum : (m.connections : Multiset PooledConnection)
        = {pooled} + (m.connections.dropLast : Multiset PooledConnection) := by
      conv_lhs => rw [← hsplit, ← Multiset.coe_add, Multiset.coe_singleton, add_comm]
    have hsub : m.connections.dropLast ⊆ m.connections := List.dropLast_subset _
    refine spec_update_pool m.connections.dropLast m.generation ?_ ?_ (.inl rfl)
      (fun p hp => .inl (hsub hp)) ?_
    · intro m'' h1 h2
      exact ⟨congrArg List.dropLast h1, h2⟩
    · exact le_add_right (Multiset.coe_le.mpr (List.dropLast_sublist _).subperm)
    · refine spec_unlock (Multiset.coe_le.mpr (List.dropLast_sublist _).subperm)
        (fun p hp => hm.generation p (hsub hp)) ?_
      show Spec ⟨.idle, (m.connections : Multiset PooledConnection) - m.connections.dropLast, none⟩
        _ _
      rw [hsum, Multiset.add_sub_cancel_right]
      exact rfl

theorem spec_freshConnection : Spec .empty freshConnection
    (Ends (fun pooled hand' => hand' = .having pooled) (Same .empty)) := by
  refine spec_createConnection.bind (fun conn hand' hc => ?_) fun _ _ he => he.2
  rw [hc]
  exact spec_act (a := .members) trivial fun m _ _ _ => rfl

theorem spec_getConnection : Spec .empty getConnection
    (Ends (fun pooled hand' => hand' = .having pooled) (Same .empty)) := by
  refine spec_takePooled.next fun taken hand' ht => ?_
  rw [ht]
  cases taken with
  | none => exact spec_freshConnection
  | some pooled =>
    refine (spec_usable (mem_having pooled)).next fun keep hand' hk => ?_
    rw [hk]
    cases keep with
    | true => exact rfl
    | false => exact spec_dispose pooled spec_freshConnection

theorem spec_releaseConnection (pooled : PooledConnection) :
    Spec (.having pooled) (releaseConnection pooled) (Yields (Same .empty)) := by
  refine spec_lock fun m hm => spec_members fun m' hm' => ?_
  obtain ⟨hpool, hgeneration⟩ := hm' _ rfl
  by_cases hstale : pooled.generation ≠ m'.generation
  · rw [if_pos hstale]
    refine spec_unlock (Multiset.le_add_left _ _) hm.generation ?_
    show Spec ⟨.idle, {pooled} + (m.connections : Multiset PooledConnection) - m.connections, none⟩
      _ _
    rw [Multiset.add_sub_cancel_right]
    exact spec_dispose (f := fun r => pure r) pooled rfl
  · rw [if_neg hstale]
    have hsum : ((m.connections ++ [pooled] : List PooledConnection) : Multiset PooledConnection)
        = {pooled} + (m.connections : Multiset PooledConnection) := by
      rw [← Multiset.coe_add, Multiset.coe_singleton, add_comm]
    have hcurrent : pooled.generation = m.generation :=
      (not_ne_iff.mp hstale).trans hgeneration.symm
    refine spec_update_pool (m.connections ++ [pooled]) m.generation ?_ ?_ (.inl rfl) ?_ ?_
    · intro m'' h1 h2
      exact ⟨congrArg (· ++ [pooled]) h1, h2⟩
    · rw [hsum]
      exact le_add_right (le_refl _)
    · intro p hp
      rcases List.mem_append.mp hp with hp | hp
      · exact .inl hp
      · obtain rfl := List.mem_singleton.mp hp
        exact .inr ⟨Multiset.mem_add.mpr (.inl (Multiset.mem_singleton_self p)), hcurrent⟩
    · refine spec_unlock (f := fun r => pure r) (le_of_eq hsum) (fun p hp => ?_) ?_
      · rcases List.mem_append.mp hp with hp | hp
        · exact hm.generation p hp
        · exact List.mem_singleton.mp hp ▸ hcurrent
      · show Spec ⟨.idle, {pooled} + (m.connections : Multiset PooledConnection)
          - (m.connections ++ [pooled] : List PooledConnection), none⟩ _ _
        rw [hsum, tsub_self]
        exact rfl

theorem keeps_withConnection {α : Type} {body : Connection → Method α}
    (hb : ∀ pooled : PooledConnection, Keeps (.having pooled) (body pooled.connection)) :
    Keeps .empty (withConnection body) := by
  refine spec_getConnection.bind (fun pooled hand' hp => ?_) fun _ _ he => he
  rw [hp]
  have hends : Spec (.having pooled)
      ((body pooled.connection).ends : Method (Except Thrown α)) (Yields (Same (.having pooled))) :=
    (hb pooled).ends fun _ _ h => h
  refine hends.next fun r hand' hr => ?_
  rw [hr]
  refine (spec_releaseConnection pooled).next fun _ _ h => ?_
  exact h

/-! ## `connect` and `reconnect` -/

/-- a pool of the current generation in hand, and nothing else -/
def Loaded (generation : UInt64) (gone : Multiset PooledConnection) (hand : Hand) : Prop :=
  ∃ pool : List PooledConnection, (∀ p ∈ pool, p.generation = generation) ∧
    hand = ⟨.idle, pool, some ⟨pool, generation, gone⟩⟩

section
variable {generation : UInt64} {gone : Multiset PooledConnection} {hand : Hand}

theorem spec_connectLoop (left : Nat) (h : Loaded generation gone hand) :
    Spec hand (connectLoop generation left) (Yields fun _ => Loaded generation gone) := by
  induction left generalizing hand with
  | zero => exact h
  | succ left ih =>
    obtain ⟨pool, hpool, rfl⟩ := h
    have hone : Spec ⟨.idle, pool, some ⟨pool, generation, gone⟩⟩
        (do
          let conn ← createConnection
          update fun m => { m with connections := m.connections ++ [⟨conn, generation⟩] })
        (Ends (fun _ => Loaded generation gone)
          (Threw ⟨.idle, pool, some ⟨pool, generation, gone⟩⟩)) := by
      refine spec_createConnection.bind (fun conn hand' hc => ?_) fun _ _ he => he
      rw [hc]
      have hsum : ((pool ++ [⟨conn, generation⟩] : List PooledConnection) :
          Multiset PooledConnection)
            = ⟨conn, generation⟩ ::ₘ (pool : Multiset PooledConnection) := by
        rw [← Multiset.coe_add, Multiset.coe_singleton, add_comm, Multiset.singleton_add]
      have hgeneration : ∀ p ∈ pool ++ [⟨conn, generation⟩], p.generation = generation := by
        intro p hp
        rcases List.mem_append.mp hp with hp | hp
        · exact hpool p hp
        · rw [List.mem_singleton.mp hp]
      refine spec_update_pool (f := fun r => pure r) (pool ++ [⟨conn, generation⟩]) generation
        ?_ ?_ (.inl rfl) ?_ ⟨_, hgeneration, ?_⟩
      · intro m h1 h2
        exact ⟨congrArg (· ++ [_]) h1, h2⟩
      · rw [hsum]
        exact le_add_right (le_refl _)
      · intro p hp
        refine or_iff_not_imp_left.mpr fun hne => ⟨?_, hgeneration p hp⟩
        have hp' := (List.mem_append.mp hp).resolve_left hne
        rw [List.mem_singleton.mp hp']
        show _ ∈ (⟨conn, generation⟩ : PooledConnection) ::ₘ (pool : Multiset PooledConnection)
        exact Multiset.mem_cons_self _ _
      · rw [hsum]
        rfl
    have hcaught : Spec _ (catchSql _ fun _ => pure ()) (Yields fun _ => Loaded generation gone) :=
      hone.catchSql (fun _ _ h => h) (fun _ _ he => he.2 ▸ ⟨pool, hpool, rfl⟩)
        fun e _ hne he => absurd he.1 fun ⟨code, hcode⟩ => hne code hcode
    exact hcaught.next fun _ _ h => ih h

theorem spec_connect (host login password : Bytes) (h : Loaded generation gone hand) :
    Spec hand (connect host login password) fun _ => Loaded generation gone := by
  obtain ⟨pool, hpool, rfl⟩ := h
  have hloaded : Loaded generation gone ⟨.idle, pool, some ⟨pool, generation, gone⟩⟩ :=
    ⟨pool, hpool, rfl⟩
  refine spec_update_rest (fun _ => ⟨rfl, rfl⟩) ?_ ?_
  · intro c hc
    obtain rfl := Option.some.inj hc
    exact le_add_right (le_refl _)
  · have hbody : Spec ⟨.idle, pool, some ⟨pool, generation, gone⟩⟩
        (do
          getDriverInstance
          let count ← connectionsCount
          let m ← members
          connectLoop m.generation count)
        (Ends (fun _ => Loaded generation gone) (fun _ => Loaded generation gone)) := by
      have hdriver : Spec ⟨.idle, pool, some ⟨pool, generation, gone⟩⟩ getDriverInstance
          (Ends (Same _) (Threw _)) :=
        spec_plain ⟨fun _ h => absurd h (by simp [DriverCall.used]), trivial⟩ (fun _ _ => rfl)
          fun _ _ => ofSql_error
      refine hdriver.bind (fun _ _ hd => ?_) fun _ _ he => he.2 ▸ hloaded
      rw [hd]
      have hcount : Keeps ⟨.idle, pool, some ⟨pool, generation, gone⟩⟩ connectionsCount :=
        spec_call ⟨fun _ h => absurd h (by simp [DriverCall.used]), trivial⟩ fun r m => rfl
      refine hcount.bind (fun count => ?_) fun _ => hloaded
      refine spec_members fun m hm => ?_
      obtain ⟨-, hgeneration⟩ := hm _ rfl
      rw [← hgeneration]
      exact (spec_connectLoop count hloaded).mono fun r _ hr => by
        cases r with
        | ok _ => exact hr
        | error _ => exact hr.elim
    exact hbody.catchSql (fun _ _ h => h) (fun _ _ he => he) fun _ _ _ he => he

end

theorem drop_cons {pooled : PooledConnection} {rest pool : List PooledConnection}
    {generation : UInt64} {gone : Multiset PooledConnection}
    (hnd : ((pooled :: rest).map (·.connection)).Nodup) :
    (⟨.idle, (pooled :: rest : List PooledConnection), some ⟨pool, generation, gone⟩⟩ : Hand).drop
        pooled.connection
      = ⟨.idle, rest, some ⟨pool, generation, gone + {pooled}⟩⟩ := by
  rw [List.map_cons, List.nodup_cons] at hnd
  have hrest : ∀ p ∈ rest, p.connection ≠ pooled.connection := fun p hp he =>
    hnd.1 (he ▸ List.mem_map_of_mem hp)
  have hkeep : rest.filter (fun p => p.connection ≠ pooled.connection) = rest :=
    List.filter_eq_self.mpr fun p hp => by simpa using hrest p hp
  have hlose : rest.filter (fun p => p.connection = pooled.connection) = [] :=
    List.filter_eq_nil_iff.mpr fun p hp => by simpa using hrest p hp
  rw [Hand.drop]
  simp only [Multiset.filter_coe, Option.map_some]
  rw [List.filter_cons_of_neg (by simp), List.filter_cons_of_pos (by simp), hkeep, hlose]
  rfl

theorem mem_cons_connections (pooled : PooledConnection) (rest : List PooledConnection) :
    pooled.connection ∈ ((pooled :: rest : List PooledConnection) : Multiset PooledConnection).map
      (·.connection) :=
  Multiset.mem_map_of_mem _ (Multiset.mem_coe.mpr List.mem_cons_self)

theorem add_singleton_add (gone : Multiset PooledConnection) (pooled : PooledConnection)
    (rest : List PooledConnection) : gone + {pooled} + (rest : Multiset PooledConnection)
      = gone + (pooled :: rest : List PooledConnection) := by
  rw [← Multiset.cons_coe, ← Multiset.singleton_add, add_assoc]

/-- deleting the rest of the pool, one connection after the other -/
theorem spec_deleteAll {pool rest : List PooledConnection} {generation : UInt64}
    {gone : Multiset PooledConnection} (hnd : (rest.map (·.connection)).Nodup) :
    Spec ⟨.idle, rest, some ⟨pool, generation, gone⟩⟩ (deleteAll rest)
      (Yields (Same ⟨.idle, 0, some ⟨pool, generation, gone + rest⟩⟩)) := by
  induction rest generalizing gone with
  | nil =>
    rw [Multiset.coe_nil, add_zero]
    exact rfl
  | cons pooled rest ih =>
    have hmem := mem_cons_connections pooled rest
    refine (spec_closeQuietly hmem).next fun _ _ hc => ?_
    rw [hc]
    refine (spec_delete hmem).next fun _ _ hd => ?_
    rw [hd, drop_cons hnd, ← add_singleton_add]
    exact ih (List.nodup_cons.mp hnd).2

theorem spec_reconnectLocked : Keeps .empty reconnectLocked := by
  refine spec_lock_empty fun m hm => ?_
  -- the counter first
  refine spec_update_pool m.connections (m.generation + 1) ?_ (le_add_right (le_refl _)) (.inr rfl)
    (fun p hp => .inl hp) ?_
  · intro m' h1 h2
    exact ⟨h1, congrArg (· + 1) h2⟩
  refine spec_members fun m' hm' => ?_
  rw [← (hm' _ rfl).1]
  refine (spec_deleteAll hm.nodup).next fun _ _ hd => ?_
  rw [hd]
  -- all of the pool is deleted, and new connections follow
  refine spec_update_pool [] (m.generation + 1) ?_ (Multiset.zero_le _) (.inl rfl)
    (fun p hp => absurd hp List.not_mem_nil) ?_
  · intro m'' _ h2
    exact ⟨rfl, h2⟩
  refine spec_members fun m'' _ => ?_
  have hloaded : Loaded (m.generation + 1) (0 + m.connections)
      ⟨.idle, 0, some ⟨[], m.generation + 1, 0 + m.connections⟩⟩ :=
    ⟨[], fun p hp => absurd hp List.not_mem_nil, rfl⟩
  have hconnect : Spec ⟨.idle, 0, some ⟨[], m.generation + 1, 0 + m.connections⟩⟩
      ((connect m''.host m''.user m''.password).ends : Method (Except Thrown Unit))
      (Yields fun _ => Loaded (m.generation + 1) (0 + m.connections)) :=
    (spec_connect m''.host m''.user m''.password hloaded).ends fun _ _ h => h
  refine hconnect.next fun r hand' hr => ?_
  obtain ⟨pool, hpool, rfl⟩ := hr
  refine spec_unlock (le_refl _) hpool ?_
  show Spec ⟨.idle, (pool : Multiset PooledConnection) - pool, none⟩ _ _
  rw [tsub_self]
  exact rfl

/-! ## schema and statements -/

theorem keeps_read (schema : SchemaRef) : Keeps .empty schema.read := by
  cases schema with
  | member => exact spec_members fun _ _ => rfl
  | other schema => exact rfl

theorem keeps_assign (schema : SchemaRef) : Keeps .empty schema.assign := by
  cases schema with
  | member => exact rfl
  | other schema =>
    exact spec_update_rest (f := fun r => pure r) (fun _ => ⟨rfl, rfl⟩)
      (fun _ h => absurd h (by simp)) rfl

/-- the loop of `set_schema` only names connections; it has none of them in hand -/
theorem keeps_setSchemaLoop (schema : SchemaRef) (pool : List PooledConnection) :
    Keeps .empty (setSchemaLoop schema pool) := by
  induction pool with
  | nil => exact rfl
  | cons pooled rest ih =>
    refine (keeps_read schema).bind (fun name => ?_) fun _ => rfl
    have hname : Keeps .empty (driverSetSchema pooled.connection name) := by
      refine spec_call ⟨fun _ h => absurd h (by simp [DriverCall.used]), ?_⟩ fun r m => ?_
      · intro conn h
        exact absurd h (by simp [Hand.empty])
      · cases r <;> rfl
    exact hname.bind (fun _ => ih) fun _ => rfl

theorem keeps_setSchema {query : Bytes → Method Bool}
    (hquery : ∀ schema, Keeps .empty (query (createSchema schema))) (schema : SchemaRef) :
    Keeps .empty (setSchema query schema) := by
  refine keeps_iff.mpr (preserves_catchSql (keeps_iff.mp ?_) fun _ => Program.preserves_done _)
  refine (keeps_read schema).bind (fun name => ?_) fun _ => rfl
  refine (hquery name).bind (fun _ => ?_) fun _ => rfl
  refine (keeps_assign schema).bind (fun _ => ?_) fun _ => rfl
  exact spec_members fun m _ => keeps_setSchemaLoop schema m.connections

theorem keeps_tryQuery (origin : Origin) (q : Bytes) : Keeps .empty (tryQuery origin q) := by
  refine keeps_withConnection fun pooled => ?_
  refine (spec_createStatement (mem_having pooled)).bind (fun _ _ h => ?_) fun _ _ he => he.2
  rw [h]
  refine (spec_execute (mem_having pooled) origin q).bind (fun _ _ h => ?_) fun _ _ he => he.2
  exact h

theorem keeps_tryQueryGet (origin : Origin) (q : Bytes) : Keeps .empty (tryQueryGet origin q) := by
  refine keeps_withConnection fun pooled => ?_
  refine (spec_createStatement (mem_having pooled)).bind (fun _ _ h => ?_) fun _ _ he => he.2
  rw [h]
  refine (spec_executeQuery (mem_having pooled) origin q).bind (fun _ _ h => ?_) fun _ _ he => he.2
  exact h

theorem serves_empty : Serves handling (· = .empty) where
  members := keeps_iff.mp (spec_members (f := fun m => pure m) fun _ _ => rfl)
  reconnectLocked := keeps_iff.mp spec_reconnectLocked
  setSchema _ hquery schema :=
    keeps_iff.mp (keeps_setSchema (fun name => keeps_iff.mpr (hquery name)) schema)
  tryQuery origin q := keeps_iff.mp (keeps_tryQuery origin q)
  tryQueryGet origin q := keeps_iff.mp (keeps_tryQueryGet origin q)

theorem keeps_query (fuel : Nat) (origin : Origin) (q : Bytes) :
    Keeps .empty (query fuel origin q) :=
  keeps_iff.mpr (serves_empty.query fuel origin q)

/-! ## the destructor -/

/-- the destructor takes a connection out of the pool before it deletes it -/
theorem spec_destroyLoop {rest : List PooledConnection} {generation : UInt64}
    {gone : Multiset PooledConnection} (hnd : (rest.map (·.connection)).Nodup) :
    Spec ⟨.idle, rest, some ⟨rest, generation, gone⟩⟩ (destroyLoop rest)
      (Yields (Same ⟨.idle, 0, some ⟨[], generation, gone + rest⟩⟩)) := by
  induction rest generalizing gone with
  | nil =>
    rw [Multiset.coe_nil, add_zero]
    exact rfl
  | cons pooled rest ih =>
    refine spec_update_pool rest generation ?_ ?_ (.inl rfl)
      (fun p hp => .inl (List.mem_cons_of_mem _ hp)) ?_
    · intro m h1 h2
      exact ⟨congrArg (List.drop 1) h1, h2⟩
    · exact le_add_right (Multiset.coe_le.mpr (List.sublist_cons_self _ _).subperm)
    · refine (spec_delete (mem_cons_connections pooled rest)).next fun _ _ hd => ?_
      rw [hd, drop_cons hnd, ← add_singleton_add]
      exact ih (List.nodup_cons.mp hnd).2

theorem keeps_destroy : Keeps .empty destroy := by
  refine spec_lock_empty fun m hm => spec_members fun m' hm' => ?_
  rw [← (hm' _ rfl).1]
  refine (spec_destroyLoop hm.nodup).next fun _ _ hd => ?_
  rw [hd]
  exact spec_unlock (f := fun r => pure r) (Multiset.zero_le _)
    (fun p hp => absurd hp List.not_mem_nil) rfl

/-! ## operations -/

/-- what is in hand at the end of an operation: what it hands out, or the pool behind `connect` -/
def Done (exclusive : Bool) (r : Except Thrown (Option PooledConnection)) (hand : Hand) : Prop :=
  if exclusive then System.handedOut r = [] ∧ ∃ c : Critical,
    hand = ⟨.idle, c.pool, some c⟩ ∧ ∀ p ∈ c.pool, p.generation = c.generation
  else hand = ⟨.idle, System.handedOut r, none⟩

theorem Keeps.done {α : Type} {p : Method α} (h : Keeps .empty p) :
    Spec .empty (withoutConnection p) (Done false) :=
  h.bind (fun _ => rfl) fun _ => rfl

theorem spec_exclusive (fuel : Nat) (host login password : Bytes) {m : MysqlWrapper}
    (hm : m.Settled) : Spec (.havingPool m) ((Operation.connect host login password).program fuel)
      (Done true) := by
  have hloaded : Loaded m.generation 0 (.havingPool m) := ⟨m.connections, hm.generation, rfl⟩
  have hdone : ∀ {r : Except Thrown (Option PooledConnection)} {hand : Hand},
      System.handedOut r = [] → Loaded m.generation 0 hand → Done true r hand := by
    rintro r _ hr ⟨pool, hpool, rfl⟩
    exact ⟨hr, ⟨pool, m.generation, 0⟩, rfl, hpool⟩
  exact Program.Tracks.bind (spec_connect host login password hloaded)
    (fun _ _ h => hdone rfl h) fun _ _ h => hdone rfl h

/-- **What an operation has in hand at its end** is what it hands out. -/
theorem spec_program (fuel : Nat) (op : Operation) (hop : op.isConnect = false) :
    Spec op.given (op.program fuel) (Done false) := by
  cases op with
  | connect host login password => exact absurd hop (by simp [Operation.isConnect])
  | setSchema schema => exact (keeps_setSchema (fun _ => keeps_query fuel _ _) _).done
  | reconnect =>
    exact (keeps_iff.mpr (serves_empty.reconnect fun _ => serves_empty.query fuel _ _)).done
  | getConnection =>
    refine spec_getConnection.bind (fun pooled hand' h => ?_) fun _ _ h => h
    rw [h]
    exact rfl
  | query q => exact (keeps_query fuel _ q).done
  | queryGet q => exact (keeps_iff.mpr (serves_empty.queryGet fuel _ q)).done
  | release pooled =>
    refine (spec_releaseConnection pooled).bind (fun _ hand' h => ?_) fun _ _ h => h.elim
    rw [h]
    exact rfl
  | destroy => exact keeps_destroy.done

end MysqlWrapper

end ServerHttpLib
