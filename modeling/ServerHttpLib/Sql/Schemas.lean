import ServerHttpLib.Sql.Serving
import ServerHttpLib.Sql.Threads

/-!
# The schema of the connections

One operation after the other.  A connection that is opened is named after `_schema`, and
`set_schema` names those in the pool.  It does not name the connections that callers hold, and when
the `setSchema` of one connection throws it leaves out those behind it.

* `Named`                the connections in the pool are in the configured schema;
* `named_getConnection`  so is the connection that `get_connection` returns, and the rest of the
                         pool behind it;
* `all_in_schema`        in every run in which no other connection is released, and `setSchema` does
                         not throw while one in the pool is still to be named.
-/

namespace ServerHttpLib
open Programs MysqlWrapper Runs

/-- the members, and what `setSchema` last set for each connection -/
structure Sessions where
  wrapper : MysqlWrapper
  session : Connection → Option Bytes

namespace Sessions

/-- the connection is in the configured schema, if there is one -/
def InSchema (l : Sessions) (conn : Connection) : Prop :=
  l.wrapper.schema = [] ∨ l.session conn = some l.wrapper.schema

instance (l : Sessions) : DecidablePred l.InSchema := fun _ => inferInstanceAs (Decidable (_ ∨ _))

/-- every connection in the pool is -/
def Named (l : Sessions) : Prop := ∀ p ∈ l.wrapper.connections, l.InSchema p.connection

instance (l : Sessions) : Decidable l.Named :=
  inferInstanceAs (Decidable (∀ p ∈ l.wrapper.connections, l.InSchema p.connection))

def setName (l : Sessions) (conn : Connection) : Sessions :=
  ⟨l.wrapper, Function.update l.session conn (some l.wrapper.schema)⟩

/-- what an action changes -/
def next (l : Sessions) : (a : Act) → a.Reply → Sessions
  | .update f, _ => ⟨f l.wrapper, l.session⟩
  | .driver (.setSchema conn schema), r =>
    match r with
    | .ok _ => ⟨l.wrapper, Function.update l.session conn (some schema)⟩
    | .error _ => l
  | _, _ => l

/-- a reply that can be: the members as they are, and no `setSchema` that throws while a connection
in the pool is to be named -/
def Tells (l : Sessions) : (a : Act) → a.Reply → Prop
  | .members, seen => seen = l.wrapper
  | .driver (.setSchema _ _), r =>
    match r with
    | .ok _ => True
    | .error _ => l.Named
  | _, _ => True

/-- a statement runs on a connection in the configured schema -/
def May (l : Sessions) : Act → Prop
  | .driver (.createStatement conn) => l.InSchema conn
  | _ => True

end Sessions

def naming : Tracking Act.Reply Sessions where
  allowed := Sessions.May
  moves l a r l' := l.Tells a r ∧ l' = l.next a r

namespace MysqlWrapper

variable {α β : Type}

/-- from the sessions `l` on, the method ends as `Q` says -/
abbrev From (l : Sessions) (p : Method α) (Q : Except Thrown α → Sessions → Prop) : Prop :=
  p.Tracks naming Q l

/-- the method changes no session and no member -/
def Still (p : Method α) : Prop := ∀ l, From l p fun _ l' => l' = l

/-- the method leaves the pool in the configured schema -/
abbrev Fine (p : Method α) : Prop := p.Preserves naming Sessions.Named

theorem Still.bind {p : Method α} {f : α → Method β} {l : Sessions}
    {Q : Except Thrown β → Sessions → Prop} (h : Still p) (hok : ∀ v, From l (f v) Q)
    (herror : ∀ e, Q (.error e) l) : From l (p >>= f) Q :=
  Program.Tracks.bind (h l) (fun v _ hl => hl ▸ hok v) fun e _ hl => hl ▸ herror e

theorem Still.fine {p : Method α} (h : Still p) : Fine p := fun l hl =>
  (h l).mono fun _ _ he => he ▸ hl

/-! ## actions -/

theorem from_members {f : MysqlWrapper → Method α} {l : Sessions}
    {Q : Except Thrown α → Sessions → Prop} (h : From l (f l.wrapper) Q) :
    From l (members >>= f) Q := by
  refine ⟨trivial, fun r l' hm => ?_⟩
  rw [show l' = l from hm.2, show r = l.wrapper from hm.1]
  exact h

theorem from_update {g : MysqlWrapper → MysqlWrapper} {f : Unit → Method α} {l : Sessions}
    {Q : Except Thrown α → Sessions → Prop} (h : From ⟨g l.wrapper, l.session⟩ (f ()) Q) :
    From l (update g >>= f) Q := by
  refine ⟨trivial, ?_⟩
  rintro r _ ⟨-, rfl⟩
  exact h

theorem still_lock : Still lock := fun _ => ⟨trivial, fun _ _ hm => hm.2⟩

theorem still_unlock : Still unlock := fun _ => ⟨trivial, fun _ _ hm => hm.2⟩

theorem still_call {call : DriverCall} {g : call.Reply → Except Thrown α}
    (ha : ∀ l : Sessions, l.May (.driver call))
    (hn : ∀ (l : Sessions) (r : call.Reply), l.next (.driver call) r = l) :
    Still (.step (.driver call) fun r => .done (g r)) :=
  fun l => ⟨ha l, fun r _ hm => hm.2.trans (hn l r)⟩

theorem still_isClosed (conn : Connection) : Still (isClosed conn) :=
  still_call (fun _ => trivial) fun _ _ => rfl

theorem still_isValid (conn : Connection) : Still (isValid conn) :=
  still_call (fun _ => trivial) fun _ _ => rfl

theorem still_close (conn : Connection) : Still (close conn) :=
  still_call (fun _ => trivial) fun _ _ => rfl

theorem still_delete (conn : Connection) : Still (delete conn) :=
  still_call (fun _ => trivial) fun _ _ => rfl

theorem still_closeQuietly (conn : Connection) : Still (closeQuietly conn) := by
  intro l
  have hbody : From l
      (do
        let closed ← isClosed conn
        if closed then return () else close conn : Method Unit) fun _ l' => l' = l := by
    refine (still_isClosed conn).bind (fun closed => ?_) fun _ => rfl
    split
    · exact rfl
    · exact still_close conn l
  exact Program.Tracks.catching hbody (fun _ _ h => h) fun _ _ h => h

theorem still_usable (conn : Connection) : Still (usable conn) := by
  intro l
  have hbody : From l
      (do
        let closed ← isClosed conn
        let valid ← (if closed then pure false else isValid conn : Method Bool)
        return !shouldReplaceConnection closed valid) fun _ l' => l' = l := by
    refine (still_isClosed conn).bind (fun closed => ?_) fun _ => rfl
    have hvalid : Still (if closed then pure false else isValid conn : Method Bool) := by
      split
      · exact fun _ => rfl
      · exact still_isValid conn
    exact hvalid.bind (fun _ => rfl) fun _ => rfl
  refine Program.Tracks.catching hbody (fun _ _ h => h) fun e _ h => ?_
  cases e <;> exact h

/-! ## naming a connection -/

section
variable (l : Sessions) (conn : Connection)

theorem inSchema_setName : (l.setName conn).InSchema conn :=
  .inr (Function.update_self _ _ _)

variable {l}

theorem inSchema_of_inSchema {c : Connection} (h : l.InSchema c) : (l.setName conn).InSchema c := by
  by_cases he : c = conn
  · exact he ▸ inSchema_setName l conn
  · exact h.imp_right fun hs => (Function.update_of_ne he _ _).trans hs

end

/-! ## connections -/

/-- the connection of a result is in the schema, and the pool is, too -/
def Returned (conn : α → Connection) : Except Thrown α → Sessions → Prop
  | .ok v, l => l.Named ∧ l.InSchema (conn v)
  | .error _, l => l.Named

theorem named_createConnection {l : Sessions} (hl : l.Named) :
    From l createConnection (Returned id) := by
  refine from_members ?_
  refine Still.bind (still_call (fun _ => trivial) fun _ r => by cases r <;> rfl) (fun conn => ?_)
    fun _ => hl
  refine from_members ?_
  by_cases hs : l.wrapper.schema = []
  · rw [if_pos hs]
    exact ⟨hl, .inl hs⟩
  · rw [if_neg hs]
    refine ⟨trivial, fun r l' hm => ?_⟩
    cases r with
    | ok _ =>
      rw [show l' = l.setName conn from hm.2]
      exact ⟨fun p hp => inSchema_of_inSchema conn (hl p hp), inSchema_setName l conn⟩
    | error _ =>
      rw [show l' = l from hm.2]
      exact hl

theorem named_freshConnection {l : Sessions} (hl : l.Named) :
    From l freshConnection (Returned PooledConnection.connection) := by
  refine Program.Tracks.bind (named_createConnection hl) (fun conn l' h => ?_) fun _ _ h => h
  exact from_members h

theorem still_awaitConnection : Still awaitConnection := by
  intro l
  refine from_members ?_
  split
  · refine still_unlock.bind (fun _ => ?_) fun _ => rfl
    exact still_lock l
  · exact rfl

theorem named_takePooled {l : Sessions} (hl : l.Named) : From l takePooled fun r l' =>
    l'.Named ∧ ∀ p, r = .ok (some p) → l'.InSchema p.connection := by
  refine still_lock.bind (fun _ => ?_) fun _ => ⟨hl, by simp⟩
  refine still_awaitConnection.bind (fun _ => ?_) fun _ => ⟨hl, by simp⟩
  refine from_members ?_
  cases hlast : l.wrapper.connections.getLast? with
  | none =>
    refine still_unlock.bind (fun _ => ?_) fun _ => ⟨hl, by simp⟩
    exact ⟨hl, by simp⟩
  | some pooled =>
    have hpooled : l.InSchema pooled.connection := hl pooled (List.mem_of_getLast? hlast)
    have hrest : (⟨{ l.wrapper with connections := l.wrapper.connections.dropLast }, l.session⟩
        : Sessions).Named := fun p hp => hl p (List.dropLast_subset _ hp)
    refine from_update ?_
    refine still_unlock.bind (fun _ => ?_) fun _ => ⟨hrest, by simp⟩
    refine ⟨hrest, fun p hp => ?_⟩
    obtain rfl : pooled = p := by simpa using hp
    exact hpooled

/-- **`get_connection` returns a connection in the configured schema**, if the pool is in it. -/
theorem named_getConnection {l : Sessions} (hl : l.Named) :
    From l getConnection (Returned PooledConnection.connection) := by
  refine Program.Tracks.bind (named_takePooled hl) (fun taken l' h => ?_) fun _ _ h => h.1
  cases taken with
  | none => exact named_freshConnection h.1
  | some pooled =>
    have hpooled := h.2 pooled rfl
    refine (still_usable pooled.connection).bind (fun keep => ?_) fun _ => h.1
    split
    · exact ⟨h.1, hpooled⟩
    · refine (still_closeQuietly _).bind (fun _ => ?_) fun _ => h.1
      refine (still_delete _).bind (fun _ => ?_) fun _ => h.1
      exact named_freshConnection h.1

theorem named_releaseConnection {l : Sessions} (hl : l.Named) {pooled : PooledConnection}
    (hp : pooled.generation ≠ l.wrapper.generation ∨ l.InSchema pooled.connection) :
    From l (releaseConnection pooled) fun _ l' => l'.Named := by
  refine still_lock.bind (fun _ => ?_) fun _ => hl
  refine from_members ?_
  by_cases hstale : pooled.generation ≠ l.wrapper.generation
  · rw [if_pos hstale]
    refine still_unlock.bind (fun _ => ?_) fun _ => hl
    refine (still_closeQuietly _).bind (fun _ => ?_) fun _ => hl
    exact (still_delete _).fine l hl
  · rw [if_neg hstale]
    refine from_update (still_unlock.fine _ fun p hp' => ?_)
    rcases List.mem_append.mp hp' with hp' | hp'
    · exact hl p hp'
    · rw [List.mem_singleton.mp hp']
      exact hp.resolve_left hstale

theorem fine_withConnection {body : Connection → Method α}
    (hb : ∀ conn l, l.InSchema conn → From l (body conn) fun _ l' => l' = l) :
    Fine (withConnection body) := by
  intro l hl
  refine Program.Tracks.bind (named_getConnection hl) (fun pooled l' h => ?_) fun _ _ h => h
  have hends : From l' ((body pooled.connection).ends : Method (Except Thrown α))
      fun r l'' => l'' = l' ∧ ∃ v, r = .ok v :=
    (hb pooled.connection l' h.2).ends fun r _ hr => ⟨hr, r, rfl⟩
  refine Program.Tracks.bind hends (fun r l'' hr => ?_) fun _ _ hr => absurd hr.2 (by simp)
  rw [hr.1]
  exact Program.Tracks.bind (named_releaseConnection h.1 (.inr h.2)) (fun _ _ hr => hr)
    fun _ _ hr => hr

/-! ## `connect` and `reconnect` -/

theorem fine_connectLoop (generation : UInt64) (left : Nat) :
    Fine (connectLoop generation left) := by
  induction left with
  | zero => exact Program.preserves_done _
  | succ left ih =>
    have hcaught : ∀ _ : Int, Fine (return () : Method Unit) := fun _ => Program.preserves_done _
    refine Program.Preserves.bind (preserves_catchSql (fun l hl => ?_) hcaught) fun _ => ih
    refine Program.Tracks.bind (named_createConnection hl) (fun conn l' h => ?_) fun _ _ h => h
    refine from_update (f := fun r => pure r) fun p hp => ?_
    rcases List.mem_append.mp hp with hp | hp
    · exact h.1 p hp
    · rw [List.mem_singleton.mp hp]
      exact h.2

theorem fine_members {f : MysqlWrapper → Method α} (hf : ∀ m, Fine (f m)) :
    Fine (members >>= f) := fun l hl => from_members (hf _ l hl)

theorem fine_update {g : MysqlWrapper → MysqlWrapper} {f : Unit → Method α}
    (hs : ∀ m, (g m).schema = m.schema) (hc : ∀ m, (g m).connections ⊆ m.connections)
    (hf : Fine (f ())) : Fine (update g >>= f) := by
  intro l hl
  refine from_update (hf _ fun p hp => ?_)
  have h := hl p (hc _ hp)
  unfold Sessions.InSchema at h ⊢
  rwa [hs]

theorem fine_connect (host login password : Bytes) : Fine (connect host login password) := by
  refine fine_update (fun _ => rfl) (fun _ => List.Subset.refl _) ?_
  refine preserves_catchSql ?_ fun _ => Program.preserves_done _
  have hdriver : Still getDriverInstance := still_call (fun _ => trivial) fun _ _ => rfl
  have hcount : Still connectionsCount := still_call (fun _ => trivial) fun _ _ => rfl
  refine hdriver.fine.bind fun _ => hcount.fine.bind fun count => ?_
  exact fine_members fun m => fine_connectLoop m.generation count

theorem fine_deleteAll (pool : List PooledConnection) : Fine (deleteAll pool) := by
  induction pool with
  | nil => exact Program.preserves_done _
  | cons pooled rest ih =>
    exact (still_closeQuietly _).fine.bind fun _ => (still_delete _).fine.bind fun _ => ih

theorem fine_reconnectLocked : Fine reconnectLocked := by
  refine still_lock.fine.bind fun _ => fine_update (fun _ => rfl) (fun _ => List.Subset.refl _) ?_
  refine fine_members fun m => (fine_deleteAll _).bind fun _ => ?_
  refine fine_update (fun _ => rfl) (fun _ => List.nil_subset _) (fine_members fun m' l hl => ?_)
  have hends : Fine ((connect m'.host m'.user m'.password).ends : Method (Except Thrown Unit)) :=
    (fine_connect _ _ _).ends
  refine hends.bind (fun r => still_unlock.fine.bind fun _ => ?_) l hl
  exact Program.preserves_done r

/-! ## `set_schema` -/

/-- what the parameter of `set_schema` stands for -/
def SchemaRef.value (m : MysqlWrapper) : SchemaRef → Bytes
  | .member => m.schema
  | .other schema => schema

theorem from_read (schema : SchemaRef) {f : Bytes → Method α} {l : Sessions}
    {Q : Except Thrown α → Sessions → Prop} (h : From l (f (schema.value l.wrapper)) Q) :
    From l (schema.read >>= f) Q := by
  cases schema with
  | member => exact from_members h
  | other schema => exact h

theorem named_setSchemaLoop (schema : SchemaRef) {done rest : List PooledConnection} {l : Sessions}
    (hschema : schema.value l.wrapper = l.wrapper.schema)
    (hpool : l.wrapper.connections = done ++ rest)
    (hdone : ∀ p ∈ done, l.InSchema p.connection) :
    From l (setSchemaLoop schema rest) fun _ l' => l'.Named := by
  induction rest generalizing done l with
  | nil =>
    intro p hp
    rw [hpool, List.append_nil] at hp
    exact hdone p hp
  | cons pooled rest ih =>
    refine from_read schema ?_
    rw [hschema]
    refine ⟨trivial, fun r l' hm => ?_⟩
    cases r with
    | ok _ =>
      rw [show l' = l.setName pooled.connection from hm.2]
      have hpool' : (l.setName pooled.connection).wrapper.connections
          = done ++ [pooled] ++ rest := by
        rw [List.append_assoc]
        exact hpool
      refine ih hschema hpool' fun p hp => ?_
      rcases List.mem_append.mp hp with hp | hp
      · exact inSchema_of_inSchema _ (hdone p hp)
      · rw [List.mem_singleton.mp hp]
        exact inSchema_setName l _
    | error _ =>
      rw [show l' = l from hm.2]
      exact hm.1

theorem fine_setSchema {query : Bytes → Method Bool}
    (hquery : ∀ schema, Fine (query (createSchema schema))) (schema : SchemaRef) :
    Fine (setSchema query schema) := by
  refine preserves_catchSql (fun l hl => ?_) fun _ => Program.preserves_done _
  refine from_read schema ?_
  refine Program.Tracks.bind (hquery _ l hl) (fun _ l' hl' => ?_) fun _ _ h => h
  have hloop : ∀ l'' : Sessions, schema.value l''.wrapper = l''.wrapper.schema →
      From l'' (members >>= fun m => setSchemaLoop schema m.connections) fun _ l' => l'.Named :=
    fun l'' hs => from_members (named_setSchemaLoop schema hs (List.nil_append _).symm
      fun p hp => absurd hp List.not_mem_nil)
  cases schema with
  | member => exact hloop l' rfl
  | other schema => exact from_update (hloop _ rfl)

/-! ## statements -/

/-- a statement is created on a connection in the schema, and changes no session -/
theorem still_statement {conn : Connection} (run : Method α) (f : α → β) (hrun : Still run)
    (l : Sessions) (hl : l.InSchema conn) :
    From l (do createStatement conn; let r ← run; return f r) fun _ l' => l' = l := by
  refine ⟨hl, fun r l' hm => ?_⟩
  rw [show l' = l from hm.2]
  cases r with
  | ok _ => exact hrun.bind (fun _ => rfl) fun _ => rfl
  | error _ => exact rfl

theorem serves_named : Serves naming Sessions.Named where
  members := fine_members fun m => Program.preserves_done (.ok m)
  reconnectLocked := fine_reconnectLocked
  setSchema _ hquery := fine_setSchema hquery
  tryQuery origin q := by
    refine fine_withConnection fun conn =>
      still_statement (execute origin conn q) (fun _ => true) ?_
    exact still_call (fun _ => trivial) fun _ _ => rfl
  tryQueryGet origin q := by
    refine fine_withConnection fun conn =>
      still_statement (executeQuery origin conn q) some ?_
    exact still_call (fun _ => trivial) fun _ _ => rfl

theorem fine_destroyLoop (pool : List PooledConnection) : Fine (destroyLoop pool) := by
  induction pool with
  | nil => exact Program.preserves_done _
  | cons pooled rest ih =>
    exact fine_update (fun _ => rfl) (fun m => List.drop_subset 1 m.connections)
      ((still_delete _).fine.bind fun _ => ih)

theorem fine_destroy : Fine destroy := by
  refine still_lock.fine.bind fun _ => fine_members fun m => ?_
  exact (fine_destroyLoop _).bind fun _ => still_unlock.fine

/-! ## operations -/

/-- the pool at the end of an operation, and what it hands out -/
def EndsNamed (r : Except Thrown (Option PooledConnection)) (l : Sessions) : Prop :=
  l.Named ∧ ∀ p ∈ System.handedOut r, l.InSchema p.connection

theorem from_withoutConnection {p : Method α} {l : Sessions} (h : From l p fun _ l' => l'.Named) :
    From l (ServerHttpLib.withoutConnection p) EndsNamed :=
  Program.Tracks.bind h (fun _ _ hl => ⟨hl, fun _ hp => absurd hp List.not_mem_nil⟩)
    fun _ _ hl => ⟨hl, fun _ hp => absurd hp List.not_mem_nil⟩

/-- **Every operation** leaves the pool in the configured schema and returns connections that are,
if it does not release another one. -/
theorem named_program (fuel : Nat) (op : Operation) {l : Sessions} (hl : l.Named)
    (hop : ∀ p ∈ op.returned, p.generation ≠ l.wrapper.generation ∨ l.InSchema p.connection) :
    From l (op.program fuel) EndsNamed := by
  cases op with
  | connect host login password => exact from_withoutConnection (fine_connect _ _ _ l hl)
  | setSchema schema =>
    exact from_withoutConnection (fine_setSchema (fun _ => serves_named.query fuel _ _) _ l hl)
  | reconnect =>
    have h : Fine (reconnect (query fuel .setSchema)) :=
      serves_named.reconnect fun _ => serves_named.query fuel _ _
    exact from_withoutConnection (h l hl)
  | getConnection =>
    refine Program.Tracks.bind (named_getConnection hl) (fun pooled l' h => ⟨h.1, fun p hp => ?_⟩)
      fun _ _ h => ⟨h, fun _ hp => absurd hp List.not_mem_nil⟩
    rw [List.mem_singleton.mp hp]
    exact h.2
  | query q => exact from_withoutConnection (serves_named.query fuel _ q l hl)
  | queryGet q => exact from_withoutConnection (serves_named.queryGet fuel _ q l hl)
  | release pooled =>
    exact from_withoutConnection
      (named_releaseConnection hl (hop pooled (List.mem_singleton_self pooled)))
  | destroy => exact from_withoutConnection (fine_destroy l hl)

end MysqlWrapper

/-! ## runs -/

/-- the next action is a `setSchema` that throws -/
def Running.failsToName (op : Running) (answer : (call : DriverCall) → call.Reply) : Bool :=
  match op.rest with
  | .step (.driver (.setSchema conn schema)) _ =>
    match answer (.setSchema conn schema) with
    | .ok _ => false
    | .error _ => true
  | _ => false

/-- the connection that the operation has got from `get_connection`: the next action is a statement
on it, or it is handed out -/
def Running.received (op : Running) : Option Connection :=
  match op.rest with
  | .step (.driver (.createStatement conn)) _ => some conn
  | .done (.ok (some pooled)) => some pooled.connection
  | _ => none

namespace System

def sessions (s : System) : Sessions := ⟨s.wrapper, s.history.session⟩

/-- the operations follow one another -/
def OneByOne (s : System) : Label → Prop
  | .start _ => s.operations = []
  | _ => True

instance (s : System) : DecidablePred (OneByOne s)
  | .start _ => inferInstanceAs (Decidable (s.operations = []))
  | .act _ _ | .finish _ => .isTrue trivial

/-- A connection that is released is stale or in the configured schema, and no `setSchema` throws
while one in the pool is in another. -/
def SchemaKept (s : System) : Label → Prop
  | .start op => ∀ p ∈ op.returned,
      p.generation ≠ s.wrapper.generation ∨ s.sessions.InSchema p.connection
  | .act number answer => ∀ op ∈ s.operations[number]?,
      op.failsToName answer = true → s.sessions.Named
  | .finish _ => True

instance (s : System) : DecidablePred (SchemaKept s)
  | .start op => inferInstanceAs (Decidable (∀ p ∈ op.returned, _))
  | .act number _ => inferInstanceAs (Decidable (∀ op ∈ s.operations[number]?, _))
  | .finish _ => .isTrue trivial

/-- at most one operation runs, and it keeps to the schema -/
def InOrder (s : System) : Prop :=
  s.operations = [] ∧ s.sessions.Named ∨
    ∃ op, s.operations = [op] ∧ From s.sessions op.rest EndsNamed

theorem only_operation {s : System} {op op' : Running} (hs : s.operations = [op]) {number : Nat}
    (hop : s.operations[number]? = some op') : number = 0 ∧ op = op' := by
  have hlt := (List.getElem?_eq_some_iff.mp hop).1
  rw [hs, List.length_singleton, Nat.lt_one_iff] at hlt
  subst hlt
  rw [hs, List.getElem?_cons_zero, Option.some.injEq] at hop
  exact ⟨rfl, hop⟩

theorem moves_act {s : System} {number : Nat} {exclusive : Bool} {a : Act}
    {k : a.Reply → MysqlWrapper.Method (Option PooledConnection)} {hand : Hand}
    {answer : (call : DriverCall) → call.Reply}
    (hok : (⟨exclusive, .step a k, hand⟩ : Running).failsToName answer = true → s.sessions.Named) :
    naming.moves s.sessions a (s.reply answer a)
      (s.actBehind number ⟨exclusive, .step a k, hand⟩ a (s.reply answer a)
        (k (s.reply answer a))).sessions := by
  cases a with
  | lock => exact ⟨trivial, rfl⟩
  | unlock => exact ⟨trivial, rfl⟩
  | members => exact ⟨rfl, rfl⟩
  | update f =>
    refine ⟨trivial, ?_⟩
    simp only [sessions, actBehind, History.record, Sessions.next, Act.effect]
    split <;> rfl
  | driver call =>
    cases call with
    | connect host user password =>
      refine ⟨trivial, ?_⟩
      simp only [sessions, actBehind, History.record, Sessions.next, Act.effect]
      split <;> rfl
    | setSchema conn schema =>
      simp only [Running.failsToName] at hok
      simp only [naming, Sessions.Tells, Sessions.next, sessions, actBehind, History.record,
        Act.effect, reply]
      cases hr : answer (.setSchema conn schema) with
      | ok _ => exact ⟨trivial, rfl⟩
      | error code =>
        rw [hr] at hok
        refine ⟨hok rfl, ?_⟩
        dsimp only
        split <;> rfl
    | _ => exact ⟨trivial, rfl⟩

theorem inOrder_act {s : System} {op : Running} (hs : s.operations = [op])
    (h : From s.sessions op.rest EndsNamed) {number : Nat} {exclusive : Bool} {a : Act}
    {k : a.Reply → MysqlWrapper.Method (Option PooledConnection)} {hand : Hand}
    (hop : s.operations[number]? = some ⟨exclusive, .step a k, hand⟩)
    {answer : (call : DriverCall) → call.Reply} (hok : SchemaKept s (.act number answer)) :
    InOrder (s.actBehind number ⟨exclusive, .step a k, hand⟩ a (s.reply answer a)
      (k (s.reply answer a))) := by
  have hmoves : naming.moves s.sessions a (s.reply answer a)
      (s.actBehind number ⟨exclusive, .step a k, hand⟩ a (s.reply answer a)
        (k (s.reply answer a))).sessions := moves_act (hok _ hop)
  obtain ⟨rfl, rfl⟩ := only_operation hs hop
  refine .inr ⟨⟨exclusive, k (s.reply answer a), hand.next s.wrapper a (s.reply answer a)⟩, ?_,
    h.2 _ _ hmoves⟩
  show s.operations.set 0 _ = _
  rw [hs]
  rfl

theorem inOrder_finish {s : System} {op : Running} (hs : s.operations = [op])
    (h : From s.sessions op.rest EndsNamed) {number : Nat} {exclusive : Bool}
    {r : Except Thrown (Option PooledConnection)} {hand : Hand}
    (hop : s.operations[number]? = some ⟨exclusive, .done r, hand⟩) :
    InOrder (s.finishBehind number exclusive r) := by
  obtain ⟨rfl, rfl⟩ := only_operation hs hop
  refine .inl ⟨?_, ?_⟩
  · show s.operations.eraseIdx 0 = []
    rw [hs]
    rfl
  · have hsame : (s.finishBehind 0 exclusive r).sessions = s.sessions := by
      cases exclusive <;> rfl
    rw [hsame]
    exact h.1

theorem inOrder_start {fuel : Nat} {s s' : System} {op : Operation} (hnone : s.operations = [])
    (hnamed : s.sessions.Named) (hok : SchemaKept s (.start op))
    (hs : startOperation fuel s op = some s') : InOrder s' := by
  have hprogram : From s.sessions (op.program fuel) EndsNamed := named_program fuel op hnamed hok
  rcases startOperation_cases hs with ⟨_, _, _, -, -, rfl⟩ | ⟨-, _, _, -, rfl⟩
  · exact .inr ⟨_, congrArg _ hnone, hprogram⟩
  · exact .inr ⟨_, congrArg _ hnone, hprogram⟩

/-- **One step** keeps to the schema. -/
theorem inOrder_step {fuel : Nat} {s s' : System} {l : Label} (h : InOrder s) (hseq : OneByOne s l)
    (hok : SchemaKept s l) (hs : step fuel s l = some s') : InOrder s' := by
  cases l with
  | start op =>
    rcases h with ⟨-, hnamed⟩ | ⟨op', hop', -⟩
    · exact inOrder_start hseq hnamed hok hs
    · exact absurd (hop'.symm.trans hseq) (List.cons_ne_nil _ _)
  | act number answer =>
    obtain ⟨exclusive, a, k, hand, hop, -, rfl⟩ := step_act hs
    rcases h with ⟨hnone, -⟩ | ⟨op', hop', hfrom⟩
    · exact absurd hop (by simp [hnone])
    · exact inOrder_act hop' hfrom hop hok
  | finish number =>
    obtain ⟨exclusive, r, hand, hop, rfl⟩ := step_finish hs
    rcases h with ⟨hnone, -⟩ | ⟨op', hop', hfrom⟩
    · exact absurd hop (by simp [hnone])
    · exact inOrder_finish hop' hfrom hop

theorem inOrder_run {fuel : Nat} {ls : List Label} {s : System}
    (h : runs (step fuel) start ls = some s) (hseq : Along (step fuel) OneByOne start ls)
    (hok : Along (step fuel) SchemaKept start ls) : InOrder s :=
  runs_along (P := InOrder) (fun _ _ _ hP ho hs => inOrder_step hP ho.1 ho.2 hs)
    (.inl ⟨rfl, fun _ hp => absurd hp List.not_mem_nil⟩) (hseq.and hok) h

def AllInSchema (s : System) : Prop :=
  ∀ op ∈ s.operations, ∀ conn ∈ op.received, s.sessions.InSchema conn

theorem received_inSchema {l : Sessions} {op : Running} (h : From l op.rest EndsNamed)
    {conn : Connection} (hconn : op.received = some conn) : l.InSchema conn := by
  unfold Running.received at hconn
  split at hconn
  · next conn' k hrest =>
    rw [hrest] at h
    exact Option.some.inj hconn ▸ h.1
  · next pooled hrest =>
    rw [hrest] at h
    exact Option.some.inj hconn ▸ h.2 pooled (List.mem_singleton_self _)
  · exact absurd hconn (by simp)

/-- **Every connection that `get_connection` returns is in the configured schema**, in the runs in
which no connection of another schema is released, and none in the pool is left out. -/
theorem all_in_schema {fuel : Nat} {ls : List Label} {s : System}
    (h : runs (step fuel) start ls = some s) (hseq : Along (step fuel) OneByOne start ls)
    (hok : Along (step fuel) SchemaKept start ls) : AllInSchema s := by
  intro op hop conn hconn
  rcases inOrder_run h hseq hok with ⟨hnone, -⟩ | ⟨op', hop', hfrom⟩
  · exact absurd hop (by simp [hnone])
  · rw [hop', List.mem_singleton] at hop
    subst hop
    exact received_inSchema hfrom hconn

/-- a `get_connection` in the schema `a`, up to its return -/
def namedCall : List Label :=
  .start .getConnection :: List.replicate 11 (.act 0 (driverAnswers (.ok 1) (.ok ())))

def namedAnswer : System :=
  { configured with
    operations := [⟨false, .done (.ok (some ⟨1, 1⟩)), ⟨.idle, {⟨1, 1⟩}, none⟩⟩]
    history := ⟨0, 0, [(1, 0)], [], [], Function.update (fun _ => none) 1 (some (str "a"))⟩ }

theorem namedCall_namedAnswer : runs (step 1) configured namedCall = some namedAnswer := rfl

theorem all_in_schema_namedCall : runs (step 1) start (setRun ++ namedCall) = some namedAnswer ∧
    namedAnswer.wrapper.schema = str "a" ∧
    (∃ op ∈ namedAnswer.operations, op.received = some 1) ∧ AllInSchema namedAnswer := by
  have h : runs (step 1) start (setRun ++ namedCall) = some namedAnswer :=
    runs_trans setRun_configured namedCall_namedAnswer
  refine ⟨h, rfl, ⟨_, List.mem_singleton_self _, rfl⟩, all_in_schema h ?_ ?_⟩
  · refine along_append.mpr ⟨by decide +kernel, fun s hs => ?_⟩
    obtain rfl : configured = s := Option.some.inj (setRun_configured.symm.trans hs)
    decide +kernel
  · refine along_append.mpr ⟨by decide +kernel, fun s hs => ?_⟩
    obtain rfl : configured = s := Option.some.inj (setRun_configured.symm.trans hs)
    decide +kernel

/-- the schema is set while a caller has the connection -/
def lentConfigured : System := { lent with wrapper := ⟨[], [], [], str "a", [], 1⟩ }

theorem setRun_lentConfigured : runs (step 1) lent setRun = some lentConfigured := rfl

/-- it comes back, and the next caller gets it -/
def againRun : List Label :=
  oneOperation (.release ⟨1, 1⟩) 4 (driverAnswers (.error 2003) (.ok ()))
    ++ .start .getConnection :: List.replicate 7 (.act 0 (driverAnswers (.error 2003) (.ok ())))

def again : System :=
  { lentConfigured with
    held := []
    operations := [⟨false, .done (.ok (some ⟨1, 1⟩)), ⟨.idle, {⟨1, 1⟩}, none⟩⟩] }

theorem againRun_again : runs (step 1) lentConfigured againRun = some again := rfl

/-- the caller gets connection 1, for which no schema was ever set -/
theorem outside_schema : runs (step 1) start (oneCaller ++ setRun ++ againRun) = some again ∧
    Along (step 1) OneByOne start (oneCaller ++ setRun ++ againRun) ∧
    again.operations.map Running.received = [some 1] ∧ again.wrapper.schema = str "a" ∧
    again.history.session 1 = none ∧ ¬ AllInSchema again := by
  have hset : runs (step 1) start (oneCaller ++ setRun) = some lentConfigured :=
    runs_trans (oneCaller_lent 1) setRun_lentConfigured
  refine ⟨runs_trans hset againRun_again, ?_, rfl, rfl, rfl, fun h => ?_⟩
  · refine along_append.mpr ⟨along_append.mpr ⟨by decide +kernel, fun s hs => ?_⟩, fun s hs => ?_⟩
    · obtain rfl : lent = s := Option.some.inj ((oneCaller_lent 1).symm.trans hs)
      decide +kernel
    · obtain rfl : lentConfigured = s := Option.some.inj (hset.symm.trans hs)
      decide +kernel
  · rcases h _ (List.mem_singleton_self _) 1 rfl with h | h
    · exact absurd h (by decide)
    · exact absurd h (by simp [again, sessions, lentConfigured, lent])

end System

end ServerHttpLib
