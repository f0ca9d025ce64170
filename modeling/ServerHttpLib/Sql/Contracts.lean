import ServerHttpLib.Sql.Wrapper

/-!
# What the methods of the wrapper may do

Two kinds of contracts, whatever the connector replies and the other callers do.

* `Tame`             the method runs no statement, keeps the schema, and throws only what a call of
                     the connector threw;
* `Within`           its actions are of a given kind;
* `tame_getConnection`, `tame_releaseConnection`, `tame_reconnectLocked`
                     so the methods of the pool are tame;
* `nested_query`     and `reconnect` runs no statement but those that create the schema.
-/

namespace ServerHttpLib.MysqlWrapper
open Programs

variable {α β : Type} {env : Environment}

/-! ## runs of methods -/

section
variable {p : Method α} {w w' : World}

theorem exec_bind_ok {v : α} (h : exec env p w = (.ok v, w')) (f : α → Method β) :
    exec env (p >>= f) w = exec env (f v) w' := by
  unfold exec at h ⊢
  rw [Program.run_bind, h]

theorem exec_bind_error {e : Thrown} (h : exec env p w = (.error e, w')) (f : α → Method β) :
    exec env (p >>= f) w = (.error e, w') := by
  unfold exec at h ⊢
  rw [Program.run_bind, h]

theorem exec_ends (p : Method α) (w : World) :
    exec env (p.ends : Method (Except Thrown α)) w = (.ok (exec env p w).1, (exec env p w).2) :=
  Program.run_ends (perform env) p w

theorem exec_catchSql {code : Int} (h : exec env p w = (.error (.sql code), w'))
    (handler : Int → Method α) : exec env (catchSql p handler) w = exec env (handler code) w' := by
  unfold exec at h ⊢
  unfold catchSql
  rw [Program.run_catching, h]

theorem exec_catchSql_of_ne {r : Except Thrown α} (h : exec env p w = (r, w'))
    (hr : ∀ code, r ≠ .error (.sql code)) (handler : Int → Method α) :
    exec env (catchSql p handler) w = (r, w') := by
  unfold exec at h ⊢
  unfold catchSql
  rw [Program.run_catching, h]
  cases r with
  | ok v => rfl
  | error e =>
    cases e with
    | sql code => exact absurd rfl (hr code)
    | invalidArgument => rfl
    | outOfFuel => rfl

end

/-! ## the methods of the pool -/

def DriverCall.Plain : DriverCall → Prop
  | .execute _ _ _ | .executeQuery _ _ _ => False
  | _ => True

/-- actions that run no statement and keep the schema -/
def Act.Plain : Act → Prop
  | .update f => ∀ m, (f m).schema = m.schema
  | .driver call => call.Plain
  | _ => True

/-- the exception behind a result of the connector -/
def thrownBy : Except Int α → Option Thrown
  | .ok _ => none
  | .error code => some (.sql code)

/-- the exception behind a reply -/
def DriverCall.throws : (call : DriverCall) → call.Reply → Option Thrown
  | .getDriverInstance, r => thrownBy r
  | .connectionsCount, r => match r with
    | none => some .invalidArgument
    | some _ => none
  | .connect _ _ _, r => thrownBy r
  | .setSchema _ _, r => thrownBy r
  | .isClosed _, r => thrownBy r
  | .isValid _, r => thrownBy r
  | .close _, r => thrownBy r
  | .delete _, _ => none
  | .createStatement _, r => thrownBy r
  | .execute _ _ _, r => thrownBy r.result
  | .executeQuery _ _ _, r => thrownBy r

variable (rely : (a : Act) → a.Reply → Prop)

abbrev AnyReply : (a : Act) → a.Reply → Prop := fun _ _ => True

/-- an exception, if the method ends with one, was thrown by a call that runs no statement -/
def Raised : Except Thrown α → Prop
  | .ok _ => True
  | .error e => ∃ (call : DriverCall) (r : call.Reply),
      call.Plain ∧ rely (.driver call) r ∧ call.throws r = some e

/-- what the methods of the pool keep to -/
def Tame (p : Method α) : Prop := p.Sat rely Act.Plain (Raised rely)

variable {rely}

theorem tame_pure (v : α) : Tame rely (pure v : Method α) := trivial

theorem Tame.bind {p : Method α} {f : α → Method β} (h : Tame rely p)
    (hf : ∀ v, Tame rely (f v)) : Tame rely (p >>= f) :=
  Program.Sat.bind h (fun v _ => hf v) fun _ he => he

theorem Tame.catching {p : Method α} {f : Thrown → Method α} (h : Tame rely p)
    (hf : ∀ e, Tame rely (f e)) : Tame rely (p.catching f) :=
  Program.Sat.catching h (fun _ _ => trivial) fun e _ => hf e

theorem Tame.catchSql {p : Method α} {f : Int → Method α} (h : Tame rely p)
    (hf : ∀ code, Tame rely (f code)) : Tame rely (catchSql p f) := by
  apply Program.Sat.catching h (fun _ _ => trivial)
  intro e he
  cases e with
  | sql code => exact hf code
  | invalidArgument => exact he
  | outOfFuel => exact he

/-- a method that goes on in spite of what `p` throws, and throws it at its end -/
theorem Tame.ends {p : Method α} {f : Except Thrown α → Method β} (h : Tame rely p)
    (hf : ∀ r, Raised rely r → Tame rely (f r)) : Tame rely (p.ends >>= f) := by
  have he : (p.ends : Method (Except Thrown α)).Sat rely Act.Plain fun r =>
      ∃ v, r = .ok v ∧ Raised rely v :=
    Program.Sat.ends h fun r hr => ⟨r, rfl, hr⟩
  apply Program.Sat.bind he
  · intro v hv
    obtain ⟨v', h', hv'⟩ := hv
    rw [Except.ok.injEq] at h'
    rw [h']
    exact hf v' hv'
  · rintro e ⟨_, h', -⟩
    exact absurd h' (by simp)

theorem tame_act (a : Act) (ha : a.Plain) : Tame rely (act a) := ⟨ha, fun _ _ => trivial⟩

theorem tame_lock : Tame rely lock := tame_act .lock trivial

theorem tame_unlock : Tame rely unlock := tame_act .unlock trivial

theorem tame_members : Tame rely members := tame_act .members trivial

theorem tame_update {f : MysqlWrapper → MysqlWrapper} (hf : ∀ m, (f m).schema = m.schema) :
    Tame rely (update f) := tame_act (.update f) hf

/-- a call of the connector that does not run a statement -/
theorem tame_call (call : DriverCall) (hc : call.Plain) {g : call.Reply → Except Thrown α}
    (hg : ∀ r e, g r = .error e → call.throws r = some e) :
    Tame rely (.step (.driver call) fun r => .done (g r) : Method α) := by
  refine ⟨hc, fun r hr => ?_⟩
  show Raised rely (g r)
  cases he : g r with
  | ok v => trivial
  | error e => exact ⟨call, r, hc, hr, hg r e he⟩

theorem ofSql_eq_error {r : Except Int α} {e : Thrown} (h : ofSql r = .error e) :
    thrownBy r = some e := by
  cases r with
  | ok v => exact absurd h (by simp [ofSql])
  | error code =>
    rw [ofSql, Except.error.injEq] at h
    rw [← h]
    rfl

theorem tame_getDriverInstance : Tame rely getDriverInstance :=
  tame_call .getDriverInstance trivial fun _ _ => ofSql_eq_error

theorem tame_driverConnect (host user password : Bytes) :
    Tame rely (driverConnect host user password) :=
  tame_call (.connect host user password) trivial fun _ _ => ofSql_eq_error

theorem tame_driverSetSchema (conn : Connection) (schema : Bytes) :
    Tame rely (driverSetSchema conn schema) :=
  tame_call (.setSchema conn schema) trivial fun _ _ => ofSql_eq_error

theorem tame_isClosed (conn : Connection) : Tame rely (isClosed conn) :=
  tame_call (.isClosed conn) trivial fun _ _ => ofSql_eq_error

theorem tame_isValid (conn : Connection) : Tame rely (isValid conn) :=
  tame_call (.isValid conn) trivial fun _ _ => ofSql_eq_error

theorem tame_close (conn : Connection) : Tame rely (close conn) :=
  tame_call (.close conn) trivial fun _ _ => ofSql_eq_error

theorem tame_createStatement (conn : Connection) : Tame rely (createStatement conn) :=
  tame_call (.createStatement conn) trivial fun _ _ => ofSql_eq_error

theorem tame_connectionsCount : Tame rely connectionsCount := by
  apply tame_call .connectionsCount trivial
  intro r e he
  cases r with
  | none =>
    rw [Option.elim, Except.error.injEq] at he
    rw [← he]
    rfl
  | some n => exact absurd he (by simp)

theorem tame_delete (conn : Connection) : Tame rely (delete conn) :=
  tame_act (.driver (.delete conn)) trivial

theorem tame_createConnection : Tame rely createConnection := by
  refine tame_members.bind fun m => (tame_driverConnect _ _ _).bind fun conn => ?_
  refine tame_members.bind fun m' => ?_
  split
  · exact tame_pure conn
  · exact (tame_driverSetSchema conn _).bind fun _ => tame_pure conn

theorem tame_closeQuietly (conn : Connection) : Tame rely (closeQuietly conn) := by
  refine Tame.catching ((tame_isClosed conn).bind fun closed => ?_) fun _ => tame_pure ()
  split
  · exact tame_pure ()
  · exact tame_close conn

theorem tame_releaseConnection (pooled : PooledConnection) :
    Tame rely (releaseConnection pooled) := by
  refine tame_lock.bind fun _ => tame_members.bind fun m => ?_
  split
  · exact tame_unlock.bind fun _ => (tame_closeQuietly _).bind fun _ => tame_delete _
  · exact Tame.bind (tame_update fun _ => rfl) fun _ => tame_unlock

theorem tame_awaitConnection : Tame rely awaitConnection := by
  refine tame_members.bind fun m => ?_
  split
  · exact tame_unlock.bind fun _ => tame_lock
  · exact tame_pure ()

theorem tame_takePooled : Tame rely takePooled := by
  refine tame_lock.bind fun _ => tame_awaitConnection.bind fun _ => ?_
  refine tame_members.bind fun m => ?_
  split
  · exact tame_unlock.bind fun _ => tame_pure none
  · next pooled _ =>
    exact Tame.bind (tame_update fun _ => rfl) fun _ =>
      tame_unlock.bind fun _ => tame_pure (some pooled)

theorem tame_freshConnection : Tame rely freshConnection :=
  tame_createConnection.bind fun _ => tame_members.bind fun _ => tame_pure _

theorem tame_usable (conn : Connection) : Tame rely (usable conn) := by
  refine Tame.catchSql ((tame_isClosed conn).bind fun closed => ?_) fun _ => tame_pure false
  refine Tame.bind ?_ fun valid => tame_pure _
  split
  · exact tame_pure false
  · exact tame_isValid conn

theorem tame_getConnection : Tame rely getConnection := by
  refine tame_takePooled.bind fun taken => ?_
  split
  · exact tame_freshConnection
  · next pooled =>
    refine (tame_usable _).bind fun keep => ?_
    split
    · exact tame_pure pooled
    · exact (tame_closeQuietly _).bind fun _ => (tame_delete _).bind fun _ => tame_freshConnection

theorem tame_connectLoop (generation : UInt64) (left : Nat) :
    Tame rely (connectLoop generation left) := by
  induction left with
  | zero => exact tame_pure ()
  | succ left ih =>
    refine Tame.bind (Tame.catchSql ?_ fun _ => tame_pure ()) fun _ => ih
    exact tame_createConnection.bind fun conn => tame_update fun _ => rfl

theorem tame_connect (host login password : Bytes) : Tame rely (connect host login password) := by
  refine Tame.bind (tame_update fun _ => rfl) fun _ => Tame.catchSql ?_ fun _ => tame_pure ()
  refine tame_getDriverInstance.bind fun _ => tame_connectionsCount.bind fun count => ?_
  exact tame_members.bind fun m => tame_connectLoop m.generation count

theorem tame_deleteAll (pool : List PooledConnection) : Tame rely (deleteAll pool) := by
  induction pool with
  | nil => exact tame_pure ()
  | cons pooled rest ih =>
    exact (tame_closeQuietly _).bind fun _ => (tame_delete _).bind fun _ => ih

theorem tame_reconnectLocked : Tame rely reconnectLocked := by
  refine tame_lock.bind fun _ => Tame.bind (tame_update fun _ => rfl) fun _ => ?_
  refine tame_members.bind fun m => (tame_deleteAll _).bind fun _ => ?_
  refine Tame.bind (tame_update fun _ => rfl) fun _ => tame_members.bind fun m' => ?_
  refine (tame_connect _ _ _).ends fun r hr => ?_
  exact tame_unlock.bind fun _ => hr

/-- giving a connection back does not throw -/
theorem closeQuietly_ok (conn : Connection) :
    (closeQuietly conn).Sat rely Act.Plain fun r => r = .ok () := by
  have h : Tame rely (do
      let closed ← isClosed conn
      if closed then return () else close conn : Method Unit) := by
    refine (tame_isClosed conn).bind fun closed => ?_
    split
    · exact tame_pure ()
    · exact tame_close conn
  apply Program.Sat.catching h
  · exact fun _ _ => rfl
  · exact fun _ _ => rfl

theorem releaseConnection_ok (pooled : PooledConnection) :
    (releaseConnection pooled).Sat rely Act.Plain fun r => r = .ok () := by
  refine ⟨trivial, fun _ _ => ⟨trivial, fun m _ => ?_⟩⟩
  show Program.Sat rely Act.Plain _ (if pooled.generation ≠ m.generation then _ else _)
  split
  · refine ⟨trivial, fun _ _ => ?_⟩
    apply Program.Sat.bind (closeQuietly_ok pooled.connection)
    · intro _ _
      exact ⟨trivial, fun _ _ => rfl⟩
    · intro e he
      exact absurd he (by simp)
  · exact ⟨fun _ => rfl, fun _ _ => ⟨trivial, fun _ _ => rfl⟩⟩

/-! ## statements -/

/-- actions that run the statement that the caller passed in -/
def Act.own : Act → Bool
  | .driver (.execute .caller _ _) | .driver (.executeQuery .caller _ _) => true
  | _ => false

def ownCalls (t : List Event) : List Event := t.filter fun e => e.1.own

/-- what `reconnect` does: it runs no statement but those that create the schema -/
def Act.Nested : Act → Prop
  | .driver (.execute origin _ q) => origin = .setSchema ∧ ∃ schema, q = createSchema schema
  | .driver (.executeQuery _ _ _) => False
  | _ => True

theorem Act.Plain.nested {a : Act} (h : a.Plain) : a.Nested := by
  cases a with
  | driver call =>
    cases call with
    | execute _ _ _ => exact absurd h id
    | executeQuery _ _ _ => exact absurd h id
    | _ => trivial
  | _ => trivial

theorem Act.Nested.own {a : Act} (h : a.Nested) : a.own = false := by
  cases a with
  | driver call =>
    cases call with
    | execute origin _ _ =>
      rw [h.1]
      rfl
    | executeQuery _ _ _ => exact absurd h id
    | _ => rfl
  | _ => rfl

/-- the actions of a method are of this kind, whatever it is answered -/
def Within (guar : Act → Prop) (p : Method α) : Prop := p.Sat AnyReply guar fun _ => True

variable {guar : Act → Prop}

theorem Within.bind {p : Method α} {f : α → Method β} (h : Within guar p)
    (hf : ∀ v, Within guar (f v)) : Within guar (p >>= f) :=
  Program.Sat.bind h (fun v _ => hf v) fun _ _ => trivial

theorem Within.catchSql {p : Method α} {f : Int → Method α} (h : Within guar p)
    (hf : ∀ code, Within guar (f code)) : Within guar (catchSql p f) := by
  apply Program.Sat.catching h (fun _ _ => trivial)
  intro e _
  cases e with
  | sql code => exact hf code
  | invalidArgument => trivial
  | outOfFuel => trivial

theorem Within.mono {guar' : Act → Prop} {p : Method α} (h : Within guar p)
    (hguar : ∀ a, guar a → guar' a) : Within guar' p :=
  Program.Sat.mono h (fun _ _ hr => hr) hguar fun _ _ => trivial

theorem Tame.within {p : Method α} (h : Tame AnyReply p)
    (hguar : ∀ a, a.Plain → guar a) : Within guar p :=
  Program.Sat.mono h (fun _ _ hr => hr) hguar fun _ _ => trivial

theorem within_withConnection (hguar : ∀ a, a.Plain → guar a) {body : Connection → Method α}
    (hb : ∀ conn, Within guar (body conn)) : Within guar (withConnection body) := by
  refine (tame_getConnection.within hguar).bind fun pooled => ?_
  have he : Within guar (body pooled.connection).ends := (hb _).ends fun _ _ => trivial
  exact he.bind fun r => ((tame_releaseConnection _).within hguar).bind fun _ => trivial

theorem within_tryQuery (hguar : ∀ a, a.Plain → guar a) {origin : Origin} {q : Bytes}
    (h : ∀ conn, guar (.driver (.execute origin conn q))) : Within guar (tryQuery origin q) := by
  refine within_withConnection hguar fun conn => ?_
  refine ((tame_createStatement conn).within hguar).bind fun _ => ?_
  have he : Within guar (execute origin conn q) := ⟨h conn, fun _ _ => trivial⟩
  exact he.bind fun _ => trivial

theorem within_attempts {q : Bytes → Method Bool} {tryOnce : Method α} (failed : α)
    (hq : Within guar (reconnect q)) (h : Within guar tryOnce) (left : Nat) :
    Within guar (attempts q tryOnce failed left) := by
  induction left with
  | zero => exact trivial
  | succ left ih =>
    refine h.catchSql fun code => ?_
    split
    · exact hq.bind fun _ => ih
    · exact trivial

theorem within_read : Within Act.Nested SchemaRef.member.read :=
  (tame_members.within fun _ => Act.Plain.nested).bind fun _ => trivial

theorem within_setSchemaLoop (pool : List PooledConnection) :
    Within Act.Nested (setSchemaLoop .member pool) := by
  induction pool with
  | nil => exact trivial
  | cons pooled rest ih =>
    refine within_read.bind fun name => ?_
    exact ((tame_driverSetSchema _ name).within fun _ => Act.Plain.nested).bind fun _ => ih

theorem within_reconnect {q : Bytes → Method Bool}
    (hq : ∀ schema, Within Act.Nested (q (createSchema schema))) :
    Within Act.Nested (reconnect q) := by
  have hplain : ∀ a : Act, a.Plain → a.Nested := fun _ => Act.Plain.nested
  refine (tame_reconnectLocked.within hplain).bind fun _ => ?_
  refine (tame_members.within hplain).bind fun m => ?_
  split
  · exact trivial
  · refine Within.catchSql ?_ fun _ => trivial
    refine within_read.bind fun name => (hq name).bind fun _ => ?_
    refine Within.bind (p := SchemaRef.member.assign) trivial fun _ => ?_
    exact (tame_members.within hplain).bind fun m' => within_setSchemaLoop m'.connections

/-- **What a nested call of `query` runs** are statements that create the schema. -/
theorem nested_query (fuel : Nat) (schema : Bytes) :
    Within Act.Nested (query fuel .setSchema (createSchema schema)) := by
  induction fuel generalizing schema with
  | zero => exact trivial
  | succ fuel ih =>
    apply within_attempts false (within_reconnect ih)
    exact within_tryQuery (fun _ => Act.Plain.nested) fun _ => ⟨rfl, schema, rfl⟩

end ServerHttpLib.MysqlWrapper
