import Mathlib.Algebra.BigOperators.Group.Multiset.Basic
import ServerHttpLib.Lib.Runs
import ServerHttpLib.Sql.Wrapper

/-!
# The wrapper and its callers

Any number of operations run at once.  A step of the system starts an operation, performs the next
action of one of them, or ends one that is done.  The actions are atomic, and what a step needs of
the surroundings (that the mutex is free, that the driver does not return a connection twice) is
a condition on the step.

`connect` and the destructor do not lock beside other operations: they are called when no
other operation runs.  In the model `connect` has the mutex from its start to its end for that.

`Hand` and `History` are not part of the program.  They record what an operation has in hand, and
what became of the connections.
-/

namespace ServerHttpLib
open Programs MysqlWrapper Runs

/-! ## operations -/

namespace MysqlWrapper

/-- the loop of the destructor; the connections are those of `_connections`, from the front on -/
def destroyLoop : List PooledConnection → Method Unit
  | [] => return ()
  | pooled :: rest => do
    update fun m => { m with connections := m.connections.drop 1 }
    delete pooled.connection
    destroyLoop rest

def destroy : Method Unit := do
  lock
  let m ← members
  destroyLoop m.connections
  unlock

end MysqlWrapper

/-- what a caller calls; `release` is what the last copy of a `shared_ptr` does -/
inductive Operation
  | connect (host login password : Bytes)
  | setSchema (schema : Bytes)
  | reconnect
  | getConnection
  | query (q : Bytes)
  | queryGet (q : Bytes)
  | release (pooled : PooledConnection)
  | destroy

/-- a method that returns no connection -/
def withoutConnection {α : Type} (p : MysqlWrapper.Method α) :
    MysqlWrapper.Method (Option PooledConnection) := do
  let _ ← p
  return none

/-- `fuel` bounds the depth in which `query`, `reconnect` and `set_schema` call each other -/
def Operation.program (fuel : Nat) : Operation → MysqlWrapper.Method (Option PooledConnection)
  | connect host login password => withoutConnection (MysqlWrapper.connect host login password)
  | setSchema schema =>
    withoutConnection (MysqlWrapper.setSchema (MysqlWrapper.query fuel .setSchema) (.other schema))
  | reconnect => withoutConnection (MysqlWrapper.reconnect (MysqlWrapper.query fuel .setSchema))
  | getConnection => do
    let pooled ← MysqlWrapper.getConnection
    return some pooled
  | query q => withoutConnection (MysqlWrapper.query fuel .caller q)
  | queryGet q => withoutConnection (MysqlWrapper.queryGet fuel .caller q)
  | release pooled => withoutConnection (releaseConnection pooled)
  | destroy => withoutConnection MysqlWrapper.destroy

def Operation.isConnect : Operation → Bool
  | connect _ _ _ => true
  | _ => false

/-! ## what an operation has in hand -/

/-- how far `create_connection` and what follows it are -/
inductive Stage
  | idle
  /-- the driver has returned a connection -/
  | connected (conn : Connection)
  /-- `_schema` is not empty, and `setSchema` comes next -/
  | naming (conn : Connection)
  /-- `create_connection` is done, and the connection has no generation yet -/
  | made (conn : Connection)
  deriving DecidableEq

/-- the connection that `create_connection` has opened -/
def Stage.connection : Stage → Option Connection
  | idle => none
  | connected conn | naming conn | made conn => some conn

/-- what an operation that has the mutex has seen and made of the pool -/
structure Critical where
  pool : List PooledConnection
  generation : UInt64
  /-- what it has deleted -/
  gone : Multiset PooledConnection

structure Hand where
  stage : Stage
  /-- connections with their generation, among them those of the pool if the operation has the
  mutex -/
  own : Multiset PooledConnection
  critical : Option Critical

namespace Hand

def empty : Hand := ⟨.idle, 0, none⟩

def having (pooled : PooledConnection) : Hand := ⟨.idle, {pooled}, none⟩

def havingPool (m : MysqlWrapper) : Hand :=
  ⟨.idle, m.connections, some ⟨m.connections, m.generation, 0⟩⟩

def connections (hand : Hand) : Multiset Connection :=
  hand.own.map (·.connection) + (hand.stage.connection.toList : Multiset Connection)

/-- the connection that was opened has got its generation -/
def tag (hand : Hand) (generation : UInt64) : Hand :=
  match hand.stage with
  | .made conn => { hand with stage := .idle, own := ⟨conn, generation⟩ ::ₘ hand.own }
  | _ => hand

/-- the connection that is to be named goes on to another stage -/
def named (hand : Hand) (stage : Connection → Stage) : Hand :=
  match hand.stage with
  | .naming conn => { hand with stage := stage conn }
  | _ => hand

def drop (hand : Hand) (conn : Connection) : Hand :=
  { hand with
    own := hand.own.filter fun p => p.connection ≠ conn
    critical := hand.critical.map fun c =>
      { c with gone := c.gone + hand.own.filter fun p => p.connection = conn } }

/-- what is in hand behind an action; `m` are the members before it -/
def next (hand : Hand) (m : MysqlWrapper) : (a : Act) → a.Reply → Hand
  | .lock, _ =>
    { hand with
      own := hand.own + (m.connections : Multiset PooledConnection)
      critical := some ⟨m.connections, m.generation, 0⟩ }
  | .unlock, _ =>
    { hand with
      own := hand.own - (m.connections : Multiset PooledConnection)
      critical := none }
  | .members, seen =>
    match hand.stage with
    | .connected conn =>
      { hand with stage := if seen.schema = [] then .made conn else .naming conn }
    | _ => hand.tag seen.generation
  | .update f, _ =>
    { hand.tag m.generation with
      critical := hand.critical.map fun c =>
        { c with pool := (f m).connections, generation := (f m).generation } }
  | .driver (.connect _ _ _), r =>
    match r with
    | .ok conn => { hand with stage := .connected conn }
    | .error _ => hand
  | .driver (.setSchema _ _), r =>
    match r with
    | .ok _ => hand.named .made
    | .error _ => hand.named fun _ => .idle
  | .driver (.delete conn), _ => hand.drop conn
  | .driver _, _ => hand

end Hand

/-- the connections that a caller gives back -/
def Operation.returned : Operation → List PooledConnection
  | release pooled => [pooled]
  | _ => []

/-- what an operation other than `connect` begins with -/
def Operation.given (op : Operation) : Hand := ⟨.idle, op.returned, none⟩

/-! ## what became of the connections -/

structure History where
  /-- the number of times that `_generation` was increased -/
  epoch : Nat
  /-- the value of `epoch` when the mutex was last free -/
  completed : Nat
  /-- the connections that the driver opened, each with the epoch of that -/
  created : List (Connection × Nat)
  deleted : List Connection
  /-- the connections for which `setSchema` threw in `create_connection` -/
  lost : List Connection
  /-- what `setSchema` last set for a connection -/
  session : Connection → Option Bytes

namespace History

def start : History := ⟨0, 0, [], [], [], fun _ => none⟩

/-- the history behind an action; `m` are the members before it -/
def record (h : History) (stage : Stage) (m : MysqlWrapper) : (a : Act) → a.Reply → History
  | .update f, _ => if (f m).generation = m.generation then h else { h with epoch := h.epoch + 1 }
  | .unlock, _ => { h with completed := h.epoch }
  | .driver (.connect _ _ _), r =>
    match r with
    | .ok conn => { h with created := (conn, h.epoch) :: h.created }
    | .error _ => h
  | .driver (.setSchema conn schema), r =>
    match r with
    | .ok _ => { h with session := Function.update h.session conn (some schema) }
    | .error _ => if stage = .naming conn then { h with lost := conn :: h.lost } else h
  | .driver (.delete conn), _ => { h with deleted := conn :: h.deleted }
  | _, _ => h

end History

/-! ## the system -/

structure Running where
  /-- whether it is `connect`, which gives the mutex back at its end -/
  exclusive : Bool
  rest : MysqlWrapper.Method (Option PooledConnection)
  hand : Hand

/-- whether it is between `lock` and `unlock` -/
def Running.hasMutex (op : Running) : Bool := op.hand.critical.isSome

structure System where
  wrapper : MysqlWrapper
  /-- `_mutex` is locked -/
  mutex : Bool
  operations : List Running
  /-- the `shared_ptr`s of the callers -/
  held : List PooledConnection
  destroyed : Bool
  history : History

namespace System

def start : System where
  wrapper := ⟨[], [], [], [], [], 1⟩
  mutex := false
  operations := []
  held := []
  destroyed := false
  history := .start

inductive Label
  | start (op : Operation)
  /-- the next action of the operation with this number, and the answer of the driver to a call -/
  | act (number : Nat) (answer : (call : DriverCall) → call.Reply)
  | finish (number : Nat)

def begin (s : System) (op : Running) : System := { s with operations := op :: s.operations }

def startOperation (fuel : Nat) (s : System) (op : Operation) : Option System :=
  let begun := s.begin ⟨false, op.program fuel, op.given⟩
  if s.destroyed then none
  else match op with
    | .connect _ _ _ =>
      if s.operations = [] then
        some { s.begin ⟨true, op.program fuel, .havingPool s.wrapper⟩ with mutex := true }
      else none
    | .destroy => if s.operations = [] then some { begun with destroyed := true } else none
    | .release pooled =>
      if pooled ∈ s.held then some { begun with held := s.held.erase pooled } else none
    | _ => some begun

/-- the reply to an action -/
def reply (s : System) (answer : (call : DriverCall) → call.Reply) : (a : Act) → a.Reply
  | .lock | .unlock | .update _ => ()
  | .members => s.wrapper
  | .driver call => answer call

/-- the mutex is free, and a new connection is new -/
def possible (s : System) : (a : Act) → a.Reply → Bool
  | .lock, _ => !s.mutex
  | .driver (.connect _ _ _), r =>
    match r with
    | .ok conn => !(s.history.created.map Prod.fst).contains conn
    | .error _ => true
  | _, _ => true

def mutexBehind (mutex : Bool) : Act → Bool
  | .lock => true
  | .unlock => false
  | _ => mutex

/-- the operation with the number `number` performs `a`, which is answered with `r` -/
def actBehind (s : System) (number : Nat) (op : Running) (a : Act) (r : a.Reply)
    (rest : MysqlWrapper.Method (Option PooledConnection)) : System :=
  { s with
    wrapper := a.effect s.wrapper
    mutex := mutexBehind s.mutex a
    operations := s.operations.set number ⟨op.exclusive, rest, op.hand.next s.wrapper a r⟩
    history := s.history.record op.hand.stage s.wrapper a r }

/-- the connections that a result hands out -/
def handedOut : Except Thrown (Option PooledConnection) → List PooledConnection
  | .ok (some pooled) => [pooled]
  | _ => []

/-- the operation with the number `number` ends with `r` -/
def finishBehind (s : System) (number : Nat) (exclusive : Bool)
    (r : Except Thrown (Option PooledConnection)) : System :=
  { s with
    operations := s.operations.eraseIdx number
    held := handedOut r ++ s.held
    mutex := s.mutex && !exclusive
    history := if exclusive then { s.history with completed := s.history.epoch } else s.history }

def step (fuel : Nat) (s : System) : Label → Option System
  | .start op => startOperation fuel s op
  | .act number answer =>
    match s.operations[number]? with
    | some ⟨exclusive, .step a k, hand⟩ =>
      if s.possible a (s.reply answer a) then
        some (s.actBehind number ⟨exclusive, .step a k, hand⟩ a (s.reply answer a)
          (k (s.reply answer a)))
      else none
    | _ => none
  | .finish number =>
    match s.operations[number]? with
    | some ⟨exclusive, .done r, _⟩ => some (s.finishBehind number exclusive r)
    | _ => none

/-! ## what a step can be -/

section
variable {fuel : Nat} {s s' : System}

theorem startOperation_cases {op : Operation} (h : startOperation fuel s op = some s') :
    (∃ host login password, op = .connect host login password ∧ s.operations = [] ∧
      s' = { s.begin ⟨true, op.program fuel, .havingPool s.wrapper⟩ with mutex := true }) ∨
    (op.isConnect = false ∧ ∃ held destroyed, s.held.Perm (op.returned ++ held) ∧
      s' = { s.begin ⟨false, op.program fuel, op.given⟩ with
        held := held, destroyed := destroyed }) := by
  unfold startOperation at h
  split at h
  · exact absurd h (by simp)
  cases op with
  | connect host login password =>
    dsimp only at h
    split at h
    · next hn => exact .inl ⟨host, login, password, rfl, hn, (Option.some.inj h).symm⟩
    · exact absurd h (by simp)
  | destroy =>
    dsimp only at h
    split at h
    · exact .inr ⟨rfl, s.held, true, List.Perm.refl _, (Option.some.inj h).symm⟩
    · exact absurd h (by simp)
  | release pooled =>
    dsimp only at h
    split at h
    · next hm =>
      exact .inr ⟨rfl, s.held.erase pooled, s.destroyed, List.perm_cons_erase hm,
        (Option.some.inj h).symm⟩
    · exact absurd h (by simp)
  | _ => exact .inr ⟨rfl, s.held, s.destroyed, List.Perm.refl _, (Option.some.inj h).symm⟩

theorem step_act {number : Nat} {answer : (call : DriverCall) → call.Reply}
    (h : step fuel s (.act number answer) = some s') : ∃ exclusive a k hand,
      s.operations[number]? = some ⟨exclusive, .step a k, hand⟩ ∧
      s.possible a (s.reply answer a) = true ∧
      s' = s.actBehind number ⟨exclusive, .step a k, hand⟩ a (s.reply answer a)
        (k (s.reply answer a)) := by
  rw [step] at h
  split at h
  · next exclusive a k hand hop =>
    split at h
    · next hposs => exact ⟨exclusive, a, k, hand, hop, hposs, (Option.some.inj h).symm⟩
    · exact absurd h (by simp)
  · exact absurd h (by simp)

theorem step_finish {number : Nat} (h : step fuel s (.finish number) = some s') :
    ∃ exclusive r hand, s.operations[number]? = some ⟨exclusive, .done r, hand⟩ ∧
      s' = s.finishBehind number exclusive r := by
  rw [step] at h
  split at h
  · next exclusive r hand hop => exact ⟨exclusive, r, hand, hop, (Option.some.inj h).symm⟩
  · exact absurd h (by simp)

end

/-- a driver whose calls succeed, apart from those that are given -/
def driverAnswers (connect : Except Int Connection) (setSchema : Except Int Unit) :
    (call : DriverCall) → call.Reply
  | .getDriverInstance | .close _ | .createStatement _ => .ok ()
  | .connectionsCount => some 0
  | .connect _ _ _ => connect
  | .setSchema _ _ => setSchema
  | .isClosed _ => .ok false
  | .isValid _ => .ok true
  | .delete _ => ()
  | .execute _ _ _ => .acknowledged
  | .executeQuery _ _ _ => .ok []

/-- an operation from its start to its end, `n` actions with the same answers -/
def oneOperation (op : Operation) (n : Nat) (answer : (call : DriverCall) → call.Reply) :
    List Label :=
  .start op :: List.replicate n (.act 0 answer) ++ [.finish 0]

/-- the schema is set while the server cannot be reached -/
def setRun : List Label :=
  oneOperation (.setSchema (str "a")) 10 (driverAnswers (.error 2003) (.ok ()))

def configured : System := { start with wrapper := ⟨[], [], [], str "a", [], 1⟩ }

theorem setRun_configured : runs (step 1) start setRun = some configured := rfl

def oneCaller : List Label := oneOperation .getConnection 10 (driverAnswers (.ok 1) (.ok ()))

def lent : System :=
  { start with
    held := [⟨1, 1⟩]
    history := ⟨0, 0, [(1, 0)], [], [], fun _ => none⟩ }

theorem oneCaller_lent (fuel : Nat) : runs (step fuel) start oneCaller = some lent := rfl

end System

end ServerHttpLib
