import ServerHttpLib.Http.Bytes
import ServerHttpLib.Lib.Program

/-!
# The pool of MySQL connections (`MysqlWrapper`)

A method is a program whose actions are the accesses to the members, the mutex and the calls of
the connector.  Every call of the connector may throw a `sql::SQLException`, of which the code of
the error is kept.  `notify_one` and `notify_all` are left out: they only wake threads up, and
a thread that waits may go on at any time in the model.  The destructor of a statement, the log
and `test_connection` are left out, too.

`query`, `reconnect` and `set_schema` call each other.  The model bounds the depth of these calls;
it says so by an exception of its own (`outOfFuel`) when the bound is reached.
-/

namespace ServerHttpLib
open Programs

abbrev Connection := Nat

structure PooledConnection where
  connection : Connection
  generation : UInt64
  deriving DecidableEq

structure MysqlWrapper where
  host : Bytes
  user : Bytes
  password : Bytes
  schema : Bytes
  connections : List PooledConnection
  generation : UInt64

abbrev ResultSet := List (List Bytes)

namespace MysqlWrapper

/-! ## errors -/

inductive MySqlErrorCode
  | serverGone
  | serverLost
  | inactivityTimeout
  | timedOut

def MySqlErrorCode.toInt : MySqlErrorCode → Int
  | serverGone => 2006
  | serverLost => 2013
  | inactivityTimeout => 4031
  | timedOut => 2001

def shouldRetry (code : Int) : Bool :=
  code = MySqlErrorCode.serverLost.toInt || code = MySqlErrorCode.serverGone.toInt
    || code = MySqlErrorCode.timedOut.toInt || code = MySqlErrorCode.inactivityTimeout.toInt

inductive Thrown
  /-- a `sql::SQLException` with this code -/
  | sql (code : Int)
  /-- `std::stoi` found no number -/
  | invalidArgument
  /-- the bound on the depth of calls is reached -/
  | outOfFuel
  deriving DecidableEq

/-- the codes that the connector reports when the connection is lost before the reply -/
def LossCode := { code : Int // code = 2013 ∨ code = 2006 }

/-- what becomes of a statement -/
inductive ExecuteOutcome
  /-- it is applied and acknowledged -/
  | acknowledged
  /-- it is not applied -/
  | failed (code : Int)
  /-- it is applied, and the reply is lost -/
  | lost (code : LossCode)

namespace ExecuteOutcome

def applied : ExecuteOutcome → Bool
  | acknowledged | lost _ => true
  | failed _ => false

/-- what `execute` returns or throws -/
def result : ExecuteOutcome → Except Int Unit
  | acknowledged => .ok ()
  | failed code => .error code
  | lost code => .error code.1

end ExecuteOutcome

/-! ## actions -/

/-- who passed a statement to `query` or `query_get` -/
inductive Origin
  | caller
  | setSchema
  deriving DecidableEq

/-- calls that leave the wrapper -/
inductive DriverCall
  | getDriverInstance
  /-- the number in `MYSQL_CONN`, or `hardware_concurrency` if the variable is not set -/
  | connectionsCount
  | connect (host user password : Bytes)
  | setSchema (conn : Connection) (schema : Bytes)
  | isClosed (conn : Connection)
  | isValid (conn : Connection)
  | close (conn : Connection)
  | delete (conn : Connection)
  | createStatement (conn : Connection)
  | execute (origin : Origin) (conn : Connection) (query : Bytes)
  | executeQuery (origin : Origin) (conn : Connection) (query : Bytes)

def DriverCall.Reply : DriverCall → Type
  | getDriverInstance | setSchema _ _ | close _ | createStatement _ => Except Int Unit
  | connectionsCount => Option Nat
  | connect _ _ _ => Except Int Connection
  | isClosed _ | isValid _ => Except Int Bool
  | delete _ => Unit
  | execute _ _ _ => ExecuteOutcome
  | executeQuery _ _ _ => Except Int ResultSet

inductive Act
  | lock
  | unlock
  | members
  | update (f : MysqlWrapper → MysqlWrapper)
  | driver (call : DriverCall)

def Act.Reply : Act → Type
  | lock | unlock | update _ => Unit
  | members => MysqlWrapper
  | driver call => call.Reply

abbrev Method (α : Type) := Program Act.Reply Thrown α

variable {α : Type}

def act (a : Act) : Method a.Reply := .step a fun r => .done (.ok r)

def ofSql : Except Int α → Except Thrown α
  | .ok v => .ok v
  | .error code => .error (.sql code)

def lock : Method Unit := act .lock

def unlock : Method Unit := act .unlock

def members : Method MysqlWrapper := act .members

def update (f : MysqlWrapper → MysqlWrapper) : Method Unit := act (.update f)

def getDriverInstance : Method Unit := .step (.driver .getDriverInstance) fun r => .done (ofSql r)

def driverConnect (host user password : Bytes) : Method Connection :=
  .step (.driver (.connect host user password)) fun r => .done (ofSql r)

def driverSetSchema (conn : Connection) (schema : Bytes) : Method Unit :=
  .step (.driver (.setSchema conn schema)) fun r => .done (ofSql r)

def isClosed (conn : Connection) : Method Bool :=
  .step (.driver (.isClosed conn)) fun r => .done (ofSql r)

def isValid (conn : Connection) : Method Bool :=
  .step (.driver (.isValid conn)) fun r => .done (ofSql r)

def close (conn : Connection) : Method Unit :=
  .step (.driver (.close conn)) fun r => .done (ofSql r)

def delete (conn : Connection) : Method Unit := act (.driver (.delete conn))

def createStatement (conn : Connection) : Method Unit :=
  .step (.driver (.createStatement conn)) fun r => .done (ofSql r)

def execute (origin : Origin) (conn : Connection) (query : Bytes) : Method Unit :=
  .step (.driver (.execute origin conn query)) fun r => .done (ofSql r.result)

def executeQuery (origin : Origin) (conn : Connection) (query : Bytes) : Method ResultSet :=
  .step (.driver (.executeQuery origin conn query)) fun r => .done (ofSql r)

def catchSql (p : Method α) (handler : Int → Method α) : Method α :=
  p.catching fun
    | .sql code => handler code
    | e => .done (.error e)

/-! ## connections -/

def shouldReplaceConnection (isClosed isValid : Bool) : Bool := isClosed || !isValid

def createConnection : Method Connection := do
  let m ← members
  let connection ← driverConnect m.host m.user m.password
  let m ← members
  if m.schema = [] then return connection
  else do
    driverSetSchema connection m.schema
    return connection

/-- closes a connection that is not closed and ignores what is thrown -/
def closeQuietly (conn : Connection) : Method Unit :=
  Program.catching
    (do
      let closed ← isClosed conn
      if closed then return () else close conn)
    fun _ => return ()

def releaseConnection (pooled : PooledConnection) : Method Unit := do
  lock
  let m ← members
  if pooled.generation ≠ m.generation then do
    unlock
    closeQuietly pooled.connection
    delete pooled.connection
  else do
    update fun m => { m with connections := m.connections ++ [pooled] }
    unlock

/-- `wait_for`: the mutex is free while the pool is empty, at most for five seconds -/
def awaitConnection : Method Unit := do
  let m ← members
  if m.connections = [] then do
    unlock
    lock
  else return ()

/-- the connection at the back of the pool, if there is one behind the wait -/
def takePooled : Method (Option PooledConnection) := do
  lock
  awaitConnection
  let m ← members
  match m.connections.getLast? with
  | none => do
    unlock
    return none
  | some pooled => do
    update fun m => { m with connections := m.connections.dropLast }
    unlock
    return some pooled

/-- a new connection with the generation that it is released with -/
def freshConnection : Method PooledConnection := do
  let connection ← createConnection
  let m ← members
  return ⟨connection, m.generation⟩

/-- whether a connection from the pool can be used -/
def usable (conn : Connection) : Method Bool :=
  catchSql
    (do
      let closed ← isClosed conn
      let valid ← (if closed then pure false else isValid conn : Method Bool)
      return !shouldReplaceConnection closed valid)
    fun _ => return false

def getConnection : Method PooledConnection := do
  let taken ← takePooled
  match taken with
  | none => freshConnection
  | some pooled => do
    let keep ← usable pooled.connection
    if keep then return pooled
    else do
      closeQuietly pooled.connection
      delete pooled.connection
      freshConnection

/-- the scope of `conn`: the deleter of the pointer runs on every way out -/
def withConnection (body : Connection → Method α) : Method α := do
  let pooled ← getConnection
  let r ← (body pooled.connection).ends
  releaseConnection pooled
  .done r

/-! ## `connect` and `reconnect` -/

def connectionsCount : Method Nat :=
  .step (.driver .connectionsCount) fun r => .done (r.elim (.error .invalidArgument) .ok)

/-- the loop over `i`; `left` connections are left -/
def connectLoop (generation : UInt64) : Nat → Method Unit
  | 0 => return ()
  | left + 1 => do
    catchSql
      (do
        let conn ← createConnection
        update fun m => { m with connections := m.connections ++ [⟨conn, generation⟩] })
      fun _ => return ()
    connectLoop generation left

def connect (host login password : Bytes) : Method Unit := do
  update fun m => { m with host := host, user := login, password := password }
  catchSql
    (do
      getDriverInstance
      let count ← connectionsCount
      let m ← members
      connectLoop m.generation count)
    fun _ => return ()

def deleteAll : List PooledConnection → Method Unit
  | [] => return ()
  | pooled :: rest => do
    closeQuietly pooled.connection
    delete pooled.connection
    deleteAll rest

/-- the part of `reconnect` that holds the mutex, which is released on every way out -/
def reconnectLocked : Method Unit := do
  lock
  update fun m => { m with generation := m.generation + 1 }
  let m ← members
  deleteAll m.connections
  update fun m => { m with connections := [] }
  let m ← members
  let r ← (connect m.host m.user m.password).ends
  unlock
  .done r

/-! ## schema and statements -/

/-- the parameter of `set_schema`, which `reconnect` passes `_schema` itself -/
inductive SchemaRef
  | member
  | other (schema : Bytes)

namespace SchemaRef

def read : SchemaRef → Method Bytes
  | member => do
    let m ← members
    return m.schema
  | other schema => return schema

def assign : SchemaRef → Method Unit
  | member => return ()
  | other schema => update fun m => { m with schema := schema }

end SchemaRef

def createSchema (schema : Bytes) : Bytes := str "CREATE SCHEMA IF NOT EXISTS " ++ schema

def setSchemaLoop (schema : SchemaRef) : List PooledConnection → Method Unit
  | [] => return ()
  | pooled :: rest => do
    let name ← schema.read
    driverSetSchema pooled.connection name
    setSchemaLoop schema rest

section
variable (query : Bytes → Method Bool)

def setSchema (schema : SchemaRef) : Method Unit :=
  catchSql
    (do
      let name ← schema.read
      let _ ← query (createSchema name)
      schema.assign
      let m ← members
      setSchemaLoop schema m.connections)
    fun _ => return ()

def reconnect : Method Unit := do
  reconnectLocked
  let m ← members
  if m.schema = [] then return () else setSchema query .member

/-- the loop over `attempt`; `left` attempts are left, and `attempt == 0` if these are two -/
def attempts (tryOnce : Method α) (failed : α) : Nat → Method α
  | 0 => return failed
  | left + 1 => catchSql tryOnce fun code =>
      if left + 1 = 2 ∧ shouldRetry code = true then do
        reconnect query
        attempts tryOnce failed left
      else return failed

end

def tryQuery (origin : Origin) (q : Bytes) : Method Bool :=
  withConnection fun conn => do
    createStatement conn
    execute origin conn q
    return true

def tryQueryGet (origin : Origin) (q : Bytes) : Method (Option ResultSet) :=
  withConnection fun conn => do
    createStatement conn
    let res ← executeQuery origin conn q
    return some res

def query : Nat → Origin → Bytes → Method Bool
  | 0, _, _ => .done (.error .outOfFuel)
  | fuel + 1, origin, q => attempts (query fuel .setSchema) (tryQuery origin q) false 2

def queryGet (fuel : Nat) (origin : Origin) (q : Bytes) : Method (Option ResultSet) :=
  attempts (query fuel .setSchema) (tryQueryGet origin q) none 2

/-! ## the surroundings of a call -/

/-- what happens around one call, step by step -/
structure Environment where
  /-- what other callers did to the members right before an action -/
  others : Nat → MysqlWrapper → MysqlWrapper
  /-- how a call of the connector is answered -/
  driver : Nat → (call : DriverCall) → call.Reply

abbrev Event := (a : Act) × a.Reply

structure World where
  wrapper : MysqlWrapper
  /-- the actions so far, each with its reply -/
  trace : List Event

def Act.effect : Act → MysqlWrapper → MysqlWrapper
  | update f, m => f m
  | _, m => m

def Environment.reply (env : Environment) (n : Nat) (m : MysqlWrapper) : (a : Act) → a.Reply
  | .lock | .unlock | .update _ => ()
  | .members => m
  | .driver call => env.driver n call

/-- The other callers may do anything to the members between two actions, also while the call holds
the mutex; what they can really do is part of that. -/
def perform (env : Environment) (a : Act) (w : World) : a.Reply × World :=
  let n := w.trace.length
  let m := env.others n w.wrapper
  let r := env.reply n m a
  (r, ⟨a.effect m, w.trace ++ [⟨a, r⟩]⟩)

/-- what a method returns or throws, and the world behind it -/
def exec (env : Environment) (p : Method α) (w : World) : Except Thrown α × World :=
  p.run (perform env) w

def start (m : MysqlWrapper) : World := ⟨m, []⟩

end MysqlWrapper

end ServerHttpLib
