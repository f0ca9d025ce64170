import ServerHttpLib.Http.Utils
import ServerHttpLib.Sql.BuildQuery
import ServerHttpLib.Sql.Wrapper

/-!
# Tables, columns and indexes (`MysqlWrapper::create_table`, `create_index`)

These methods reach the server only through `query` and `query_get`, which are their requests here:
`query` returns whether the statement succeeded, `query_get` the rows or a null pointer.
-/

namespace ServerHttpLib
open Programs

namespace Tables

/-- `getString(n)`; the columns are counted from 1 -/
def getString (row : List Bytes) (n : Nat) : Bytes := row.getD (n - 1) []

inductive Request
  | query (query : Bytes)
  | queryGet (query : Bytes)

def Request.Reply : Request → Type
  | query _ => Bool
  | queryGet _ => Option ResultSet

inductive Failure
  /-- a `sql::SQLException` with this message -/
  | sqlException (what : Bytes)
  /-- `next()` is called on a null pointer -/
  | nullResult
  deriving DecidableEq

abbrev Task (α : Type) := Program Request.Reply Failure α

def query (q : Bytes) : Task Bool := .step (.query q) fun r => .done (.ok r)

def queryGet (q : Bytes) : Task (Option ResultSet) := .step (.queryGet q) fun r => .done (.ok r)

def throw {α : Type} (what : Bytes) : Task α := .done (.error (.sqlException what))

/-- the rows that a loop over `result->next()` visits -/
def rowsOf : Option ResultSet → Task ResultSet
  | some rows => return rows
  | none => .done (.error .nullResult)

/-! ## tables -/

def showTables (schema : Bytes) : Bytes := str "SHOW TABLES FROM " ++ schema

def hasTable (schema tableName : Bytes) : Task Bool := do
  let result ← queryGet (showTables schema)
  let rows ← rowsOf result
  return rows.any fun row => getString row 1 = tableName

/-- the loop of `create_table` over the pieces of the script -/
def runQueries (schema table : Bytes) : List Bytes → Task Unit
  | [] => return ()
  | q :: queries =>
    if strip q = [] then runQueries schema table queries
    else do
      let _ ← query (buildQuery (strip q) [schema, table])
      runQueries schema table queries

def createTable (schema table source : Bytes) : Task Unit := do
  let tableExists ← hasTable schema table
  if tableExists then return ()
  else runQueries schema table (split source (ch ';'))

/-! ## columns -/

def countColumns (schema table column : Bytes) : Bytes :=
  buildQuery (str "SELECT COUNT(*) AS cnt FROM information_schema.COLUMNS WHERE "
      ++ str "TABLE_SCHEMA = '$0' AND TABLE_NAME = '$1' AND COLUMN_NAME = '$2'")
    [schema, table, column]

/-- a statement without the backslashes before its quotes -/
def unquoted (source : Bytes) : Bytes := replaceText source [backslash, dquote] [dquote]

/-- `getInt row n` is what the connector reads as a number -/
def alterTableAddColumn (getInt : List Bytes → Nat → Int)
    (schema table column columnType : Bytes) : Task Unit := do
  let tableExist ← hasTable schema table
  if !tableExist then
    throw (str "table " ++ schema ++ str "." ++ table
      ++ str "not exist. Cannot add column:" ++ column)
  else do
    let result ← queryGet (countColumns schema table column)
    let rows ← rowsOf result
    if rows.any fun row => 0 < getInt row 1 then return ()
    else do
      let added ← query (unquoted (buildQuery (str "ALTER TABLE $0.$1 ADD COLUMN $2 $3;")
        [schema, table, column, columnType]))
      if !added then
        throw (str "Cannot add column " ++ column ++ str " to table " ++ schema ++ str "."
          ++ table)
      else return ()

def columnTypes (schema table column : Bytes) : Bytes :=
  buildQuery (str "SELECT COLUMN_NAME, COLUMN_TYPE\n      FROM INFORMATION_SCHEMA.COLUMNS\n"
      ++ str "      WHERE TABLE_SCHEMA = '$0'\n        AND TABLE_NAME = '$1'\n"
      ++ str "        AND COLUMN_NAME = '$2'")
    [schema, table, column]

/-- the loop over `result && result->next()`: a null pointer has no rows -/
def alterTableChangeColumn (schema table column columnType : Bytes) : Task Unit := do
  let result ← queryGet (columnTypes schema table column)
  let rows := result.getD []
  if rows.any fun row => getString row 1 = column && getString row 2 = columnType then return ()
  else do
    let _ ← query (unquoted (buildQuery (str "ALTER TABLE $0.$1 MODIFY COLUMN $2 $3")
      [schema, table, column, columnType]))
    return ()

/-! ## indexes -/

def showIndex (schema table : Bytes) : Bytes :=
  buildQuery (str "SHOW INDEX FROM `$1` FROM `$0`") [schema, table]

def hasIndex (schema table index : Bytes) : Task Bool := do
  let tableExists ← hasTable schema table
  if !tableExists then return false
  else do
    let result ← queryGet (showIndex schema table)
    let rows ← rowsOf result
    return rows.any fun row => getString row 3 = index

/-- the statement of `create_index` without a `source` -/
def defaultIndex (schema table index : Bytes) : Bytes :=
  buildQuery (str "CREATE INDEX idx_$2 ON $0.$1 ($2);") [schema, table, index]

def createIndex (schema table index source : Bytes) : Task Unit := do
  let tableExists ← hasTable schema table
  if !tableExists then
    throw (str "table " ++ schema ++ str "." ++ table
      ++ str " not exist. Cannot create index with query: " ++ source)
  else do
    let found ← hasIndex schema table index
    if found then return ()
    else do
      let created ← query (if source = [] then defaultIndex schema table index else source)
      if !created then
        throw (str "Cannot create index " ++ index ++ str " on table " ++ schema ++ str "."
          ++ table)
      else return ()

end Tables

end ServerHttpLib
