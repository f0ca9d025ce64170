import ServerHttpLib.Sql.Tables

/-!
# Null results

`query_get` returns a null pointer if the statement fails.  Of the methods on tables, columns and
indexes only `alter_table_change_column` looks at the pointer before it calls `next()` on it.

* `hasTable_safe_iff`, `hasIndex_safe_iff`   the two checks, with which the other methods begin, and
                                             what follows them;
* `nullSafe_iff`                             a method calls `next()` on no null pointer exactly if
                                             the requests whose results it trusts are answered.
-/

namespace ServerHttpLib
namespace Tables
open Programs

/-! ## the server as a sequence of outcomes -/

structure Outcomes where
  queryGet : Nat → Option ResultSet
  query : Nat → Bool

namespace Outcomes

/-- the state counts the calls of both -/
def perform (o : Outcomes) (a : Request) (s : Nat × Nat) : a.Reply × (Nat × Nat) :=
  match a with
  | .query _ => (o.query s.2, (s.1, s.2 + 1))
  | .queryGet _ => (o.queryGet s.1, (s.1 + 1, s.2))

end Outcomes

def listed (rows : ResultSet) (table : Bytes) : Bool :=
  rows.any fun row => getString row 1 = table

inductive Call
  | hasTable (schema table : Bytes)
  | createTable (schema table source : Bytes)
  | alterTableAddColumn (schema table column columnType : Bytes)
  | alterTableChangeColumn (schema table column columnType : Bytes)
  | hasIndex (schema table index : Bytes)
  | createIndex (schema table index source : Bytes)

def Call.task (getInt : List Bytes → Nat → Int) : Call → Task Unit
  | hasTable schema table => do
    let _ ← Tables.hasTable schema table
    return ()
  | createTable schema table source => Tables.createTable schema table source
  | alterTableAddColumn schema table column columnType =>
    Tables.alterTableAddColumn getInt schema table column columnType
  | alterTableChangeColumn schema table column columnType =>
    Tables.alterTableChangeColumn schema table column columnType
  | hasIndex schema table index => do
    let _ ← Tables.hasIndex schema table index
    return ()
  | createIndex schema table index source => Tables.createIndex schema table index source

/-- **No null result is dereferenced**: the call returns or throws a `sql::SQLException` -/
def NullSafe (getInt : List Bytes → Nat → Int) (o : Outcomes) (call : Call) : Prop :=
  ((call.task getInt).run o.perform (0, 0)).1 = .ok () ∨
    ∃ what, ((call.task getInt).run o.perform (0, 0)).1 = .error (.sqlException what)

/-- from its `i`-th call on, `query_get` returns a result `n` times as long as the table is in it,
and then once more -/
def Outcomes.Answered (o : Outcomes) (table : Bytes) : Nat → Nat → Prop
  | 0, i => o.queryGet i ≠ none
  | n + 1, i => ∃ rows, o.queryGet i = some rows ∧
    (listed rows table = true → o.Answered table n (i + 1))

/-- the results that the method does not look at before it uses them -/
def Call.Answered (o : Outcomes) : Call → Prop
  | hasTable _ table => o.Answered table 0 0
  | createTable _ table _ => o.Answered table 0 0
  | alterTableAddColumn _ table _ _ => o.Answered table 1 0
  | alterTableChangeColumn _ _ _ _ => True
  | hasIndex _ table _ => o.Answered table 1 0
  | createIndex _ table _ _ => o.Answered table 2 0

/-! ## runs -/

section
variable (o : Outcomes) (schema table : Bytes) (s : Nat × Nat)

theorem queryGet_run (q : Bytes) :
    (queryGet q).run o.perform s = (.ok (o.queryGet s.1), (s.1 + 1, s.2)) := rfl

theorem query_run (q : Bytes) :
    (query q).run o.perform s = (.ok (o.query s.2), (s.1, s.2 + 1)) := rfl

/-- the loops that call `next()` without a look at the pointer -/
theorem rowsOf_run (result : Option ResultSet) : (rowsOf result).run o.perform s
    = (match result with
        | some rows => .ok rows
        | none => .error .nullResult, s) := by
  cases result <;> rfl

theorem hasTable_run_none (h : o.queryGet s.1 = none) :
    (hasTable schema table).run o.perform s = (.error .nullResult, (s.1 + 1, s.2)) := by
  simp only [hasTable, Program.run_bind, queryGet_run, h, rowsOf_run]

theorem hasTable_run_some {rows : ResultSet} (h : o.queryGet s.1 = some rows) :
    (hasTable schema table).run o.perform s = (.ok (listed rows table), (s.1 + 1, s.2)) := by
  simp only [hasTable, Program.run_bind, queryGet_run, h, rowsOf_run]
  rfl

end

/-! ## what a method does to a null result -/

/-- the end of a run: it is not `next()` on a null pointer -/
def Safe {α : Type} : Except Failure α → Prop
  | .error .nullResult => False
  | _ => True

theorem safe_unit_iff (r : Except Failure Unit) :
    Safe r ↔ r = .ok () ∨ ∃ what, r = .error (.sqlException what) := by
  cases r with
  | ok v => exact ⟨fun _ => Or.inl rfl, fun _ => trivial⟩
  | error e =>
    cases e with
    | sqlException what => exact ⟨fun _ => Or.inr ⟨what, rfl⟩, fun _ => trivial⟩
    | nullResult =>
      refine ⟨False.elim, ?_⟩
      rintro (h | ⟨what, h⟩) <;> exact absurd h (by simp)

section
variable {o : Outcomes} {s : Nat × Nat}

theorem query_safe {α : Type} (q : Bytes) {f : Bool → Task α}
    (h : ∀ b s', Safe ((f b).run o.perform s').1) : Safe ((query q >>= f).run o.perform s).1 := by
  rw [Program.run_bind, query_run]
  exact h _ _

theorem runQueries_safe (schema table : Bytes) (queries : List Bytes) :
    Safe ((runQueries schema table queries).run o.perform s).1 := by
  induction queries generalizing s with
  | nil => trivial
  | cons q queries ih =>
    unfold runQueries
    split
    · exact ih
    · exact query_safe _ fun _ s' => ih

/-- a loop over a result whose pointer is not looked at -/
theorem result_safe_iff {α : Type} (q : Bytes) {f : ResultSet → Task α}
    (h : ∀ rows s', Safe ((f rows).run o.perform s').1) :
    Safe ((queryGet q >>= fun result => rowsOf result >>= f).run o.perform s).1
      ↔ o.queryGet s.1 ≠ none := by
  rw [Program.run_bind, queryGet_run]
  show Safe ((rowsOf (o.queryGet s.1) >>= f).run o.perform (s.1 + 1, s.2)).1 ↔ _
  rw [Program.run_bind, rowsOf_run]
  cases o.queryGet s.1 with
  | none => exact ⟨False.elim, fun h' => absurd rfl h'⟩
  | some rows => exact ⟨fun _ => by simp, fun _ => h rows _⟩

theorem hasTable_safe_iff {α : Type} (schema table : Bytes) {f : Bool → Task α} (n : Nat)
    (hmissing : ∀ s', Safe ((f false).run o.perform s').1)
    (hlisted : Safe ((f true).run o.perform (s.1 + 1, s.2)).1 ↔ o.Answered table n (s.1 + 1)) :
    Safe ((hasTable schema table >>= f).run o.perform s).1 ↔ o.Answered table (n + 1) s.1 := by
  rw [Program.run_bind, Outcomes.Answered]
  cases hq : o.queryGet s.1 with
  | none =>
    rw [hasTable_run_none o schema table s hq]
    refine ⟨False.elim, ?_⟩
    rintro ⟨rows, hrows, _⟩
    exact absurd hrows (by simp)
  | some rows =>
    rw [hasTable_run_some o schema table s hq]
    show Safe ((f (listed rows table)).run o.perform (s.1 + 1, s.2)).1 ↔ _
    cases hl : listed rows table with
    | false =>
      refine ⟨fun _ => ⟨rows, rfl, fun h => ?_⟩, fun _ => hmissing _⟩
      rw [hl] at h
      exact absurd h (by simp)
    | true =>
      rw [hlisted]
      constructor
      · exact fun h => ⟨rows, rfl, fun _ => h⟩
      · rintro ⟨rows', hrows', h⟩
        rw [Option.some.injEq] at hrows'
        exact h (hrows' ▸ hl)

theorem hasIndex_safe_iff {α : Type} (schema table index : Bytes) {f : Bool → Task α}
    (h : ∀ b s', Safe ((f b).run o.perform s').1) :
    Safe ((hasIndex schema table index >>= f).run o.perform s).1 ↔ o.Answered table 1 s.1 := by
  rw [hasIndex, Program.bind_assoc]
  refine hasTable_safe_iff schema table 0 (fun s' => h false s') ?_
  show Safe (Program.run o.perform (((queryGet (showIndex schema table)) >>= fun result =>
    rowsOf result >>= fun rows => return rows.any fun row => getString row 3 = index) >>= f) _).1
    ↔ _
  simp only [Program.bind_assoc]
  exact result_safe_iff (s := (s.1 + 1, s.2)) _ fun rows s' => h _ s'

end

/-! ## the methods -/

section
variable (o : Outcomes)

theorem createTable_safe_iff (schema table source : Bytes) :
    Safe ((createTable schema table source).run o.perform (0, 0)).1 ↔ o.Answered table 0 0 := by
  have hrows : ∀ b s', Safe (Program.run o.perform
      (if b = true then (return () : Task Unit)
        else runQueries schema table (split source (ch ';'))) s').1 := by
    intro b s'
    cases b with
    | false => exact runQueries_safe schema table _
    | true => trivial
  rw [createTable, hasTable, Program.bind_assoc]
  simp only [Program.bind_assoc]
  exact result_safe_iff (s := (0, 0)) _ fun rows s' => hrows (listed rows table) s'

theorem alterTableAddColumn_safe_iff (getInt : List Bytes → Nat → Int)
    (schema table column columnType : Bytes) :
    Safe ((alterTableAddColumn getInt schema table column columnType).run o.perform (0, 0)).1
      ↔ o.Answered table 1 0 := by
  refine hasTable_safe_iff schema table 0 (fun s' => trivial) ?_
  refine result_safe_iff (s := (1, 0)) _ fun rows s' => ?_
  split
  · trivial
  · refine query_safe _ fun b s'' => ?_
    cases b <;> trivial

theorem alterTableChangeColumn_safe (schema table column columnType : Bytes) :
    Safe ((alterTableChangeColumn schema table column columnType).run o.perform (0, 0)).1 := by
  rw [alterTableChangeColumn, Program.run_bind, queryGet_run]
  dsimp only
  split
  · trivial
  · exact query_safe _ fun b s' => trivial

theorem createIndex_safe_iff (schema table index source : Bytes) :
    Safe ((createIndex schema table index source).run o.perform (0, 0)).1
      ↔ o.Answered table 2 0 := by
  refine hasTable_safe_iff schema table 1 (fun s' => trivial) ?_
  refine hasIndex_safe_iff (s := (1, 0)) schema table index fun found s' => ?_
  cases found with
  | true => trivial
  | false =>
    refine query_safe _ fun created s'' => ?_
    cases created <;> trivial

end

/-- **No null result is dereferenced exactly if the results that a method trusts are there.** -/
theorem nullSafe_iff (getInt : List Bytes → Nat → Int) (o : Outcomes) (call : Call) :
    NullSafe getInt o call ↔ call.Answered o := by
  rw [NullSafe, ← safe_unit_iff]
  cases call with
  | hasTable schema table =>
    rw [Call.task, hasTable]
    simp only [Program.bind_assoc]
    exact result_safe_iff (s := (0, 0)) _ fun rows s' => trivial
  | createTable schema table source => exact createTable_safe_iff o schema table source
  | alterTableAddColumn schema table column columnType =>
    exact alterTableAddColumn_safe_iff o getInt schema table column columnType
  | alterTableChangeColumn schema table column columnType =>
    exact iff_of_true (alterTableChangeColumn_safe o schema table column columnType) trivial
  | hasIndex schema table index =>
    exact hasIndex_safe_iff (s := (0, 0)) schema table index fun b s' => trivial
  | createIndex schema table index source => exact createIndex_safe_iff o schema table index source

/-- the server fails at the first `SHOW TABLES` -/
theorem hasTable_nullResult :
    ((Call.hasTable (str "db") (str "users")).task fun _ _ => 0).run
        (Outcomes.perform ⟨fun _ => none, fun _ => false⟩) (0, 0)
      = (.error .nullResult, (1, 0)) ∧
    ¬ NullSafe (fun _ _ => 0) ⟨fun _ => none, fun _ => false⟩
      (.hasTable (str "db") (str "users")) := by
  refine ⟨rfl, ?_⟩
  rintro (h | ⟨what, h⟩)
  · exact absurd h (by simp [Call.task, hasTable, Program.run_bind, queryGet_run, rowsOf_run])
  · exact absurd h (by simp [Call.task, hasTable, Program.run_bind, queryGet_run, rowsOf_run])

end Tables

end ServerHttpLib
