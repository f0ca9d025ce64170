import ServerHttpLib.Sql.Tables

/-!
# `create_index` twice

The guard of `create_index` looks for an index with the name `index`; the statement behind it
creates one with the name `idx_` and `index`.  So the second call does not find what the first one
created.

* `leadingIdentifier_ne`     the name in the default statement is not the name that the guard looks
                             for, whatever bytes the arguments have;
* `createIndex_twice_iff`    a second call does nothing exactly if the guard stopped the first one,
                             or the server rejected its statement.
-/

namespace ServerHttpLib
namespace Tables
open Cutting Programs

/-! ## a server -/

/-- a server behind `query` and `query_get`, over the states of its database -/
structure Server (D : Type) where
  query : Bytes → D → Bool × D
  queryGet : Bytes → D → Option ResultSet

/-- the database and the statements that `query` was called with -/
structure Served (D : Type) where
  database : D
  issued : List Bytes
  deriving DecidableEq

def Server.perform {D : Type} (server : Server D) (a : Request) (s : Served D) :
    a.Reply × Served D :=
  match a with
  | .query q => ((server.query q s.database).1, ⟨(server.query q s.database).2, s.issued ++ [q]⟩)
  | .queryGet q => (server.queryGet q s.database, s)

/-- the bytes of an identifier without quotes -/
def isIdentifierByte (c : UInt8) : Bool :=
  isAsciiAlphanumeric c || c = ch '_' || c = ch '$' || 128 ≤ c

def leadingIdentifier (s : Bytes) : Bytes := s.takeWhile isIdentifierByte

/-- how the default statement begins -/
def createIndexIdx : Bytes := str "CREATE INDEX idx_"

/-- what is relied on of the server for one table -/
structure Catalogue {D : Type} (server : Server D) (schema table : Bytes)
    (tables indexes : D → List Bytes) : Prop where
  /-- `SHOW TABLES` lists the tables -/
  showTables : ∀ d, ∃ rows, server.queryGet (showTables schema) d = some rows ∧
    (rows.map fun row => getString row 1) = tables d
  /-- the third column of `SHOW INDEX` lists the indexes of the table -/
  showIndex : ∀ d, table ∈ tables d → ∃ rows,
    server.queryGet (showIndex schema table) d = some rows ∧
      (rows.map fun row => getString row 3) = indexes d
  /-- `CREATE INDEX` creates no table and drops none -/
  keeps : ∀ d s, tables (server.query (createIndexIdx ++ s) d).2 = tables d
  /-- an index that `CREATE INDEX` adds has the name that it begins with -/
  adds : ∀ d s, indexes (server.query (createIndexIdx ++ s) d).2
    ⊆ leadingIdentifier (str "idx_" ++ s) :: indexes d

/-- if the task succeeds, it succeeds once more, and then without any statement -/
def DoneOnce {D : Type} (server : Server D) (p : Task Unit) (d : D) : Prop :=
  ∀ s, p.run server.perform ⟨d, []⟩ = (.ok (), s) →
    p.run server.perform ⟨s.database, []⟩ = (.ok (), ⟨s.database, []⟩)

/-! ## the name in the default statement -/

/-- a pass does not change what it has written -/
theorem isPrefix_replaceFrom (i : Nat) (e r : Bytes) (n : Nat) {rest : Bytes}
    (hn : rest.length ≤ n) (done : Bytes) : done <+: (replaceFrom i e r done rest).1 := by
  induction n generalizing rest done with
  | zero =>
    rw [List.length_eq_zero_iff.mp (Nat.le_zero.mp hn), replaceFrom_nil]
  | succ n ih =>
    cases hc : cut (placeholder i) rest with
    | none =>
      rw [replaceFrom_none i e r hc]
      exact List.prefix_append _ _
    | some p =>
      obtain ⟨a, b⟩ := p
      have hlen := cut_length hc
      rw [placeholder, List.length_cons] at hlen
      rw [replaceFrom_some i e r hc]
      refine List.IsPrefix.trans ?_ (ih (by omega) _)
      rw [List.append_assoc]
      exact List.prefix_append _ _

/-- text without `$` at the beginning of a query stays there -/
theorem isPrefix_replacePass (values : List Bytes) (i : Nat) {u q : Bytes} (hu : ch '$' ∉ u)
    (h : u <+: q) : u <+: (replacePass values i q).1 := by
  obtain ⟨s, rfl⟩ := h
  have hpass := isPrefix_replaceFrom i (toSqlValue (values.getD i []))
    (toSqlRawValue (values.getD i [])) s.length (Nat.le_refl _) ([] ++ u)
  rw [replacePass, replaceFrom_free i _ _ hu]
  exact hpass

theorem isPrefix_buildLoop (values : List Bytes) (m : Nat) {u q : Bytes} (hu : ch '$' ∉ u)
    (h : u <+: q) : u <+: (buildLoop values m q).1 := by
  induction m generalizing q with
  | zero => exact h
  | succ m ih => exact ih (isPrefix_replacePass values m hu h)

/-- the part of a name before its first `$` -/
def beforeDollar (index : Bytes) : Bytes := index.takeWhile fun c => c != ch '$'

theorem dollar_not_mem_beforeDollar (index : Bytes) : ch '$' ∉ beforeDollar index := by
  intro h
  simpa using List.mem_takeWhile_imp h

theorem defaultIndex_isPrefix (schema table index : Bytes) :
    createIndexIdx ++ beforeDollar index <+: defaultIndex schema table index := by
  have htext : str "CREATE INDEX idx_$2 ON $0.$1 ($2);"
      = createIndexIdx ++ (placeholder 2 ++ str " ON $0.$1 ($2);") := by decide
  have hfree : ch '$' ∉ createIndexIdx := by decide
  have hfirst : createIndexIdx ++ index
      <+: (replacePass [schema, table, index] 2 (str "CREATE INDEX idx_$2 ON $0.$1 ($2);")).1 := by
    have hout : (LexState.out.run createIndexIdx).inside = false := by decide
    rw [replacePass, htext, replaceFrom_free 2 _ _ hfree, replaceFrom_hit, List.nil_append, hout]
    exact isPrefix_replaceFrom 2 _ _ _ (Nat.le_refl _) _
  have hname : beforeDollar index <+: index := List.takeWhile_prefix _
  refine isPrefix_buildLoop [schema, table, index] 2 ?_
    (List.IsPrefix.trans ((List.prefix_append_right_inj _).mpr hname) hfirst)
  rw [List.mem_append, not_or]
  exact ⟨hfree, dollar_not_mem_beforeDollar index⟩

theorem defaultIndex_eq (schema table index : Bytes) : ∃ s,
    defaultIndex schema table index = createIndexIdx ++ s ∧ beforeDollar index <+: s := by
  obtain ⟨s, hs⟩ := defaultIndex_isPrefix schema table index
  exact ⟨beforeDollar index ++ s, by rw [← hs, List.append_assoc], List.prefix_append _ _⟩

/-- **The name in the statement is not the name in the guard.**  With the part `u` of the name
before its first `$`, the statement names an index that begins with `idx_` and `u`. -/
theorem leadingIdentifier_ne {index s : Bytes} (h : beforeDollar index <+: s) :
    leadingIdentifier (str "idx_" ++ s) ≠ index := by
  intro he
  obtain ⟨t, rfl⟩ := h
  have hu : ∀ c ∈ beforeDollar index, isIdentifierByte c = true := by
    intro c hc
    have hmem : c ∈ index := (List.takeWhile_prefix _).subset hc
    rw [← he] at hmem
    exact List.mem_takeWhile_imp hmem
  have hidx : ∀ c ∈ str "idx_", isIdentifierByte c = true ∧ c ≠ ch '$' := by decide +kernel
  have hname : index = str "idx_" ++ (beforeDollar index ++ leadingIdentifier t) := by
    rw [leadingIdentifier, List.takeWhile_append_of_pos fun c hc => (hidx c hc).1,
      List.takeWhile_append_of_pos hu] at he
    exact he.symm
  -- so the part before the first `$` is longer than itself
  have hlen : beforeDollar index
      = str "idx_" ++ (beforeDollar index ++ beforeDollar (leadingIdentifier t)) := by
    conv_lhs => rw [hname]
    unfold beforeDollar
    rw [List.takeWhile_append_of_pos, List.takeWhile_append_of_pos]
    · exact fun c hc => by simpa using List.mem_takeWhile_imp hc
    · exact fun c hc => by simpa using (hidx c hc).2
  have hcount := congrArg List.length hlen
  rw [List.length_append, List.length_append] at hcount
  have hfour : (str "idx_").length = 4 := by decide
  omega

/-! ## runs of the methods -/

section
variable {D : Type} {server : Server D} {schema table : Bytes} {tables indexes : D → List Bytes}

theorem any_eq_decide_mem (rows : ResultSet) (n : Nat) (name : Bytes) :
    (rows.any fun row => decide (getString row n = name))
      = decide (name ∈ rows.map fun row => getString row n) := by
  rw [Bool.eq_iff_iff, List.any_eq_true, decide_eq_true_iff, List.mem_map]
  simp only [decide_eq_true_eq]

theorem hasTable_run (h : Catalogue server schema table tables indexes) (s : Served D) :
    (hasTable schema table).run server.perform s
      = (.ok (decide (table ∈ tables s.database)), s) := by
  obtain ⟨rows, hrows, htables⟩ := h.showTables s.database
  rw [← htables, ← any_eq_decide_mem]
  have hget : server.perform (.queryGet (showTables schema)) s = (some rows, s) := by
    rw [Server.perform, hrows]
    rfl
  simp only [hasTable, Program.run_bind, queryGet, Program.run, hget]
  rfl

theorem hasIndex_run (h : Catalogue server schema table tables indexes) (index : Bytes)
    (s : Served D) (ht : table ∈ tables s.database) :
    (hasIndex schema table index).run server.perform s
      = (.ok (decide (index ∈ indexes s.database)), s) := by
  obtain ⟨rows, hrows, hindexes⟩ := h.showIndex s.database ht
  rw [← hindexes, ← any_eq_decide_mem]
  have hget : server.perform (.queryGet (showIndex schema table)) s = (some rows, s) := by
    rw [Server.perform, hrows]
    rfl
  rw [hasIndex, Program.run_bind, hasTable_run h, decide_eq_true ht]
  simp only [Bool.not_true, Bool.false_eq_true, ↓reduceIte, Program.run_bind, queryGet,
    Program.run, hget]
  rfl

theorem createIndex_run_found (h : Catalogue server schema table tables indexes) {index : Bytes}
    {s : Served D} (ht : table ∈ tables s.database) (hi : index ∈ indexes s.database) :
    (createIndex schema table index []).run server.perform s = (.ok (), s) := by
  rw [createIndex, Program.run_bind, hasTable_run h, decide_eq_true ht]
  simp only [Bool.not_true, Bool.false_eq_true, ↓reduceIte, Program.run_bind,
    hasIndex_run h index s ht, decide_eq_true hi]
  rfl

theorem createIndex_run_missing (h : Catalogue server schema table tables indexes) {index : Bytes}
    {s : Served D} (ht : table ∈ tables s.database) (hi : index ∉ indexes s.database) :
    ((createIndex schema table index []).run server.perform s).2
        = ⟨(server.query (defaultIndex schema table index) s.database).2,
          s.issued ++ [defaultIndex schema table index]⟩ ∧
      (((createIndex schema table index []).run server.perform s).1 = .ok () ↔
        (server.query (defaultIndex schema table index) s.database).1 = true) := by
  rw [createIndex, Program.run_bind, hasTable_run h, decide_eq_true ht]
  simp only [Bool.not_true, Bool.false_eq_true, ↓reduceIte, Program.run_bind,
    hasIndex_run h index s ht, decide_eq_false hi, query, Program.run, Server.perform]
  cases (server.query (defaultIndex schema table index) s.database).1 with
  | true => exact ⟨rfl, fun _ => rfl, fun _ => rfl⟩
  | false =>
    exact ⟨rfl, fun h => absurd h (by simp [throw, Program.run]), fun h => absurd h (by simp)⟩

/-- **`create_index` is repeatable** on a table that exists exactly if the name is already that of
an index, or the server rejects the statement. -/
theorem createIndex_twice_iff (server : Server D) (schema table index : Bytes)
    (tables indexes : D → List Bytes) (h : Catalogue server schema table tables indexes) (d : D)
    (ht : table ∈ tables d) :
    DoneOnce server (createIndex schema table index []) d ↔
      index ∈ indexes d ∨ (server.query (defaultIndex schema table index) d).1 = false := by
  by_cases hi : index ∈ indexes d
  · refine ⟨fun _ => .inl hi, fun _ s hs => ?_⟩
    have hfound := createIndex_run_found h (s := ⟨d, []⟩) ht hi
    rw [hfound] at hs
    obtain rfl := (Prod.mk.inj hs).2
    exact hfound
  · obtain ⟨hstate, hok⟩ := createIndex_run_missing h (s := ⟨d, []⟩) ht hi
    obtain ⟨t, htext, hname⟩ := defaultIndex_eq schema table index
    have ht' : table ∈ tables (server.query (defaultIndex schema table index) d).2 := by
      rw [htext, h.keeps]
      exact ht
    have hi' : index ∉ indexes (server.query (defaultIndex schema table index) d).2 := by
      rw [htext]
      intro hmem
      rcases List.mem_cons.mp (h.adds d t hmem) with he | hmem
      · exact leadingIdentifier_ne hname he.symm
      · exact hi hmem
    constructor
    · intro hdone
      refine .inr (Bool.eq_false_iff.mpr fun hquery => ?_)
      have hsecond := hdone _ (Prod.ext (hok.mpr hquery) hstate)
      have hagain := (createIndex_run_missing h
        (s := ⟨(server.query (defaultIndex schema table index) d).2, []⟩) ht' hi').1
      -- the second call has issued the statement again
      have hissued := congrArg Served.issued (hagain.symm.trans (congrArg Prod.snd hsecond))
      exact absurd hissued (by simp)
    · intro hor s hs
      have hquery := hor.resolve_left hi
      have := hok.mp (congrArg Prod.fst hs)
      rw [hquery] at this
      exact absurd this (by simp)

end

/-! ## a concrete server -/

/-- one table `t`, whose indexes are the state; the name of a new index must be new -/
def oneTable : Server (List Bytes) where
  query q d :=
    if createIndexIdx <+: q then
      let name := leadingIdentifier (q.drop (str "CREATE INDEX ").length)
      if name ∈ d then (false, d) else (true, name :: d)
    else (true, d)
  queryGet q d :=
    if q = showTables (str "s") then some [[str "t"]]
    else some (d.map fun name => [str "t", str "1", name])

theorem oneTable_query (s : Bytes) (d : List Bytes) : oneTable.query (createIndexIdx ++ s) d
    = if leadingIdentifier (str "idx_" ++ s) ∈ d then (false, d)
      else (true, leadingIdentifier (str "idx_" ++ s) :: d) := by
  have hsplit : createIndexIdx = str "CREATE INDEX " ++ str "idx_" := by decide
  have hdrop : (createIndexIdx ++ s).drop (str "CREATE INDEX ").length = str "idx_" ++ s := by
    rw [hsplit, List.append_assoc, List.drop_left]
  have hpre : createIndexIdx <+: createIndexIdx ++ s := List.prefix_append _ _
  simp only [oneTable, if_pos hpre, hdrop]

theorem oneTable_catalogue :
    Catalogue oneTable (str "s") (str "t") (fun _ => [str "t"]) id where
  showTables _ := ⟨[[str "t"]], rfl, rfl⟩
  showIndex d _ := by
    have hne : showIndex (str "s") (str "t") ≠ showTables (str "s") := by decide +kernel
    refine ⟨d.map fun name => [str "t", str "1", name], if_neg hne, ?_⟩
    rw [List.map_map]
    exact List.map_id d
  keeps _ _ := rfl
  adds d s := by
    rw [oneTable_query]
    split
    · exact List.subset_cons_self _ _
    · exact List.Subset.refl _

/-- the server is one to rely on, and its database has no index yet -/
theorem createIndex_twice_iff_empty :
    DoneOnce oneTable (createIndex (str "s") (str "t") (str "i") []) [] ↔
      str "i" ∈ id ([] : List Bytes) ∨
        (oneTable.query (defaultIndex (str "s") (str "t") (str "i")) []).1 = false :=
  createIndex_twice_iff oneTable (str "s") (str "t") (str "i") (fun _ => [str "t"]) id
    oneTable_catalogue [] (List.mem_singleton_self _)

/-- the first call creates `idx_i` and succeeds, the second one tries it again and throws -/
theorem createIndex_throws :
    (createIndex (str "s") (str "t") (str "i") []).run oneTable.perform ⟨[], []⟩
        = (.ok (), ⟨[str "idx_i"], [str "CREATE INDEX idx_i ON s.t (i);"]⟩) ∧
      (createIndex (str "s") (str "t") (str "i") []).run oneTable.perform ⟨[str "idx_i"], []⟩
        = (.error (.sqlException (str "Cannot create index i on table s.t")),
          ⟨[str "idx_i"], [str "CREATE INDEX idx_i ON s.t (i);"]⟩) ∧
      ¬ DoneOnce oneTable (createIndex (str "s") (str "t") (str "i") []) [] := by
  have hfirst : (createIndex (str "s") (str "t") (str "i") []).run oneTable.perform ⟨[], []⟩
      = (.ok (), ⟨[str "idx_i"], [str "CREATE INDEX idx_i ON s.t (i);"]⟩) := by decide +kernel
  have hsecond : (createIndex (str "s") (str "t") (str "i") []).run oneTable.perform
      ⟨[str "idx_i"], []⟩ = (.error (.sqlException (str "Cannot create index i on table s.t")),
        ⟨[str "idx_i"], [str "CREATE INDEX idx_i ON s.t (i);"]⟩) := by decide +kernel
  refine ⟨hfirst, hsecond, fun h => ?_⟩
  have hdone := (h _ hfirst).symm.trans hsecond
  exact absurd (congrArg Prod.fst hdone) (by simp)

end Tables
end ServerHttpLib
