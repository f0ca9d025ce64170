import ServerHttpLib.Sql.Lexer

/-!
# `build_query`

The values replace the placeholders `$i` from the highest index down to `$0`.  One pass searches
its token from left to right behind what it has written; at each hit it decides on the text as it
is then whether the token stands in a string literal, and writes the escaped value or the raw one.
The model returns the decisions of the passes beside the query.  The assertions of the source
(every pass replaces something, no `$` remains) are those of a debug build; they are stated of the
model in `Sql.Simultaneous`.

What a pass does, step by step along its input:

* `replaceFrom_skip`     a position where the token does not begin is copied;
* `replaceFrom_hit`      the token is replaced, with the decision of the automaton;
* `length_replaceFrom`   there are as many decisions as positions where the token begins.
-/

namespace ServerHttpLib
open Cutting

def placeholder (i : Nat) : Bytes := ch '$' :: decimal i

def toSqlRawValue (value : Bytes) : Bytes := value

/-- the loop of a pass: `done` is the query before `pos`, `rest` what follows -/
def replaceFrom (i : Nat) (escapedValue rawValue done rest : Bytes) : Bytes × List Bool :=
  match _h : cut (placeholder i) rest with
  | none => (done ++ rest, [])
  | some (a, b) =>
    let quotedContext := isInsideSqlStringLiteral (done ++ rest) (done.length + a.length)
    let value := if quotedContext then escapedValue else rawValue
    let r := replaceFrom i escapedValue rawValue (done ++ a ++ value) b
    (r.1, quotedContext :: r.2)
termination_by rest.length
decreasing_by
  have h := cut_length _h
  rw [placeholder, List.length_cons] at h
  omega

/-- the body of the loop over the values -/
def replacePass (values : List Bytes) (i : Nat) (query : Bytes) : Bytes × List Bool :=
  let value := values.getD i []
  replaceFrom i (toSqlValue value) (toSqlRawValue value) [] query

def buildLoop (values : List Bytes) : Nat → Bytes → Bytes × List (List Bool)
  | 0, query => (query, [])
  | i + 1, query =>
    let r := replacePass values i query
    let t := buildLoop values i r.1
    (t.1, r.2 :: t.2)

/-- `build_query(template_str, values...)` for string values -/
def buildQuery (templateStr : Bytes) (values : List Bytes) : Bytes :=
  (buildLoop values values.length templateStr).1

/-- the decisions of the passes, that of the highest index first -/
def decisions (templateStr : Bytes) (values : List Bytes) : List (List Bool) :=
  (buildLoop values values.length templateStr).2

/-! ## one pass -/

theorem placeholder_ne_nil (i : Nat) : placeholder i ≠ [] := List.cons_ne_nil _ _

theorem dollar_not_mem_decimal (n : Nat) : ch '$' ∉ decimal n := not_mem_decimal (by decide)

variable (i : Nat) (e r : Bytes)

theorem replaceFrom_none {done rest : Bytes} (h : cut (placeholder i) rest = none) :
    replaceFrom i e r done rest = (done ++ rest, []) := by
  rw [replaceFrom]
  split
  · rfl
  · rename_i h'
    rw [h] at h'
    exact absurd h' (by simp)

theorem replaceFrom_some {done rest a b : Bytes} (h : cut (placeholder i) rest = some (a, b)) :
    replaceFrom i e r done rest =
      ((replaceFrom i e r
          (done ++ a ++ if (LexState.out.run (done ++ a)).inside then e else r) b).1,
        (LexState.out.run (done ++ a)).inside ::
          (replaceFrom i e r
            (done ++ a ++ if (LexState.out.run (done ++ a)).inside then e else r) b).2) := by
  have hin : isInsideSqlStringLiteral (done ++ rest) (done.length + a.length)
      = (LexState.out.run (done ++ a)).inside := by
    rw [isInside_eq, cut_eq h, ← List.length_append, List.append_assoc, ← List.append_assoc done,
      List.take_left]
  rw [replaceFrom]
  split
  · rename_i h'
    rw [h] at h'
    exact absurd h' (by simp)
  · rename_i h'
    obtain ⟨rfl, rfl⟩ := cut_inj h h'
    simp only [hin]

theorem replaceFrom_nil (done : Bytes) : replaceFrom i e r done [] = (done, []) := by
  rw [replaceFrom_none i e r (cut_nil (placeholder_ne_nil i)), List.append_nil]

theorem replaceFrom_skip {c : UInt8} {s : Bytes} (h : ¬ placeholder i <+: c :: s) (done : Bytes) :
    replaceFrom i e r done (c :: s) = replaceFrom i e r (done ++ [c]) s := by
  have hc := cut_cons_of_not_isPrefix h
  cases hs : cut (placeholder i) s with
  | none =>
    rw [hs, Option.map_none] at hc
    rw [replaceFrom_none i e r hc, replaceFrom_none i e r hs, List.append_assoc]
    rfl
  | some p =>
    obtain ⟨a, b⟩ := p
    rw [hs, Option.map_some] at hc
    rw [replaceFrom_some i e r hc, replaceFrom_some i e r hs]
    simp only [List.append_assoc, List.singleton_append]

theorem not_placeholder_isPrefix {c : UInt8} (hc : ch '$' ≠ c) (s : Bytes) :
    ¬ placeholder i <+: c :: s := by
  rw [placeholder, List.cons_prefix_cons]
  exact fun hp => hc hp.1

theorem replaceFrom_free {u : Bytes} (hu : ch '$' ∉ u) (done s : Bytes) :
    replaceFrom i e r done (u ++ s) = replaceFrom i e r (done ++ u) s := by
  induction u generalizing done with
  | nil => rw [List.nil_append, List.append_nil]
  | cons c u ih =>
    rw [List.mem_cons, not_or] at hu
    have h : ¬ placeholder i <+: c :: (u ++ s) := not_placeholder_isPrefix i hu.1 (u ++ s)
    rw [List.cons_append, replaceFrom_skip i e r h, ih hu.2, List.append_assoc,
      List.singleton_append]

/-- another placeholder is copied, unless the token begins where it does -/
theorem replaceFrom_other {j : Nat} {s : Bytes} (h : ¬ placeholder i <+: placeholder j ++ s)
    (done : Bytes) :
    replaceFrom i e r done (placeholder j ++ s) = replaceFrom i e r (done ++ placeholder j) s := by
  have h1 := replaceFrom_skip i e r (c := ch '$') (s := decimal j ++ s) h done
  rw [replaceFrom_free i e r (dollar_not_mem_decimal j), List.append_assoc] at h1
  exact h1

theorem replaceFrom_hit (done s : Bytes) :
    replaceFrom i e r done (placeholder i ++ s) =
      ((replaceFrom i e r (done ++ if (LexState.out.run done).inside then e else r) s).1,
        (LexState.out.run done).inside ::
          (replaceFrom i e r (done ++ if (LexState.out.run done).inside then e else r) s).2) := by
  rw [replaceFrom_some i e r (cut_self_append _ s), List.append_nil]

/-! ## counting the hits -/

/-- the number of positions where the token begins -/
def occurrences (i : Nat) : Bytes → Nat
  | [] => 0
  | c :: s => (if placeholder i <+: c :: s then 1 else 0) + occurrences i s

theorem occurrences_free {u : Bytes} (hu : ch '$' ∉ u) (s : Bytes) :
    occurrences i (u ++ s) = occurrences i s := by
  induction u with
  | nil => rfl
  | cons c u ih =>
    rw [List.mem_cons, not_or] at hu
    have h : ¬ placeholder i <+: c :: (u ++ s) := not_placeholder_isPrefix i hu.1 (u ++ s)
    rw [List.cons_append, occurrences, if_neg h, ih hu.2, Nat.zero_add]

/-- behind a `$` come digits, in which no token begins -/
theorem occurrences_placeholder (j : Nat) (s : Bytes) : occurrences i (placeholder j ++ s)
    = (if placeholder i <+: placeholder j ++ s then 1 else 0) + occurrences i s := by
  show (if placeholder i <+: placeholder j ++ s then 1 else 0) + occurrences i (decimal j ++ s) = _
  rw [occurrences_free i (dollar_not_mem_decimal j)]

/-- **A pass decides once for each position where its token begins.** -/
theorem length_replaceFrom (n : Nat) {s : Bytes} (hn : s.length ≤ n) (done : Bytes) :
    (replaceFrom i e r done s).2.length = occurrences i s := by
  induction n generalizing s done with
  | zero =>
    rw [List.length_eq_zero_iff.mp (Nat.le_zero.mp hn), replaceFrom_nil]
    rfl
  | succ n ih =>
    cases s with
    | nil =>
      rw [replaceFrom_nil]
      rfl
    | cons c s =>
      by_cases h : placeholder i <+: c :: s
      · obtain ⟨t, ht⟩ := h
        have hlen := congrArg List.length ht
        rw [List.length_append, placeholder, List.length_cons, List.length_cons] at hlen
        rw [List.length_cons] at hn
        rw [← ht, replaceFrom_hit, occurrences_placeholder, if_pos (List.prefix_append _ _),
          List.length_cons, ih (by omega), Nat.add_comm]
      · rw [replaceFrom_skip i e r h, occurrences, if_neg h, Nat.zero_add]
        exact ih (Nat.succ_le_succ_iff.mp hn) _

end ServerHttpLib
