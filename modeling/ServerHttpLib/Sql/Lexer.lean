import ServerHttpLib.Http.Bytes

/-!
# String literals of a query

The lexer of MySQL's string literals as an automaton: `'...'` and `"..."`, where a doubled quote
and a backslash with the character behind it stand for one character.  `build_query` decides with
a scan of its own (`insideScan`) whether a placeholder stands in a literal:

* `isInside_eq`                 the scan answers as the automaton;
* `run_escaped`, `within_escaped`   an escaped value runs through a literal without leaving it;
* `run_plain`                   a value without quotes and backslashes enters no literal.
-/

namespace ServerHttpLib

inductive Quote where
  | single | double
  deriving DecidableEq, Repr

def squote : UInt8 := 39
def dquote : UInt8 := 34

def Quote.byte : Quote → UInt8
  | .single => squote
  | .double => dquote

/-- where the lexer stands -/
inductive LexState where
  | out
  | inStr (q : Quote)
  /-- behind a backslash in a literal -/
  | esc (q : Quote)
  /-- behind a quote in a literal, which ends it unless it is doubled -/
  | closed (q : Quote)
  deriving DecidableEq, Repr

namespace LexState

/-- a character outside of literals -/
def openStep (c : UInt8) : LexState :=
  if c = squote then inStr .single else if c = dquote then inStr .double else out

def step : LexState → UInt8 → LexState
  | out, c => openStep c
  | inStr q, c => if c = q.byte then closed q else if c = backslash then esc q else inStr q
  | esc q, _ => inStr q
  | closed q, c => if c = q.byte then inStr q else openStep c

def run (st : LexState) (s : Bytes) : LexState := s.foldl step st

/-- the character that follows belongs to a literal, unless it is the quote that ends it -/
def inside : LexState → Bool
  | inStr _ => true
  | esc _ => true
  | _ => false

/-- the literal `q` has not been left: a quote has been read only as the first of two -/
def within (q : Quote) (st : LexState) : Prop := st = inStr q ∨ st = esc q ∨ st = closed q

theorem run_nil (st : LexState) : st.run [] = st := rfl
theorem run_cons (st : LexState) (c : UInt8) (s : Bytes) :
    st.run (c :: s) = (st.step c).run s := rfl
theorem run_append (st : LexState) (s t : Bytes) : st.run (s ++ t) = (st.run s).run t :=
  List.foldl_append

end LexState

/-! ## the scan of the source -/

/-- the loop of `is_inside_sql_string_literal`, on the characters before `pos` -/
def insideScan : Bool → Bool → Bytes → Bool
  | inSingle, inDouble, [] => inSingle || inDouble
  | inSingle, inDouble, ch :: rest =>
    if !inDouble && ch = squote then
      if inSingle then
        match rest with
        | [] => insideScan false inDouble []
        | next :: rest =>
          if next = squote then insideScan inSingle inDouble rest
          else insideScan false inDouble (next :: rest)
      else insideScan true inDouble rest
    else if !inSingle && ch = dquote then
      if inDouble then
        match rest with
        | [] => insideScan inSingle false []
        | next :: rest =>
          if next = dquote then insideScan inSingle inDouble rest
          else insideScan inSingle false (next :: rest)
      else insideScan inSingle true rest
    else if ch = backslash && (inSingle || inDouble) then
      match rest with
      | [] => insideScan inSingle inDouble []
      | _ :: rest => insideScan inSingle inDouble rest
    else insideScan inSingle inDouble rest

def isInsideSqlStringLiteral (query : Bytes) (pos : Nat) : Bool :=
  insideScan false false (query.take pos)

/-- behind a quote that is not doubled the automaton is outside, as the scan is already -/
theorem closed_run_inside (q : Quote) {s : Bytes} (hs : s.head? ≠ some q.byte) :
    ((LexState.closed q).run s).inside = (LexState.out.run s).inside := by
  cases s with
  | nil => rfl
  | cons c s =>
    have hc : c ≠ q.byte := fun h => hs (by rw [h]; rfl)
    simp only [LexState.run_cons, LexState.step, if_neg hc]

theorem squote_ne : squote ≠ dquote ∧ squote ≠ backslash ∧ dquote ≠ backslash := by decide

theorem insideScan_out (c : UInt8) (s : Bytes) : insideScan false false (c :: s)
    = if c = squote then insideScan true false s
      else if c = dquote then insideScan false true s else insideScan false false s := by
  cases s <;> simp [insideScan]

theorem insideScan_single (c : UInt8) (s : Bytes) : insideScan true false (c :: s)
    = if c = squote then
        if s.head? = some squote then insideScan true false s.tail else insideScan false false s
      else if c = backslash then insideScan true false s.tail else insideScan true false s := by
  cases s <;> simp [insideScan]

theorem insideScan_double (c : UInt8) (s : Bytes) : insideScan false true (c :: s)
    = if c = dquote then
        if s.head? = some dquote then insideScan false true s.tail else insideScan false false s
      else if c = backslash then insideScan false true s.tail else insideScan false true s := by
  cases s <;> simp [insideScan]

/-- what the scan should answer in each of its states -/
structure ScanAgrees (s : Bytes) : Prop where
  out : insideScan false false s = (LexState.out.run s).inside
  single : insideScan true false s = ((LexState.inStr .single).run s).inside
  double : insideScan false true s = ((LexState.inStr .double).run s).inside

theorem ScanAgrees.nil : ScanAgrees [] := ⟨rfl, rfl, rfl⟩

/-- behind a quote: the scan has looked at the next character -/
theorem closed_agrees {f : Bytes → Bool} (q : Quote) {s : Bytes}
    (hs : f s.tail = ((LexState.inStr q).run s.tail).inside)
    (h : insideScan false false s = (LexState.out.run s).inside) :
    (if s.head? = some q.byte then f s.tail else insideScan false false s)
      = ((LexState.closed q).run s).inside := by
  by_cases hq : s.head? = some q.byte
  · rw [if_pos hq, hs]
    cases s with
    | nil => exact absurd hq (by simp)
    | cons d s =>
      have hd : d = q.byte := by simpa using hq
      rw [LexState.run_cons, LexState.step, if_pos hd]
      rfl
  · rw [if_neg hq, closed_run_inside q hq, h]

theorem esc_agrees {f : Bytes → Bool} (q : Quote) (hf : f [] = true) {s : Bytes}
    (hs : f s.tail = ((LexState.inStr q).run s.tail).inside) :
    f s.tail = ((LexState.esc q).run s).inside := by
  cases s with
  | nil => exact hf
  | cons d s => exact hs

/-- one step of the loop; a doubled quote and an escape consume two characters -/
theorem ScanAgrees.cons {c : UInt8} {s : Bytes} (h : ScanAgrees s) (ht : ScanAgrees s.tail) :
    ScanAgrees (c :: s) := by
  refine ⟨?_, ?_, ?_⟩
  · rw [insideScan_out, LexState.run_cons, LexState.step, LexState.openStep, h.out, h.single,
      h.double]
    split
    · rfl
    · split <;> rfl
  · rw [insideScan_single, LexState.run_cons, LexState.step]
    by_cases h1 : c = squote
    · rw [if_pos h1, if_pos (show c = Quote.single.byte from h1)]
      exact closed_agrees .single ht.single h.out
    · rw [if_neg h1, if_neg (show ¬ c = Quote.single.byte from h1), h.single]
      split
      · exact esc_agrees .single rfl ht.single
      · rfl
  · rw [insideScan_double, LexState.run_cons, LexState.step]
    by_cases h1 : c = dquote
    · rw [if_pos h1, if_pos (show c = Quote.double.byte from h1)]
      exact closed_agrees .double ht.double h.out
    · rw [if_neg h1, if_neg (show ¬ c = Quote.double.byte from h1), h.double]
      split
      · exact esc_agrees .double rfl ht.double
      · rfl

theorem scanAgrees (s : Bytes) : ScanAgrees s ∧ ScanAgrees s.tail := by
  induction s with
  | nil => exact ⟨.nil, .nil⟩
  | cons c s ih => exact ⟨ih.1.cons ih.2, ih.1⟩

/-- **The scan answers as the automaton**: whether the character at `pos` belongs to a literal -/
theorem isInside_eq (query : Bytes) (pos : Nat) :
    isInsideSqlStringLiteral query pos = (LexState.out.run (query.take pos)).inside :=
  (scanAgrees _).1.out

/-! ## escaped and plain values -/

/-- one character in `to_sql_value` -/
def escapeByte (c : UInt8) : Bytes :=
  if c = squote then [squote, squote]
  else if c = backslash || c = dquote then [backslash, c]
  else [c]

def toSqlValue (value : Bytes) : Bytes := value.flatMap escapeByte

namespace LexState

theorem run_escapeByte (q : Quote) (c : UInt8) : (inStr q).run (escapeByte c) = inStr q := by
  obtain ⟨hsd, hsb, hdb⟩ := squote_ne
  unfold escapeByte
  by_cases h1 : c = squote
  · cases q <;> simp [h1, run, step, Quote.byte, hsd, hsb]
  · by_cases h2 : c = backslash ∨ c = dquote
    · cases q <;> simp [h1, h2, run, step, Quote.byte, hsb.symm, hdb.symm]
    · rw [not_or] at h2
      cases q <;> simp [h1, h2.1, h2.2, run, step, Quote.byte]

/-- **An escaped value runs through a literal** and ends in it -/
theorem run_escaped (q : Quote) (value : Bytes) : (inStr q).run (toSqlValue value) = inStr q := by
  induction value with
  | nil => rfl
  | cons c value ih =>
    show (inStr q).run (escapeByte c ++ toSqlValue value) = _
    rw [run_append, run_escapeByte, ih]

theorem prefix_pair {a b : UInt8} {u : Bytes} (hu : u <+: [a, b]) :
    u = [] ∨ u = [a] ∨ u = [a, b] := by
  simp only [List.prefix_cons_iff, List.prefix_nil] at hu
  rcases hu with rfl | ⟨v, rfl, rfl | ⟨w, rfl, rfl⟩⟩
  · exact Or.inl rfl
  · exact Or.inr (Or.inl rfl)
  · exact Or.inr (Or.inr rfl)

theorem within_escapeByte (q : Quote) (c : UInt8) {u : Bytes} (hu : u <+: escapeByte c) :
    within q ((inStr q).run u) := by
  have hfull := run_escapeByte q c
  have hone : ∀ a : UInt8, a = squote ∨ a = backslash → within q ((inStr q).run [a]) := by
    rintro a (rfl | rfl)
    · cases q
      · exact Or.inr (Or.inr rfl)
      · exact Or.inl rfl
    · cases q <;> exact Or.inr (Or.inl rfl)
  unfold escapeByte at hu hfull
  split at hu
  · rename_i h1
    rw [if_pos h1] at hfull
    rcases prefix_pair hu with rfl | rfl | rfl
    · exact Or.inl rfl
    · exact hone _ (Or.inl rfl)
    · exact Or.inl hfull
  · rename_i h1
    rw [if_neg h1] at hfull
    split at hu
    · rename_i h2
      rw [if_pos h2] at hfull
      rcases prefix_pair hu with rfl | rfl | rfl
      · exact Or.inl rfl
      · exact hone _ (Or.inr rfl)
      · exact Or.inl hfull
    · rename_i h2
      rw [if_neg h2] at hfull
      rcases List.prefix_cons_iff.mp hu with rfl | ⟨v, rfl, hv⟩
      · exact Or.inl rfl
      · rw [List.prefix_nil.mp hv]
        exact Or.inl hfull

theorem within_escaped (q : Quote) (value : Bytes) {u : Bytes} (hu : u <+: toSqlValue value) :
    within q ((inStr q).run u) := by
  induction value generalizing u with
  | nil =>
    rw [List.prefix_nil.mp hu]
    exact Or.inl rfl
  | cons c value ih =>
    have e : toSqlValue (c :: value) = escapeByte c ++ toSqlValue value := rfl
    rw [e] at hu
    rcases List.prefix_or_prefix_of_prefix hu (List.prefix_append _ _) with h | ⟨v, rfl⟩
    · exact within_escapeByte q c h
    · rw [run_append, run_escapeByte]
      exact ih ((List.prefix_append_right_inj _).mp hu)

/-- no quote and no backslash -/
def Plain (s : Bytes) : Prop := ∀ b ∈ s, b ≠ squote ∧ b ≠ dquote ∧ b ≠ backslash

instance (s : Bytes) : Decidable (Plain s) := List.decidableBAll _ s

theorem openStep_plain {b : UInt8} (hb : b ≠ squote ∧ b ≠ dquote ∧ b ≠ backslash) :
    openStep b = out := by
  unfold openStep
  rw [if_neg hb.1, if_neg hb.2.1]

theorem ne_byte {b : UInt8} (hb : b ≠ squote ∧ b ≠ dquote ∧ b ≠ backslash) (q : Quote) :
    b ≠ q.byte := by
  cases q
  · exact hb.1
  · exact hb.2.1

theorem run_plain_inStr (q : Quote) {s : Bytes} (hs : Plain s) : (inStr q).run s = inStr q := by
  induction s with
  | nil => rfl
  | cons b s ih =>
    have hb := hs b List.mem_cons_self
    rw [run_cons, step, if_neg (ne_byte hb q), if_neg hb.2.2]
    exact ih fun x hx => hs x (List.mem_cons_of_mem _ hx)

theorem run_plain_out {s : Bytes} (hs : Plain s) : out.run s = out := by
  induction s with
  | nil => rfl
  | cons b s ih =>
    rw [run_cons, step, openStep_plain (hs b List.mem_cons_self)]
    exact ih fun x hx => hs x (List.mem_cons_of_mem _ hx)

theorem run_plain {st : LexState} (hst : st.inside = false) {s : Bytes} (hs : Plain s)
    (hne : s ≠ []) : st.run s = out := by
  cases st with
  | out => exact run_plain_out hs
  | inStr q => exact absurd hst (by simp [inside])
  | esc q => exact absurd hst (by simp [inside])
  | closed q =>
    obtain ⟨b, s, rfl⟩ := List.exists_cons_of_ne_nil hne
    have hb := hs b List.mem_cons_self
    rw [run_cons, step, if_neg (ne_byte hb q), openStep_plain hb]
    exact run_plain_out fun x hx => hs x (List.mem_cons_of_mem _ hx)

end LexState

end ServerHttpLib
