import Mathlib.Data.List.Chain
import ServerHttpLib.Sql.BuildQuery

/-!
# Injection through placeholders

A template is a list of characters and placeholders.  `render values k` is the text in which the
placeholders from index `k` on are replaced, each by its value as its context in the template
demands; `build_query` should compute `render values 0` and decide every context as the template
has it (`SubstitutesSafely`).  It does so as long as no digits that a value puts behind a
placeholder `$j` make it the token of another pass (`NoCapture`):

* `run_render`           a rendered part of the template leaves the lexer where the part does;
* `pass_rendered`        one pass takes `render values (k + 1)` to `render values k`;
* `substitutesSafely_iff`   queries are built safely exactly without captures.
-/

namespace ServerHttpLib
open Cutting LexState

/-! ## templates -/

inductive Item where
  | text (c : UInt8)
  | hole (i : Nat)
  deriving DecidableEq, Repr

def Item.bytes : Item → Bytes
  | text c => [c]
  | hole i => placeholder i

def templateText (items : List Item) : Bytes := items.flatMap Item.bytes

/-- a character that begins no placeholder, or a placeholder for one of `n` values -/
def Item.Fits (n : Nat) : Item → Prop
  | text c => c ≠ ch '$'
  | hole i => i < n

instance (n : Nat) : DecidablePred (Item.Fits n) := fun x =>
  match x with
  | .text c => inferInstanceAs (Decidable (c ≠ ch '$'))
  | .hole i => inferInstanceAs (Decidable (i < n))

/-- what may stand behind what: a placeholder has all the digits that follow it, and none stands
behind a backslash -/
def Item.Follows : Item → Item → Prop
  | hole _, text c => isDigit c = false
  | text c, hole _ => c ≠ backslash
  | _, _ => True

instance : DecidableRel Item.Follows := fun x y =>
  match x, y with
  | .hole _, .text c => inferInstanceAs (Decidable (isDigit c = false))
  | .text c, .hole _ => inferInstanceAs (Decidable (c ≠ backslash))
  | .hole _, .hole _ => inferInstanceAs (Decidable True)
  | .text _, .text _ => inferInstanceAs (Decidable True)

/-- a template for `n` values: each `$` begins a placeholder below `n` -/
structure Template (n : Nat) where
  items : List Item
  fits : ∀ x ∈ items, x.Fits n
  chain : items.IsChain Item.Follows

/-- the state of the lexer behind a part of the template that begins at its start -/
def stateBehind (pre : List Item) : LexState := out.run (templateText pre)

/-- the contexts of the placeholder `k` in the template, in order -/
def contexts (k : Nat) : LexState → List Item → List Bool
  | _, [] => []
  | st, .text c :: items => contexts k (st.step c) items
  | st, .hole i :: items =>
    if i = k then st.inside :: contexts k (st.run (placeholder i)) items
    else contexts k (st.run (placeholder i)) items

/-- the values fit the template: none holds a `$`, and one that stands outside of the literals is
not empty and free of quotes and backslashes -/
structure Admissible {n : Nat} (t : Template n) (values : List Bytes) : Prop where
  length : values.length = n
  dollar : ∀ v ∈ values, ch '$' ∉ v
  raw : ∀ i, i < n → false ∈ contexts i .out t.items →
    Plain (values.getD i []) ∧ values.getD i [] ≠ []

/-- a value as a context demands it -/
def substituted (values : List Bytes) (i : Nat) (quoted : Bool) : Bytes :=
  if quoted then toSqlValue (values.getD i []) else toSqlRawValue (values.getD i [])

/-- the text with the placeholders from `k` on replaced, from the state `st` of the template -/
def render (values : List Bytes) (k : Nat) : LexState → List Item → Bytes
  | _, [] => []
  | st, .text c :: items => c :: render values k (st.step c) items
  | st, .hole i :: items =>
    (if k ≤ i then substituted values i st.inside else placeholder i)
      ++ render values k (st.run (placeholder i)) items

/-- what `build_query` should do with a template -/
structure SubstitutesSafely {n : Nat} (t : Template n) (values : List Bytes) : Prop where
  /-- every decision is the context of its placeholder in the template -/
  decisions : decisions (templateText t.items) values
    = (List.range n).reverse.map fun k => contexts k .out t.items
  /-- every placeholder is replaced by its value as its context demands, and nothing else is -/
  query : buildQuery (templateText t.items) values = render values 0 .out t.items
  /-- the rest of the template is lexed as in the template -/
  states : ∀ pre post, t.items = pre ++ post →
    out.run (render values 0 .out pre) = stateBehind pre
  /-- at no byte of a value the lexer leaves the literal of its placeholder -/
  literal : ∀ pre i post q, t.items = pre ++ .hole i :: post → stateBehind pre = inStr q →
    ∀ u, u <+: substituted values i true → within q (out.run (render values 0 .out pre ++ u))

/-- where the pass `k` begins, no placeholder of a lower index and the text behind it begin with
its token -/
def NoCaptureAt (items : List Item) (values : List Bytes) (k : Nat) : Prop :=
  ∀ pre j post, items = pre ++ .hole j :: post → j < k →
    ¬ placeholder k <+: placeholder j
      ++ render values (k + 1) (stateBehind (pre ++ [.hole j])) post

def NoCapture {n : Nat} (t : Template n) (values : List Bytes) : Prop :=
  ∀ k, k < n → NoCaptureAt t.items values k

/-! ## the template and its text -/

theorem stateBehind_snoc (pre : List Item) (x : Item) :
    stateBehind (pre ++ [x]) = (stateBehind pre).run x.bytes := by
  unfold stateBehind templateText
  rw [List.flatMap_append, run_append, List.flatMap_singleton]

theorem render_snoc (values : List Bytes) (k : Nat) (st : LexState) (pre : List Item) (x : Item) :
    render values k st (pre ++ [x])
      = render values k st pre ++ render values k (st.run (templateText pre)) [x] := by
  induction pre generalizing st with
  | nil => rfl
  | cons y pre ih =>
    cases y with
    | text c =>
      rw [List.cons_append, render, render, ih]
      rfl
    | hole i =>
      have e : st.run (templateText (.hole i :: pre))
          = (st.run (placeholder i)).run (templateText pre) := run_append _ _ _
      rw [List.cons_append, render, render, ih, e, List.append_assoc]

theorem plain_placeholder (i : Nat) : Plain (placeholder i) := by
  intro b hb
  rcases List.mem_cons.mp hb with rfl | hb
  · decide
  · have hd := isDigit_decimal hb
    refine ⟨?_, ?_, ?_⟩ <;> rintro rfl <;> exact absurd hd (by decide)

/-- behind text the lexer has just read a backslash only if the text ends in one -/
theorem getLast_of_run_eq_esc {st : LexState} {q : Quote} {s : Bytes} (hs : s ≠ [])
    (h : st.run s = esc q) : s.getLast? = some backslash := by
  obtain ⟨s, c, rfl⟩ : ∃ s' c, s = s' ++ [c] := 
    ⟨s.dropLast, s.getLast hs, (List.dropLast_append_getLast hs).symm⟩
  rw [run_append, run_cons, run_nil] at h
  rw [List.getLast?_append_of_ne_nil _ (by simp), List.getLast?_singleton]
  have hopen : ∀ c, openStep c ≠ esc q := by
    intro c
    unfold openStep
    split
    · simp
    · split <;> simp
  cases hst : st.run s with
  | out =>
    rw [hst, step] at h
    exact absurd h (hopen c)
  | inStr p =>
    rw [hst, step] at h
    split at h
    · exact absurd h (by simp)
    · split at h
      · rename_i hc
        rw [hc]
      · exact absurd h (by simp)
  | esc p =>
    rw [hst, step] at h
    exact absurd h (by simp)
  | closed p =>
    rw [hst, step] at h
    split at h
    · exact absurd h (by simp)
    · exact absurd h (hopen c)

section
variable {n : Nat} (t : Template n) {values : List Bytes}

theorem Template.not_dollar {c : UInt8} (h : Item.text c ∈ t.items) : c ≠ ch '$' := t.fits _ h

theorem Template.unescaped {pre post : List Item} {i : Nat} {c : UInt8}
    (h : t.items = pre ++ [.text c] ++ .hole i :: post) : c ≠ backslash := by
  have hc := t.chain
  rw [h, List.append_assoc, List.singleton_append, List.isChain_append_cons_cons] at hc
  exact hc.2.1

theorem mem_contexts {st : LexState} {pre post : List Item} {i : Nat} :
    (st.run (templateText pre)).inside ∈ contexts i st (pre ++ .hole i :: post) := by
  induction pre generalizing st with
  | nil =>
    rw [List.nil_append, contexts, if_pos rfl]
    exact List.mem_cons_self
  | cons x pre ih =>
    cases x with
    | text c => exact ih
    | hole j =>
      have e : st.run (templateText (.hole j :: pre))
          = (st.run (placeholder j)).run (templateText pre) := run_append _ _ _
      rw [List.cons_append, contexts, e]
      split
      · exact List.mem_cons_of_mem _ ih
      · exact ih

/-- no placeholder stands behind the backslash of an escape -/
theorem stateBehind_ne_esc {pre post : List Item} {i : Nat} (h : t.items = pre ++ .hole i :: post)
    (q : Quote) : stateBehind pre ≠ esc q := by
  intro he
  rcases List.eq_nil_or_concat' pre with rfl | ⟨pre', x, rfl⟩
  · exact absurd he (by simp [stateBehind, templateText, run])
  · rw [stateBehind_snoc] at he
    cases x with
    | text c =>
      have hc := getLast_of_run_eq_esc (List.cons_ne_nil c []) he
      rw [List.getLast?_singleton, Option.some.injEq] at hc
      exact t.unescaped h hc
    | hole j =>
      have hb := getLast_of_run_eq_esc (List.cons_ne_nil _ _) he
      exact (plain_placeholder j _ (List.mem_of_getLast? hb)).2.2 rfl

theorem state_cases {pre post : List Item} {i : Nat} (h : t.items = pre ++ .hole i :: post) :
    (∃ q, stateBehind pre = inStr q) ∨ (stateBehind pre).inside = false := by
  have hesc := stateBehind_ne_esc t h
  cases hst : stateBehind pre with
  | out => exact Or.inr rfl
  | inStr q => exact Or.inl ⟨q, rfl⟩
  | esc q => exact absurd hst (hesc q)
  | closed q => exact Or.inr rfl

variable {t}

/-- **A value leaves the lexer where its placeholder does.** -/
theorem run_substituted (ha : Admissible t values) {pre post : List Item} {i : Nat}
    (h : t.items = pre ++ .hole i :: post) :
    (stateBehind pre).run (substituted values i (stateBehind pre).inside)
      = (stateBehind pre).run (placeholder i) := by
  unfold substituted
  rcases state_cases t h with ⟨q, hq⟩ | hout
  · rw [hq, run_plain_inStr q (plain_placeholder i)]
    exact run_escaped q _
  · have hi : i < n := t.fits (.hole i) (by rw [h]; simp)
    have hmem : false ∈ contexts i .out t.items := by
      rw [h, ← hout]
      exact mem_contexts
    obtain ⟨hp, hne⟩ := ha.raw i hi hmem
    rw [hout, run_plain hout (plain_placeholder i) (List.cons_ne_nil _ _)]
    exact run_plain hout hp hne

theorem run_render (ha : Admissible t values) (k : Nat) {pre post : List Item}
    (h : t.items = pre ++ post) : out.run (render values k .out pre) = stateBehind pre := by
  induction pre using List.reverseRecOn generalizing post with
  | nil => rfl
  | append_singleton pre x ih =>
    have h' : t.items = pre ++ x :: post := by rw [h, List.append_assoc]; rfl
    have hpre := ih h'
    rw [render_snoc, run_append, hpre, stateBehind_snoc]
    show (stateBehind pre).run (render values k (stateBehind pre) [x]) = _
    cases x with
    | text c => rfl
    | hole i =>
      rw [render, render, List.append_nil]
      split
      · exact run_substituted ha h'
      · rfl

theorem getD_free (hv : ∀ v ∈ values, ch '$' ∉ v) (i : Nat) : ch '$' ∉ values.getD i [] := by
  rw [List.getD_eq_getElem?_getD]
  cases h : values[i]? with
  | none => exact List.not_mem_nil
  | some v => exact hv v (List.mem_of_getElem? h)

theorem dollar_substituted (ha : Admissible t values) (i : Nat) (quoted : Bool) :
    ch '$' ∉ substituted values i quoted := by
  have hv : ch '$' ∉ values.getD i [] := getD_free ha.dollar i
  unfold substituted
  split
  · intro hm
    obtain ⟨c, hc, hb⟩ := List.mem_flatMap.mp hm
    unfold escapeByte at hb
    split at hb
    · exact absurd hb (by decide)
    · split at hb
      · rcases List.mem_cons.mp hb with hb | hb
        · exact absurd hb (by decide)
        · exact hv (List.mem_singleton.mp hb ▸ hc)
      · exact hv (List.mem_singleton.mp hb ▸ hc)
  · exact hv

/-! ## one pass -/

theorem getD_bytes {k : Nat} (st : LexState) :
    (if st.inside then toSqlValue (values.getD k []) else toSqlRawValue (values.getD k []))
      = substituted values k st.inside := rfl

theorem render_hole {k i : Nat} (hi : k ≤ i) (pre : List Item) :
    render values k .out (pre ++ [.hole i])
      = render values k .out pre ++ substituted values i (stateBehind pre).inside := by
  rw [render_snoc, render, render, if_pos hi, List.append_nil]
  rfl

/-- **One pass**: the part `pre` is written, the rest is as the passes before left it -/
theorem pass_rendered (ha : Admissible t values) {k : Nat} (hc : NoCaptureAt t.items values k)
    (pre : List Item) {post : List Item} (h : t.items = pre ++ post) :
    replaceFrom k (toSqlValue (values.getD k [])) (toSqlRawValue (values.getD k []))
        (render values k .out pre) (render values (k + 1) (stateBehind pre) post)
      = (render values k .out t.items, contexts k (stateBehind pre) post) := by
  induction post generalizing pre with
  | nil =>
    rw [List.append_nil] at h
    rw [render, replaceFrom_nil, contexts, h]
  | cons x post ih =>
    have h' : t.items = (pre ++ [x]) ++ post := by rw [h, List.append_assoc]; rfl
    have hrest := ih _ h'
    rw [stateBehind_snoc] at hrest
    cases x with
    | text c =>
      have hd : c ≠ ch '$' := t.not_dollar (by rw [h]; simp)
      have hfree : ch '$' ∉ [c] := by simpa using hd.symm
      rw [render_snoc] at hrest
      rw [render, contexts]
      exact (replaceFrom_free k _ _ hfree _ _).trans hrest
    | hole i =>
      have hb : (Item.hole i).bytes = placeholder i := rfl
      rw [hb] at hrest
      rw [render, contexts]
      rcases Nat.lt_trichotomy i k with hlt | rfl | hgt
      · -- a placeholder of a later pass: the token does not begin here
        have hcap := hc pre i post h hlt
        rw [stateBehind_snoc, hb] at hcap
        rw [if_neg (by omega), if_neg (by omega), replaceFrom_other k _ _ hcap]
        rw [render_snoc, render, render, if_neg (by omega), List.append_nil] at hrest
        exact hrest
      · -- a placeholder of this pass
        rw [if_neg (by omega), if_pos rfl, replaceFrom_hit, run_render ha i h, getD_bytes,
          ← render_hole (le_refl i), hrest]
      · rw [if_pos (by omega), if_neg (by omega),
          replaceFrom_free k _ _ (dollar_substituted ha i _)]
        rw [render_hole (by omega)] at hrest
        exact hrest

/-- `NoCaptureAt` for the part `post` of a template, behind the part `pre` -/
def NoCaptureBehind (values : List Bytes) (k : Nat) (pre post : List Item) : Prop :=
  ∀ pre' j post', post = pre' ++ .hole j :: post' → j < k →
    ¬ placeholder k <+: placeholder j
      ++ render values (k + 1) (stateBehind (pre ++ pre' ++ [.hole j])) post'

/-- a capture is one of the first item, or one of the rest -/
theorem NoCaptureBehind.cons {k : Nat} {pre post : List Item} {x : Item}
    (hrest : NoCaptureBehind values k (pre ++ [x]) post)
    (hfirst : ∀ j, x = .hole j → j < k → ¬ placeholder k <+: placeholder j
      ++ render values (k + 1) ((stateBehind pre).run x.bytes) post) :
    NoCaptureBehind values k pre (x :: post) := by
  intro pre' j post' he hj
  cases pre' with
  | nil =>
    rw [List.nil_append, List.cons.injEq] at he
    obtain ⟨rfl, rfl⟩ := he
    rw [List.append_nil, stateBehind_snoc]
    exact hfirst j rfl hj
  | cons y pre' =>
    rw [List.cons_append, List.cons.injEq] at he
    have := hrest pre' j post' he.2 hj
    rwa [List.append_assoc pre [x] pre', List.singleton_append, he.1] at this

/-- the decisions of a pass are at least as many as its placeholders; they are more if it takes
one of a lower index for its own -/
theorem occurrences_rendered (ha : Admissible t values) (k : Nat) (pre : List Item)
    {post : List Item} (h : t.items = pre ++ post) :
    (contexts k (stateBehind pre) post).length
        ≤ occurrences k (render values (k + 1) (stateBehind pre) post) ∧
      (occurrences k (render values (k + 1) (stateBehind pre) post)
          = (contexts k (stateBehind pre) post).length → NoCaptureBehind values k pre post) := by
  induction post generalizing pre with
  | nil =>
    refine ⟨le_refl 0, fun _ pre' j post' he => ?_⟩
    exact absurd he.symm (by simp)
  | cons x post ih =>
    have h' : t.items = (pre ++ [x]) ++ post := by rw [h, List.append_assoc]; rfl
    obtain ⟨hle, hno⟩ := ih _ h'
    rw [stateBehind_snoc] at hle hno
    cases x with
    | text c =>
      have hd : c ≠ ch '$' := t.not_dollar (by rw [h]; simp)
      have hfree : ch '$' ∉ [c] := by simpa using hd.symm
      have hocc : occurrences k (render values (k + 1) (stateBehind pre) (.text c :: post))
          = occurrences k (render values (k + 1) ((stateBehind pre).step c) post) :=
        occurrences_free k hfree _
      refine ⟨hocc ▸ hle, fun heq => (hno (hocc.symm.trans heq)).cons fun j hj => ?_⟩
      exact absurd hj (by simp)
    | hole i =>
      have hb : (Item.hole i).bytes = placeholder i := rfl
      rw [hb] at hle hno
      rw [render, contexts]
      rcases Nat.lt_trichotomy i k with hlt | rfl | hgt
      · rw [if_neg (by omega), if_neg (by omega), occurrences_placeholder]
        refine ⟨by omega, fun heq => (hno (by omega)).cons fun j hj _ => ?_⟩
        obtain rfl : i = j := by simpa using hj
        intro hcap
        rw [hb] at hcap
        rw [if_pos hcap] at heq
        omega
      · rw [if_pos rfl, if_neg (by omega), occurrences_placeholder,
          if_pos (List.prefix_append _ _), List.length_cons]
        refine ⟨by omega, fun heq => (hno (by omega)).cons fun j hj hlt => ?_⟩
        obtain rfl : i = j := by simpa using hj
        exact absurd hlt (lt_irrefl i)
      · rw [if_neg (by omega), if_pos (by omega), occurrences_free k (dollar_substituted ha i _)]
        refine ⟨hle, fun heq => (hno heq).cons fun j hj hlt => ?_⟩
        obtain rfl : i = j := by simpa using hj
        omega

/-! ## all passes -/

theorem render_all {st : LexState} {items : List Item} (hb : ∀ i, Item.hole i ∈ items → i < n) :
    render values n st items = templateText items := by
  induction items generalizing st with
  | nil => rfl
  | cons x items ih =>
    have hb' : ∀ i, Item.hole i ∈ items → i < n := fun i hi => hb i (List.mem_cons_of_mem _ hi)
    cases x with
    | text c =>
      rw [render, ih hb']
      rfl
    | hole i =>
      have hi := hb i List.mem_cons_self
      rw [render, if_neg (by omega), ih hb']
      rfl

/-- the decisions that the passes below `m` should take -/
def allContexts (items : List Item) (m : Nat) : List (List Bool) :=
  (List.range m).reverse.map fun k => contexts k .out items

theorem allContexts_succ (items : List Item) (m : Nat) :
    allContexts items (m + 1) = contexts m .out items :: allContexts items m := by
  simp [allContexts, List.range_succ]

theorem replacePass_rendered (ha : Admissible t values) {k : Nat}
    (hc : NoCaptureAt t.items values k) :
    replacePass values k (render values (k + 1) .out t.items)
      = (render values k .out t.items, contexts k .out t.items) :=
  pass_rendered ha hc [] rfl

theorem buildLoop_rendered (ha : Admissible t values) {m : Nat}
    (hc : ∀ k, k < m → NoCaptureAt t.items values k) :
    buildLoop values m (render values m .out t.items)
      = (render values 0 .out t.items, allContexts t.items m) := by
  induction m with
  | zero => rfl
  | succ m ih =>
    rw [buildLoop, replacePass_rendered ha (hc m (Nat.lt_succ_self m)), allContexts_succ,
      ih fun k hk => hc k (Nat.lt_succ_of_lt hk)]

/-- the right decisions leave no room for a capture -/
theorem noCapture_of_decisions (ha : Admissible t values) {m : Nat}
    (h : (buildLoop values m (render values m .out t.items)).2 = allContexts t.items m) :
    ∀ k, k < m → NoCaptureAt t.items values k := by
  induction m with
  | zero => exact fun k hk => absurd hk (Nat.not_lt_zero k)
  | succ m ih =>
    rw [buildLoop, allContexts_succ, List.cons.injEq] at h
    have hm : NoCaptureAt t.items values m := by
      have hlen := congrArg List.length h.1
      rw [replacePass, length_replaceFrom _ _ _ _ (le_refl _)] at hlen
      exact (occurrences_rendered ha m [] rfl).2 hlen
    rw [replacePass_rendered ha hm] at h
    intro k hk
    rcases Nat.lt_succ_iff_lt_or_eq.mp hk with hk | rfl
    · exact ih h.2 k hk
    · exact hm

theorem templateText_eq_render : templateText t.items = render values n .out t.items :=
  (render_all fun _ hi => t.fits _ hi).symm

/-- without captures the query is the template with its values -/
theorem buildQuery_rendered (ha : Admissible t values) (hc : NoCapture t values) :
    buildQuery (templateText t.items) values = render values 0 .out t.items := by
  rw [buildQuery, ha.length, templateText_eq_render, buildLoop_rendered ha hc]

theorem decisions_rendered (ha : Admissible t values) (hc : NoCapture t values) :
    decisions (templateText t.items) values
      = (List.range n).reverse.map fun k => contexts k .out t.items := by
  rw [decisions, ha.length, templateText_eq_render, buildLoop_rendered ha hc]
  rfl

theorem noCapture_of_right (ha : Admissible t values)
    (h : decisions (templateText t.items) values
      = (List.range n).reverse.map fun k => contexts k .out t.items) : NoCapture t values := by
  rw [decisions, ha.length, templateText_eq_render] at h
  exact noCapture_of_decisions ha h

end

/-- **Queries are built safely exactly without captures.** -/
theorem substitutesSafely_iff {n : Nat} (t : Template n) (values : List Bytes)
    (ha : Admissible t values) : SubstitutesSafely t values ↔ NoCapture t values := by
  constructor
  · exact fun h => noCapture_of_right ha h.decisions
  · intro hc
    refine ⟨decisions_rendered ha hc, buildQuery_rendered ha hc,
      fun pre post h => run_render ha 0 h, ?_⟩
    intro pre i post q h hq u hu
    rw [run_append, run_render ha 0 h, hq]
    exact within_escaped q _ hu

/-! ## templates without captures -/

/-- no two placeholders stand side by side -/
def Item.Separated : Item → Item → Prop
  | hole _, hole _ => False
  | _, _ => True

theorem eq_of_decimal_isPrefix {j k : Nat} (hj : j ≤ k) (h : decimal k <+: decimal j) : j = k := by
  have h1 := h.map digitVal
  rw [map_digitVal_decimal, map_digitVal_decimal] at h1
  exact Numeral.eq_of_numeral_isPrefix (by norm_num) hj h1

theorem eq_of_placeholder_isPrefix {j k : Nat} (hj : j ≤ k) {s : Bytes}
    (hs : ∀ c, s.head? = some c → isDigit c = false)
    (h : placeholder k <+: placeholder j ++ s) : j = k := by
  have h1 : decimal k <+: decimal j ++ s := by
    simpa only [placeholder, List.cons_append, List.cons_prefix_cons, true_and] using h
  rcases List.prefix_or_prefix_of_prefix h1 (List.prefix_append _ s) with h2 | ⟨u, hu⟩
  · exact eq_of_decimal_isPrefix hj h2
  · cases u with
    | nil => exact eq_of_decimal_isPrefix hj (by rw [← hu, List.append_nil])
    | cons c u =>
      rw [← hu, List.prefix_append_right_inj] at h1
      obtain ⟨v, rfl⟩ := h1
      have hd : isDigit c = true := isDigit_decimal (n := k) (hu ▸ by simp)
      rw [hs c rfl] at hd
      exact absurd hd (by simp)

/-- **Placeholders that are separated by text are never captured.** -/
theorem noCapture_of_separated {n : Nat} (t : Template n) (values : List Bytes)
    (hsep : t.items.IsChain Item.Separated) : NoCapture t values := by
  intro k hk pre j post h hj hcap
  refine absurd (eq_of_placeholder_isPrefix hj.le (fun c hc => ?_) hcap) hj.ne
  cases post with
  | nil => exact absurd hc (by simp [render])
  | cons x post =>
    have hf := t.chain
    rw [h, List.isChain_append_cons_cons] at hf hsep
    cases x with
    | text d =>
      obtain rfl : d = c := by simpa [render] using hc
      exact hf.2.1
    | hole i => exact absurd hsep.2.1 id

def selectTemplate : Template 2 where
  items := (str "SELECT '").map .text ++ [.hole 0] ++ (str "', ").map .text ++ [.hole 1]
  fits := by decide
  chain := by decide

theorem substitutesSafely_iff_select :
    SubstitutesSafely selectTemplate [str "x' OR '1", str "7"] ↔
      NoCapture selectTemplate [str "x' OR '1", str "7"] :=
  substitutesSafely_iff selectTemplate _ ⟨rfl, by decide, by decide +kernel⟩

/-- `$1$20,'$15'`, where the value of `$20` makes `$1` the token of `$15`; the other placeholders
follow, each behind a blank -/
def captureTemplate : Template 21 where
  items := [.hole 1, .hole 20, .text (ch ','), .text squote, .hole 15, .text squote]
    ++ ((List.range 21).erase 15).flatMap fun i => [.text sp, .hole i]
  fits := by decide
  chain := by decide

def captureValues : List Bytes :=
  ((List.replicate 21 (str "0")).set 20 (str "5")).set 15 (str "' OR 1=1 -- ")

/-- the value of `$15`, which belongs in a literal, is written unescaped in the place of `$1` -/
theorem placeholder_captured : Admissible captureTemplate captureValues ∧
    str "' OR 1=1 -- ,'' OR 1=1 -- ' 0 0"
      <+: buildQuery (templateText captureTemplate.items) captureValues ∧
    ¬ SubstitutesSafely captureTemplate captureValues := by
  refine ⟨⟨rfl, by decide +kernel, by decide +kernel⟩, by decide +kernel, fun h => ?_⟩
  exact absurd h.decisions (by decide +kernel)

end ServerHttpLib
