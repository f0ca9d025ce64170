import ServerHttpLib.Sql.Injection

/-!
# Substitution at once

`build_query` replaces the placeholders in successive passes over the growing text.  The outcome
should be that of one pass over the template, with the values never searched for placeholders
(`SubstitutesAtOnce`).  A value with a `$` makes it fail: a later pass may take the text of the
value for its token, and if none does the `$` remains for the assertion at the end.

* `dollar_render`              the rendered template holds a `$` exactly if one of the values does;
* `substitutesAtOnce_iff`      the outcome is that of one pass exactly for values without a `$`
                               that bring about no capture.
-/

namespace ServerHttpLib
open Cutting LexState

/-- the assertion in each pass (it replaced something), and the one behind the last pass -/
def AssertionsHold (templateStr : Bytes) (values : List Bytes) : Prop :=
  (∀ hits ∈ decisions templateStr values, hits ≠ []) ∧ ch '$' ∉ buildQuery templateStr values

instance (templateStr : Bytes) (values : List Bytes) :
    Decidable (AssertionsHold templateStr values) :=
  inferInstanceAs (Decidable (_ ∧ _))

/-- there is a value for each placeholder and a placeholder for each value, and a value that stands
outside of the literals is not empty and free of quotes and backslashes -/
structure Supplied {n : Nat} (t : Template n) (values : List Bytes) : Prop where
  length : values.length = n
  used : ∀ i, i < n → Item.hole i ∈ t.items
  raw : ∀ i, i < n → false ∈ contexts i .out t.items →
    Plain (values.getD i []) ∧ values.getD i [] ≠ []

/-- what `build_query` should do in spite of its passes -/
structure SubstitutesAtOnce {n : Nat} (t : Template n) (values : List Bytes) : Prop where
  /-- all placeholders of the template are replaced, each by its value as its context demands -/
  query : buildQuery (templateText t.items) values = render values 0 .out t.items
  /-- what a pass takes for its token is a placeholder of the template, and no text of a value -/
  hits : decisions (templateText t.items) values
    = (List.range n).reverse.map fun k => contexts k .out t.items
  assertions : AssertionsHold (templateText t.items) values

section
variable {n : Nat} {t : Template n} {values : List Bytes}

theorem Supplied.admissible (hs : Supplied t values) (hv : ∀ v ∈ values, ch '$' ∉ v) :
    Admissible t values := ⟨hs.length, hv, hs.raw⟩

/-! ## `$` in the text -/

theorem mem_escapeByte (c : UInt8) : c ∈ escapeByte c := by
  unfold escapeByte
  split
  · next h =>
    rw [h]
    exact List.mem_cons_self
  · split
    · exact List.mem_cons_of_mem _ (List.mem_singleton_self c)
    · exact List.mem_singleton_self c

/-- no escape hides a character -/
theorem mem_substituted {i : Nat} {c : UInt8} (hc : c ∈ values.getD i []) (quoted : Bool) :
    c ∈ substituted values i quoted := by
  unfold substituted
  split
  · exact List.mem_flatMap.mpr ⟨c, hc, mem_escapeByte c⟩
  · exact hc

theorem substituted_subset_render (values : List Bytes) (st : LexState) {items : List Item}
    {i : Nat} (h : Item.hole i ∈ items) :
    ∃ quoted, substituted values i quoted ⊆ render values 0 st items := by
  induction items generalizing st with
  | nil => exact absurd h List.not_mem_nil
  | cons x items ih =>
    cases x with
    | text c =>
      obtain ⟨quoted, hq⟩ := ih (st.step c) (by simpa using h)
      exact ⟨quoted, List.subset_cons_of_subset c hq⟩
    | hole j =>
      rw [render, if_pos (Nat.zero_le j)]
      rcases List.mem_cons.mp h with he | h
      · obtain rfl : i = j := by simpa using he
        exact ⟨st.inside, List.subset_append_left _ _⟩
      · obtain ⟨quoted, hq⟩ := ih (st.run (placeholder j)) h
        exact ⟨quoted, List.Subset.trans hq (List.subset_append_right _ _)⟩

theorem not_dollar_render (ha : Admissible t values) (st : LexState) {items : List Item}
    (hi : items ⊆ t.items) : ch '$' ∉ render values 0 st items := by
  induction items generalizing st with
  | nil => exact List.not_mem_nil
  | cons x items ih =>
    have hrest := fun st => ih st (List.subset_of_cons_subset hi)
    cases x with
    | text c =>
      rw [render, List.mem_cons, not_or]
      exact ⟨(t.not_dollar (hi List.mem_cons_self)).symm, hrest _⟩
    | hole i =>
      rw [render, if_pos (Nat.zero_le i), List.mem_append, not_or]
      exact ⟨dollar_substituted ha i _, hrest _⟩

/-- **The assertion at the end** holds of the rendered template exactly if no value has a `$`. -/
theorem dollar_render (hs : Supplied t values) :
    ch '$' ∉ render values 0 .out t.items ↔ ∀ v ∈ values, ch '$' ∉ v := by
  constructor
  · intro h v hv hd
    obtain ⟨i, hi, rfl⟩ := List.mem_iff_getElem.mp hv
    have hget : values.getD i [] = values[i] := by
      rw [List.getD_eq_getElem?_getD, List.getElem?_eq_getElem hi, Option.getD_some]
    obtain ⟨quoted, hq⟩ := substituted_subset_render values .out (hs.used i (hs.length ▸ hi))
    exact h (hq (mem_substituted (hget ▸ hd) quoted))
  · exact fun hv => not_dollar_render (hs.admissible hv) .out (List.Subset.refl _)

/-! ## the assertion of a pass -/

theorem contexts_ne_nil {items : List Item} {k : Nat} (h : Item.hole k ∈ items) (st : LexState) :
    contexts k st items ≠ [] := by
  obtain ⟨pre, post, rfl⟩ := List.append_of_mem h
  exact List.ne_nil_of_mem mem_contexts

/-! ## the result -/

/-- **Substitution at once**: the passes do what one pass would, and both assertions hold, exactly
if no value has a `$` and no digits of a value turn a placeholder into the token of another. -/
theorem substitutesAtOnce_iff (t : Template n) (values : List Bytes) (hs : Supplied t values) :
    SubstitutesAtOnce t values ↔ (∀ v ∈ values, ch '$' ∉ v) ∧ NoCapture t values := by
  constructor
  · intro h
    have hfree := h.assertions.2
    rw [h.query, dollar_render hs] at hfree
    exact ⟨hfree, noCapture_of_right (hs.admissible hfree) h.hits⟩
  · rintro ⟨hv, hc⟩
    have hquery := buildQuery_rendered (hs.admissible hv) hc
    have hhits := decisions_rendered (hs.admissible hv) hc
    refine ⟨hquery, hhits, ?_, ?_⟩
    · intro hits hm
      rw [hhits] at hm
      obtain ⟨k, hk, rfl⟩ := List.mem_map.mp hm
      exact contexts_ne_nil (hs.used k (by simpa using hk)) .out
    · rw [hquery, dollar_render hs]
      exact hv

end

def pairTemplate : Template 2 where
  items := [.text squote, .hole 0, .text squote, .text (ch ','), .text squote, .hole 1,
    .text squote]
  fits := by decide
  chain := by decide

theorem supplied_pair (v w : Bytes) : Supplied pairTemplate [v, w] := by
  refine ⟨rfl, by decide, fun i hi h => ?_⟩
  have hquoted : ∀ i < 2, false ∉ contexts i .out pairTemplate.items := by decide
  exact absurd h (hquoted i hi)

theorem substitutesAtOnce_iff_pair :
    SubstitutesAtOnce pairTemplate [str "it's", str "5"] ↔
      (∀ v ∈ [str "it's", str "5"], ch '$' ∉ v) ∧
        NoCapture pairTemplate [str "it's", str "5"] :=
  substitutesAtOnce_iff pairTemplate _ (supplied_pair _ _)

/-- the second value is the token of the first: the field of the one shows the value of the other -/
theorem value_scanned : Supplied pairTemplate [str "secret", str "$0"] ∧
    buildQuery (templateText pairTemplate.items) [str "secret", str "$0"]
      = str "'secret','secret'" ∧
    ¬ SubstitutesAtOnce pairTemplate [str "secret", str "$0"] := by
  refine ⟨supplied_pair _ _, by decide +kernel, fun h => ?_⟩
  exact absurd h.query (by decide +kernel)

end ServerHttpLib
