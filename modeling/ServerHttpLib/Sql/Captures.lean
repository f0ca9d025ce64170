import ServerHttpLib.Lib.Pieces
import ServerHttpLib.Sql.Literals

/-!
# A value that is captured stays in its literal

`build_query` searches a value that it has written for the placeholders of the passes that follow.
Where the values of these passes are names, without quotes and backslashes, the first value is
still one literal; what it denotes is the value with the names in it.

* `replaceAll_escaped`    a pass over an escaped value is the pass over the value;
* `buildQuery_quoted`     the query, with a last value in a literal and names elsewhere;
* `literalsOf_quoted`     its one literal.
-/

namespace ServerHttpLib
open Cutting LexState

/-- a pass that writes the same text in and outside of literals -/
theorem replaceFrom_same (i : Nat) (v done rest : Bytes) :
    (replaceFrom i v v done rest).1 = done ++ replaceAll (placeholder i) v rest := by
  induction rest using cut_induction (placeholder_ne_nil i) generalizing done with
  | last s h => rw [replaceFrom_none i v v h, replaceAll_none h]
  | next s a b h ih =>
    rw [replaceFrom_some i v v h, replaceAll_some (placeholder_ne_nil i) h]
    dsimp only
    rw [ite_self, ih]
    simp only [List.append_assoc]

/-! ## passes over an escaped value -/

theorem escapeByte_plain {b : UInt8} (h : b ≠ squote ∧ b ≠ dquote ∧ b ≠ backslash) :
    escapeByte b = [b] := by
  unfold escapeByte
  rw [if_neg h.1, if_neg (by simp [h.2.1, h.2.2])]

theorem toSqlValue_plain {s : Bytes} (h : Plain s) : toSqlValue s = s := by
  induction s with
  | nil => rfl
  | cons b s ih =>
    show escapeByte b ++ toSqlValue s = _
    rw [escapeByte_plain (h b List.mem_cons_self), ih fun x hx => h x (List.mem_cons_of_mem _ hx)]
    rfl

theorem toSqlValue_append (a b : Bytes) : toSqlValue (a ++ b) = toSqlValue a ++ toSqlValue b :=
  List.flatMap_append

/-- a plain text begins an escaped value exactly if it begins the value -/
theorem plain_isPrefix_escaped {p : Bytes} (hp : Plain p) (s : Bytes) :
    p <+: toSqlValue s ↔ p <+: s := by
  induction s generalizing p with
  | nil => rfl
  | cons c s ih =>
    cases p with
    | nil => exact iff_of_true List.nil_prefix List.nil_prefix
    | cons b p =>
      have hb := hp b List.mem_cons_self
      have hp' : Plain p := fun x hx => hp x (List.mem_cons_of_mem _ hx)
      have e : toSqlValue (c :: s) = escapeByte c ++ toSqlValue s := rfl
      rw [e, List.cons_prefix_cons]
      by_cases hc : c ≠ squote ∧ c ≠ dquote ∧ c ≠ backslash
      · rw [escapeByte_plain hc, List.singleton_append, List.cons_prefix_cons, ih hp']
      · -- the escape begins with a quote or a backslash
        obtain ⟨d, t, hd, hne⟩ : ∃ d t, escapeByte c = d :: t ∧ b ≠ d := by
          unfold escapeByte
          split
          · exact ⟨_, _, rfl, hb.1⟩
          · split
            · exact ⟨_, _, rfl, hb.2.2⟩
            · rename_i h1 h2
              simp only [Bool.or_eq_true, decide_eq_true_eq, not_or] at h2
              exact absurd ⟨h1, h2.2, h2.1⟩ hc
        have hbc : b ≠ c := by
          rintro rfl
          exact hc hb
        rw [hd, List.cons_append, List.cons_prefix_cons]
        exact iff_of_false (fun h => hne h.1) (fun h => hbc h.1)

/-- **A pass over an escaped value** finds the same occurrences as one over the value. -/
theorem replaceAll_escaped (i : Nat) {v : Bytes} (hv : Plain v) (s : Bytes) :
    replaceAll (placeholder i) v (toSqlValue s)
      = toSqlValue (replaceAll (placeholder i) v s) := by
  have hp := placeholder_ne_nil i
  induction hn : s.length using Nat.strong_induction_on generalizing s with
  | _ n ih =>
    by_cases h : placeholder i <+: s
    · obtain ⟨t, rfl⟩ := h
      have hpos := List.length_pos_of_ne_nil hp
      rw [List.length_append] at hn
      rw [toSqlValue_append, toSqlValue_plain (plain_placeholder i), replaceAll_hit hp,
        replaceAll_hit hp, toSqlValue_append, toSqlValue_plain hv, ih t.length (by omega) t rfl]
    · cases s with
      | nil => rw [show toSqlValue [] = [] from rfl, replaceAll_nil hp]; rfl
      | cons c s =>
        rw [List.length_cons] at hn
        rw [replaceAll_skip hp h]
        show replaceAll (placeholder i) v (escapeByte c ++ toSqlValue s)
          = escapeByte c ++ toSqlValue (replaceAll (placeholder i) v s)
        rw [← ih s.length (by omega) s rfl]
        by_cases hc : c ≠ squote ∧ c ≠ dquote ∧ c ≠ backslash
        · rw [escapeByte_plain hc, List.singleton_append, List.singleton_append,
            replaceAll_skip hp fun hpre => h ?_]
          have hcs : toSqlValue (c :: s) = c :: toSqlValue s := by
            show escapeByte c ++ toSqlValue s = _
            rw [escapeByte_plain hc]
            rfl
          exact (plain_isPrefix_escaped (plain_placeholder i) (c :: s)).mp (hcs ▸ hpre)
        · -- none of the characters of the escape is a dollar
          have hfree : ch '$' ∉ escapeByte c := by
            have hquote : ch '$' ≠ squote ∧ ch '$' ≠ dquote ∧ ch '$' ≠ backslash := by decide
            have hne : ch '$' ≠ c := by
              rintro rfl
              exact hc hquote
            unfold escapeByte
            split
            · simp [hquote.1]
            · split
              · simp [hquote.2.2, hne]
              · simp [hne]
          exact replaceAll_free hfree _ _ _

/-! ## passes with names -/

/-- the placeholders below `k` replaced by names, from the highest one down -/
def fillNames (names : List Bytes) : Nat → Bytes → Bytes
  | 0, s => s
  | i + 1, s => fillNames names i (replaceAll (placeholder i) (names.getD i []) s)

section
variable {names : List Bytes}

theorem plain_getD (hnames : ∀ name ∈ names, Plain name) (i : Nat) : Plain (names.getD i []) := by
  rw [List.getD_eq_getElem?_getD]
  cases h : names[i]? with
  | none => exact fun b hb => absurd hb List.not_mem_nil
  | some name => exact hnames name (List.mem_of_getElem? h)

theorem squote_not_mem_placeholder (i : Nat) : squote ∉ placeholder i := fun h =>
  (plain_placeholder i squote h).1 rfl

theorem fillNames_append_cons (k : Nat) (a b : Bytes) :
    fillNames names k (a ++ squote :: b)
      = fillNames names k a ++ squote :: fillNames names k b := by
  induction k generalizing a b with
  | zero => rfl
  | succ i ih =>
    unfold fillNames
    rw [replaceAll_append_cons (placeholder_ne_nil i) (squote_not_mem_placeholder i), ih]

theorem fillNames_escaped (hnames : ∀ name ∈ names, Plain name) (k : Nat) (s : Bytes) :
    fillNames names k (toSqlValue s) = toSqlValue (fillNames names k s) := by
  induction k generalizing s with
  | zero => rfl
  | succ i ih =>
    unfold fillNames
    rw [replaceAll_escaped i (plain_getD hnames i), ih]

theorem fillNames_free {s : Bytes} (hs : ch '$' ∉ s) (k : Nat) : fillNames names k s = s := by
  induction k with
  | zero => rfl
  | succ i ih =>
    have h := replaceAll_free hs (decimal i) (names.getD i []) []
    rw [List.append_nil, replaceAll_nil (List.cons_ne_nil _ _), List.append_nil] at h
    unfold fillNames
    rw [placeholder, h, ih]

theorem buildLoop_names (hnames : ∀ name ∈ names, Plain name) {values : List Bytes} {k : Nat}
    (hk : ∀ i < k, values.getD i [] = names.getD i []) (s : Bytes) :
    (buildLoop values k s).1 = fillNames names k s := by
  induction k generalizing s with
  | zero => rfl
  | succ i ih =>
    have hpass : (replacePass values i s).1 = replaceAll (placeholder i) (names.getD i []) s := by
      unfold replacePass toSqlRawValue
      dsimp only
      rw [hk i (Nat.lt_succ_self i), toSqlValue_plain (plain_getD hnames i), replaceFrom_same,
        List.nil_append]
    unfold buildLoop fillNames
    dsimp only
    rw [hpass]
    exact ih (fun j hj => hk j (Nat.lt_succ_of_lt hj)) _

theorem unbordered_placeholder (i : Nat) : Unbordered (placeholder i) := by
  intro u hne hlen hpre hsuf
  obtain ⟨d, u, rfl⟩ := List.exists_cons_of_ne_nil hne
  obtain rfl : d = ch '$' := (List.cons_prefix_cons.mp hpre).1
  obtain ⟨t, ht⟩ := hsuf
  -- the text begins with the only dollar in the placeholder
  cases t with
  | nil =>
    rw [← ht] at hlen
    exact absurd hlen (lt_irrefl _)
  | cons c t =>
    have htail : t ++ ch '$' :: u = decimal i := (List.cons.inj ht).2
    exact dollar_not_mem_decimal i (htail ▸ List.mem_append_right _ List.mem_cons_self)

/-- **The query with one value in a literal.**  The values of the other placeholders are names: in
the literal they stand where the value has captured them. -/
theorem buildQuery_quoted (hnames : ∀ name ∈ names, Plain name) {pre post : Bytes}
    (hpre : ¬ placeholder names.length <:+: pre ++ [squote])
    (hpost : ¬ placeholder names.length <:+: squote :: post)
    (hin : (out.run (pre ++ [squote])).inside = true) (v : Bytes) :
    buildQuery (pre ++ squote :: (placeholder names.length ++ squote :: post)) (names ++ [v])
      = fillNames names names.length pre ++ squote ::
          (toSqlValue (fillNames names names.length v) ++ squote ::
            fillNames names names.length post) := by
  have hv : (names ++ [v]).getD names.length [] = v := by
    rw [List.getD_eq_getElem?_getD, List.getElem?_concat_length]
    rfl
  have hq : pre ++ squote :: (placeholder names.length ++ squote :: post)
      = (pre ++ [squote]) ++ placeholder names.length ++ squote :: post := by
    simp only [List.append_assoc, List.cons_append, List.nil_append]
  have hcut := cut_of_not_isInfix (unbordered_placeholder names.length) hpre (squote :: post)
  have hpass : (replacePass (names ++ [v]) names.length
      (pre ++ squote :: (placeholder names.length ++ squote :: post))).1
        = pre ++ squote :: (toSqlValue v ++ squote :: post) := by
    unfold replacePass
    dsimp only
    rw [hv, hq, replaceFrom_some _ _ _ hcut, List.nil_append, hin, if_pos rfl,
      replaceFrom_none _ _ _ (cut_eq_none_iff.mpr hpost)]
    simp only [List.append_assoc, List.cons_append, List.nil_append]
  have hrest : ∀ i < names.length, (names ++ [v]).getD i [] = names.getD i [] := by
    intro i hi
    rw [List.getD_eq_getElem?_getD, List.getD_eq_getElem?_getD, List.getElem?_append_left hi]
  unfold buildQuery
  rw [List.length_append, List.length_singleton]
  unfold buildLoop
  dsimp only
  rw [hpass, buildLoop_names hnames hrest, fillNames_append_cons, fillNames_append_cons,
    fillNames_escaped hnames]

end

theorem literalsOf_quoted {pre post : Bytes} (hpre : Plain pre) (hpost : Plain post) (v : Bytes) :
    literalsOf (asItems (pre ++ squote :: (toSqlValue v ++ squote :: post)))
      = [⟨.single, asItems v⟩] := by
  have hopen : (⟨out, [], []⟩ : Reader).step (.text squote) = ⟨inStr .single, [], []⟩ := rfl
  have hclose : (⟨inStr .single, asItems v, []⟩ : Reader).step (.text squote)
      = ⟨closed .single, asItems v, []⟩ := rfl
  have harrives : arrives .single v = v := arrives_eq (by simp)
  have hread : Reader.start.read (asItems (pre ++ squote :: (toSqlValue v ++ squote :: post)))
      = (⟨closed .single, asItems v, []⟩ : Reader).read (asItems post) := by
    rw [asItems_append, Reader.read_append]
    show ((⟨out, [], []⟩ : Reader).read (asItems pre)).read
      (.text squote :: asItems (toSqlValue v ++ squote :: post)) = _
    rw [Reader.read_plain_out hpre, Reader.read_cons, hopen, asItems_append, Reader.read_append,
      reads_value, harrives, List.nil_append]
    show (⟨inStr .single, asItems v, []⟩ : Reader).read (.text squote :: asItems post) = _
    rw [Reader.read_cons, hclose]
  unfold literalsOf
  rw [hread]
  by_cases hne : post = []
  · rw [hne]
    rfl
  · rw [Reader.read_plain rfl hpost hne]
    rfl

end ServerHttpLib
