import ServerHttpLib.Http.Replace
import ServerHttpLib.Sql.Injection

/-!
# `format_indexes`

The values replace the placeholders `$i` from `$0` up, and a placeholder has no end.  So the pass
for `$1` takes the first two characters of `$10`, and behind the pass for `$9` no placeholder is
left.  `build_query`, which goes down from the highest index, is the same as long as it has nothing
to quote.

* `pass_filledLead`       a pass replaces the placeholders whose first digit is its index, in
                          whatever order the passes are made;
* `formatsIndexes_iff`    the template is filled in, as `build_query` does it, and the assertions
                          hold, if and only if there are at most ten values.
-/

namespace ServerHttpLib
open Cutting

/-- one call of the lambda `replace`: the query behind it, and `was_replace` -/
def indexPass (index : Nat) (value query : Bytes) : Bytes × Bool :=
  (replaceText query (placeholder index) value, (cut (placeholder index) query).isSome)

/-- the calls for the values from `index` on -/
def formatFrom : Nat → List Bytes → Bytes → Bytes × List Bool
  | _, [], query => (query, [])
  | index, value :: values, query =>
    let r := indexPass index value query
    let t := formatFrom (index + 1) values r.1
    (t.1, r.2 :: t.2)

def formatIndexes (templateStr : Bytes) (values : List Bytes) : Bytes :=
  (formatFrom 0 values templateStr).1

/-- the assertion in each call, and the one behind the last of them -/
def IndexAssertionsHold (templateStr : Bytes) (values : List Bytes) : Prop :=
  (∀ wasReplace ∈ (formatFrom 0 values templateStr).2, wasReplace = true) ∧
    ch '$' ∉ formatIndexes templateStr values

/-- a placeholder has all the digits that follow it -/
def Item.Delimits : Item → Item → Prop
  | hole _, text c => isDigit c = false
  | _, _ => True

instance : DecidableRel Item.Delimits := fun x y =>
  match x, y with
  | .hole _, .text c => inferInstanceAs (Decidable (isDigit c = false))
  | .hole _, .hole _ => inferInstanceAs (Decidable True)
  | .text _, .text _ => inferInstanceAs (Decidable True)
  | .text _, .hole _ => inferInstanceAs (Decidable True)

/-- a template for `n` values: each `$` begins a placeholder below `n`, and all of them occur -/
structure IndexTemplate (n : Nat) where
  items : List Item
  fits : ∀ x ∈ items, x.Fits n
  chain : items.IsChain Item.Delimits
  used : ∀ i, i < n → Item.hole i ∈ items

/-- the template with each placeholder replaced by its own value -/
def filledIn (values : List Bytes) : List Item → Bytes
  | [] => []
  | .text c :: items => c :: filledIn values items
  | .hole i :: items => values.getD i [] ++ filledIn values items

/-- nothing that `build_query` replaces stands in a literal -/
def NothingQuoted (templateStr : Bytes) (values : List Bytes) : Prop :=
  ∀ hits ∈ decisions templateStr values, ∀ quoted ∈ hits, quoted = false

/-- what is claimed of `format_indexes` -/
structure FormatsIndexes {n : Nat} (t : IndexTemplate n) (values : List Bytes) : Prop where
  query : formatIndexes (templateText t.items) values = filledIn values t.items
  raw : NothingQuoted (templateText t.items) values →
    formatIndexes (templateText t.items) values = buildQuery (templateText t.items) values
  assertions : IndexAssertionsHold (templateText t.items) values

/-! ## the first digit -/

def leadDigit (i : Nat) : Nat := (Numeral.numeral 10 i).headD 0

theorem decimal_lead (i : Nat) : decimal i = digitByte (leadDigit i) :: (decimal i).tail := by
  have hne := Numeral.numeral_ne_nil 10 i
  obtain ⟨d, ds, hd⟩ := List.exists_cons_of_ne_nil hne
  unfold decimal leadDigit
  rw [hd]
  rfl

theorem leadDigit_lt (i : Nat) : leadDigit i < 10 := by
  unfold leadDigit
  cases h : Numeral.numeral 10 i with
  | nil => decide
  | cons d ds => exact Numeral.numeral_lt (by norm_num) (h ▸ List.mem_cons_self)

theorem leadDigit_of_lt {i : Nat} (h : i < 10) : leadDigit i = i ∧ decimal i = [digitByte i] := by
  revert i
  decide +kernel

theorem digitByte_inj {d e : Nat} (hd : d < 10) (he : e < 10) (h : digitByte d = digitByte e) :
    d = e := by
  have htoNat : ∀ {d : Nat}, d < 10 → (digitByte d).toNat = 48 + d := by
    intro d hd
    unfold digitByte
    rw [UInt8.toNat_ofNat']
    omega
  have hval := congrArg UInt8.toNat h
  rw [htoNat hd, htoNat he] at hval
  omega

theorem placeholder_lead (i : Nat) :
    placeholder i = ch '$' :: digitByte (leadDigit i) :: (decimal i).tail := by
  unfold placeholder
  rw [decimal_lead i]
  rfl

theorem placeholder_digit {k : Nat} (hk : k < 10) : placeholder k = [ch '$', digitByte k] := by
  unfold placeholder
  rw [(leadDigit_of_lt hk).2]

theorem dollar_not_mem_tail (i : Nat) : ch '$' ∉ (decimal i).tail :=
  fun h => dollar_not_mem_decimal i (List.mem_of_mem_tail h)

/-! ## one pass -/

variable {n : Nat} {values : List Bytes} {items : List Item}

/-- the template with the placeholders replaced whose first digit is in `done`, by the value of
that digit; the other digits stay -/
def filledLead (values : List Bytes) (done : Nat → Bool) : List Item → Bytes
  | [] => []
  | .text c :: items => c :: filledLead values done items
  | .hole i :: items =>
    (if done (leadDigit i) then values.getD (leadDigit i) [] ++ (decimal i).tail
      else placeholder i) ++ filledLead values done items

theorem replaceAll_lead {i k : Nat} (hk : k < 10) (h : leadDigit i = k) (v s : Bytes) :
    replaceAll (placeholder k) v (placeholder i ++ s)
      = v ++ (decimal i).tail ++ replaceAll (placeholder k) v s := by
  have htoken : placeholder i = placeholder k ++ (decimal i).tail := by
    rw [placeholder_lead i, h, placeholder_digit hk]
    rfl
  rw [htoken, List.append_assoc, replaceAll_hit (placeholder_ne_nil k), placeholder,
    replaceAll_free (dollar_not_mem_tail i), List.append_assoc]

/-- a placeholder with another first digit stays -/
theorem replaceAll_other {i k : Nat} (hk : k < 10) (h : leadDigit i ≠ k) (v s : Bytes) :
    replaceAll (placeholder k) v (placeholder i ++ s)
      = placeholder i ++ replaceAll (placeholder k) v s := by
  have hskip : ¬ placeholder k <+: ch '$' :: (decimal i ++ s) := by
    rw [placeholder_digit hk, decimal_lead i, List.cons_append, List.cons_prefix_cons,
      List.cons_prefix_cons]
    exact fun hp => h (digitByte_inj (leadDigit_lt i) hk hp.2.1.symm)
  show replaceAll _ _ (ch '$' :: (decimal i ++ s)) = ch '$' :: (decimal i ++ _)
  rw [replaceAll_skip (placeholder_ne_nil k) hskip, placeholder,
    replaceAll_free (dollar_not_mem_decimal i)]

/-- **One pass** takes the placeholders whose first digit is its index. -/
theorem pass_filledLead (hf : ∀ x ∈ items, x.Fits n) (hv : ∀ v ∈ values, ch '$' ∉ v) {k : Nat}
    (hk : k < 10) (done : Nat → Bool) :
    replaceText (filledLead values done items) (placeholder k) (values.getD k [])
      = filledLead values (fun d => done d || d == k) items := by
  have hpat := placeholder_ne_nil k
  rw [replaceText_eq_join hpat]
  induction items with
  | nil => exact replaceAll_nil hpat _
  | cons x items ih =>
    have hrest := ih fun y hy => hf y (List.mem_cons_of_mem _ hy)
    cases x with
    | text c =>
      have hc : ch '$' ≠ c := (hf _ List.mem_cons_self : c ≠ ch '$').symm
      rw [filledLead, filledLead, replaceAll_skip hpat (not_placeholder_isPrefix k hc _), hrest]
    | hole i =>
      rw [filledLead, filledLead]
      by_cases hd : done (leadDigit i) = true
      · have hfree : ch '$' ∉ values.getD (leadDigit i) [] ++ (decimal i).tail := by
          rw [List.mem_append, not_or]
          exact ⟨getD_free hv _, dollar_not_mem_tail i⟩
        rw [if_pos hd, if_pos (by rw [hd]; rfl), placeholder, replaceAll_free hfree]
        exact congrArg _ hrest
      · rw [if_neg hd]
        by_cases hlead : leadDigit i = k
        · rw [if_pos (by rw [hlead]; simp), replaceAll_lead hk hlead, hrest, hlead]
        · rw [if_neg (by simpa [hd] using hlead), replaceAll_other hk hlead, hrest]

/-! ## the text between the passes -/

theorem filledLead_none (values : List Bytes) (items : List Item) :
    filledLead values (fun _ => false) items = templateText items := by
  induction items with
  | nil => rfl
  | cons x items ih =>
    cases x with
    | text c => exact congrArg (List.cons c) ih
    | hole i =>
      show (if false = true then _ else placeholder i) ++ _ = placeholder i ++ _
      rw [if_neg Bool.false_ne_true, ih]
      rfl

theorem filledLead_congr {done done' : Nat → Bool}
    (h : ∀ i, Item.hole i ∈ items → done (leadDigit i) = done' (leadDigit i)) :
    filledLead values done items = filledLead values done' items := by
  induction items with
  | nil => rfl
  | cons x items ih =>
    have hrest := ih fun i hi => h i (List.mem_cons_of_mem _ hi)
    cases x with
    | text c => exact congrArg (List.cons c) hrest
    | hole i => rw [filledLead, filledLead, h i List.mem_cons_self, hrest]

theorem filledLead_all (hf : ∀ x ∈ items, x.Fits n) (hn : n ≤ 10) {done : Nat → Bool}
    (hd : ∀ i, i < n → done i = true) : filledLead values done items = filledIn values items := by
  induction items with
  | nil => rfl
  | cons x items ih =>
    have hrest := ih fun y hy => hf y (List.mem_cons_of_mem _ hy)
    cases x with
    | text c => exact congrArg (List.cons c) hrest
    | hole i =>
      have hi : i < n := hf _ List.mem_cons_self
      obtain ⟨hlead, hdecimal⟩ := leadDigit_of_lt (hi.trans_le hn)
      rw [filledLead, filledIn, hlead, if_pos (hd i hi), hdecimal, hrest]
      rw [List.tail_cons, List.append_nil]

theorem dollar_filledLead (hf : ∀ x ∈ items, x.Fits n) (hv : ∀ v ∈ values, ch '$' ∉ v)
    {done : Nat → Bool} (hd : ∀ i, Item.hole i ∈ items → done (leadDigit i) = true) :
    ch '$' ∉ filledLead values done items := by
  induction items with
  | nil => exact List.not_mem_nil
  | cons x items ih =>
    have hrest := ih (fun y hy => hf y (List.mem_cons_of_mem _ hy))
      fun i hi => hd i (List.mem_cons_of_mem _ hi)
    cases x with
    | text c =>
      rw [filledLead, List.mem_cons, not_or]
      exact ⟨(hf _ List.mem_cons_self : c ≠ ch '$').symm, hrest⟩
    | hole i =>
      rw [filledLead, if_pos (hd i List.mem_cons_self), List.mem_append, List.mem_append, not_or,
        not_or]
      exact ⟨⟨getD_free hv _, dollar_not_mem_tail i⟩, hrest⟩

theorem filledLead_append (values : List Bytes) (done : Nat → Bool) (l l' : List Item) :
    filledLead values done (l ++ l') = filledLead values done l ++ filledLead values done l' := by
  induction l with
  | nil => rfl
  | cons x l ih =>
    cases x with
    | text c => exact congrArg (List.cons c) ih
    | hole i => rw [List.cons_append, filledLead, filledLead, ih, List.append_assoc]

/-- a placeholder of one digit stands in the text until its pass -/
theorem cut_filledLead {k : Nat} (hk : k < 10) (h : Item.hole k ∈ items) {done : Nat → Bool}
    (hd : done k = false) : (cut (placeholder k) (filledLead values done items)).isSome := by
  obtain ⟨pre, post, rfl⟩ := List.append_of_mem h
  have hhole : filledLead values done (.hole k :: post)
      = placeholder k ++ filledLead values done post := by
    rw [filledLead, (leadDigit_of_lt hk).1, if_neg (by rw [hd]; simp)]
  have he : filledLead values done (pre ++ .hole k :: post)
      = filledLead values done pre ++ placeholder k ++ filledLead values done post := by
    rw [filledLead_append, hhole, List.append_assoc]
  exact cut_isSome_of_eq he

/-! ## all passes of `format_indexes` -/

theorem formatFrom_append (index : Nat) (us vs : List Bytes) (query : Bytes) :
    formatFrom index (us ++ vs) query
      = ((formatFrom (index + us.length) vs (formatFrom index us query).1).1,
        (formatFrom index us query).2
          ++ (formatFrom (index + us.length) vs (formatFrom index us query).1).2) := by
  induction us generalizing index query with
  | nil => rfl
  | cons u us ih =>
    have hlen : index + (u :: us).length = index + 1 + us.length := by
      rw [List.length_cons]
      omega
    rw [List.cons_append, formatFrom, formatFrom, ih, hlen]
    rfl

/-- the first passes, up to the tenth: each replaces its placeholders, and there are some -/
theorem formatFrom_filledLead (hf : ∀ x ∈ items, x.Fits n) (hu : ∀ i, i < n → Item.hole i ∈ items)
    (hv : ∀ v ∈ values, ch '$' ∉ v) {index : Nat} {us vs : List Bytes}
    (hdrop : values.drop index = us ++ vs) (hn : index + us.length ≤ n)
    (hten : index + us.length ≤ 10) :
    formatFrom index us (filledLead values (fun d => decide (d < index)) items)
      = (filledLead values (fun d => decide (d < index + us.length)) items,
        List.replicate us.length true) := by
  induction us generalizing index with
  | nil => rfl
  | cons u us ih =>
    rw [List.length_cons] at hn hten
    have hget : values.getD index [] = u := by
      have hu : values[index]? = some u := by
        rw [← List.head?_drop, hdrop]
        rfl
      rw [List.getD_eq_getElem?_getD, hu, Option.getD_some]
    have hdrop' : values.drop (index + 1) = us ++ vs := by
      rw [← List.drop_drop, hdrop]
      rfl
    have hindex : index < 10 := by omega
    have hpass := pass_filledLead hf hv hindex fun d => decide (d < index)
    have hdone : (fun d => decide (d < index) || d == index) = fun d => decide (d < index + 1) := by
      funext d
      rw [Bool.eq_iff_iff, Bool.or_eq_true, decide_eq_true_eq, decide_eq_true_eq, beq_iff_eq]
      omega
    rw [hget, hdone] at hpass
    have hfound : (cut (placeholder index)
        (filledLead values (fun d => decide (d < index)) items)).isSome :=
      cut_filledLead hindex (hu index (by omega)) (decide_eq_false (Nat.lt_irrefl index))
    rw [formatFrom, indexPass, hpass, hfound, ih hdrop' (by omega) (by omega), List.length_cons,
      List.replicate_succ, Nat.add_assoc, Nat.add_comm 1]

/-! ## the passes of `build_query` -/

/-- a pass that quotes nothing is that of `replace` -/
theorem replaceFrom_raw (i : Nat) (e r : Bytes) {done rest : Bytes}
    (h : ∀ quoted ∈ (replaceFrom i e r done rest).2, quoted = false) :
    (replaceFrom i e r done rest).1 = done ++ replaceText rest (placeholder i) r := by
  have hpat := placeholder_ne_nil i
  induction rest using cut_induction hpat generalizing done with
  | last s hc => rw [replaceFrom_none i e r hc, replaceText_none hc]
  | next s a b hc ih =>
    rw [replaceFrom_some i e r hc] at h
    rw [replaceFrom_some i e r hc, replaceText_some hpat hc]
    have hout := h _ List.mem_cons_self
    simp only [hout, Bool.false_eq_true, if_false] at h ⊢
    rw [ih fun quoted hm => h quoted (List.mem_cons_of_mem _ hm)]
    simp only [List.append_assoc]

theorem buildLoop_filledLead (hf : ∀ x ∈ items, x.Fits n) (hv : ∀ v ∈ values, ch '$' ∉ v) {m : Nat}
    (hm : m ≤ 10)
    (h : ∀ hits ∈ (buildLoop values m (filledLead values (fun d => decide (m ≤ d)) items)).2,
      ∀ quoted ∈ hits, quoted = false) :
    (buildLoop values m (filledLead values (fun d => decide (m ≤ d)) items)).1
      = filledLead values (fun _ => true) items := by
  induction m with
  | zero => exact filledLead_congr fun i _ => decide_eq_true (Nat.zero_le _)
  | succ m ih =>
    have hdone : (fun d => decide (m + 1 ≤ d) || d == m) = fun d => decide (m ≤ d) := by
      funext d
      rw [Bool.eq_iff_iff, Bool.or_eq_true, decide_eq_true_eq, decide_eq_true_eq, beq_iff_eq]
      omega
    have hpass := pass_filledLead hf hv (by omega : m < 10) fun d => decide (m + 1 ≤ d)
    rw [hdone] at hpass
    have hraw := replaceFrom_raw m _ _ (h _ List.mem_cons_self)
    rw [List.nil_append] at hraw
    have htext : (replacePass values m
        (filledLead values (fun d => decide (m + 1 ≤ d)) items)).1
          = filledLead values (fun d => decide (m ≤ d)) items := hraw.trans hpass
    rw [buildLoop, htext] at h
    rw [buildLoop, htext]
    exact ih (by omega) fun hits hm => h hits (List.mem_cons_of_mem _ hm)

/-! ## the result -/

section
variable (t : IndexTemplate n)

/-- a placeholder of the template is its own first digit -/
theorem IndexTemplate.leadDigit_eq (hn : n ≤ 10) {i : Nat} (h : Item.hole i ∈ t.items) :
    leadDigit i = i ∧ i < n := by
  have hi : i < n := t.fits _ h
  exact ⟨(leadDigit_of_lt (hi.trans_le hn)).1, hi⟩

theorem formatFrom_start (hv : ∀ v ∈ values, ch '$' ∉ v) {us vs : List Bytes}
    (happend : values = us ++ vs) (hn : us.length ≤ n) (hten : us.length ≤ 10) :
    formatFrom 0 us (templateText t.items)
      = (filledLead values (fun d => decide (d < us.length)) t.items,
        List.replicate us.length true) := by
  have hstart : templateText t.items = filledLead values (fun d => decide (d < 0)) t.items := by
    rw [← filledLead_none values]
    exact filledLead_congr fun i _ => (decide_eq_false (Nat.not_lt_zero _)).symm
  have hdrop : values.drop 0 = us ++ vs := happend
  have hrun := formatFrom_filledLead t.fits t.used hv hdrop (by omega) (by omega)
  rwa [← hstart, Nat.zero_add] at hrun

theorem formatFrom_few (hlen : values.length = n) (hv : ∀ v ∈ values, ch '$' ∉ v) (hn : n ≤ 10) :
    formatFrom 0 values (templateText t.items)
      = (filledIn values t.items, List.replicate values.length true) := by
  have hend : filledLead values (fun d => decide (d < values.length)) t.items
      = filledIn values t.items :=
    filledLead_all t.fits hn fun i hi => decide_eq_true (by omega)
  rw [formatFrom_start t hv (List.append_nil values).symm hlen.le (hlen.trans_le hn), hend]

/-- **Ten values at most**: the template is filled in. -/
theorem formatsIndexes_few (hlen : values.length = n) (hv : ∀ v ∈ values, ch '$' ∉ v)
    (hn : n ≤ 10) : FormatsIndexes t values := by
  have hrun := formatFrom_few t hlen hv hn
  have hquery : formatIndexes (templateText t.items) values = filledIn values t.items :=
    congrArg Prod.fst hrun
  have hall : filledLead values (fun _ => true) t.items = filledIn values t.items :=
    filledLead_all t.fits hn fun _ _ => rfl
  refine ⟨hquery, fun hraw => ?_, fun wasReplace hm => ?_, ?_⟩
  · have hstart : templateText t.items
        = filledLead values (fun d => decide (values.length ≤ d)) t.items := by
      rw [← filledLead_none values]
      refine filledLead_congr fun i hi => (decide_eq_false ?_).symm
      obtain ⟨hlead, hlt⟩ := t.leadDigit_eq hn hi
      omega
    unfold NothingQuoted decisions at hraw
    unfold buildQuery
    rw [hstart] at hraw
    rw [hquery, hstart, buildLoop_filledLead t.fits hv (hlen.trans_le hn) hraw, hall]
  · rw [hrun] at hm
    exact List.eq_of_mem_replicate hm
  · rw [hquery, ← hall]
    exact dollar_filledLead t.fits hv fun _ _ => rfl

/-- **Eleven values or more**: the pass for `$10` finds nothing. -/
theorem not_indexAssertionsHold (hlen : values.length = n) (hv : ∀ v ∈ values, ch '$' ∉ v)
    (hn : 10 < n) : ¬ IndexAssertionsHold (templateText t.items) values := by
  rintro ⟨hfound, -⟩
  have hten : (values.take 10).length = 10 := by
    rw [List.length_take]
    omega
  have hrun := formatFrom_start t hv (List.take_append_drop 10 values).symm (by omega) hten.le
  rw [hten] at hrun
  obtain ⟨v, vs, hrest⟩ : ∃ v vs, values.drop 10 = v :: vs := by
    refine List.exists_cons_of_ne_nil fun he => ?_
    rw [List.drop_eq_nil_iff] at he
    omega
  -- behind the first ten passes there is no `$` in the text
  have hnone : cut (placeholder 10)
      (filledLead values (fun d => decide (d < 10)) t.items) = none := by
    rw [cut_eq_none_iff]
    intro hpat
    have hdone : ∀ i, Item.hole i ∈ t.items → decide (leadDigit i < 10) = true :=
      fun i _ => decide_eq_true (leadDigit_lt i)
    exact dollar_filledLead t.fits hv hdone (hpat.subset List.mem_cons_self)
  have hfalse : false ∈ (formatFrom 0 values (templateText t.items)).2 := by
    have hformat := formatFrom_append 0 (values.take 10) (values.drop 10) (templateText t.items)
    rw [List.take_append_drop] at hformat
    rw [hformat, hrun, hrest, hten, formatFrom, indexPass, Nat.zero_add, hnone]
    exact List.mem_append_right _ List.mem_cons_self
  exact absurd (hfound false hfalse) (by simp)

end

/-- **`format_indexes` fills in the template**, as `build_query` does without quotes, and its
assertions hold, if and only if there are at most ten values. -/
theorem formatsIndexes_iff {n : Nat} (t : IndexTemplate n) (values : List Bytes)
    (hlen : values.length = n) (hv : ∀ v ∈ values, ch '$' ∉ v) :
    FormatsIndexes t values ↔ n ≤ 10 := by
  constructor
  · intro h
    by_contra hn
    exact not_indexAssertionsHold t hlen hv (by omega) h.assertions
  · exact formatsIndexes_few t hlen hv

def swapTemplate : IndexTemplate 2 where
  items := [.hole 1, .text (ch '-'), .hole 0]
  fits := by decide
  chain := by decide
  used := by decide

theorem formatsIndexes_iff_swap :
    FormatsIndexes swapTemplate [str "a", str "b"] ↔ 2 ≤ 10 :=
  formatsIndexes_iff swapTemplate [str "a", str "b"] rfl (by decide)

def elevenTemplate : IndexTemplate 11 where
  items := (List.range 11).flatMap fun i => [.text sp, .hole i]
  fits := by decide
  chain := by decide
  used := by decide

def elevenValues : List Bytes := (List.range 11).map fun i => [UInt8.ofNat (97 + i)]

/-- the eleventh value is not written, and its assertion fails -/
theorem eleventh_lost :
    elevenValues.length = 11 ∧ (∀ v ∈ elevenValues, ch '$' ∉ v) ∧
      formatIndexes (templateText elevenTemplate.items) elevenValues
        = str " a b c d e f g h i j b0" ∧
      filledIn elevenValues elevenTemplate.items = str " a b c d e f g h i j k" ∧
      (formatFrom 0 elevenValues (templateText elevenTemplate.items)).2
        = List.replicate 10 true ++ [false] ∧
      ¬ FormatsIndexes elevenTemplate elevenValues := by
  have hquery : formatIndexes (templateText elevenTemplate.items) elevenValues
      = str " a b c d e f g h i j b0" := by decide +kernel
  have hfilled : filledIn elevenValues elevenTemplate.items = str " a b c d e f g h i j k" := by
    decide +kernel
  refine ⟨rfl, by decide +kernel, hquery, hfilled, by decide +kernel, fun h => ?_⟩
  have heq := h.query
  rw [hquery, hfilled] at heq
  exact absurd heq (by decide +kernel)

end ServerHttpLib
