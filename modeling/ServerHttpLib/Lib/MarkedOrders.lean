import ServerHttpLib.Lib.Marked

/-!
# The passes in every order

If no value is empty, a clash shows: two orders of the passes give different texts.  The induction
is on the number of names and on the text.  When the pass of one name has been made, the orders of
the other names still agree, so that there are no clashes in the text behind it; a clash in the
text before it would be one there, or the text would begin with a value in one order and with a
mark in the other.

* `Agree`                  all orders give the same text;
* `separate_of_agree`      then there are no clashes.
-/

namespace Marked
open Cutting

variable {α : Type*} [DecidableEq α] {mark : α} {env : Env α} {es : List (List α × List α)}
variable {s x k v : List α}

/-- all orders of the passes give the text `x` -/
def Agree (mark : α) (es : List (List α × List α)) (s x : List α) : Prop :=
  ∀ es', es'.Perm es → runPasses mark es' s = x

theorem runPasses_free {u : List α} (hu : mark ∉ u) (es : List (List α × List α)) (s : List α) :
    runPasses mark es (u ++ s) = u ++ runPasses mark es s := by
  induction es generalizing s with
  | nil => rfl
  | cons e es ih =>
    rw [runPasses, List.foldl_cons, token, replaceAll_free hu]
    exact ih _

theorem runPasses_cons (k v : List α) (es : List (List α × List α)) (s : List α) :
    runPasses mark ((k, v) :: es) s = runPasses mark es (replaceAll (token mark k) v s) := rfl

theorem Env.Lists.erase (h : env.Lists es) (hk : env k = some v) :
    (env.without k).Lists (es.erase (k, v)) :=
  (h.perm (List.perm_cons_erase ((h.mem k v).mp hk)).symm).tail.2

theorem Agree.erase (h : Agree mark es s x) (hm : (k, v) ∈ es) :
    Agree mark (es.erase (k, v)) (replaceAll (token mark k) v s) x := by
  intro es' hes
  exact h ((k, v) :: es') ((hes.cons _).trans (List.perm_cons_erase hm).symm)

theorem Agree.char {c : α} (hc : c ≠ mark) (h : Agree mark es (c :: s) x) :
    ∃ x', Agree mark es s x' := by
  refine ⟨x.tail, fun es' hes => ?_⟩
  have hfree : mark ∉ [c] := by simpa using Ne.symm hc
  have hx : c :: runPasses mark es' s = x := (runPasses_free hfree es' s).symm.trans (h es' hes)
  rw [← hx, List.tail_cons]

/-- an environment without empty values, for which the smaller ones are settled -/
structure Smaller (mark : α) (env : Env α) (es : List (List α × List α)) : Prop where
  lists : env.Lists es
  plain : env.Plain mark
  value : ∀ n v, env n = some v → v ≠ []
  settled : ∀ k v, env k = some v → ∀ s x, Agree mark (es.erase (k, v)) s x →
    Separate mark (env.without k) (scan mark (env.without k) s)

/-- the text when the pass of `k` has been made: no clashes, and the values give the outcome -/
theorem Smaller.after (H : Smaller mark env es) (h : Agree mark es s x) (hk : env k = some v) :
    Separate mark (env.without k) (scan mark (env.without k) (replaceAll (token mark k) v s)) ∧
      x = render (env.without k)
        (scan mark (env.without k) (replaceAll (token mark k) v s)) := by
  have hagree := h.erase ((H.lists.mem k v).mp hk)
  have hs := H.settled k v hk _ x hagree
  have hp := H.plain.without k
  refine ⟨hs, ?_⟩
  rw [← runPasses_of_separate (H.lists.erase hk) hp (scanned_scan hp _) hs, textOf_scan hp]
  exact (hagree _ (List.Perm.refl _)).symm

/-- if the outcome begins with a value, then a name stands behind the mark that the pass of `k` has
left at the beginning -/
theorem Smaller.exists_name (H : Smaller mark env es) (h : Agree mark es s x) (hk : env k = some v)
    {s' u z : List α} (htext : replaceAll (token mark k) v s = mark :: s') (hu : mark ∉ u)
    (hne : u ≠ []) (hx : x = u ++ z) :
    ∃ d r, env d = some r ∧ d ≠ k ∧ d ++ [mark] <+: s' := by
  by_contra hnot
  have hno : NoName mark (env.without k) s' := by
    intro d hd hpre
    obtain ⟨hd, hdk⟩ := without_isSome.mp hd
    obtain ⟨r, hr⟩ := Option.isSome_iff_exists.mp hd
    exact hnot ⟨d, r, hr, hdk, hpre⟩
  obtain ⟨-, hrender⟩ := H.after h hk
  rw [htext, scan_mark hno] at hrender
  exact head_ne_mark hu hne (hx.symm.trans hrender)

/-- the passes behind that of `k`, on the text behind what `k` leaves alone -/
theorem Smaller.rest (H : Smaller mark env es) {es' : List (List α × List α)}
    (hes : ((k, v) :: es').Perm es)
    (hs : Separate mark (env.without k) (scan mark (env.without k) s)) :
    runPasses mark es' s = render (env.without k) (scan mark (env.without k) s) := by
  have hp := H.plain.without k
  have hl := (H.lists.perm hes).tail.2
  have hrun := runPasses_of_separate hl hp (scanned_scan hp s) hs
  rwa [textOf_scan hp] at hrun

/-! ## a clash with variables between the marks -/

/-- the clash is still there when one of the variables has been filled in -/
theorem clash_fill (hp : env.Plain mark) (hk : env k = some v) {y : Option (List α)}
    {parts : List (Part α)} {p : Span α} (hmem : p ∈ spans mark env parts) (hj : p.Joins env y)
    (hthrough : k ∈ p.through) : Clash mark (env.without k) y (fill k v parts) := by
  refine (clash_fill_iff hk (hp.value k v hk) fun hy => ?_).mpr ⟨p, hmem, fun hnext => ?_, hj,
    fun htext => ?_⟩
  · exact (hj.last k hy).2 hthrough
  · exact hj.next k hnext hthrough
  · exact hj.text (htext ▸ hthrough)

/-- no clash before parts without clashes, if there is none with the text as it is and none when
one variable has been filled in -/
theorem not_clash_of_fill (hp : env.Plain mark) {y : Option (List α)} {parts : List (Part α)}
    (hs : Scanned mark env parts)
    (hfront : ∀ n, (env n).isSome → y ≠ some n → ¬ n ++ [mark] <+: textOf mark parts)
    (hfill : ∀ k v, env k = some v → y ≠ some k → ¬ Clash mark (env.without k) y (fill k v parts)) :
    ¬ Clash mark env y parts := by
  rintro ⟨p, hmem, hj⟩
  cases hthrough : p.through with
  | nil =>
    obtain ⟨w, hw⟩ := Option.isSome_iff_exists.mp hj.name
    refine hfront p.text hj.name (fun hy => (hj.last _ hy).1 rfl) ?_
    have hspan : ∃ z, ⟨[], p.text, z⟩ ∈ spans mark env parts := by
      refine ⟨p.next, ?_⟩
      rw [← hthrough]
      exact hmem
    exact (mark_isPrefix_iff (hp.name _ w hw)).mpr hspan
  | cons k ks =>
    have hk : k ∈ p.through := hthrough ▸ List.mem_cons_self
    obtain ⟨v, hv⟩ :=
      Option.isSome_iff_exists.mp (isSome_of_mem_scanned hs (mem_through hmem hk))
    exact hfill k v hv (fun hy => (hj.last k hy).2 hk) (clash_fill hp hv hmem hj hk)

/-! ## a variable at the beginning -/

theorem replaceAll_first (hp : env.Plain mark) {l u : List α} (hl : env l = some u)
    (hk : env k = some v) (hne : k ≠ l) (hfree : ¬ k ++ [mark] <+: s) :
    replaceAll (token mark k) v (mark :: (l ++ mark :: s))
      = mark :: (l ++ mark :: replaceAll (token mark k) v s) := by
  rw [replaceAll_var (hp.name l u hl) hne (hp.name k v hk), replaceAll_mark hfree]

/-- behind a variable that no name follows the orders agree -/
theorem Smaller.agree_var (H : Smaller mark env es) {l u : List α} (hl : env l = some u)
    (hfree : ∀ n, (env n).isSome → n ≠ l → ¬ n ++ [mark] <+: s)
    (h : Agree mark es (mark :: (l ++ mark :: s)) x) : ∃ x', Agree mark es s x' := by
  have hu := H.plain.value l u hl
  refine ⟨x.drop u.length, fun es' hes => ?_⟩
  cases es' with
  | nil =>
    have hmem := (H.lists.mem l u).mp hl
    rw [List.nil_perm.mp hes] at hmem
    exact absurd hmem List.not_mem_nil
  | cons e es' =>
    obtain ⟨k, v⟩ := e
    have hk : env k = some v := (H.lists.mem k v).mpr (hes.mem_iff.mp List.mem_cons_self)
    have hx : x = u ++ runPasses mark es' (replaceAll (token mark k) v s) := by
      by_cases hkl : k = l
      · subst hkl
        obtain rfl : v = u := Option.some.inj (hk.symm.trans hl)
        rw [← h _ hes, ← token_append]
        show runPasses mark es' (replaceAll (token mark k) v _) = _
        rw [replaceAll_hit (token_ne_nil k), runPasses_free hu]
      · obtain ⟨hs, hrender⟩ := H.after h hk
        have hl' : env.without k l = some u := (without_of_ne (Ne.symm hkl)).trans hl
        have hsome : (env.without k l).isSome := by
          rw [hl']
          rfl
        rw [replaceAll_first H.plain hl hk hkl (hfree k (by rw [hk]; rfl) hkl),
          scan_var hsome (H.plain.name l u hl)] at hs hrender
        rw [H.rest hes hs.2, hrender]
        show (env.without k l).getD [] ++ _ = _
        rw [hl']
        rfl
    rw [hx, List.drop_left]
    rfl

/-- a name that reaches over `l` and a value does not stand behind them, too -/
theorem not_longer_behind {d l t : List α} (hd : mark ∉ d) (hl : mark ∉ l) (ht : mark ∉ t)
    (hne : t ≠ []) (h : d ++ [mark] <+: l ++ (t ++ replaceAll (token mark k) v s)) :
    ¬ d ++ [mark] <+: s := by
  rintro ⟨s', rfl⟩
  rw [List.append_assoc, token, replaceAll_free hd, ← List.append_assoc t, ← List.append_assoc l]
    at h
  have hshort : d ++ [mark] <+: l ++ (t ++ d) := by
    apply List.prefix_of_prefix_length_le h (List.prefix_append _ _)
    have hlen := List.length_pos_of_ne_nil hne
    simp only [List.length_append, List.length_singleton]
    omega
  have hmem : mark ∈ l ++ (t ++ d) := hshort.subset (by simp)
  simp only [List.mem_append] at hmem
  rcases hmem with hmem | hmem | hmem
  · exact hl hmem
  · exact ht hmem
  · exact hd hmem

/-- **No name follows the variable at the beginning.**  Otherwise the text begins with its value in
one order, and with a mark in another, unless there is a longer name; but that name, taken first,
leaves both. -/
theorem Smaller.not_name_behind (H : Smaller mark env es) {l u w t : List α} (hl : env l = some u)
    (hw : env w = some t) (hne : w ≠ l) (h : Agree mark es (mark :: (l ++ mark :: s)) x) :
    ¬ w ++ [mark] <+: s := by
  rintro ⟨s', rfl⟩
  have hlm := H.plain.name l u hl
  have hwm := H.plain.name w t hw
  have htm := H.plain.value w t hw
  have hs : w ++ [mark] ++ s' = w ++ mark :: s' := by simp
  rw [hs] at h
  -- the pass of `l` first: its value comes first
  have hfirst : x = u ++ runPasses mark (es.erase (l, u))
      (replaceAll (token mark l) u (w ++ mark :: s')) := by
    rw [← runPasses_free (H.plain.value l u hl),
      ← h _ (List.perm_cons_erase ((H.lists.mem l u).mp hl)).symm, ← token_append, runPasses_cons,
      replaceAll_hit (token_ne_nil l)]
  -- the pass of `w` first: it takes the closing mark of `l`
  have hsecond : replaceAll (token mark w) t (mark :: (l ++ mark :: (w ++ mark :: s')))
      = mark :: (l ++ (t ++ replaceAll (token mark w) t s')) := by
    rw [replaceAll_var hlm hne hwm, ← token_append, replaceAll_hit (token_ne_nil w)]
  obtain ⟨d, r, hr, hdw, hpre⟩ :=
    H.exists_name h hw hsecond (H.plain.value l u hl) (H.value l u hl) hfirst
  have hdm := H.plain.name d r hr
  have hdl : d ≠ l := by
    rintro rfl
    rw [List.prefix_append_right_inj] at hpre
    obtain ⟨z, hz⟩ := hpre
    exact head_ne_mark htm (H.value w t hw) hz.symm
  -- the pass of the longer name first: the name still stands behind the variable
  have hbehind : ¬ d ++ [mark] <+: w ++ mark :: s' :=
    fun hp => hdw (eq_of_mark_isPrefix hdm hwm hp)
  have hds := not_longer_behind hdm hlm htm (H.value w t hw) hpre
  obtain ⟨hsep, -⟩ := H.after h hr
  have hl' : (env.without d l).isSome := without_isSome.mpr ⟨by rw [hl]; rfl, Ne.symm hdl⟩
  have hw' : (env.without d w).isSome := without_isSome.mpr ⟨by rw [hw]; rfl, Ne.symm hdw⟩
  rw [replaceAll_first H.plain hl hr hdl hbehind, token, replaceAll_free hwm, ← token,
    replaceAll_mark hds, scan_var hl' hlm] at hsep
  apply hne
  apply eq_of_not_clash (H.plain.without d) hsep.1 hw'
  rw [textOf_scan (H.plain.without d)]
  exact ⟨replaceAll (token mark d) r s', by simp⟩

/-! ## a mark at the beginning -/

/-- a name that stands there when the pass of `k` has been made: `k` is the second segment -/
theorem name_after (hlone : NoName mark env s) (hp : env.Plain mark) {e : List α}
    (he : (env e).isSome) (h : e ++ [mark] <+: replaceAll (token mark k) v s) :
    ∃ g rest, cut [mark] s = some (g, rest) ∧ k ++ [mark] <+: rest := by
  obtain ⟨w, hw⟩ := Option.isSome_iff_exists.mp he
  by_cases hm : mark ∈ s
  · obtain ⟨g, rest, rfl, hg⟩ := List.eq_append_cons_of_mem hm
    refine ⟨g, rest, cut_of_mem_free hg rest, ?_⟩
    by_contra hk
    rw [token, replaceAll_free hg, ← token, replaceAll_mark hk] at h
    have heg : e = g := eq_of_mark_isPrefix (hp.name e w hw) hg h
    exact hlone e he ⟨rest, by rw [heg]; simp⟩
  · have hsame : replaceAll (token mark k) v s = s := by
      have hfree := replaceAll_free hm (k ++ [mark]) v []
      rwa [List.append_nil, replaceAll_nil (List.cons_ne_nil _ _), List.append_nil] at hfree
    rw [hsame] at h
    exact absurd h (hlone e he)

/-- **No pass puts a name behind the mark at the beginning.**  Otherwise the text begins with a
value, in all orders; but only one pass can bring that about. -/
theorem Smaller.noName_after (H : Smaller mark env es) (hlone : NoName mark env s)
    (h : Agree mark es (mark :: s) x) (hk : env k = some v) :
    NoName mark (env.without k) (replaceAll (token mark k) v s) := by
  have hpass : ∀ k v, env k = some v →
      replaceAll (token mark k) v (mark :: s) = mark :: replaceAll (token mark k) v s :=
    fun k v hk => replaceAll_mark (hlone k (by rw [hk]; rfl)) v
  intro d hd hpre
  obtain ⟨hd', hdk⟩ := without_isSome.mp hd
  obtain ⟨r, hr⟩ := Option.isSome_iff_exists.mp hd'
  have hdm := H.plain.name d r hr
  -- so the text begins with the value of `d`
  obtain ⟨q, hq⟩ := hpre
  have hfirst : ∃ z, x = r ++ z := by
    obtain ⟨-, hx⟩ := H.after h hk
    have htext : d ++ [mark] ++ q = d ++ mark :: q := by simp
    rw [hpass k v hk, ← hq, htext, scan_var hd hdm] at hx
    refine ⟨render (env.without k) (scan mark (env.without k) q), hx.trans ?_⟩
    show (env.without k d).getD [] ++ _ = _
    rw [without_of_ne hdk, hr]
    rfl
  obtain ⟨z, hz⟩ := hfirst
  -- and the pass of `d` puts a name there too
  obtain ⟨e, w, he, -, hpre'⟩ :=
    H.exists_name h hr (hpass d r hr) (H.plain.value d r hr) (H.value d r hr) hz
  obtain ⟨g, rest, hcut, hkrest⟩ := name_after hlone H.plain hd' ⟨q, hq⟩
  obtain ⟨g', rest', hcut', hdrest⟩ := name_after hlone H.plain (by rw [he]; rfl) hpre'
  obtain ⟨rfl, rfl⟩ := cut_inj hcut hcut'
  obtain ⟨q', rfl⟩ := hkrest
  rw [List.append_assoc, List.singleton_append] at hdrest
  exact hdk (eq_of_mark_isPrefix hdm (H.plain.name k v hk) hdrest)

theorem Smaller.agree_mark (H : Smaller mark env es) (hlone : NoName mark env s)
    (h : Agree mark es (mark :: s) x) : ∃ x', Agree mark es s x' := by
  refine ⟨x.tail, fun es' hes => ?_⟩
  cases es' with
  | nil =>
    rw [← h [] hes]
    rfl
  | cons e es' =>
    obtain ⟨k, v⟩ := e
    have hk : env k = some v := (H.lists.mem k v).mpr (hes.mem_iff.mp List.mem_cons_self)
    have hno := H.noName_after hlone h hk
    obtain ⟨hs, hx⟩ := H.after h hk
    rw [replaceAll_mark (hlone k (by rw [hk]; rfl)), scan_mark hno] at hs hx
    rw [hx, runPasses_cons, H.rest hes hs.2]
    rfl

/-! ## the result -/

theorem Smaller.separate (H : Smaller mark env es) (h : Agree mark es s x) :
    Separate mark env (scan mark env s) := by
  have hp := H.plain
  induction s using scan_induction hp generalizing x with
  | nil =>
    rw [scan]
    trivial
  | char c s hc ih =>
    obtain ⟨x', h'⟩ := h.char hc
    rw [scan_char hc]
    exact ⟨fun he => absurd he hc, ih h'⟩
  | var l s hl hm ih =>
    obtain ⟨u, hu⟩ := Option.isSome_iff_exists.mp hl
    have hfree : ∀ n, (env n).isSome → n ≠ l → ¬ n ++ [mark] <+: s := by
      intro n hn hne
      obtain ⟨t, ht⟩ := Option.isSome_iff_exists.mp hn
      exact H.not_name_behind hu ht hne h
    obtain ⟨x', h'⟩ := H.agree_var hu hfree h
    have hrest := ih h'
    rw [scan_var hl hm]
    refine ⟨not_clash_of_fill hp (scanned_scan hp s) (fun n hn hne => ?_) fun k v hk hne => ?_,
      hrest⟩
    · rw [textOf_scan hp]
      exact hfree n hn fun he => hne (by rw [he])
    · have hkl : k ≠ l := fun he => hne (by rw [he])
      obtain ⟨hs, -⟩ := H.after h hk
      have hl' : (env.without k l).isSome := without_isSome.mpr ⟨hl, Ne.symm hkl⟩
      have hpass := pass_fill hp hk (scanned_scan hp s) hrest
      rw [textOf_scan hp] at hpass
      rw [replaceAll_first hp hu hk hkl (hfree k (by rw [hk]; rfl) hkl), scan_var hl' hm, hpass,
        scan_textOf (hp.without k) (scanned_fill hp hk (scanned_scan hp s) hrest)] at hs
      exact hs.1
  | lone s hlone ih =>
    obtain ⟨x', h'⟩ := H.agree_mark hlone h
    have hrest := ih h'
    rw [scan_mark hlone]
    refine ⟨fun _ => not_clash_of_fill hp (scanned_scan hp s) (fun n hn _ => ?_)
      fun k v hk _ => ?_, hrest⟩
    · rw [textOf_scan hp]
      exact hlone n hn
    · obtain ⟨hs, -⟩ := H.after h hk
      have hno := H.noName_after hlone h hk
      have hpass := pass_fill hp hk (scanned_scan hp s) hrest
      rw [textOf_scan hp] at hpass
      rw [replaceAll_mark (hlone k (by rw [hk]; rfl)), scan_mark hno, hpass,
        scan_textOf (hp.without k) (scanned_fill hp hk (scanned_scan hp s) hrest)] at hs
      exact hs.1 rfl

/-- **If all orders agree there are no clashes**, provided that no value is empty. -/
theorem separate_of_agree (hl : env.Lists es) (hp : env.Plain mark)
    (hv : ∀ n v, env n = some v → v ≠ []) (h : Agree mark es s x) :
    Separate mark env (scan mark env s) := by
  induction hn : es.length using Nat.strong_induction_on generalizing env es s x with
  | _ n ih =>
    refine Smaller.separate ⟨hl, hp, hv, fun k v hk s x h => ?_⟩ h
    have hmem := (hl.mem k v).mp hk
    have hlen := List.length_pos_of_mem hmem
    refine ih (es.erase (k, v)).length ?_ (hl.erase hk) (hp.without k) (fun n w hw => ?_) h rfl
    · rw [List.length_erase_of_mem hmem]
      omega
    · refine hv n w ?_
      have hne : n ≠ k := (without_isSome.mp (by rw [hw]; rfl)).2
      rwa [without_of_ne hne] at hw

end Marked
