import Mathlib.Algebra.Order.BigOperators.Group.List
import Mathlib.Data.List.Dedup
import Mathlib.Data.List.Perm.Subperm
import ServerHttpLib.Http.Common

/-!
# The text of the parameters

`Params::set` adds to `_len` on every call, also where it overwrites; `to_string` reserves `_len`
and a delimiter for each pair, and asserts that it stays within what it has reserved.

* `toStringLoop_eq`     the assertions hold exactly if the capacity is that of the whole text;
* `textFits_iff`        along a sequence of calls the text is the pairs joined, and the assertions
                        hold, as long as the lengths of all calls together can be reserved.
-/

namespace ServerHttpLib

def pairText (pair : Bytes × Bytes) : Bytes := pair.1 ++ [ch '='] ++ pair.2

/-- what `set` adds to `_len` for a pair -/
def pairSize (pair : Bytes × Bytes) : Nat := pair.1.length + pair.2.length + 1

/-- the loop of `to_string`; `none` if an assertion fails.  The string does not grow out of its
capacity as long as none does. -/
def toStringLoop (capacity : Nat) (delimiter : UInt8) :
    Nat → List (Bytes × Bytes) → Bytes → Option Bytes
  | _, [], res => some res
  | index, pair :: pairs, res =>
    let append := pairText pair
    if capacity < res.length + append.length then none
    else
      let res := res ++ append
      if 0 < index - 1 then
        if capacity ≤ res.length then none
        else toStringLoop capacity delimiter (index - 1) pairs (res ++ [delimiter])
      else toStringLoop capacity delimiter (index - 1) pairs res

/-- `to_string`, for an order in which the map yields its entries and the capacity that
`reserve(n)` provides; `reserve` throws `length_error` above `max_size` -/
def Params.toString (p : Params) (o : AssocMap.Order Bytes Bytes) (capacity : Nat → Nat)
    (delimiter : UInt8) : Option Bytes :=
  let n := sizeT (p.len + p.params.entries.length)
  if maxSize < n then none
  else toStringLoop (capacity n) delimiter p.params.entries.length (o.list p.params) []

def afterSets (sets : List (Bytes × Bytes)) : Params :=
  sets.foldl (fun p e => p.set e.1 e.2) .empty

/-- `_len` covers the stored pairs, and `to_string` joins them without a failing assertion -/
structure TextFits (p : Params) : Prop where
  covered : (p.params.entries.map pairSize).sum ≤ p.len
  text : ∀ o capacity delimiter, (∀ n, n ≤ capacity n) →
    p.toString o capacity delimiter
      = some ([delimiter].intercalate ((o.list p.params).map pairText))

/-! ## the loop -/

theorem length_pairText (pair : Bytes × Bytes) : (pairText pair).length = pairSize pair := by
  simp only [pairText, pairSize, List.length_append, List.length_singleton]
  omega

/-- **The assertions hold** exactly if the capacity is at least the length of the text. -/
theorem toStringLoop_eq (capacity : Nat) (delimiter : UInt8) (pairs : List (Bytes × Bytes))
    (res : Bytes) : toStringLoop capacity delimiter pairs.length pairs res =
      if pairs = [] ∨ res.length + (pairs.map pairSize).sum + (pairs.length - 1) ≤ capacity then
        some (res ++ [delimiter].intercalate (pairs.map pairText))
      else none := by
  induction pairs generalizing res with
  | nil =>
    rw [if_pos (.inl rfl), List.map_nil, List.intercalate_nil, List.append_nil]
    rfl
  | cons pair pairs ih =>
    rw [toStringLoop]
    simp only [List.length_cons, Nat.add_sub_cancel, length_pairText, List.map_cons, List.sum_cons,
      List.cons_ne_nil, false_or]
    cases pairs with
    | nil =>
      simp only [List.length_nil, Nat.lt_irrefl, if_false, toStringLoop, List.map_nil,
        List.sum_nil, List.intercalate_singleton, Nat.add_zero]
      by_cases h : capacity < res.length + pairSize pair
      · rw [if_pos h, if_neg (by omega)]
      · rw [if_neg h, if_pos (by omega)]
    | cons next pairs =>
      have hrec := ih (res ++ pairText pair ++ [delimiter])
      simp only [List.length_cons, List.length_append, length_pairText, List.length_nil,
        List.map_cons, List.sum_cons, List.cons_ne_nil, false_or, Nat.add_sub_cancel] at hrec
      simp only [hrec, List.length_cons, List.length_append, length_pairText, List.map_cons,
        List.sum_cons, List.intercalate_cons_cons]
      by_cases h : res.length + (pairSize pair + (pairSize next + (pairs.map pairSize).sum))
          + (pairs.length + 1) ≤ capacity
      · rw [if_neg (by omega), if_pos (by omega), if_neg (by omega), if_pos (by omega), if_pos h]
        simp only [List.append_assoc]
      · rw [if_neg h]
        split
        · rfl
        · rw [if_pos (by omega)]
          split
          · rfl
          · rw [if_neg (by omega)]

theorem length_order (o : AssocMap.Order Bytes Bytes) (p : Params) :
    (o.list p.params).length = p.params.entries.length := (o.perm p.params).length_eq

theorem sum_order (o : AssocMap.Order Bytes Bytes) (p : Params) :
    ((o.list p.params).map pairSize).sum = (p.params.entries.map pairSize).sum :=
  ((o.perm p.params).map pairSize).sum_nat

/-- `to_string` returns the joined pairs if it can reserve what it needs -/
theorem toString_eq (p : Params) (o : AssocMap.Order Bytes Bytes) (capacity : Nat → Nat)
    (delimiter : UInt8) : p.toString o capacity delimiter =
      if sizeT (p.len + p.params.entries.length) ≤ maxSize ∧
          (p.params.entries = [] ∨ (p.params.entries.map pairSize).sum
            + (p.params.entries.length - 1)
              ≤ capacity (sizeT (p.len + p.params.entries.length))) then
        some ([delimiter].intercalate ((o.list p.params).map pairText))
      else none := by
  have hnil : o.list p.params = [] ↔ p.params.entries = [] := by
    rw [← List.length_eq_zero_iff, length_order, List.length_eq_zero_iff]
  unfold Params.toString
  simp only [← length_order o p, toStringLoop_eq, List.length_nil, Nat.zero_add, sum_order, hnil,
    List.nil_append]
  by_cases h : maxSize < sizeT (p.len + (o.list p.params).length)
  · rw [if_pos h, if_neg fun hc => absurd hc.1 (by omega)]
  · rw [if_neg h]
    simp only [Nat.not_lt.mp h, true_and]

/-! ## sequences of calls -/

theorem afterSets_snoc (sets : List (Bytes × Bytes)) (e : Bytes × Bytes) :
    afterSets (sets ++ [e]) = (afterSets sets).set e.1 e.2 := by
  rw [afterSets, List.foldl_append]
  rfl

/-- `_len` has the lengths of all calls, also of those that were overwritten -/
theorem len_afterSets (sets : List (Bytes × Bytes)) :
    (afterSets sets).len = sizeT (sets.map pairSize).sum := by
  induction sets using List.reverseRecOn with
  | nil => rfl
  | append_singleton sets e ih =>
    rw [afterSets_snoc, List.map_append, List.sum_append, List.map_singleton, List.sum_singleton]
    show sizeT ((afterSets sets).len + pairSize e) = _
    rw [ih, sizeT, sizeT, sizeT, Nat.mod_add_mod]

theorem mem_insertOrAssign {m : AssocMap Bytes Bytes} {k v : Bytes} {e : Bytes × Bytes} :
    e ∈ (m.insertOrAssign k v).entries ↔ e = (k, v) ∨ e.1 ≠ k ∧ e ∈ m.entries := by
  obtain ⟨name, value⟩ := e
  rw [← AssocMap.find?_eq_some_iff, ← AssocMap.find?_eq_some_iff, AssocMap.find?_insertOrAssign,
    Prod.mk.injEq]
  by_cases hk : name = k
  · simp only [hk, if_true, Option.some.injEq, true_and, ne_eq, not_true_eq_false, false_and,
      or_false, eq_comm]
  · simp only [hk, if_false, false_and, false_or, ne_eq, not_false_eq_true, true_and]

theorem entries_afterSets_subset (sets : List (Bytes × Bytes)) :
    (afterSets sets).params.entries ⊆ sets := by
  induction sets using List.reverseRecOn with
  | nil => exact List.Subset.refl _
  | append_singleton sets e ih =>
    rw [afterSets_snoc]
    intro x hx
    rcases mem_insertOrAssign.mp hx with rfl | ⟨-, hx⟩
    · exact List.mem_append_right _ (List.mem_singleton_self _)
    · exact List.mem_append_left _ (ih hx)

theorem names_afterSets (sets : List (Bytes × Bytes)) (name : Bytes) :
    name ∈ (afterSets sets).params.entries.map Prod.fst ↔ name ∈ sets.map Prod.fst := by
  induction sets using List.reverseRecOn with
  | nil => rfl
  | append_singleton sets e ih =>
    rw [afterSets_snoc, List.map_append, List.mem_append, List.map_singleton, List.mem_singleton,
      ← ih, List.mem_map, List.mem_map]
    constructor
    · rintro ⟨x, hx, rfl⟩
      rcases mem_insertOrAssign.mp hx with rfl | ⟨-, hx⟩
      · exact .inr rfl
      · exact .inl ⟨x, hx, rfl⟩
    · rintro (⟨x, hx, rfl⟩ | rfl)
      · by_cases hk : x.1 = e.1
        · exact ⟨(e.1, e.2), mem_insertOrAssign.mpr (.inl rfl), hk.symm⟩
        · exact ⟨x, mem_insertOrAssign.mpr (.inr ⟨hk, hx⟩), rfl⟩
      · exact ⟨(e.1, e.2), mem_insertOrAssign.mpr (.inl rfl), rfl⟩

/-- the number of different names -/
def nameCount (sets : List (Bytes × Bytes)) : Nat := (sets.map Prod.fst).dedup.length

theorem length_afterSets (sets : List (Bytes × Bytes)) :
    (afterSets sets).params.entries.length = nameCount sets := by
  have hperm : ((afterSets sets).params.entries.map Prod.fst).Perm (sets.map Prod.fst).dedup := by
    refine (List.perm_ext_iff_of_nodup (afterSets sets).params.nodup (List.nodup_dedup _)).mpr ?_
    intro name
    rw [names_afterSets, List.mem_dedup]
  rw [nameCount, ← hperm.length_eq, List.length_map]

theorem nameCount_mono {done sets : List (Bytes × Bytes)} (h : done <+: sets) :
    nameCount done ≤ nameCount sets := by
  refine ((List.nodup_dedup _).subperm fun name hn => ?_).length_le
  rw [List.mem_dedup] at hn ⊢
  exact List.map_subset Prod.fst h.subset hn

theorem nameCount_snoc_le (sets : List (Bytes × Bytes)) (e : Bytes × Bytes) :
    nameCount (sets ++ [e]) ≤ nameCount sets + 1 := by
  have hsub : (((sets ++ [e]).map Prod.fst).dedup).Subperm
      (e.1 :: (sets.map Prod.fst).dedup) := by
    refine (List.nodup_dedup _).subperm fun name hn => ?_
    simp only [List.mem_dedup, List.map_append, List.map_singleton, List.mem_append,
      List.mem_singleton] at hn
    rw [List.mem_cons, List.mem_dedup]
    exact hn.symm
  exact hsub.length_le

/-- the stored pairs are no more than what was set -/
theorem stored_le (sets : List (Bytes × Bytes)) :
    ((afterSets sets).params.entries.map pairSize).sum ≤ (sets.map pairSize).sum := by
  obtain ⟨l, hperm, hsub⟩ :=
    (afterSets sets).params.nodup.of_map.subperm (entries_afterSets_subset sets)
  rw [← (hperm.map pairSize).sum_nat]
  exact (hsub.map pairSize).sum_le_sum fun _ _ => Nat.zero_le _

theorem length_le_stored (pairs : List (Bytes × Bytes)) :
    pairs.length ≤ (pairs.map pairSize).sum := by
  induction pairs with
  | nil => exact Nat.zero_le _
  | cons e pairs ih =>
    rw [List.length_cons, List.map_cons, List.sum_cons, pairSize]
    omega

theorem pairSize_le_stored (sets : List (Bytes × Bytes)) (e : Bytes × Bytes) :
    pairSize e ≤ ((afterSets (sets ++ [e])).params.entries.map pairSize).sum := by
  rw [afterSets_snoc]
  exact List.le_sum_of_mem (List.mem_map.mpr ⟨e, mem_insertOrAssign.mpr (.inl rfl), rfl⟩)

/-- the lengths of all calls, and a delimiter for each name -/
def reserved (sets : List (Bytes × Bytes)) : Nat := (sets.map pairSize).sum + nameCount sets

theorem textFits_of_reserved {sets : List (Bytes × Bytes)} (h : reserved sets ≤ maxSize) :
    TextFits (afterSets sets) := by
  have hstored := stored_le sets
  rw [reserved, maxSize] at h
  have hlen : (afterSets sets).len = (sets.map pairSize).sum := by
    rw [len_afterSets, sizeT_of_lt (by omega)]
  refine ⟨hlen ▸ hstored, fun o capacity delimiter hcap => ?_⟩
  have hcap := hcap ((sets.map pairSize).sum + nameCount sets)
  rw [toString_eq, hlen, length_afterSets, sizeT_of_lt (by omega)]
  refine if_pos ⟨h, .inr ?_⟩
  omega

theorem reserved_of_textFits {sets : List (Bytes × Bytes)} {e : Bytes × Bytes}
    (h : reserved sets ≤ maxSize) (hfits : TextFits (afterSets (sets ++ [e]))) :
    reserved (sets ++ [e]) ≤ maxSize := by
  have hcovered := hfits.covered
  have hlast := pairSize_le_stored sets e
  have hcount := nameCount_snoc_le sets e
  have hpairs := length_le_stored (afterSets (sets ++ [e])).params.entries
  have htext := hfits.text .inserted id 0 fun n => Nat.le_refl n
  have hsum : ((sets ++ [e]).map pairSize).sum = (sets.map pairSize).sum + pairSize e := by
    rw [List.map_append, List.sum_append, List.map_singleton, List.sum_singleton]
  rw [reserved, maxSize] at h
  rw [len_afterSets, hsum] at hcovered
  -- the counter has not wrapped: it covers the pair that was set last
  have hnowrap : (sets.map pairSize).sum + pairSize e < 2 ^ 64 := by
    rw [sizeT] at hcovered
    omega
  rw [toString_eq, len_afterSets, hsum, length_afterSets, Option.ite_none_right_eq_some] at htext
  obtain ⟨⟨hmax, hfit⟩, -⟩ := htext
  rw [sizeT_of_lt hnowrap, id, sizeT] at hfit
  rw [sizeT_of_lt hnowrap, sizeT, maxSize] at hmax
  rw [length_afterSets] at hpairs
  rw [reserved, hsum, maxSize]
  rcases hfit with hnil | hfit
  · have hzero := length_afterSets (sets ++ [e])
    rw [hnil, List.length_nil] at hzero
    omega
  · omega

/-- **`to_string` within its reserve.**  Behind every call of a sequence `_len` covers the stored
pairs and `to_string` joins them, exactly if what all calls add up to can be reserved. -/
theorem textFits_iff (sets : List (Bytes × Bytes)) :
    (∀ done, done <+: sets → TextFits (afterSets done)) ↔ reserved sets ≤ maxSize := by
  constructor
  · intro h
    induction sets using List.reverseRecOn with
    | nil => exact Nat.zero_le _
    | append_singleton sets e ih =>
      have hsets := ih fun done hd => h done (hd.trans (List.prefix_append _ _))
      exact reserved_of_textFits hsets (h _ (List.prefix_refl _))
  · rintro h done ⟨rest, rfl⟩
    refine textFits_of_reserved (Nat.le_trans ?_ h)
    have hcount : nameCount done ≤ nameCount (done ++ rest) :=
      nameCount_mono (List.prefix_append _ _)
    rw [reserved, reserved, List.map_append, List.sum_append]
    omega

/-- one pair, set over and over until the counter is back at zero -/
theorem not_textFits_of_wrap {n : Nat} {e : Bytes × Bytes}
    (h : sizeT ((n + 1) * pairSize e) = 0) : ¬ TextFits (afterSets (List.replicate (n + 1) e)) := by
  intro hfits
  have hcovered := hfits.covered
  rw [len_afterSets, List.map_replicate, List.sum_replicate_nat, h, List.replicate_succ']
    at hcovered
  have hlast := pairSize_le_stored (List.replicate n e) e
  rw [pairSize] at hlast
  omega

theorem not_textFits_of_length {value : Bytes} (h : value.length = 2 ^ 32 - 1) :
    ¬ TextFits (afterSets (List.replicate (2 ^ 32 - 1 + 1) ([], value))) := by
  refine not_textFits_of_wrap ?_
  rw [pairSize, h, List.length_nil]
  norm_num [sizeT]

/-- a value of 4 GiB less one byte, set `2^32` times: `_len` is zero -/
theorem len_wraps : ¬ TextFits (afterSets
    (List.replicate (2 ^ 32 - 1 + 1) ([], List.replicate (2 ^ 32 - 1) 120))) :=
  not_textFits_of_length List.length_replicate

end ServerHttpLib
