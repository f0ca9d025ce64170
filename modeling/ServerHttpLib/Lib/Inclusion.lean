import ServerHttpLib.Lib.Recency

/-!
# Recency lists of two capacities

A recency list lies within another one if it is a sublist of it, and the other one has at most `d`
items more (`Within`).  Where all items have one size, dropping what does not fit keeps a number
of items that depends on the capacity only, and a list within another one stays within it.

* `sublist_take`    the first items of a sublist are among the first items, `d` more of them;
* `keep_items`      with one size, what is kept is a number of items;
* `Within.live`, `Within.erase`, `Within.put`, `Within.put_right`, `Within.keep`
                    the operations on both lists, and a use that only the larger one sees.
-/

namespace Recency

section
variable {α : Type*} {l m : List α} {d : ℕ}

/-- a list with `d` items more has the first items of the sublist among its own, `d` more -/
theorem sublist_take (h : l.Sublist m) (hd : m.length ≤ l.length + d) (c : ℕ) :
    (l.take c).Sublist (m.take (c + d)) := by
  induction h generalizing c d with
  | slnil =>
    rw [List.take_nil]
    exact List.nil_sublist _
  | @cons l m a h ih =>
    rw [List.length_cons] at hd
    have hle := h.length_le
    obtain ⟨e, rfl⟩ : ∃ e, d = e + 1 := ⟨d - 1, by omega⟩
    rw [show c + (e + 1) = c + e + 1 by omega, List.take_succ_cons]
    apply List.Sublist.cons
    exact ih (by omega) c
  | cons_cons a h ih =>
    cases c with
    | zero => exact List.nil_sublist _
    | succ c =>
      rw [List.length_cons, List.length_cons] at hd
      rw [show c + 1 + d = c + d + 1 by omega, List.take_succ_cons, List.take_succ_cons]
      apply List.Sublist.cons_cons
      exact ih (by omega) c

theorem length_filter_le (h : l.Sublist m) (hd : m.length ≤ l.length + d) (p : α → Bool) :
    (m.filter p).length ≤ (l.filter p).length + d := by
  induction h generalizing d with
  | slnil => exact Nat.zero_le _
  | @cons l m a h ih =>
    rw [List.length_cons] at hd
    have hle := h.length_le
    have hm := ih (d := d - 1) (by omega)
    have ha : ((a :: m).filter p).length ≤ (m.filter p).length + 1 := by
      rw [List.filter_cons]
      split <;> simp
    omega
  | @cons_cons l m a h ih =>
    rw [List.length_cons, List.length_cons] at hd
    have hm := ih (d := d) (by omega)
    rw [List.filter_cons, List.filter_cons]
    split
    · rw [List.length_cons, List.length_cons]
      omega
    · exact hm

end

namespace RecencyList
variable {κ ν T : Type*}

/-- the first list lies in the second one, which has at most `d` items more -/
structure Within (d : ℕ) (l l' : RecencyList κ ν T) : Prop where
  sublist : l.items.Sublist l'.items
  length : l'.items.length ≤ l.items.length + d

theorem within_nil (d : ℕ) : Within d (nil : RecencyList κ ν T) nil :=
  ⟨List.Sublist.refl _, Nat.zero_le _⟩

/-! ## items of one size -/

/-- all items have the size `n` -/
def Uniform (size : κ → ν → ℕ) (n : ℕ) (l : List (Item κ ν T)) : Prop :=
  ∀ i ∈ l, size i.key i.value = n

section
variable {size : κ → ν → ℕ} {n cap : ℕ}

theorem Uniform.total {l : List (Item κ ν T)} (h : Uniform size n l) :
    total size l = l.length * n := by
  unfold RecencyList.total
  rw [List.map_eq_replicate_iff.mpr h, List.sum_replicate_nat]

theorem Uniform.sublist {l l' : List (Item κ ν T)} (h : Uniform size n l') (hs : l.Sublist l') :
    Uniform size n l :=
  fun i hi => h i (hs.subset hi)

theorem total_keep (size : κ → ν → ℕ) (cap : ℕ) (l : RecencyList κ ν T) :
    total size (keep size cap l).items ≤ cap := by
  have h : decide (cap < total size (keep size cap l).items) = false :=
    trim_good (fun p => decide (cap < total size p)) (decide_eq_false (Nat.not_lt_zero _)) l.items
  exact Nat.le_of_not_lt (of_decide_eq_false h)

theorem keep_items_of_zero {l : RecencyList κ ν T} (h : Uniform size 0 l.items) :
    (keep size cap l).items = l.items := by
  have hfit : total size l.items ≤ cap := by
    rw [h.total, Nat.mul_zero]
    exact Nat.zero_le _
  exact (trim_isPrefix _ _).eq_of_length_le
    (keep_greatest (List.prefix_refl l.items) hfit).length_le

/-- with one size, what is kept is the first `cap / n` items -/
theorem keep_items {l : RecencyList κ ν T} (h : Uniform size n l.items) (hn : 0 < n) :
    (keep size cap l).items = l.items.take (cap / n) := by
  have hpre : (keep size cap l).items <+: l.items := trim_isPrefix _ _
  have hfew : (keep size cap l).items.length ≤ cap / n := by
    rw [Nat.le_div_iff_mul_le hn, ← (h.sublist hpre.sublist).total]
    exact total_keep size cap l
  have hfit : total size (l.items.take (cap / n)) ≤ cap := by
    rw [(h.sublist (List.take_sublist _ _)).total, ← Nat.le_div_iff_mul_le hn]
    exact List.length_take_le _ _
  have hlong := keep_greatest (List.take_prefix (cap / n) l.items) hfit
  exact (List.prefix_take_iff.mpr ⟨hpre, hfew⟩).eq_of_length_le hlong.length_le

end

/-! ## the operations -/

section
variable {d : ℕ} {l l' : RecencyList κ ν T}

theorem Within.keep {size : κ → ν → ℕ} {n cap cap' : ℕ} (h : Within (cap' / n - cap / n) l l')
    (hu : Uniform size n l'.items) (hcap : cap ≤ cap') :
    Within (cap' / n - cap / n) (keep size cap l) (keep size cap' l') := by
  have hl := hu.sublist h.sublist
  rcases Nat.eq_zero_or_pos n with rfl | hn
  · refine ⟨?_, ?_⟩ <;> rw [keep_items_of_zero hl, keep_items_of_zero hu]
    · exact h.sublist
    · exact h.length
  · have hdiv : cap / n ≤ cap' / n := Nat.div_le_div_right hcap
    refine ⟨?_, ?_⟩ <;> rw [keep_items hl hn, keep_items hu hn]
    · have htake := sublist_take h.sublist h.length (cap / n)
      rwa [Nat.add_sub_cancel' hdiv] at htake
    · have hlen := h.length
      rw [List.length_take, List.length_take]
      omega

theorem Within.live [LinearOrder T] (h : Within d l l') (now : T) :
    Within d (live now l) (live now l') :=
  ⟨h.sublist.filter _, length_filter_le h.sublist h.length _⟩

variable [DecidableEq κ]

theorem Within.erase (h : Within d l l') (k : κ) : Within d (l.erase k) (l'.erase k) :=
  ⟨h.sublist.filter _, length_filter_le h.sublist h.length _⟩

theorem Within.put (h : Within d l l') (i : Item κ ν T) : Within d (l.put i) (l'.put i) := by
  have he := h.erase i.key
  refine ⟨he.sublist.cons_cons i, ?_⟩
  have hlen := he.length
  show (l'.erase i.key).items.length + 1 ≤ (l.erase i.key).items.length + 1 + d
  omega

theorem Within.find? {k : κ} {i : Item κ ν T} (h : Within d l l') (hi : l.find? k = some i) :
    l'.find? k = some i := by
  obtain ⟨hm, hk⟩ := find?_eq_some_iff.mp hi
  exact find?_eq_some_iff.mpr ⟨h.sublist.subset hm, hk⟩

/-- a use of an item that only the larger list has -/
theorem Within.put_right {i : Item κ ν T} (h : Within d l l') (hl : l.find? i.key = none)
    (hi : i ∈ l'.items) : Within d l (l'.put i) := by
  have he := h.erase i.key
  rw [erase_of_none hl] at he
  refine ⟨he.sublist.cons i, ?_⟩
  -- the item is one of those that `erase` takes away
  have hlt : (l'.erase i.key).items.length < l'.items.length :=
    List.length_filter_lt_length_iff_exists.mpr ⟨i, hi, by simp⟩
  have hlen := h.length
  show (l'.erase i.key).items.length + 1 ≤ l.items.length + d
  omega

end
end RecencyList
end Recency
