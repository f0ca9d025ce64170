import Mathlib.Algebra.Ring.Nat
import Mathlib.Data.List.Basic
import Mathlib.Order.Lattice

/-!
# Stable sorting

A list sorted by a weight, the heaviest element first, with elements of equal weight in the order
they had.

* `descending_mergeSort`   `mergeSort` sorts so;
* `Descending.sum_eq`      a sum over the elements is the same before and after.
-/

namespace StableSort

variable {α W : Type*} [LinearOrder W]

/-- `s` is `l` sorted by `weight` -/
structure Descending (weight : α → W) (l s : List α) : Prop where
  perm : s.Perm l
  sorted : s.Pairwise fun a b => weight b ≤ weight a
  stable : ∀ w, (s.filter fun a => weight a = w) = l.filter fun a => weight a = w

/-- the order that `mergeSort` is given -/
def before (weight : α → W) (a b : α) : Bool := decide (weight b ≤ weight a)

theorem before_trans (weight : α → W) (a b c : α) (hab : before weight a b = true)
    (hbc : before weight b c = true) : before weight a c = true :=
  decide_eq_true (le_trans (of_decide_eq_true hbc) (of_decide_eq_true hab))

theorem before_total (weight : α → W) (a b : α) :
    (before weight a b || before weight b a) = true := by
  rw [Bool.or_eq_true]
  exact (le_total (weight b) (weight a)).imp decide_eq_true decide_eq_true

/-- elements of one weight are in order, so the sort keeps their order -/
theorem filter_mergeSort (weight : α → W) (l : List α) (w : W) :
    ((l.mergeSort (before weight)).filter fun a => weight a = w)
      = l.filter fun a => weight a = w := by
  have hsame : (l.filter fun a => weight a = w).Pairwise fun a b => before weight a b = true := by
    rw [List.pairwise_iff_forall_sublist]
    intro a b hab
    have ha := List.mem_filter.mp (hab.subset List.mem_cons_self)
    have hb := List.mem_filter.mp (hab.subset (List.mem_cons_of_mem _ List.mem_cons_self))
    exact decide_eq_true (le_of_eq ((of_decide_eq_true hb.2).trans (of_decide_eq_true ha.2).symm))
  have hsub := List.sublist_mergeSort (before_trans weight) (before_total weight) hsame
    List.filter_sublist
  have hfilter := hsub.filter fun a => weight a = w
  rw [List.filter_filter] at hfilter
  simp only [Bool.and_self] at hfilter
  have hlen := ((List.mergeSort_perm l (before weight)).filter fun a => weight a = w).length_eq
  exact (hfilter.eq_of_length hlen.symm).symm

/-- **`mergeSort` is a stable sort.** -/
theorem descending_mergeSort (weight : α → W) (l : List α) :
    Descending weight l (l.mergeSort (before weight)) := by
  refine ⟨List.mergeSort_perm l _, ?_, filter_mergeSort weight l⟩
  have h := List.pairwise_mergeSort (before_trans weight) (before_total weight) l
  exact h.imp fun hab => of_decide_eq_true hab

theorem Descending.sum_eq {weight : α → W} {l s : List α} (h : Descending weight l s)
    (f : α → Nat) : (s.map f).sum = (l.map f).sum :=
  (h.perm.map f).sum_nat

end StableSort
