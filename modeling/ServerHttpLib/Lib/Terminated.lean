import Mathlib.Data.List.Basic
import ServerHttpLib.Lib.Cut

/-!
# Pieces that a separator ends

`Ended d s ps` says that `s` is read as the pieces `ps`, each of them ended by the separator `d`.
The last one may go without, unless it is empty: then it is not a piece.

* `Ended.unique`         there is one such reading;
* `Ended.intercalate`    the pieces with separators between them are the list, or the list without
                         the separator that it ends with;
* `ended_written_iff`    pieces that are written with separators behind some of them are read back
                         exactly if there is one behind each but the last.
-/

namespace Cutting

variable {α : Type*} {d : α}

inductive Ended (d : α) : List α → List (List α) → Prop
  | nil : Ended d [] []
  | last {a : List α} (free : d ∉ a) (nonempty : a ≠ []) : Ended d a [a]
  | cons {a s : List α} {ps : List (List α)} (free : d ∉ a) (rest : Ended d s ps) :
      Ended d (a ++ d :: s) (a :: ps)

variable {s t a : List α} {ps qs : List (List α)}

theorem Ended.free (h : Ended d s ps) : ∀ p ∈ ps, d ∉ p := by
  induction h with
  | nil => exact fun p hp => absurd hp List.not_mem_nil
  | last free _ =>
    intro p hp
    rwa [List.mem_singleton.mp hp]
  | cons free _ ih =>
    intro p hp
    rcases List.mem_cons.mp hp with rfl | hp
    · exact free
    · exact ih p hp

theorem Ended.eq_nil_iff (h : Ended d s ps) : ps = [] ↔ s = [] := by
  cases h with
  | nil => exact iff_of_true rfl rfl
  | last _ nonempty => exact iff_of_false (List.cons_ne_nil _ _) nonempty
  | cons _ _ => exact iff_of_false (List.cons_ne_nil _ _) (by simp)

theorem Ended.tail (h : Ended d (a ++ t) (a :: ps)) :
    (ps = [] ∧ t = []) ∨ ∃ s, t = d :: s ∧ Ended d s ps := by
  generalize hs : a ++ t = s at h
  cases h with
  | last _ _ => exact .inl ⟨rfl, List.append_right_eq_self.mp hs⟩
  | cons _ rest => exact .inr ⟨_, List.append_cancel_left hs, rest⟩

/-- **Joining the pieces** gives the list, or the list without the separator at its end. -/
theorem Ended.intercalate [DecidableEq α] (h : Ended d s ps) :
    [d].intercalate ps = if s.getLast? = some d then s.dropLast else s := by
  induction h with
  | nil => rfl
  | @last a free nonempty =>
    have hlast : a.getLast? ≠ some d := fun he => free (List.mem_of_getLast? he)
    rw [if_neg hlast, List.intercalate_singleton]
  | @cons a s ps free rest ih =>
    by_cases hs : s = []
    · have hps := rest.eq_nil_iff.mpr hs
      rw [hs, hps, List.intercalate_singleton, if_pos List.getLast?_concat, List.dropLast_concat]
    · have hps : ps ≠ [] := rest.eq_nil_iff.not.mpr hs
      have hlast : (a ++ d :: s).getLast? = s.getLast? := by
        rw [List.getLast?_append_of_ne_nil _ (List.cons_ne_nil d s),
          List.getLast?_cons_of_ne_nil hs]
      rw [List.intercalate_cons_of_ne_nil hps, ih, hlast]
      split
      · rw [List.dropLast_append_of_ne_nil (List.cons_ne_nil d s), List.dropLast_cons_of_ne_nil hs,
          List.append_assoc]
        rfl
      · rw [List.append_assoc]
        rfl

theorem Ended.unique [DecidableEq α] (h : Ended d s ps) (h' : Ended d s qs) : ps = qs := by
  induction h generalizing qs with
  | nil => exact (h'.eq_nil_iff.mpr rfl).symm
  | last free nonempty =>
    cases h' with
    | nil => exact absurd rfl nonempty
    | last _ _ => rfl
    | cons _ _ => exact absurd (List.mem_append_right _ List.mem_cons_self) free
  | @cons a s ps free rest ih =>
    have hcut : cut [d] (a ++ d :: s) = some (a, s) := cut_of_mem_free free s
    generalize hs : a ++ d :: s = l at h' hcut
    cases h' with
    | nil => exact absurd hs (by simp)
    | last free' _ => exact absurd (hs ▸ List.mem_append_right _ List.mem_cons_self) free'
    | cons free' rest' =>
      obtain ⟨rfl, rfl⟩ := cut_inj hcut (cut_of_mem_free free' _)
      rw [ih rest']

/-- pieces without the separator, none of them empty, are those that it stands between -/
theorem ended_intercalate (h : ∀ x ∈ ps, d ∉ x ∧ x ≠ []) : Ended d ([d].intercalate ps) ps := by
  induction ps with
  | nil => exact .nil
  | cons x ps ih =>
    obtain ⟨hfree, hne⟩ := h x List.mem_cons_self
    have ih := ih fun y hy => h y (List.mem_cons_of_mem _ hy)
    cases ps with
    | nil =>
      rw [List.intercalate_singleton]
      exact .last hfree hne
    | cons y ps =>
      rw [List.intercalate_cons_cons, List.append_assoc, List.singleton_append]
      exact .cons hfree ih

/-! ## writing pieces -/

/-- the pieces, with separators behind those whose number is in `sep`; the first has number `n` -/
def written (d : α) (sep : ℕ → Prop) [DecidablePred sep] : ℕ → List (List α) → List α
  | _, [] => []
  | n, x :: xs => x ++ ((if sep n then [d] else []) ++ written d sep (n + 1) xs)

theorem written_ne_cons {sep : ℕ → Prop} [DecidablePred sep] (n : ℕ)
    (h : ∀ x ∈ ps, d ∉ x ∧ x ≠ []) (s : List α) : written d sep n ps ≠ d :: s := by
  cases ps with
  | nil => exact (List.cons_ne_nil d s).symm
  | cons x xs =>
    obtain ⟨hfree, hne⟩ := h x List.mem_cons_self
    obtain ⟨c, x, rfl⟩ := List.exists_cons_of_ne_nil hne
    intro he
    rw [written, List.cons_append, List.cons.injEq] at he
    exact hfree (he.1 ▸ List.mem_cons_self)

/-- **Pieces are read back** exactly if a separator stands behind each but the last; one behind the
last does no harm. -/
theorem ended_written_iff {sep : ℕ → Prop} [DecidablePred sep] (n : ℕ)
    (h : ∀ x ∈ ps, d ∉ x ∧ x ≠ []) :
    Ended d (written d sep n ps) ps ↔ ∀ i, i + 1 < ps.length → sep (n + i) := by
  induction ps generalizing n with
  | nil => exact iff_of_true .nil fun i hi => absurd hi (Nat.not_lt_zero _)
  | cons x xs ih =>
    obtain ⟨hfree, hne⟩ := h x List.mem_cons_self
    have hxs : ∀ y ∈ xs, d ∉ y ∧ y ≠ [] := fun y hy => h y (List.mem_cons_of_mem _ hy)
    have ih := ih (n + 1) hxs
    rw [written]
    constructor
    · intro he i hi
      rcases he.tail with ⟨rfl, -⟩ | ⟨s, hs, hrest⟩
      · exact absurd hi (by simp)
      · -- the separator is there: the piece behind it does not begin with one
        have hsep : sep n := by
          by_contra hno
          rw [if_neg hno, List.nil_append] at hs
          exact written_ne_cons (n + 1) hxs s hs
        rw [if_pos hsep, List.singleton_append, List.cons.injEq] at hs
        cases i with
        | zero => exact hsep
        | succ i =>
          have hi' := ih.mp (hs.2 ▸ hrest) i (by simpa using hi)
          rwa [Nat.add_assoc, Nat.add_comm 1] at hi'
    · intro hsep
      have hrest : Ended d (written d sep (n + 1) xs) xs := by
        refine ih.mpr fun i hi => ?_
        have hi' := hsep (i + 1) (by simpa using hi)
        rwa [Nat.add_comm i, ← Nat.add_assoc] at hi'
      by_cases hn : sep n
      · rw [if_pos hn, List.singleton_append]
        exact .cons hfree hrest
      · have hnil : xs = [] := by
          by_contra hxs
          exact hn (hsep 0 (by simpa using List.length_pos_of_ne_nil hxs))
        rw [if_neg hn, hnil]
        show Ended d (x ++ []) [x]
        rw [List.append_nil]
        exact .last hfree hne

end Cutting
