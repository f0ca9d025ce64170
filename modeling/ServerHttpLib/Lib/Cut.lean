import Mathlib.Data.List.Basic
import Mathlib.Data.List.Infix

/-!
# Cutting a list at the first occurrence of a pattern

`cut pat s = some (a, b)` says that `s = a ++ pat ++ b` and that no occurrence of `pat` starts
before the end of `a`.  It is what a search for a delimiter in a growing buffer computes:

* `cut_eq_some_iff`   the meaning of a successful cut;
* `cut_append`        a cut that was found stays when more input is appended;
* `cut_of_not_isInfix`  a pattern without borders is cut right behind a text free of it;
* `cut_later`         its other occurrences lie behind the first one.
-/

set_option linter.unusedSectionVars false

namespace Cutting

variable {α : Type*} [DecidableEq α]

/-- the parts before and after the first occurrence of `pat` -/
def cut (pat : List α) : List α → Option (List α × List α)
  | [] => if pat = [] then some ([], []) else none
  | c :: cs =>
    if pat <+: c :: cs then some ([], (c :: cs).drop pat.length)
    else (cut pat cs).map fun r => (c :: r.1, r.2)

theorem cut_of_isPrefix {pat s : List α} (h : pat <+: s) :
    cut pat s = some ([], s.drop pat.length) := by
  cases s with
  | nil =>
    have hp : pat = [] := List.prefix_nil.mp h
    simp [cut, hp]
  | cons c cs => simp [cut, h]

theorem cut_self_append (pat s : List α) : cut pat (pat ++ s) = some ([], s) := by
  rw [cut_of_isPrefix (List.prefix_append _ _), List.drop_left]

theorem cut_cons_of_not_isPrefix {pat : List α} {c : α} {cs : List α} (h : ¬ pat <+: c :: cs) :
    cut pat (c :: cs) = (cut pat cs).map fun r => (c :: r.1, r.2) := by
  simp [cut, h]

theorem cut_nil {pat : List α} (hp : pat ≠ []) : cut pat [] = none := by
  simp [cut, hp]

theorem cut_eq {pat s a b : List α} (h : cut pat s = some (a, b)) : s = a ++ pat ++ b := by
  induction s generalizing a b with
  | nil =>
    by_cases hp : pat = []
    · simp only [cut, hp, if_true, Option.some.injEq, Prod.mk.injEq] at h
      rw [← h.1, ← h.2, hp]; rfl
    · simp [cut, hp] at h
  | cons c cs ih =>
    by_cases hp : pat <+: c :: cs
    · rw [cut_of_isPrefix hp, Option.some.injEq, Prod.mk.injEq] at h
      obtain ⟨t, ht⟩ := hp
      rw [← h.1, ← h.2, ← ht, List.drop_left]
      rfl
    · rw [cut_cons_of_not_isPrefix hp, Option.map_eq_some_iff] at h
      obtain ⟨⟨a', b'⟩, h1, h2⟩ := h
      simp only [Prod.mk.injEq] at h2
      rw [← h2.1, ← h2.2, ih h1]
      rfl

theorem cut_inj {pat s a b a' b' : List α} (h : cut pat s = some (a, b))
    (h' : cut pat s = some (a', b')) : a' = a ∧ b' = b := by
  rw [h, Option.some.injEq, Prod.mk.injEq] at h'
  exact ⟨h'.1.symm, h'.2.symm⟩

theorem cut_length {pat s a b : List α} (h : cut pat s = some (a, b)) :
    s.length = a.length + pat.length + b.length := by
  rw [cut_eq h, List.length_append, List.length_append]

/-- no occurrence starts inside the first part -/
theorem cut_min {pat s a b : List α} (h : cut pat s = some (a, b)) (a' b' : List α)
    (h' : s = a' ++ pat ++ b') : a.length ≤ a'.length := by
  induction s generalizing a b a' with
  | nil =>
    have h0 := congrArg List.length (cut_eq h)
    rw [List.length_append, List.length_append, List.length_nil] at h0
    omega
  | cons c cs ih =>
    by_cases hp : pat <+: c :: cs
    · rw [cut_of_isPrefix hp, Option.some.injEq, Prod.mk.injEq] at h
      rw [← h.1]
      exact Nat.zero_le _
    · rw [cut_cons_of_not_isPrefix hp, Option.map_eq_some_iff] at h
      obtain ⟨⟨a₁, b₁⟩, h1, h2⟩ := h
      simp only [Prod.mk.injEq] at h2
      cases a' with
      | nil => exact absurd ⟨b', by rw [h', List.nil_append]⟩ hp
      | cons c' a' =>
        have hc : cs = a' ++ pat ++ b' := by
          simp only [List.cons_append, List.cons.injEq] at h'
          exact h'.2
        have := ih h1 a' hc
        rw [← h2.1, List.length_cons, List.length_cons]
        omega

theorem cut_isSome_of_eq {pat s a b : List α} (h : s = a ++ pat ++ b) : (cut pat s).isSome := by
  induction a generalizing s with
  | nil =>
    have hp : pat <+: s := ⟨b, by rw [h, List.nil_append]⟩
    rw [cut_of_isPrefix hp]
    rfl
  | cons c a ih =>
    rw [h]
    by_cases hp : pat <+: c :: (a ++ pat ++ b)
    · have e : c :: a ++ pat ++ b = c :: (a ++ pat ++ b) := rfl
      rw [e, cut_of_isPrefix hp]
      rfl
    · have e : c :: a ++ pat ++ b = c :: (a ++ pat ++ b) := rfl
      rw [e, cut_cons_of_not_isPrefix hp, Option.isSome_map]
      exact ih rfl

theorem cut_eq_none_iff {pat s : List α} : cut pat s = none ↔ ¬ pat <:+: s := by
  constructor
  · rintro h ⟨a, b, hab⟩
    have := cut_isSome_of_eq hab.symm
    rw [h] at this
    exact absurd this (by simp)
  · intro h
    cases hc : cut pat s with
    | none => rfl
    | some r => exact absurd ⟨r.1, r.2, (cut_eq hc).symm⟩ h

/-- the parts of a cut are determined by the length of the first one -/
theorem cut_eq_some_iff {pat s a b : List α} : cut pat s = some (a, b) ↔
    s = a ++ pat ++ b ∧ ∀ a' b', s = a' ++ pat ++ b' → a.length ≤ a'.length := by
  constructor
  · intro h
    exact ⟨cut_eq h, cut_min h⟩
  · rintro ⟨he, hmin⟩
    obtain ⟨⟨a₁, b₁⟩, h1⟩ := Option.isSome_iff_exists.mp (cut_isSome_of_eq he)
    have hl : a₁.length = a.length :=
      Nat.le_antisymm (cut_min h1 a b he) (hmin a₁ b₁ (cut_eq h1))
    have e1 : a₁ ++ (pat ++ b₁) = a ++ (pat ++ b) := by
      rw [← List.append_assoc, ← List.append_assoc, ← cut_eq h1, he]
    obtain ⟨ea, eb⟩ := List.append_inj e1 hl
    rw [h1, ea, List.append_cancel_left eb]

theorem cut_append {pat s a b : List α} (h : cut pat s = some (a, b)) (t : List α) :
    cut pat (s ++ t) = some (a, b ++ t) := by
  rw [cut_eq_some_iff]
  refine ⟨by rw [cut_eq h, List.append_assoc], fun a' b' h' => ?_⟩
  by_contra hlt
  have hlen := cut_length h
  have hp : a' ++ pat <+: s :=
    List.prefix_of_prefix_length_le ⟨b', h'.symm⟩ ⟨t, rfl⟩ (by rw [List.length_append]; omega)
  obtain ⟨u, hu⟩ := hp
  have := cut_min h a' u hu.symm
  omega

/-- a pattern none of whose proper prefixes is one of its suffixes -/
def Unbordered (pat : List α) : Prop :=
  ∀ u, u ≠ [] → u.length < pat.length → u <+: pat → ¬ u <:+ pat

theorem unbordered_singleton (c : α) : Unbordered [c] := by
  intro u hu hl _ _
  rw [List.length_singleton] at hl
  exact hu (List.length_eq_zero_iff.mp (by omega))

theorem unbordered_pair {c d : α} (h : c ≠ d) : Unbordered [c, d] := by
  intro u hu hl hp hs
  match u, hu, hl with
  | [x], _, _ =>
    obtain ⟨t, ht⟩ := hp
    obtain ⟨v, hv⟩ := hs
    simp only [List.singleton_append, List.cons.injEq] at ht
    have hx : x = d := by
      have := congrArg List.getLast? hv
      simpa using this
    exact h (ht.1.symm.trans hx)

theorem Unbordered.length_le {pat a b a' b' : List α} (hu : Unbordered pat)
    (h : a ++ pat ++ b = a' ++ pat ++ b') (hlt : a.length < a'.length) :
    a.length + pat.length ≤ a'.length := by
  by_contra hle
  have h1 : (a' ++ pat ++ b').drop a'.length = pat ++ b' := by
    rw [List.append_assoc, List.drop_left]
  have h2 : (a ++ pat ++ b).drop a'.length = pat.drop (a'.length - a.length) ++ b := by
    rw [List.append_assoc, List.drop_append, List.drop_append,
      List.drop_of_length_le (by omega : a.length ≤ a'.length), List.nil_append,
      show a'.length - a.length - pat.length = 0 by omega, List.drop_zero]
  have hlen : (pat.drop (a'.length - a.length)).length < pat.length := by
    rw [List.length_drop]; omega
  -- the overlap is a border
  refine hu (pat.drop (a'.length - a.length)) ?_ hlen ?_ (List.drop_suffix _ _)
  · intro h0
    have := congrArg List.length h0
    rw [List.length_drop, List.length_nil] at this
    omega
  · have hp : pat.drop (a'.length - a.length) <+: pat ++ b' := ⟨b, by rw [← h2, h, h1]⟩
    exact List.prefix_of_prefix_length_le hp ⟨b', rfl⟩ (Nat.le_of_lt hlen)

theorem cut_of_not_isInfix {pat a : List α} (hu : Unbordered pat) (ha : ¬ pat <:+: a)
    (b : List α) : cut pat (a ++ pat ++ b) = some (a, b) := by
  rw [cut_eq_some_iff]
  refine ⟨rfl, fun a' b' h' => ?_⟩
  by_contra hlt
  -- the earlier occurrence lies inside `a`
  have hle := hu.length_le h'.symm (by omega)
  have hs : a' ++ pat <+: a ++ pat ++ b := ⟨b', h'.symm⟩
  have hp : a' ++ pat <+: a := by
    refine List.prefix_of_prefix_length_le hs ⟨pat ++ b, by rw [List.append_assoc]⟩ ?_
    rw [List.length_append]; omega
  obtain ⟨u, hu'⟩ := hp
  exact ha ⟨a', u, hu'⟩

/-- another occurrence of an unbordered pattern lies behind the first one -/
theorem cut_later {pat s a b a' b' : List α} (hu : Unbordered pat) (h : cut pat s = some (a, b))
    (h' : s = a' ++ pat ++ b') : b' = b ∨ ∃ m, b = m ++ pat ++ b' := by
  have he : a ++ (pat ++ b) = a' ++ (pat ++ b') := by
    rw [← List.append_assoc, ← cut_eq h, h', List.append_assoc]
  rcases Nat.lt_or_eq_of_le (cut_min h a' b' h') with hlt | heq
  · right
    have hle := hu.length_le (by rw [← cut_eq h, h']) hlt
    have hs : a ++ pat <+: s := ⟨b, (cut_eq h).symm⟩
    have hp : a ++ pat <+: a' := by
      refine List.prefix_of_prefix_length_le hs ⟨pat ++ b', by rw [h', List.append_assoc]⟩ ?_
      rw [List.length_append]; omega
    obtain ⟨m, hm⟩ := hp
    refine ⟨m, ?_⟩
    have hb : a ++ pat ++ b = a ++ pat ++ (m ++ pat ++ b') := by
      rw [← cut_eq h, h', ← hm]
      simp only [List.append_assoc]
    exact List.append_cancel_left hb
  · left
    exact (List.append_cancel_left (List.append_inj he heq).2).symm

theorem cut_of_mem_free {c : α} {a : List α} (ha : c ∉ a) (b : List α) :
    cut [c] (a ++ c :: b) = some (a, b) := by
  have h : ¬ [c] <:+: a := fun hi => ha (hi.subset (List.mem_singleton_self c))
  have := cut_of_not_isInfix (unbordered_singleton c) h b
  rwa [List.append_assoc, List.singleton_append] at this

theorem cut_singleton_none {c : α} {s : List α} : cut [c] s = none ↔ c ∉ s := by
  rw [cut_eq_none_iff, List.singleton_infix_iff]

theorem cut_singleton_some {c : α} {s a b : List α} (h : cut [c] s = some (a, b)) :
    s = a ++ c :: b ∧ c ∉ a := by
  have he : s = a ++ c :: b := by rw [cut_eq h, List.append_assoc, List.singleton_append]
  refine ⟨he, fun hm => ?_⟩
  obtain ⟨x, y, rfl, hx⟩ := List.eq_append_cons_of_mem hm
  have hc := cut_of_mem_free hx (y ++ c :: b)
  rw [show x ++ c :: (y ++ c :: b) = s by rw [he]; simp, h, Option.some.injEq,
    Prod.mk.injEq] at hc
  have := congrArg List.length hc.1
  simp only [List.length_append, List.length_cons] at this
  omega

theorem cut_singleton_eq_idxOf? (c : α) (s : List α) :
    cut [c] s = (s.idxOf? c).map fun k => (s.take k, s.drop (k + 1)) := by
  induction s with
  | nil => rfl
  | cons b s ih =>
    by_cases hb : b = c
    · rw [hb, List.idxOf?_cons, beq_self_eq_true, if_pos rfl]
      exact cut_self_append [c] s
    · have h : ¬ [c] <+: b :: s := by
        rw [List.cons_prefix_cons]
        exact fun hp => hb hp.1.symm
      rw [cut_cons_of_not_isPrefix h, ih, List.idxOf?_cons, beq_false_of_ne hb,
        if_neg Bool.false_ne_true, Option.map_map, Option.map_map]
      rfl

end Cutting
