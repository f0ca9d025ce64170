import ServerHttpLib.Lib.Cut

/-!
# The pieces between the occurrences of a pattern

`Splitting pat s ps` says that `ps` are the pieces of `s` between occurrences of `pat`, each of
them the first one behind the occurrence before it; the occurrences do not overlap.

* `Splitting.unique`       there is one such list, and `pieces` computes it (`splitting_pieces`);
* `replaceAll_skip`, `replaceAll_hit`   replacing, step by step along the list;
* `replaceLoop_eq`         the loop that searches, replaces and steps over what it has written ends,
                           and joins the pieces.
-/

set_option linter.unusedSectionVars false

namespace Cutting

variable {α : Type*} [DecidableEq α]

/-- `ps` are the pieces of a list that successive first occurrences of `pat` separate -/
inductive Splitting (pat : List α) : List α → List (List α) → Prop
  | last {s : List α} (none : ¬ pat <:+: s) : Splitting pat s [s]
  | next {a b : List α} {ps : List (List α)}
      (first : ∀ a' b', a ++ pat ++ b = a' ++ pat ++ b' → a.length ≤ a'.length)
      (rest : Splitting pat b ps) : Splitting pat (a ++ pat ++ b) (a :: ps)

theorem Splitting.unique {pat s : List α} {ps qs : List (List α)} (hp : Splitting pat s ps)
    (hq : Splitting pat s qs) : ps = qs := by
  induction hp generalizing qs with
  | last none =>
    cases hq with
    | last _ => rfl
    | next _ _ => exact absurd ⟨_, _, rfl⟩ none
  | @next a b ps first rest ih =>
    have hc : cut pat (a ++ pat ++ b) = some (a, b) := cut_eq_some_iff.mpr ⟨rfl, first⟩
    generalize hs : a ++ pat ++ b = s at hc hq
    cases hq with
    | last none => exact absurd ⟨a, b, hs⟩ none
    | next first' rest' =>
      obtain ⟨rfl, rfl⟩ := cut_inj hc (cut_eq_some_iff.mpr ⟨rfl, first'⟩)
      rw [ih rest']

/-- the pieces that the searches for `pat` find; a list is one piece of itself if `pat` is empty -/
def pieces (pat s : List α) : List (List α) :=
  if _hp : pat = [] then [s]
  else match _h : cut pat s with
    | none => [s]
    | some (a, b) => a :: pieces pat b
termination_by s.length
decreasing_by
  have h := cut_length _h
  have hpos := List.length_pos_of_ne_nil _hp
  omega

variable {pat s : List α}

theorem pieces_none (h : cut pat s = none) : pieces pat s = [s] := by
  rw [pieces]
  split
  · rfl
  · split
    · rfl
    · rename_i h'
      rw [h] at h'
      exact absurd h' (by simp)

theorem pieces_some {a b : List α} (hp : pat ≠ []) (h : cut pat s = some (a, b)) :
    pieces pat s = a :: pieces pat b := by
  rw [pieces, dif_neg hp]
  split
  · rename_i h'
    rw [h] at h'
    exact absurd h' (by simp)
  · rename_i h'
    obtain ⟨rfl, rfl⟩ := cut_inj h h'
    rfl

theorem pieces_ne_nil (hp : pat ≠ []) : pieces pat s ≠ [] := by
  cases h : cut pat s with
  | none =>
    rw [pieces_none h]
    exact List.cons_ne_nil _ _
  | some r =>
    rw [pieces_some hp h]
    exact List.cons_ne_nil _ _

theorem cut_induction {P : List α → Prop} (hp : pat ≠ [])
    (last : ∀ s, cut pat s = none → P s)
    (next : ∀ s a b, cut pat s = some (a, b) → P b → P s) (s : List α) : P s := by
  induction hn : s.length using Nat.strong_induction_on generalizing s with
  | _ n ih =>
    cases h : cut pat s with
    | none => exact last s h
    | some r =>
      have hlen := cut_length h
      have hpos := List.length_pos_of_ne_nil hp
      exact next s r.1 r.2 h (ih r.2.length (by omega) r.2 rfl)

theorem splitting_pieces (hp : pat ≠ []) (s : List α) : Splitting pat s (pieces pat s) := by
  induction s using cut_induction hp with
  | last s h =>
    rw [pieces_none h]
    exact .last (cut_eq_none_iff.mp h)
  | next s a b h ih =>
    obtain ⟨he, hmin⟩ := cut_eq_some_iff.mp h
    rw [pieces_some hp h]
    subst he
    exact .next hmin ih

theorem splitting_iff (hp : pat ≠ []) {ps : List (List α)} :
    Splitting pat s ps ↔ ps = pieces pat s := by
  constructor
  · exact fun h => h.unique (splitting_pieces hp s)
  · rintro rfl
    exact splitting_pieces hp s

/-! ## replacing -/

/-- each occurrence that separates two pieces replaced by `target` -/
def replaceAll (pat target s : List α) : List α := target.intercalate (pieces pat s)

theorem replaceAll_none (h : cut pat s = none) (target : List α) : replaceAll pat target s = s := by
  rw [replaceAll, pieces_none h, List.intercalate_singleton]

theorem replaceAll_some {a b : List α} (hp : pat ≠ []) (h : cut pat s = some (a, b))
    (target : List α) : replaceAll pat target s = a ++ target ++ replaceAll pat target b := by
  rw [replaceAll, pieces_some hp h, List.intercalate_cons_of_ne_nil (pieces_ne_nil hp)]
  rfl

theorem replaceAll_nil (hp : pat ≠ []) (target : List α) : replaceAll pat target [] = [] :=
  replaceAll_none (cut_nil hp) target

theorem replaceAll_skip {c : α} (hp : pat ≠ []) (h : ¬ pat <+: c :: s) (target : List α) :
    replaceAll pat target (c :: s) = c :: replaceAll pat target s := by
  have hc := cut_cons_of_not_isPrefix h
  cases hs : cut pat s with
  | none =>
    rw [hs, Option.map_none] at hc
    rw [replaceAll_none hc, replaceAll_none hs]
  | some r =>
    rw [hs, Option.map_some] at hc
    rw [replaceAll_some hp hc, replaceAll_some hp hs]
    rfl

theorem replaceAll_hit (hp : pat ≠ []) (target s : List α) :
    replaceAll pat target (pat ++ s) = target ++ replaceAll pat target s := by
  rw [replaceAll_some hp (cut_self_append pat s), List.nil_append]

theorem replaceAll_free {c : α} {u : List α} (hu : c ∉ u) (p target s : List α) :
    replaceAll (c :: p) target (u ++ s) = u ++ replaceAll (c :: p) target s := by
  induction u with
  | nil => rfl
  | cons d u ih =>
    rw [List.mem_cons, not_or] at hu
    have h : ¬ c :: p <+: d :: (u ++ s) := by
      rw [List.cons_prefix_cons]
      exact fun hp => hu.1 hp.1
    rw [List.cons_append, replaceAll_skip (List.cons_ne_nil c p) h, ih hu.2, List.cons_append]

theorem isPrefix_append_cons {c : α} (hc : c ∉ pat) (a b : List α) :
    pat <+: a ++ c :: b ↔ pat <+: a := by
  constructor
  · intro h
    rcases Nat.lt_or_ge a.length pat.length with hlt | hle
    · obtain ⟨t, ht⟩ := List.prefix_of_prefix_length_le (List.prefix_append a (c :: b)) h hlt.le
      have hrest : t <+: c :: b := by
        rw [← ht] at h
        exact (List.prefix_append_right_inj a).mp h
      cases t with
      | nil =>
        rw [List.append_nil] at ht
        rw [ht] at hlt
        exact absurd hlt (lt_irrefl _)
      | cons d t =>
        obtain rfl := (List.cons_prefix_cons.mp hrest).1
        exact absurd (ht ▸ List.mem_append_right _ List.mem_cons_self) hc
    · exact List.prefix_of_prefix_length_le h (List.prefix_append a _) hle
  · exact fun h => h.trans (List.prefix_append a _)

/-- a character that is not in the pattern keeps the occurrences on its two sides apart -/
theorem replaceAll_append_cons {c : α} (hp : pat ≠ [])
    (hc : c ∉ pat) (target a b : List α) : replaceAll pat target (a ++ c :: b)
      = replaceAll pat target a ++ c :: replaceAll pat target b := by
  have hskip : ∀ s, ¬ pat <+: c :: s := by
    intro s h
    obtain ⟨d, p, rfl⟩ := List.exists_cons_of_ne_nil hp
    obtain rfl := (List.cons_prefix_cons.mp h).1
    exact hc List.mem_cons_self
  induction hn : a.length using Nat.strong_induction_on generalizing a with
  | _ n ih =>
    cases a with
    | nil => rw [List.nil_append, replaceAll_skip hp (hskip b), replaceAll_nil hp, List.nil_append]
    | cons d a =>
      rw [List.length_cons] at hn
      by_cases h : pat <+: d :: a
      · obtain ⟨t, ht⟩ := h
        have hlen := congrArg List.length ht
        have hpos := List.length_pos_of_ne_nil hp
        rw [List.length_append, List.length_cons] at hlen
        rw [← ht, List.append_assoc, replaceAll_hit hp, replaceAll_hit hp,
          ih t.length (by omega) t rfl, List.append_assoc]
      · have h' : ¬ pat <+: d :: (a ++ c :: b) := fun hpre =>
          h ((isPrefix_append_cons hc (d :: a) b).mp hpre)
        rw [List.cons_append, replaceAll_skip hp h', replaceAll_skip hp h,
          ih a.length (by omega) a rfl, List.cons_append]

/-! ## replacing in place -/

/-- the first position from `pos` on where `pat` begins -/
def findFrom (pat s : List α) (pos : Nat) : Option Nat :=
  if pos ≤ s.length then (cut pat (s.drop pos)).map fun r => pos + r.1.length else none

/-- search behind `pos`, replace what is found and step over it; `none` if `fuel` searches were not
enough -/
def replaceLoop (pat target : List α) : Nat → List α → Nat → Option (List α)
  | 0, _, _ => none
  | fuel + 1, s, pos =>
    match findFrom pat s pos with
    | none => some s
    | some p =>
      replaceLoop pat target fuel (s.take p ++ target ++ s.drop (p + pat.length))
        (p + target.length)

theorem findFrom_append (done : List α) : findFrom pat (done ++ s) done.length
    = (cut pat s).map fun r => done.length + r.1.length := by
  rw [findFrom, if_pos (by simp), List.drop_left]

theorem replaceLoop_some {target a b : List α} (h : cut pat s = some (a, b)) (fuel : Nat)
    (done : List α) : replaceLoop pat target (fuel + 1) (done ++ s) done.length
      = replaceLoop pat target fuel (done ++ a ++ target ++ b) (done ++ a ++ target).length := by
  have htake : (done ++ s).take (done.length + a.length) = done ++ a := by
    rw [cut_eq h, List.append_assoc a, ← List.append_assoc, ← List.length_append, List.take_left]
  have hdrop : (done ++ s).drop (done.length + a.length + pat.length) = b := by
    rw [cut_eq h, ← List.append_assoc, ← List.append_assoc, ← List.length_append,
      ← List.length_append, List.drop_left]
  rw [replaceLoop, findFrom_append, h, Option.map_some]
  simp only [htake, hdrop, List.length_append]

/-- **The loop ends** and has joined the pieces: what it has written is neither searched again nor
skipped over too far. -/
theorem replaceLoop_eq (hp : pat ≠ []) (target : List α) {fuel : Nat} (hf : s.length < fuel)
    (done : List α) : replaceLoop pat target fuel (done ++ s) done.length
      = some (done ++ target.intercalate (pieces pat s)) := by
  induction s using cut_induction hp generalizing fuel done with
  | last s h =>
    cases fuel with
    | zero => omega
    | succ fuel =>
      rw [replaceLoop, findFrom_append, h, pieces_none h, List.intercalate_singleton]
      rfl
  | next s a b h ih =>
    cases fuel with
    | zero => omega
    | succ fuel =>
      have hlen := cut_length h
      have hpos := List.length_pos_of_ne_nil hp
      rw [replaceLoop_some h, ih (by omega), pieces_some hp h,
        List.intercalate_cons_of_ne_nil (pieces_ne_nil hp)]
      simp only [List.append_assoc]

end Cutting
