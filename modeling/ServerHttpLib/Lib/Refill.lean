import Mathlib.Data.List.Basic

/-!
# Refilling a buffer from segments

Input arrives in segments.  A reader asks a question about its buffer and appends the next
segment as long as the answer is no; at the end of the input the answer it has then is final.

* `refill_join`      nothing is lost and nothing is read twice;
* `refill_ready`     with a question whose yes stays when the buffer grows, the final answer is
                     the one for the whole input;
* `refill_cases`     both in the form in which a loop over the buffer is taken apart.
-/

namespace Refill

variable {α : Type*} (p : List α → Bool)

/-- the buffer at the first yes, or at the end of the input, and the segments not read -/
def refill : List α → List (List α) → List α × List (List α)
  | buf, [] => (buf, [])
  | buf, seg :: segs => if p buf then (buf, seg :: segs) else refill (buf ++ seg) segs

/-- a yes stays when the buffer grows -/
def Stable : Prop := ∀ buf more, p buf = true → p (buf ++ more) = true

theorem stable_le_length (n : Nat) : Stable fun buf : List α => decide (n ≤ buf.length) := by
  intro buf more h
  have hn : n ≤ buf.length := of_decide_eq_true h
  exact decide_eq_true (by rw [List.length_append]; omega)

theorem refill_join (buf : List α) (segs : List (List α)) :
    (refill p buf segs).1 ++ (refill p buf segs).2.flatten = buf ++ segs.flatten := by
  induction segs generalizing buf with
  | nil => rfl
  | cons seg segs ih =>
    rw [refill]
    split
    · rfl
    · rw [ih, List.flatten_cons, List.append_assoc]

theorem refill_exhausted (buf : List α) (segs : List (List α))
    (h : p (refill p buf segs).1 = false) :
    (refill p buf segs).2 = [] := by
  induction segs generalizing buf with
  | nil => rfl
  | cons seg segs ih =>
    rw [refill] at h ⊢
    split at h
    · next hp => exact absurd hp (by rw [h]; exact Bool.false_ne_true)
    · next hp =>
      rw [if_neg hp]
      exact ih _ h

theorem refill_ready {p : List α → Bool} (hs : Stable p) (buf : List α) (segs : List (List α)) :
    p (refill p buf segs).1 = p (buf ++ segs.flatten) := by
  have hj := refill_join p buf segs
  cases h : p (refill p buf segs).1 with
  | true => rw [← hj, hs _ _ h]
  | false =>
    rw [refill_exhausted p buf segs h, List.flatten_nil, List.append_nil] at hj
    rw [← hj, h]

/-- the final answer is no and everything is in the buffer, or it is yes -/
theorem refill_cases {p : List α → Bool} (hs : Stable p) (buf : List α) (segs : List (List α)) :
    p (buf ++ segs.flatten) = false ∧ refill p buf segs = (buf ++ segs.flatten, []) ∨
    p (buf ++ segs.flatten) = true ∧ ∃ buf' segs', refill p buf segs = (buf', segs') ∧
      p buf' = true ∧ buf' ++ segs'.flatten = buf ++ segs.flatten := by
  have hr := refill_ready hs buf segs
  have hj := refill_join p buf segs
  cases h : p (buf ++ segs.flatten) with
  | true => exact .inr ⟨rfl, _, _, rfl, hr.trans h, hj⟩
  | false =>
    have hx := refill_exhausted p buf segs (hr.trans h)
    rw [hx, List.flatten_nil, List.append_nil] at hj
    exact .inl ⟨rfl, Prod.ext hj hx⟩

end Refill
