import Mathlib.Data.List.Induction
import Mathlib.Data.Nat.Digits.Defs

/-!
# Numerals

The digits of a number, most significant first, and the value of a list of digits, in any base:

* `value_numeral`           reading back what was written;
* `value_foldl_mod`         an accumulator that wraps computes the value modulo the word size;
* `eq_of_numeral_isPrefix`  among numbers up to `n`, only `n` has a numeral that begins with `n`'s.
-/

namespace Numeral

/-- the digits of `n` in base `b`, most significant first; `0` has one digit -/
def numeral (b n : ℕ) : List ℕ := if n = 0 then [0] else (Nat.digits b n).reverse

/-- the value of a list of digits, most significant first -/
def value (b : ℕ) (ds : List ℕ) : ℕ := ds.foldl (fun v d => v * b + d) 0

theorem value_nil (b : ℕ) : value b [] = 0 := rfl

theorem value_snoc (b : ℕ) (ds : List ℕ) (d : ℕ) : value b (ds ++ [d]) = value b ds * b + d := by
  simp [value, List.foldl_append]

theorem value_append (b : ℕ) (ds es : List ℕ) :
    value b (ds ++ es) = value b ds * b ^ es.length + value b es := by
  induction es using List.reverseRecOn with
  | nil => simp [value_nil]
  | append_singleton es e ih =>
    rw [← List.append_assoc, value_snoc, ih, value_snoc, List.length_append, List.length_singleton,
      pow_succ]
    ring

theorem value_reverse (b : ℕ) (ds : List ℕ) : value b ds.reverse = Nat.ofDigits b ds := by
  induction ds with
  | nil => rfl
  | cons d ds ih =>
    rw [List.reverse_cons, value_snoc, ih, Nat.ofDigits_cons]
    ring

theorem value_numeral (b n : ℕ) : value b (numeral b n) = n := by
  unfold numeral
  split
  · rename_i h
    rw [h]
    simp [value]
  · rw [value_reverse, Nat.ofDigits_digits]

theorem numeral_lt {b n d : ℕ} (hb : 1 < b) (hd : d ∈ numeral b n) : d < b := by
  unfold numeral at hd
  split at hd
  · rw [List.mem_singleton] at hd
    omega
  · exact Nat.digits_lt_base hb (List.mem_reverse.mp hd)

theorem numeral_ne_nil (b n : ℕ) : numeral b n ≠ [] := by
  unfold numeral
  split
  · exact List.cons_ne_nil _ _
  · rename_i h
    exact List.reverse_eq_nil_iff.not.mpr (Nat.digits_ne_nil_iff_ne_zero.mpr h)

/-- an accumulator that wraps at every step -/
theorem value_foldl_mod (b m : ℕ) (ds : List ℕ) :
    ds.foldl (fun v d => (v * b + d) % m) 0 = value b ds % m := by
  induction ds using List.reverseRecOn with
  | nil => rw [List.foldl_nil, value_nil, Nat.zero_mod]
  | append_singleton ds d ih =>
    rw [List.foldl_append, List.foldl_cons, List.foldl_nil, value_snoc, ih, Nat.add_mod,
      Nat.mod_mul_mod, ← Nat.add_mod]

theorem value_lt {b : ℕ} {ds : List ℕ} (h : ∀ d ∈ ds, d < b) :
    value b ds < b ^ ds.length := by
  induction ds using List.reverseRecOn with
  | nil => simp [value_nil]
  | append_singleton ds d ih =>
    have h1 := ih fun d' hd' => h d' (List.mem_append_left _ hd')
    have h2 := h d (by simp)
    rw [value_snoc, List.length_append, List.length_singleton, pow_succ]
    have h3 : (value b ds + 1) * b ≤ b ^ ds.length * b := Nat.mul_le_mul_right _ h1
    rw [Nat.succ_mul] at h3
    omega

theorem le_of_numeral_isPrefix {b k j : ℕ} (hb : 0 < b) (h : numeral b k <+: numeral b j) :
    k ≤ j := by
  obtain ⟨t, ht⟩ := h
  have h1 := value_append b (numeral b k) t
  rw [ht, value_numeral, value_numeral] at h1
  have h2 : k * 1 ≤ k * b ^ t.length := Nat.mul_le_mul_left k (Nat.pow_pos hb)
  omega

/-- among the numbers up to `k`, only `k` itself has a numeral that begins with that of `k` -/
theorem eq_of_numeral_isPrefix {b k j : ℕ} (hb : 0 < b) (hj : j ≤ k)
    (h : numeral b k <+: numeral b j) : j = k :=
  Nat.le_antisymm hj (le_of_numeral_isPrefix hb h)

end Numeral
