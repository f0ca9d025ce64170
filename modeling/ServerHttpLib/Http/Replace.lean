import ServerHttpLib.Lib.Pieces
import ServerHttpLib.Http.Utils

/-!
# The loop of `replace`

`replace` searches the string it edits: `str.find` from `start_pos` on, `str.replace` at the hit,
and `start_pos` moves behind the new text.  `replaceText` of `Http.Utils` says what comes of it
without positions.

* `replaceText_eq_join`   `replaceText` joins the pieces between the occurrences;
* `replace_ends`          the loop ends with the pieces of the original string joined.
-/

namespace ServerHttpLib
open Cutting

/-- `replace(str, from, to)` with at most `fuel` searches -/
def replace (fuel : Nat) (str pat target : Bytes) : Option Bytes :=
  if pat = [] then some str else replaceLoop pat target fuel str 0

theorem replaceText_none {s pat : Bytes} (h : cut pat s = none) (target : Bytes) :
    replaceText s pat target = s := by
  rw [replaceText]
  split
  · rfl
  · split
    · rfl
    · rename_i h'
      rw [h] at h'
      exact absurd h' (by simp)

theorem replaceText_some {s pat a b : Bytes} (hp : pat ≠ []) (h : cut pat s = some (a, b))
    (target : Bytes) : replaceText s pat target = a ++ target ++ replaceText b pat target := by
  rw [replaceText, dif_neg hp]
  split
  · rename_i h'
    rw [h] at h'
    exact absurd h' (by simp)
  · rename_i h'
    obtain ⟨rfl, rfl⟩ := cut_inj h h'
    rfl

theorem replaceText_eq_join {pat : Bytes} (hp : pat ≠ []) (s target : Bytes) :
    replaceText s pat target = replaceAll pat target s := by
  induction s using cut_induction hp with
  | last s h => rw [replaceText_none h, replaceAll_none h]
  | next s a b h ih => rw [replaceText_some hp h, replaceAll_some hp h, ih]

theorem replace_eq_replaceText {fuel : Nat} {s : Bytes} (hf : s.length < fuel)
    (pat target : Bytes) : replace fuel s pat target = some (replaceText s pat target) := by
  unfold replace
  by_cases hp : pat = []
  · rw [if_pos hp, replaceText, dif_pos hp]
  · rw [if_neg hp, replaceText_eq_join hp]
    exact replaceLoop_eq hp target hf []

/-- **`replace` ends** for all strings, and joins the pieces of the original string with `to`. -/
theorem replace_ends (s pat target : Bytes) (hp : pat ≠ []) :
    ∃ ps, (∀ qs, Splitting pat s qs ↔ qs = ps) ∧
      ∀ fuel, s.length < fuel → replace fuel s pat target = some (target.intercalate ps) := by
  refine ⟨pieces pat s, fun qs => splitting_iff hp, fun fuel hf => ?_⟩
  rw [replace_eq_replaceText hf, replaceText_eq_join hp]
  rfl

/-- the new text contains the old one, and `a` with the `a` behind it is an occurrence that joining
brings about -/
theorem replace_ends_aab : ∃ ps, (∀ qs, Splitting (str "aab") (str "aaabab") qs ↔ qs = ps) ∧
    ∀ fuel, (str "aaabab").length < fuel →
      replace fuel (str "aaabab") (str "aab") (str "aaab") = some ((str "aaab").intercalate ps) :=
  replace_ends (str "aaabab") (str "aab") (str "aaab") (by decide)

example : replace 7 (str "aaabab") (str "aab") (str "a") = some (str "aaab") := by decide +kernel

end ServerHttpLib
