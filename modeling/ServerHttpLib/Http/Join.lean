import Mathlib.Logic.Function.Iterate
import ServerHttpLib.Http.Split

/-!
# `join`, and what `split` makes of it

`join` counts the elements in an `int` and compares the count with a `size_t`.

* `join_eq`             where the delimiters are written;
* `split_join_iff`      what has to hold of the index at each element;
* `split_join_laws`     so the elements are read back, up to `2 ^ 31 + 1` of them.
-/

namespace ServerHttpLib
open Cutting

/-- `++` of an `int`.  What follows the largest one is undefined. -/
structure Increment where
  next : Int → Int
  next_of_lt : ∀ i, -2 ^ 31 ≤ i → i + 1 < 2 ^ 31 → next i = i + 1

def Increment.wrapping : Increment where
  next i := Int.bmod (i + 1) (2 ^ 32)
  next_of_lt i hlow hhigh := Int.bmod_eq_of_le (by omega) (by omega)

def sizeOfInt (n : Int) : Nat := (n % 2 ^ 64).toNat

/-- the comparison `index < (size - 1)`, which is made between two `size_t` -/
def indexBefore (size : Nat) (index : Int) : Bool := sizeOfInt index < sizeSub size 1

/-- the body of the loop of `join`, on `index` and `result` -/
def joinStep (inc : Increment) (size : Nat) (delimiter : UInt8) (s : Int × Bytes) (t : Int) :
    Int × Bytes :=
  let result := s.2 ++ decimalInt t
  (inc.next s.1, if indexBefore size s.1 then result ++ [delimiter] else result)

def join (inc : Increment) (values : List Int) (delimiter : UInt8 := ch ',') : Bytes :=
  (values.foldl (joinStep inc (sizeT values.length) delimiter) (0, [])).2

/-! ## the index -/

theorem Increment.iterate_of_lt (inc : Increment) {i : Nat} (h : i < 2 ^ 31) :
    inc.next^[i] 0 = i := by
  induction i with
  | zero => rfl
  | succ i ih =>
    have hnext : inc.next i = i + 1 := inc.next_of_lt i (by omega) (by omega)
    rw [Function.iterate_succ_apply', ih (by omega), hnext, Int.natCast_succ]

theorem wrapping_next (i : Int) : Increment.wrapping.next i = Int.bmod (i + 1) (2 ^ 32) := rfl

theorem iterate_wrapping (i : Nat) : Increment.wrapping.next^[i] 0 = Int.bmod i (2 ^ 32) := by
  induction i with
  | zero => exact Int.zero_bmod.symm
  | succ i ih =>
    rw [Function.iterate_succ_apply', ih, wrapping_next, Int.bmod_add_bmod, Int.natCast_succ]

theorem sizeOfInt_natCast {i : Nat} (h : i < 2 ^ 31) : sizeOfInt i = i := by
  unfold sizeOfInt
  omega

theorem sizeOfInt_of_neg {n : Int} (hlow : -2 ^ 31 ≤ n) (hneg : n < 0) :
    sizeOfInt n = (2 ^ 64 + n).toNat := by
  unfold sizeOfInt
  omega

theorem sizeSub_one {n : Nat} (hpos : 0 < n) (h : n < 2 ^ 64) : sizeSub n 1 = n - 1 := by
  unfold sizeSub sizeT
  omega

/-- the delimiter is written behind the elements whose index is smaller than `size - 1` -/
theorem foldl_joinStep (inc : Increment) (size : Nat) (delimiter : UInt8) (values : List Int)
    (n : Nat) (result : Bytes) :
    (values.foldl (joinStep inc size delimiter) (inc.next^[n] 0, result)).2
      = result ++ written delimiter (fun i => indexBefore size (inc.next^[i] 0) = true) n
          (values.map decimalInt) := by
  induction values generalizing n result with
  | nil => exact (List.append_nil result).symm
  | cons t values ih =>
    rw [List.foldl_cons, joinStep, ← Function.iterate_succ_apply' inc.next n 0, ih, List.map_cons,
      written]
    split
    · rw [List.append_assoc, List.append_assoc]
    · rw [List.append_assoc, List.nil_append]

theorem join_eq (inc : Increment) (values : List Int) (delimiter : UInt8) :
    join inc values delimiter
      = written delimiter (fun i => indexBefore (sizeT values.length) (inc.next^[i] 0) = true) 0
          (values.map decimalInt) :=
  foldl_joinStep inc _ delimiter values 0 []

example : join .wrapping [12, -3, 0] = str "12,-3,0" := by decide +kernel

/-! ## reading the elements back -/

/-- `split` reads the elements that `join` has written, whatever the index is behind the largest
`int` -/
def JoinLaw (values : List Int) (delimiter : UInt8) : Prop :=
  ∀ inc, split (join inc values delimiter) delimiter = values.map decimalInt

/-- they are read back exactly if each index but the last is before the end -/
theorem split_join_iff (inc : Increment) (values : List Int) {delimiter : UInt8}
    (hd : isDigit delimiter = false ∧ delimiter ≠ ch '-') :
    split (join inc values delimiter) delimiter = values.map decimalInt ↔
      ∀ i, i + 1 < values.length →
        indexBefore (sizeT values.length) (inc.next^[i] 0) = true := by
  have hpieces : ∀ x ∈ values.map decimalInt, delimiter ∉ x ∧ x ≠ [] := by
    intro x hx
    obtain ⟨n, -, rfl⟩ := List.mem_map.mp hx
    exact ⟨not_mem_decimalInt hd.1 hd.2, decimalInt_ne_nil n⟩
  rw [split_iff, join_eq, ended_written_iff 0 hpieces, List.length_map]
  simp only [Nat.zero_add]

theorem indexBefore_of_lt {size : Nat} {i : Nat} (hi : i < 2 ^ 31) (hsize : size < 2 ^ 64)
    (h : i + 1 < size) : indexBefore size i = true := by
  rw [indexBefore, sizeOfInt_natCast hi, sizeSub_one (by omega) hsize, decide_eq_true_eq]
  omega

/-- the wrapped index of an element is negative, and so larger than `size - 1` as a `size_t` -/
theorem indexBefore_wrapping {size i : Nat} (hlow : 2 ^ 31 ≤ i) (hhigh : i < 2 ^ 32)
    (h : sizeSub size 1 ≤ 2 ^ 64 - 2 ^ 32 + i) :
    indexBefore size (Increment.wrapping.next^[i] 0) = false := by
  have hneg : Int.bmod i (2 ^ 32) = i - 2 ^ 32 := by
    rw [Int.bmod_def]
    omega
  rw [indexBefore, iterate_wrapping, hneg, sizeOfInt_of_neg (by omega) (by omega),
    decide_eq_false_iff_not, Nat.not_lt]
  omega

/-- from `2 ^ 31 + 2` elements on, one that is not the last has no delimiter behind it -/
theorem exists_index_wrapped {n : Nat} (h : 2 ^ 31 + 1 < n) : ∃ i, i + 1 < n ∧
    indexBefore (sizeT n) (Increment.wrapping.next^[i] 0) = false := by
  by_cases hn : n ≤ 2 ^ 32
  · refine ⟨2 ^ 31, by omega, indexBefore_wrapping (by omega) (by omega) ?_⟩
    rw [sizeT_of_lt (by omega), sizeSub_one (by omega) (by omega)]
    omega
  · -- the index is `-1` here, and no `size_t` is larger
    refine ⟨2 ^ 32 - 1, by omega, indexBefore_wrapping (by omega) (by omega) ?_⟩
    have hlt : sizeSub (sizeT n) 1 < 2 ^ 64 := Nat.mod_lt _ (by omega)
    omega

/-- up to `2 ^ 31 + 1` elements, only the index of the last one may be undefined; a delimiter behind
that one does not matter to `split` -/
theorem split_join (inc : Increment) {values : List Int} (hlen : values.length ≤ 2 ^ 31 + 1)
    {delimiter : UInt8} (hd : isDigit delimiter = false ∧ delimiter ≠ ch '-') :
    split (join inc values delimiter) delimiter = values.map decimalInt := by
  rw [split_join_iff inc values hd]
  intro i hi
  rw [inc.iterate_of_lt (by omega), sizeT_of_lt (by omega)]
  exact indexBefore_of_lt (by omega) (by omega) hi

theorem split_join_wrapping_iff (values : List Int) {delimiter : UInt8}
    (hd : isDigit delimiter = false ∧ delimiter ≠ ch '-') :
    split (join .wrapping values delimiter) delimiter = values.map decimalInt ↔
      values.length ≤ 2 ^ 31 + 1 := by
  refine ⟨fun h => ?_, fun hlen => split_join .wrapping hlen hd⟩
  rw [split_join_iff .wrapping values hd] at h
  by_contra hlen
  obtain ⟨i, hi, hindex⟩ := exists_index_wrapped (Nat.lt_of_not_le hlen)
  have hbefore := h i hi
  rw [hindex] at hbefore
  exact absurd hbefore Bool.false_ne_true

theorem joinLaw_iff (values : List Int) {delimiter : UInt8}
    (hd : isDigit delimiter = false ∧ delimiter ≠ ch '-') :
    JoinLaw values delimiter ↔ values.length ≤ 2 ^ 31 + 1 := by
  constructor
  · intro h
    exact (split_join_wrapping_iff values hd).mp (h .wrapping)
  · intro hlen inc
    exact split_join inc hlen hd

/-- **Splitting and joining undo each other**: splitting always, joining up to `2 ^ 31 + 1`
elements. -/
theorem split_join_laws (s : Bytes) (e : UInt8) (values : List Int) {delimiter : UInt8}
    (hd : isDigit delimiter = false ∧ delimiter ≠ ch '-') :
    SplitLaw s e ∧ (JoinLaw values delimiter ↔ values.length ≤ 2 ^ 31 + 1) :=
  ⟨splitLaw s e, joinLaw_iff values hd⟩

theorem split_join_laws_semicolon :
    SplitLaw (str ",a,,b,") (ch ',') ∧ JoinLaw [12, -3, 0] (ch ';') := by
  have h := split_join_laws (str ",a,,b,") (ch ',') [12, -3, 0] (show isDigit (ch ';') = false ∧
    ch ';' ≠ ch '-' by decide)
  exact ⟨h.1, h.2.mpr (by simp)⟩

theorem split_join_zeros :
    ¬ JoinLaw (List.replicate (2 ^ 31 + 2) 0) (ch ',') ∧
      split (join .wrapping (List.replicate (2 ^ 31 + 2) 0)) (ch ',')
        ≠ (List.replicate (2 ^ 31 + 2) 0).map decimalInt := by
  have hd : isDigit (ch ',') = false ∧ ch ',' ≠ ch '-' := by decide
  have hlen : ¬ (List.replicate (2 ^ 31 + 2) (0 : Int)).length ≤ 2 ^ 31 + 1 := by
    rw [List.length_replicate]
    omega
  constructor
  · rw [joinLaw_iff _ hd]
    exact hlen
  · rw [ne_eq, split_join_wrapping_iff _ hd]
    exact hlen

end ServerHttpLib
