import Mathlib.Logic.Function.Iterate
import ServerHttpLib.Http.Utils
import ServerHttpLib.Lib.Pieces
import ServerHttpLib.Lib.Terminated

/-!
# `split` and `sv_split`

Both run one loop, on a copy that is shortened and on a view that moves forward.

* `split_eq_loop`           the recursion `split` and the loop of the source are one;
* `split_iff`               the result is the pieces that the delimiter ends (`Cutting.Ended`);
* `map_text_svSplitViews`   the views are into the string that was passed, and are the same pieces;
* `splitLaw`                the pieces give the string back, less a delimiter at its end.
-/

namespace ServerHttpLib
open Cutting

/-- `sv_split`, whose loop is that of `split` -/
def svSplit (values : Bytes) (delimiter : UInt8) : List Bytes := split values delimiter

/-! ## the loop -/

/-- the loop of `split`, on a copy that it shortens -/
def splitLoop (delimiter : UInt8) (out : List Bytes) (string : Bytes) : List Bytes :=
  match _h : cut [delimiter] string with
  | none => out ++ [string]
  | some (a, b) => if b = [] then out ++ [a] else splitLoop delimiter (out ++ [a]) b
termination_by string.length
decreasing_by
  have h := cut_length _h
  rw [List.length_singleton] at h
  omega

theorem splitLoop_none {delimiter : UInt8} {string : Bytes} (h : cut [delimiter] string = none)
    (out : List Bytes) : splitLoop delimiter out string = out ++ [string] := by
  rw [splitLoop]
  split
  · rfl
  · rename_i h'
    rw [h] at h'
    exact absurd h' (by simp)

theorem splitLoop_some {delimiter : UInt8} {string a b : Bytes}
    (h : cut [delimiter] string = some (a, b)) (out : List Bytes) :
    splitLoop delimiter out string
      = if b = [] then out ++ [a] else splitLoop delimiter (out ++ [a]) b := by
  rw [splitLoop]
  split
  · rename_i h'
    rw [h] at h'
    exact absurd h' (by simp)
  · rename_i h'
    obtain ⟨rfl, rfl⟩ := cut_inj h h'
    rfl

theorem split_nil (delimiter : UInt8) : split [] delimiter = [] := by
  rw [split, if_pos rfl]

theorem split_none {values : Bytes} {delimiter : UInt8} (h : cut [delimiter] values = none) :
    split values delimiter = if values = [] then [] else [values] := by
  rw [split]
  split
  · rfl
  · split
    · rfl
    · rename_i h'
      rw [h] at h'
      exact absurd h' (by simp)

theorem split_some {values a b : Bytes} {delimiter : UInt8}
    (h : cut [delimiter] values = some (a, b)) :
    split values delimiter = a :: split b delimiter := by
  have hne : values ≠ [] := by
    rintro rfl
    exact absurd h (by simp [cut])
  rw [split, if_neg hne]
  split
  · rename_i h'
    rw [h] at h'
    exact absurd h' (by simp)
  · rename_i h'
    obtain ⟨rfl, rfl⟩ := cut_inj h h'
    rfl

/-- the loop appends the pieces of what is left of the copy -/
theorem splitLoop_eq {string : Bytes} (hne : string ≠ []) (delimiter : UInt8) (out : List Bytes) :
    splitLoop delimiter out string = out ++ split string delimiter := by
  induction string using cut_induction (List.cons_ne_nil delimiter []) generalizing out with
  | last s h => rw [splitLoop_none h, split_none h, if_neg hne]
  | next s a b h ih =>
    rw [splitLoop_some h, split_some h]
    split
    · rename_i hb
      rw [hb, split_nil]
    · rename_i hb
      rw [ih hb, List.append_assoc]
      rfl

theorem split_eq_loop (values : Bytes) (delimiter : UInt8) : split values delimiter
    = if values = [] then [] else splitLoop delimiter [] values := by
  split
  · rename_i h
    rw [h, split_nil]
  · rename_i h
    exact (splitLoop_eq h delimiter []).symm

/-! ## the pieces -/

theorem split_ended (values : Bytes) (delimiter : UInt8) :
    Ended delimiter values (split values delimiter) := by
  induction values using cut_induction (List.cons_ne_nil delimiter []) with
  | last s h =>
    rw [split_none h]
    split
    · rename_i hs
      rw [hs]
      exact .nil
    · rename_i hs
      exact .last (cut_singleton_none.mp h) hs
  | next s a b h ih =>
    obtain ⟨rfl, hfree⟩ := cut_singleton_some h
    rw [split_some h]
    exact .cons hfree ih

theorem split_iff {values : Bytes} {delimiter : UInt8} {pieces : List Bytes} :
    split values delimiter = pieces ↔ Ended delimiter values pieces := by
  constructor
  · rintro rfl
    exact split_ended values delimiter
  · exact fun h => (split_ended values delimiter).unique h

-- only an empty piece at the end is left out
example : split (str ",a,,b,") (ch ',') = [str "", str "a", str "", str "b"] :=
  split_iff.mpr (.cons (a := str "") (by decide) (.cons (a := str "a") (by decide)
    (.cons (a := str "") (by decide) (.cons (a := str "b") (by decide) .nil))))

theorem split_eq_nil_iff {values : Bytes} {delimiter : UInt8} :
    split values delimiter = [] ↔ values = [] :=
  (split_ended values delimiter).eq_nil_iff

theorem split_last {d : UInt8} {a : Bytes} (ha : d ∉ a) (hne : a ≠ []) : split a d = [a] :=
  split_iff.mpr (.last ha hne)

theorem split_cons {d : UInt8} {a : Bytes} (ha : d ∉ a) (s : Bytes) :
    split (a ++ d :: s) d = a :: split s d :=
  split_iff.mpr (.cons ha (split_ended s d))

theorem split_intercalate {d : UInt8} {pieces : List Bytes}
    (h : ∀ a ∈ pieces, d ∉ a ∧ a ≠ []) : split ([d].intercalate pieces) d = pieces :=
  split_iff.mpr (ended_intercalate h)

/-! ## views -/

/-- a `std::string_view` into `data` -/
structure StringView (data : Bytes) where
  start : Nat
  length : Nat
  inside : start + length ≤ data.length

namespace StringView
variable {data : Bytes}

def text (string : StringView data) : Bytes := (data.drop string.start).take string.length

def whole (data : Bytes) : StringView data where
  start := 0
  length := data.length
  inside := by omega

def findFirstOf (string : StringView data) (delimiter : UInt8) : Option Nat :=
  string.text.idxOf? delimiter

/-- `substr(pos, n)`, where `none` is `npos`; a `pos` behind the end throws -/
def substr (string : StringView data) (pos : Nat) (n : Option Nat) (h : pos ≤ string.length) :
    StringView data where
  start := string.start + pos
  length := min (n.getD (string.length - pos)) (string.length - pos)
  inside := by
    have := string.inside
    omega

theorem text_whole (data : Bytes) : (whole data).text = data := by
  show (data.drop 0).take data.length = data
  rw [List.drop_zero, List.take_length]

theorem length_text (string : StringView data) : string.text.length = string.length := by
  have := string.inside
  rw [text, List.length_take, List.length_drop]
  omega

theorem text_substr_some (string : StringView data) (n : Nat) :
    (string.substr 0 (some n) (Nat.zero_le _)).text = string.text.take n := by
  show (data.drop (string.start + 0)).take (min n (string.length - 0)) = _
  rw [Nat.add_zero, Nat.sub_zero, text, List.take_take]

theorem text_substr_none (string : StringView data) {pos : Nat} (h : pos ≤ string.length) :
    (string.substr pos none h).text = string.text.drop pos := by
  show (data.drop (string.start + pos)).take (min (string.length - pos) (string.length - pos)) = _
  rw [min_self, text, List.drop_take, List.drop_drop]

theorem findFirstOf_lt {string : StringView data} {delimiter : UInt8} {k : Nat}
    (h : string.findFirstOf delimiter = some k) : k + 1 ≤ string.length := by
  obtain ⟨hk, -⟩ := List.idxOf?_eq_some_iff.mp h
  rwa [length_text] at hk

theorem text_eq_nil_iff {string : StringView data} : string.text = [] ↔ string.length = 0 := by
  rw [← List.length_eq_zero_iff, length_text]

/-- the search and the two views that `substr` makes of it cut the text -/
theorem cut_text {string : StringView data} {delimiter : UInt8} {k : Nat}
    (h : string.findFirstOf delimiter = some k) : cut [delimiter] string.text
      = some ((string.substr 0 (some k) (Nat.zero_le _)).text,
          (string.substr (k + 1) none (findFirstOf_lt h)).text) := by
  unfold findFirstOf at h
  rw [text_substr_some, text_substr_none, cut_singleton_eq_idxOf?, h, Option.map_some]

theorem cut_text_none {string : StringView data} {delimiter : UInt8}
    (h : string.findFirstOf delimiter = none) : cut [delimiter] string.text = none := by
  unfold findFirstOf at h
  rw [cut_singleton_eq_idxOf?, h, Option.map_none]

end StringView

/-- the loop of `sv_split`, on a view that it moves forward -/
def svSplitLoop {data : Bytes} (delimiter : UInt8) (out : List (StringView data))
    (string : StringView data) : List (StringView data) :=
  match _h : string.findFirstOf delimiter with
  | none => out ++ [string]
  | some k =>
    let out := out ++ [string.substr 0 (some k) (Nat.zero_le _)]
    let rest := string.substr (k + 1) none (StringView.findFirstOf_lt _h)
    if rest.length = 0 then out else svSplitLoop delimiter out rest
termination_by string.length
decreasing_by
  have h := StringView.findFirstOf_lt _h
  show min (string.length - (k + 1)) (string.length - (k + 1)) < string.length
  omega

/-- the views that `sv_split` returns -/
def svSplitViews (data : Bytes) (delimiter : UInt8) : List (StringView data) :=
  if (StringView.whole data).length = 0 then []
  else svSplitLoop delimiter [] (StringView.whole data)

/-- the two loops go step by step with each other -/
theorem map_text_svSplitLoop {data : Bytes} (delimiter : UInt8) (out : List (StringView data))
    (string : StringView data) : (svSplitLoop delimiter out string).map StringView.text
      = splitLoop delimiter (out.map StringView.text) string.text := by
  fun_induction svSplitLoop delimiter out string with
  | case1 out string h =>
    rw [splitLoop_none (StringView.cut_text_none h), List.map_append, List.map_singleton]
  | case2 out string k h out' rest hrest =>
    rw [splitLoop_some (StringView.cut_text h), if_pos (StringView.text_eq_nil_iff.mpr hrest),
      List.map_append, List.map_singleton]
  | case3 out string k h out' rest hrest ih =>
    rw [ih, splitLoop_some (StringView.cut_text h),
      if_neg (StringView.text_eq_nil_iff.not.mpr hrest), List.map_append, List.map_singleton]

/-- **The views are the pieces.** -/
theorem map_text_svSplitViews (data : Bytes) (delimiter : UInt8) :
    (svSplitViews data delimiter).map StringView.text = svSplit data delimiter := by
  rw [svSplit, split_eq_loop, svSplitViews]
  by_cases hdata : data = []
  · have hlen : (StringView.whole data).length = 0 := List.length_eq_zero_iff.mpr hdata
    rw [if_pos hlen, if_pos hdata, List.map_nil]
  · have hlen : (StringView.whole data).length ≠ 0 := List.length_eq_zero_iff.not.mpr hdata
    rw [if_neg hlen, if_neg hdata, map_text_svSplitLoop, List.map_nil, StringView.text_whole]

/-! ## the law -/

/-- what `split` and `sv_split` make of a string -/
structure SplitLaw (values : Bytes) (delimiter : UInt8) : Prop where
  /-- only a delimiter at the end is lost -/
  joined : [delimiter].intercalate (split values delimiter)
    = if values.getLast? = some delimiter then values.dropLast else values
  free : ∀ piece ∈ split values delimiter, delimiter ∉ piece
  views : (svSplitViews values delimiter).map StringView.text = split values delimiter

theorem splitLaw (values : Bytes) (delimiter : UInt8) : SplitLaw values delimiter where
  joined := (split_ended values delimiter).intercalate
  free := (split_ended values delimiter).free
  views := map_text_svSplitViews values delimiter

end ServerHttpLib
