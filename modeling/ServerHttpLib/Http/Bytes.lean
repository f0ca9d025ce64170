import Mathlib.Data.List.DropRight
import ServerHttpLib.Lib.Cut
import ServerHttpLib.Lib.Numeral

/-!
# Byte strings

The value of a `std::string` or `std::string_view` is a list of bytes; a `size_t` is a natural
number below `2^64` that wraps.  Characters are compared as the source compares them: its ASCII
range tests give the same answer for signed and unsigned `char`.
-/

namespace ServerHttpLib
open Cutting

abbrev Bytes := List UInt8

instance instLawfulBEqBytes : LawfulBEq Bytes := inferInstance

/-- the bytes of a character literal -/
def ch (c : Char) : UInt8 := UInt8.ofNat c.toNat

/-- the bytes of a string literal -/
def str (s : String) : Bytes := s.toList.map ch

def cr : UInt8 := 13
def lf : UInt8 := 10
def sp : UInt8 := 32
def tab : UInt8 := 9
def backslash : UInt8 := 92

def crlf : Bytes := [cr, lf]
def crlf2 : Bytes := [cr, lf, cr, lf]

/-- a value stored in a `size_t` -/
def sizeT (n : Nat) : Nat := n % 2 ^ 64

/-- a subtraction in a `size_t` -/
def sizeSub (a b : Nat) : Nat := sizeT (a + (2 ^ 64 - sizeT b))

theorem sizeT_of_lt {n : Nat} (h : n < 2 ^ 64) : sizeT n = n := Nat.mod_eq_of_lt h

/-- the most bytes one `std::string` or `std::vector<char>` holds -/
def maxSize : Nat := 2 ^ 63 - 1

def isBlank (b : UInt8) : Bool := b = sp || b = tab
def isDigit (b : UInt8) : Bool := ch '0' ≤ b && b ≤ ch '9'

/-- `c - '0'` -/
def digitVal (b : UInt8) : Nat := b.toNat - 48

def asciiLower (c : UInt8) : UInt8 := if ch 'A' ≤ c && c ≤ ch 'Z' then c + 32 else c

def ciStartsWith (s lit : Bytes) : Bool :=
  if s.length < lit.length then false
  else (s.take lit.length).map asciiLower == lit.map asciiLower

/-- a line without the `'\r'` before its `'\n'` -/
def dropCr (line : Bytes) : Bytes := if line.getLast? = some cr then line.dropLast else line

/-- the lines that end in `'\n'`, without it: what repeated `memchr(p, '\n', stop - p)` yields;
a last line without `'\n'` is not among them -/
def lfLines : Bytes → List Bytes
  | [] => []
  | c :: cs =>
    if c = lf then [] :: lfLines cs
    else match lfLines cs with
      | [] => []
      | l :: ls => (c :: l) :: ls

def svStrip (s : Bytes) : Bytes := (s.dropWhile isBlank).rdropWhile isBlank

/-- the digits of a `Content-Length` value, behind the blanks -/
def lengthDigits (v : Bytes) : Bytes := (v.dropWhile isBlank).takeWhile isDigit

/-- the accumulator `val = val * 10 + digit` in a `size_t` -/
def lengthValue (v : Bytes) : Nat :=
  ((lengthDigits v).map digitVal).foldl (fun val d => sizeT (val * 10 + d)) 0

def digitByte (d : Nat) : UInt8 := UInt8.ofNat (48 + d)

/-- `std::to_string` of an unsigned number -/
def decimal (n : Nat) : Bytes := (Numeral.numeral 10 n).map fun d => UInt8.ofNat (48 + d)

/-- `std::to_string` of an `int` -/
def decimalInt (n : Int) : Bytes := if n < 0 then ch '-' :: decimal n.natAbs else decimal n.natAbs

/-- what holds of each of the 256 bytes -/
theorem forall_byte {P : UInt8 → Prop} (h : ∀ n : Fin 256, P (UInt8.ofNat n)) (b : UInt8) :
    P b := by
  have hb := h ⟨b.toNat, b.toNat_lt⟩
  rwa [UInt8.ofNat_toNat] at hb

/-! ## numbers -/

theorem isDigit_decimal {n : Nat} {b : UInt8} (hb : b ∈ decimal n) : isDigit b = true := by
  obtain ⟨d, hd, rfl⟩ := List.mem_map.mp hb
  have hlt := Numeral.numeral_lt (by norm_num) hd
  have key : ∀ d : Fin 10, isDigit (UInt8.ofNat (48 + d)) = true := by decide
  exact key ⟨d, hlt⟩

theorem not_mem_decimal {n : Nat} {b : UInt8} (hb : isDigit b = false) : b ∉ decimal n := by
  intro h
  rw [isDigit_decimal h] at hb
  exact absurd hb (by simp)

theorem not_mem_decimalInt {n : Int} {b : UInt8} (hb : isDigit b = false) (hminus : b ≠ ch '-') :
    b ∉ decimalInt n := by
  unfold decimalInt
  split
  · rw [List.mem_cons, not_or]
    exact ⟨hminus, not_mem_decimal hb⟩
  · exact not_mem_decimal hb

theorem decimal_ne_nil (n : Nat) : decimal n ≠ [] :=
  List.map_eq_nil_iff.not.mpr (Numeral.numeral_ne_nil 10 n)

theorem decimalInt_ne_nil (n : Int) : decimalInt n ≠ [] := by
  unfold decimalInt
  split
  · exact List.cons_ne_nil _ _
  · exact decimal_ne_nil _

theorem not_mem_append_decimal {pre : Bytes} {b : UInt8} (hpre : b ∉ pre) (hb : isDigit b = false)
    (n : Nat) : b ∉ pre ++ decimal n := by
  rw [List.mem_append, not_or]
  exact ⟨hpre, not_mem_decimal hb⟩

theorem not_isDigit_of_isBlank {b : UInt8} (h : isBlank b = true) : isDigit b = false := by
  rcases (Bool.or_eq_true _ _).mp h with hb | hb
  · rw [of_decide_eq_true hb]
    decide
  · rw [of_decide_eq_true hb]
    decide

theorem dropWhile_isBlank_of_digits {s : Bytes} (hs : ∀ b ∈ s, isDigit b = true) :
    s.dropWhile isBlank = s := by
  cases s with
  | nil => rfl
  | cons b s =>
    refine List.dropWhile_cons_of_neg fun hb => ?_
    have hdigit := hs b List.mem_cons_self
    rw [not_isDigit_of_isBlank hb] at hdigit
    exact absurd hdigit (by simp)

theorem dropWhile_isBlank_decimal (n : Nat) : (decimal n).dropWhile isBlank = decimal n :=
  dropWhile_isBlank_of_digits fun _ hb => isDigit_decimal hb

theorem takeWhile_decimal (n : Nat) : (decimal n).takeWhile isDigit = decimal n :=
  List.takeWhile_eq_self_iff.mpr fun _ hb => isDigit_decimal hb

theorem map_digitVal_decimal (n : Nat) : (decimal n).map digitVal = Numeral.numeral 10 n := by
  unfold decimal
  rw [List.map_map]
  conv_rhs => rw [← List.map_id (Numeral.numeral 10 n)]
  refine List.map_congr_left fun d hd => ?_
  have hlt := Numeral.numeral_lt (by norm_num) hd
  have key : ∀ d : Fin 10, digitVal (UInt8.ofNat (48 + d)) = d := by decide
  exact key ⟨d, hlt⟩

/-- the decimal digits of a number are read back -/
theorem value_decimal (n : Nat) : Numeral.value 10 ((decimal n).map digitVal) = n := by
  rw [map_digitVal_decimal, Numeral.value_numeral]

/-! ## lines -/

theorem unbordered_crlf : Unbordered crlf := unbordered_pair (by decide)

theorem lfLines_append_lf {l : Bytes} (hl : lf ∉ l) (s : Bytes) :
    lfLines (l ++ lf :: s) = l :: lfLines s := by
  induction l with
  | nil => simp [lfLines]
  | cons c l ih =>
    have hc : c ≠ lf := fun e => hl (e ▸ List.mem_cons_self)
    rw [List.cons_append, lfLines, if_neg hc, ih fun h => hl (List.mem_cons_of_mem _ h)]

theorem dropCr_append_cr (l : Bytes) : dropCr (l ++ [cr]) = l := by
  simp [dropCr]

theorem lfLines_crlf {l : Bytes} (hl : lf ∉ l) (s : Bytes) :
    lfLines (l ++ crlf ++ s) = (l ++ [cr]) :: lfLines s := by
  have h : lf ∉ l ++ [cr] := by
    rw [List.mem_append, List.mem_singleton]
    exact not_or.mpr ⟨hl, by decide⟩
  have e : l ++ crlf ++ s = (l ++ [cr]) ++ lf :: s := by simp [crlf]
  rw [e, lfLines_append_lf h]

/-! ## blanks -/

theorem svStrip_of_not_blank {s : Bytes} (hh : ∀ b, s.head? = some b → isBlank b = false)
    (hl : ∀ b, s.getLast? = some b → isBlank b = false) : svStrip s = s := by
  unfold svStrip
  have h1 : s.dropWhile isBlank = s := by
    cases s with
    | nil => rfl
    | cons b s => simp [hh b rfl]
  rw [h1, List.rdropWhile_eq_self_iff]
  intro hne
  rw [hl _ (List.getLast?_eq_some_getLast hne)]
  simp

theorem svStrip_cons_blank {b : UInt8} (hb : isBlank b = true) (s : Bytes) :
    svStrip (b :: s) = svStrip s := by
  unfold svStrip
  rw [List.dropWhile_cons_of_pos hb]

end ServerHttpLib
