import ServerHttpLib.Http.Bytes

/-!
# The URL codec and the string helpers of `utils.cpp`
-/

namespace ServerHttpLib
open Cutting

def hexVal (c : UInt8) : Option Nat :=
  if ch '0' ≤ c && c ≤ ch '9' then some (c.toNat - 48)
  else if ch 'a' ≤ c && c ≤ ch 'f' then some (10 + (c.toNat - 97))
  else if ch 'A' ≤ c && c ≤ ch 'F' then some (10 + (c.toNat - 65))
  else none

/-- the byte of an escape `%hl`, if both characters are hexadecimal digits -/
def unescape (h l : UInt8) : Option UInt8 :=
  match hexVal h, hexVal l with
  | some hi, some lo => some (UInt8.ofNat (hi * 16 + lo))
  | _, _ => none

/-- a byte that is not the start of an escape -/
def plainByte (c : UInt8) : UInt8 := if c = ch '+' then sp else c

def urlDecode : Bytes → Bytes
  | [] => []
  | c :: h :: l :: rest =>
    if c = ch '%' then
      match unescape h l with
      | some b => b :: urlDecode rest
      | none => c :: urlDecode (h :: l :: rest)
    else plainByte c :: urlDecode (h :: l :: rest)
  -- fewer than two characters follow: a `%` stands for itself
  | c :: rest => plainByte c :: urlDecode rest

theorem urlDecode_cons {c : UInt8} (hc : c ≠ ch '%') (s : Bytes) :
    urlDecode (c :: s) = plainByte c :: urlDecode s := by
  match s with
  | [] => rfl
  | [_] => rfl
  | _ :: _ :: _ => rw [urlDecode, if_neg hc]

theorem urlDecode_escape {h l b : UInt8} (hb : unescape h l = some b) (s : Bytes) :
    urlDecode (ch '%' :: h :: l :: s) = b :: urlDecode s := by
  rw [urlDecode, if_pos rfl, hb]

def isAsciiAlphanumeric (c : UInt8) : Bool :=
  (ch 'a' ≤ c && c ≤ ch 'z') || (ch 'A' ≤ c && c ≤ ch 'Z') || (ch '0' ≤ c && c ≤ ch '9')

def hexUpper (v : Nat) : UInt8 := if v < 10 then UInt8.ofNat (48 + v) else UInt8.ofNat (55 + v)

/-- what `url_encode` writes for one byte -/
def encodeByte (c : UInt8) : Bytes :=
  if isAsciiAlphanumeric c || c = ch '-' || c = ch '_' || c = ch '.' || c = ch '~' then [c]
  else if c = sp then [ch '+']
  else [ch '%', hexUpper (c.toNat / 16), hexUpper (c.toNat % 16)]

def urlEncode (s : Bytes) : Bytes := s.flatMap encodeByte

def replaceChar (s : Bytes) (a b : UInt8) : Bytes := s.map fun c => if c = a then b else c

/-- `replace(std::string&, std::string_view, std::string_view)`; what has been written is not
searched again -/
def replaceText (s pat target : Bytes) : Bytes :=
  if _hp : pat = [] then s
  else match _h : cut pat s with
    | none => s
    | some (a, b) => a ++ target ++ replaceText b pat target
termination_by s.length
decreasing_by
  have h := cut_length _h
  have hpos := List.length_pos_of_ne_nil _hp
  omega

def split (values : Bytes) (delimiter : UInt8) : List Bytes :=
  if values = [] then []
  else match _h : cut [delimiter] values with
    | none => [values]
    | some (a, b) => a :: split b delimiter
termination_by values.length
decreasing_by
  have h := cut_length _h
  rw [List.length_singleton] at h
  omega

/-- `std::isspace` in the "C" locale -/
def isSpace (c : UInt8) : Bool := c = sp || (tab ≤ c && c ≤ cr)

def strip (value : Bytes) : Bytes := (value.dropWhile isSpace).rdropWhile isSpace

example : urlDecode (str "a%2Fb+c%zz%4") = str "a/b c%zz%4" := by decide

end ServerHttpLib
