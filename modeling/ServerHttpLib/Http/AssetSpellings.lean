import ServerHttpLib.Http.Assets
import ServerHttpLib.Lib.PosixRename

/-!
# Spellings of the path of an asset

A character of a path may be written as an escape.  The path is decoded only if there is an escape
in it, and decoding also makes a blank of each `+` that is written as such: so one escape changes
what every other `+` means.  A marker in the place of these `+` tells what becomes of them.

* `decodeRounds_spelled`     what the text becomes with and without an escape;
* `relativeAsset_rename`     the rest of the normalization treats the marker, `+` and a blank alike;
* `sameAsset_iff`            two spellings name the same asset exactly if nothing is escaped, or no
                             plain `+` is left in a name.
-/

namespace ServerHttpLib
open PosixPath

/-! ## spellings -/

/-- a character of a path, and the hexadecimal digits by which it is written, if it is -/
structure Spelling where
  char : UInt8
  escape : Option (UInt8 × UInt8)
  allowed : isForbidden char = false
  escape_eq : ∀ hl ∈ escape, unescape hl.1 hl.2 = some char

def Spelling.bytes (s : Spelling) : Bytes :=
  match s.escape with
  | none => [s.char]
  | some (h, l) => [ch '%', h, l]

/-- the path without any escapes -/
def plainText (w : List Spelling) : Bytes := w.map Spelling.char

def spelledText (w : List Spelling) : Bytes := w.flatMap Spelling.bytes

/-- the two spellings have the same verdict and name the same file -/
def SameAsset (assetsRoot : Option Bytes) (w : List Spelling) : Prop :=
  normalizeAssetPath assetsRoot (spelledText w) = normalizeAssetPath assetsRoot (plainText w)

/-- the path below the assets root, from the decoded text -/
def relativeAsset (clean : Bytes) : Option Path :=
  let rel : Path := ⟨eraseSlash (replaceChar clean backslash (ch '/'))⟩
  if rel.isAbsolute then none
  else
    let rel := (stripAssets rel).lexicallyNormal
    if rel.isEmpty || rel.elements = [[dot]] then none
    else if dotDot ∈ rel.elements then none
    else some rel

/-- a byte that no allowed character is -/
def marker : UInt8 := 1

/-- the path with the marker for each plain `+` -/
def markedText (w : List Spelling) : Bytes :=
  w.map fun s => if s.char = ch '+' ∧ s.escape = none then marker else s.char

/-- a plain `+` is left in the normalized path -/
def KeepsPlus (w : List Spelling) : Prop :=
  ∃ rel, relativeAsset (markedText w) = some rel ∧ marker ∈ rel.native

/-! ## the text that is decoded -/

theorem normalizeAssetPath_eq (assetsRoot : Option Bytes) (input : Bytes) :
    normalizeAssetPath assetsRoot input = if (decodeRounds 3 input).any isForbidden then none
      else (relativeAsset (decodeRounds 3 input)).map (assetsPath assetsRoot).append := by
  unfold normalizeAssetPath relativeAsset
  dsimp only
  split_ifs <;> rfl

theorem Spelling.char_ne (s : Spelling) {c : UInt8} (hc : isForbidden c = true) : s.char ≠ c := by
  intro h
  have ha := s.allowed
  rw [h, hc] at ha
  exact absurd ha (by simp)

theorem percent_not_mem_plain (w : List Spelling) : ch '%' ∉ plainText w := by
  intro h
  obtain ⟨s, -, hs⟩ := List.mem_map.mp h
  exact s.char_ne (by decide) hs

theorem not_forbidden_plain (w : List Spelling) : (plainText w).any isForbidden = false := by
  rw [List.any_eq_false]
  intro b hb
  obtain ⟨s, -, rfl⟩ := List.mem_map.mp hb
  rw [s.allowed]
  exact Bool.false_ne_true

theorem decodeRounds_plain {s : Bytes} (hs : ch '%' ∉ s) (k : Nat) : decodeRounds k s = s := by
  cases k with
  | zero => rfl
  | succ k => rw [decodeRounds, if_neg hs]

def Spelling.decoded (s : Spelling) : UInt8 :=
  match s.escape with
  | none => plainByte s.char
  | some _ => s.char

theorem urlDecode_spelled (w : List Spelling) :
    urlDecode (spelledText w) = w.map Spelling.decoded := by
  induction w with
  | nil => rfl
  | cons s w ih =>
    show urlDecode (s.bytes ++ spelledText w) = s.decoded :: w.map Spelling.decoded
    rw [← ih]
    unfold Spelling.bytes Spelling.decoded
    cases he : s.escape with
    | none => exact urlDecode_cons (s.char_ne (by decide)) _
    | some hl =>
      have hu : unescape hl.1 hl.2 = some s.char := s.escape_eq hl (by rw [he]; rfl)
      exact urlDecode_escape hu _

theorem decoded_ne_percent (s : Spelling) : s.decoded ≠ ch '%' ∧ isForbidden s.decoded = false := by
  have key : ∀ c, isForbidden c = false →
      plainByte c ≠ ch '%' ∧ isForbidden (plainByte c) = false := forall_byte (by decide +kernel)
  unfold Spelling.decoded
  cases s.escape with
  | none => exact key _ s.allowed
  | some _ => exact ⟨s.char_ne (by decide), s.allowed⟩

/-- **What the loop makes of the text**: with an escape every plain `+` is a blank, without one
nothing changes. -/
theorem decodeRounds_spelled (w : List Spelling) : decodeRounds 3 (spelledText w)
    = if ∀ s ∈ w, s.escape = none then plainText w else w.map Spelling.decoded := by
  split
  · rename_i hnone
    have he : spelledText w = plainText w := by
      unfold spelledText plainText
      rw [← List.flatMap_pure_eq_map]
      refine List.flatMap_congr fun s hs => ?_
      rw [Spelling.bytes, hnone s hs]
      rfl
    rw [he, decodeRounds_plain (percent_not_mem_plain w)]
  · rename_i hsome
    have hpercent : ch '%' ∈ spelledText w := by
      rw [not_forall] at hsome
      obtain ⟨s, hs⟩ := hsome
      obtain ⟨hs, he⟩ := Classical.not_imp.mp hs
      obtain ⟨hl, hhl⟩ := Option.ne_none_iff_exists'.mp he
      refine List.mem_flatMap.mpr ⟨s, hs, ?_⟩
      rw [Spelling.bytes, hhl]
      exact List.mem_cons_self
    have hdecoded : ch '%' ∉ w.map Spelling.decoded := by
      intro h
      obtain ⟨s, -, hs⟩ := List.mem_map.mp h
      exact (decoded_ne_percent s).1 hs
    rw [decodeRounds, if_pos hpercent, urlDecode_spelled, decodeRounds_plain hdecoded]

/-! ## the marker -/

/-- the marker becomes `c` -/
def unmark (c b : UInt8) : UInt8 := if b = marker then c else b

theorem faithful_unmark {c d : UInt8} (hd : d ≠ marker ∧ d ≠ c) : Faithful (unmark c) d := by
  intro b
  unfold unmark
  split
  · rename_i h
    rw [h]
    exact iff_of_false hd.2.symm hd.1.symm
  · exact Iff.rfl

/-- what the marker stands for is special nowhere in the normalization -/
structure Harmless (c : UInt8) : Prop where
  special : ∀ d ∈ [sep, dot, backslash] ++ str "assets", d ≠ marker ∧ d ≠ c

def unmarking {c : UInt8} (h : Harmless c) : Renaming where
  toFun := unmark c
  sep := faithful_unmark (h.special _ (by simp))
  dot := faithful_unmark (h.special _ (by simp))

theorem harmless_plus : Harmless (ch '+') := ⟨by decide +kernel⟩
theorem harmless_blank : Harmless sp := ⟨by decide +kernel⟩

section
variable {c : UInt8} (h : Harmless c)
include h

theorem replaceChar_unmark (s : Bytes) : replaceChar (s.map (unmark c)) backslash (ch '/')
    = (replaceChar s backslash (ch '/')).map (unmark c) := by
  have hback : Faithful (unmark c) backslash := faithful_unmark (h.special _ (by simp))
  unfold replaceChar
  rw [List.map_map, List.map_map]
  refine List.map_congr_left fun b _ => ?_
  simp only [Function.comp_apply, hback b]
  split
  · exact (unmarking h).sep.self.symm
  · rfl

theorem eraseSlash_unmark (s : Bytes) :
    eraseSlash (s.map (unmark c)) = (eraseSlash s).map (unmark c) := by
  cases s with
  | nil => rfl
  | cons b s =>
    have hb : unmark c b = ch '/' ↔ b = ch '/' := (unmarking h).sep b
    rw [List.map_cons, eraseSlash, eraseSlash]
    simp only [hb]
    split <;> rfl

theorem stripAssets_rename (p : Path) :
    stripAssets (p.rename (unmark c)) = (stripAssets p).rename (unmark c) := by
  have hassets : ∀ e : Bytes, e.map (unmark c) = str "assets" ↔ e = str "assets" := by
    refine map_eq_iff fun d hd => ?_
    exact faithful_unmark (h.special d (List.mem_append_right _ hd))
  have he := elements_rename (unmarking h) p
  unfold stripAssets
  rw [show (p.rename (unmark c)).elements = p.elements.map (List.map (unmark c)) from he]
  cases p.elements with
  | nil => rfl
  | cons e es =>
    rw [List.map_cons]
    simp only [hassets]
    split
    · exact (foldl_append_rename (unmarking h) .empty es).symm
    · rfl

/-- **The normalization does not see what the marker stands for.** -/
theorem relativeAsset_rename (s : Bytes) : relativeAsset (s.map (unmark c))
    = (relativeAsset s).map (Path.rename (unmark c)) := by
  have hrel : (⟨eraseSlash (replaceChar (s.map (unmark c)) backslash (ch '/'))⟩ : Path)
      = (⟨eraseSlash (replaceChar s backslash (ch '/'))⟩ : Path).rename (unmark c) := by
    rw [replaceChar_unmark h, eraseSlash_unmark h]
    rfl
  generalize hp : (⟨eraseSlash (replaceChar s backslash (ch '/'))⟩ : Path) = p at hrel
  have habs : (p.rename (unmark c)).isAbsolute = p.isAbsolute := isAbsolute_rename (unmarking h) p
  have hnormal : (stripAssets (p.rename (unmark c))).lexicallyNormal
      = (stripAssets p).lexicallyNormal.rename (unmark c) := by
    rw [stripAssets_rename h]
    exact lexicallyNormal_rename (unmarking h) _
  unfold relativeAsset
  simp only [hrel, hp, habs, hnormal]
  generalize (stripAssets p).lexicallyNormal = q
  have hempty : (q.rename (unmark c)).isEmpty = q.isEmpty := by
    unfold Path.isEmpty Path.rename
    rw [List.isEmpty_map]
  have helements : (q.rename (unmark c)).elements = q.elements.map (List.map (unmark c)) :=
    elements_rename (unmarking h) q
  have heq : ∀ e : List UInt8, e.map (unmark c) = [dot] ↔ e = [dot] := eq_dot_rename (unmarking h)
  have hdot : q.elements.map (List.map (unmark c)) = [[dot]] ↔ q.elements = [[dot]] := by
    cases q.elements with
    | nil => simp
    | cons e es => rw [List.map_cons, List.cons.injEq, List.cons.injEq, heq, List.map_eq_nil_iff]
  have hdotDot : dotDot ∈ q.elements.map (List.map (unmark c)) ↔ dotDot ∈ q.elements := by
    rw [List.mem_map]
    constructor
    · rintro ⟨e, he, hmap⟩
      exact (eq_dotDot_rename (unmarking h) e).mp hmap ▸ he
    · exact fun he => ⟨dotDot, he, (eq_dotDot_rename (unmarking h) _).mpr rfl⟩
  simp only [hempty, helements, hdot, hdotDot]
  split_ifs <;> rfl

end

/-! ## the two spellings -/

theorem char_ne_marker (s : Spelling) : s.char ≠ marker := s.char_ne (by decide)

theorem plainText_eq (w : List Spelling) : plainText w = (markedText w).map (unmark (ch '+')) := by
  unfold plainText markedText
  rw [List.map_map]
  refine List.map_congr_left fun s _ => ?_
  show s.char = unmark (ch '+') (if s.char = ch '+' ∧ s.escape = none then marker else s.char)
  split
  · rename_i h
    rw [unmark, if_pos rfl, h.1]
  · rw [unmark, if_neg (char_ne_marker s)]

theorem decoded_eq (w : List Spelling) :
    w.map Spelling.decoded = (markedText w).map (unmark sp) := by
  unfold markedText
  rw [List.map_map]
  refine List.map_congr_left fun s _ => ?_
  show s.decoded = unmark sp (if s.char = ch '+' ∧ s.escape = none then marker else s.char)
  unfold Spelling.decoded plainByte
  cases s.escape with
  | none =>
    by_cases hp : s.char = ch '+'
    · simp [hp, unmark]
    · simp [hp, unmark, char_ne_marker s]
  | some hl => simp [unmark, char_ne_marker s]

theorem append_inj {a b b' : Path} (h : b.isAbsolute = b'.isAbsolute) :
    a.append b = a.append b' ↔ b = b' := by
  refine ⟨fun he => ?_, fun he => he ▸ rfl⟩
  unfold Path.append at he
  rw [h] at he
  split at he
  · exact he
  · rw [PosixPath.Path.mk.injEq, List.append_cancel_left_eq] at he
    exact congrArg PosixPath.Path.mk he

/-- what a blank and a `+` in the place of the marker have in common -/
theorem unmark_eq_iff (p : Path) :
    p.rename (unmark sp) = p.rename (unmark (ch '+')) ↔ marker ∉ p.native := by
  unfold Path.rename
  rw [PosixPath.Path.mk.injEq, List.map_inj_left]
  constructor
  · intro h hm
    exact absurd (h marker hm) (by decide)
  · intro h b hb
    have hne : b ≠ marker := fun he => h (he ▸ hb)
    rw [unmark, unmark, if_neg hne, if_neg hne]

/-- **Two spellings name the same asset exactly if nothing is escaped, or normalization leaves no
plain `+` in a name.** -/
theorem sameAsset_iff (assetsRoot : Option Bytes) (w : List Spelling) :
    SameAsset assetsRoot w ↔ (∀ s ∈ w, s.escape = none) ∨ ¬ KeepsPlus w := by
  have hplain := decodeRounds_plain (percent_not_mem_plain w) 3
  have hspelled := decodeRounds_spelled w
  unfold SameAsset
  rw [normalizeAssetPath_eq, normalizeAssetPath_eq, hplain, hspelled, not_forbidden_plain w,
    if_neg Bool.false_ne_true]
  by_cases hnone : ∀ s ∈ w, s.escape = none
  · rw [if_pos hnone, not_forbidden_plain w, if_neg Bool.false_ne_true]
    exact iff_of_true rfl (Or.inl hnone)
  · have hforbidden : (w.map Spelling.decoded).any isForbidden = false := by
      rw [List.any_eq_false]
      intro b hb
      obtain ⟨s, -, rfl⟩ := List.mem_map.mp hb
      rw [(decoded_ne_percent s).2]
      exact Bool.false_ne_true
    rw [if_neg hnone, hforbidden, if_neg Bool.false_ne_true, decoded_eq, plainText_eq,
      relativeAsset_rename harmless_blank, relativeAsset_rename harmless_plus]
    unfold KeepsPlus
    cases relativeAsset (markedText w) with
    | none => simp
    | some rel =>
      have habs : (rel.rename (unmark sp)).isAbsolute = (rel.rename (unmark (ch '+'))).isAbsolute :=
        (isAbsolute_rename (unmarking harmless_blank) rel).trans
          (isAbsolute_rename (unmarking harmless_plus) rel).symm
      simp only [Option.map_some, Option.some.injEq]
      rw [append_inj habs, unmark_eq_iff]
      constructor
      · rintro h
        refine Or.inr ?_
        rintro ⟨rel', rfl, hm⟩
        exact h hm
      · rintro (h | h) hm
        · exact hnone h
        · exact h ⟨rel, rfl, hm⟩

/-- `a+b`, with the `b` written as `%62` -/
def plusSpelling : List Spelling :=
  [⟨ch 'a', none, by decide, by simp⟩, ⟨ch '+', none, by decide, by simp⟩,
    ⟨ch 'b', some (ch '6', ch '2'), by decide, by rintro _ ⟨⟩; decide⟩]

/-- `/a+%62` is the file `a b`, and `/a+b` is the file `a+b` -/
theorem plus_renamed : spelledText plusSpelling = str "a+%62" ∧ plainText plusSpelling = str "a+b" ∧
    normalizeAssetPath none (str "a+%62") = some ⟨str "assets/a b"⟩ ∧
    normalizeAssetPath none (str "a+b") = some ⟨str "assets/a+b"⟩ ∧
    ¬ SameAsset none plusSpelling := by
  have hspelled : spelledText plusSpelling = str "a+%62" := by decide
  have hplain : plainText plusSpelling = str "a+b" := by decide
  have h1 : normalizeAssetPath none (str "a+%62") = some ⟨str "assets/a b"⟩ := by decide +kernel
  have h2 : normalizeAssetPath none (str "a+b") = some ⟨str "assets/a+b"⟩ := by decide +kernel
  refine ⟨hspelled, hplain, h1, h2, fun h => ?_⟩
  rw [SameAsset, hspelled, hplain, h1, h2] at h
  exact absurd h (by decide)

end ServerHttpLib
