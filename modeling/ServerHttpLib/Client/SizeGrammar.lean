import ServerHttpLib.Client.ChunkedMessage

/-!
# Which size lines are read

`IsChunkSize line n` is the grammar of a size line: blanks, hexadecimal digits that stand together
and spell a number `n` below `2^64`, blanks, and the end or an extension behind a `;`.
`parse_hex_size_line` skips blanks wherever they are and shifts its digits out of a `size_t`.

* `parseHexSizeLine_eq`         what is read: all digits before the `;`, modulo `2^64`;
* `parse_iff_isChunkSize_iff`   a line is read by the grammar exactly if its digits stand together
                                and are not too large, or a byte stands in it that ends the loop.
-/

namespace ServerHttpLib

def isHexDigit (c : UInt8) : Bool := (hexVal c).isSome

/-- the number that hexadecimal digits spell -/
def hexValue (ds : Bytes) : Nat := Numeral.value 16 (ds.filterMap hexVal)

/-- a line without its extension -/
def sizeHead (line : Bytes) : Bytes := line.takeWhile (· ≠ ch ';')

/-- the digits of a line, also those with blanks between them -/
def sizeDigits (line : Bytes) : Bytes := (sizeHead line).filter isHexDigit

/-- the grammar of a size line -/
def IsChunkSize (line : Bytes) (n : Nat) : Prop :=
  ∃ lead digits trail ext, line = lead ++ (digits ++ (trail ++ ext)) ∧
    (∀ c ∈ lead, isBlank c = true) ∧ (∀ c ∈ trail, isBlank c = true) ∧
    digits ≠ [] ∧ (∀ c ∈ digits, isHexDigit c = true) ∧ (ext = [] ∨ ext.head? = some (ch ';')) ∧
    hexValue digits = n ∧ n < 2 ^ 64

/-- nothing but digits and blanks before the `;` -/
def OnlyDigitsAndBlanks (line : Bytes) : Prop :=
  ∀ c ∈ sizeHead line, isHexDigit c = true ∨ isBlank c = true

instance (line : Bytes) : Decidable (OnlyDigitsAndBlanks line) :=
  inferInstanceAs (Decidable (∀ c ∈ sizeHead line, _))

/-- the digits of the line stand together, and their number fits into a `size_t` -/
def DigitsTogether (line : Bytes) : Prop :=
  sizeDigits line <:+: sizeHead line ∧ hexValue (sizeDigits line) < 2 ^ 64

/-! ## what is read -/

theorem isHexDigit_iff {c : UInt8} : isHexDigit c = true ↔ ∃ d, hexVal c = some d := by
  rw [isHexDigit, Option.isSome_iff_exists]

theorem not_semicolon {c : UInt8} (h : isHexDigit c = true ∨ isBlank c = true) : c ≠ ch ';' := by
  rintro rfl
  exact absurd h (by decide)

theorem not_isHexDigit_of_isBlank {c : UInt8} (h : isBlank c = true) : isHexDigit c = false := by
  rcases isBlank_iff.mp h with rfl | rfl <;> decide

theorem sizeHead_semicolon (line : Bytes) : sizeHead (ch ';' :: line) = [] := by
  simp [sizeHead]

theorem sizeHead_cons {c : UInt8} (hc : c ≠ ch ';') (line : Bytes) :
    sizeHead (c :: line) = c :: sizeHead line := by
  simp [sizeHead, hc]

theorem sizeDigits_digit {c : UInt8} (h : isHexDigit c = true) (line : Bytes) :
    sizeDigits (c :: line) = c :: sizeDigits line := by
  rw [sizeDigits, sizeHead_cons (not_semicolon (.inl h)), List.filter_cons_of_pos h]
  rfl

theorem sizeDigits_skip {c : UInt8} (h : isHexDigit c = false) (line : Bytes) :
    sizeDigits (c :: line) = if c = ch ';' then [] else sizeDigits line := by
  split
  · next hc => rw [hc, sizeDigits, sizeHead_semicolon, List.filter_nil]
  · next hc =>
    rw [sizeDigits, sizeHead_cons hc, List.filter_cons_of_neg (by rw [h]; simp)]
    rfl

theorem onlyDigitsAndBlanks_cons {c : UInt8} (hc : c ≠ ch ';') (line : Bytes) :
    OnlyDigitsAndBlanks (c :: line) ↔
      (isHexDigit c = true ∨ isBlank c = true) ∧ OnlyDigitsAndBlanks line := by
  rw [OnlyDigitsAndBlanks, sizeHead_cons hc, List.forall_mem_cons]
  rfl

/-- the digit loop, on any accumulator -/
theorem hexScan_eq (acc : Nat × Bool) (line : Bytes) : hexScan acc line =
    if OnlyDigitsAndBlanks line then
      some (((sizeDigits line).filterMap hexVal).foldl (fun v d => sizeT (v * 16 + d)) acc.1,
        acc.2 || !(sizeDigits line).isEmpty)
    else none := by
  induction line generalizing acc with
  | nil =>
    have hall : OnlyDigitsAndBlanks [] := fun c hc => absurd hc List.not_mem_nil
    rw [if_pos hall]
    simp [hexScan, sizeDigits, sizeHead]
  | cons c line ih =>
    rw [hexScan]
    by_cases hc : c = ch ';'
    · subst hc
      have hall : OnlyDigitsAndBlanks (ch ';' :: line) := by
        rw [OnlyDigitsAndBlanks, sizeHead_semicolon]
        exact fun c hc => absurd hc List.not_mem_nil
      rw [if_pos rfl, if_pos hall, sizeDigits, sizeHead_semicolon]
      simp
    · rw [if_neg hc]
      cases hv : hexVal c with
      | some d =>
        have hd : isHexDigit c = true := isHexDigit_iff.mpr ⟨d, hv⟩
        simp only [ih, sizeDigits_digit hd, List.filterMap_cons_some hv, List.foldl_cons,
          onlyDigitsAndBlanks_cons hc, hd, true_or, true_and, List.isEmpty_cons, Bool.true_or,
          Bool.not_false, Bool.or_true]
      | none =>
        have hd : isHexDigit c = false := by rw [isHexDigit, hv, Option.isSome_none]
        simp only [sizeDigits_skip hd, if_neg hc, onlyDigitsAndBlanks_cons hc, hd,
          Bool.false_eq_true, false_or]
        by_cases hb : isBlank c = true
        · rw [if_pos hb, ih]
          simp only [hb, true_and]
        · rw [if_neg hb, if_neg fun h => hb h.1]

/-- **What is read**: the digits before the `;`, modulo `2^64`, if only blanks stand beside them. -/
theorem parseHexSizeLine_eq (line : Bytes) : parseHexSizeLine line =
    if OnlyDigitsAndBlanks line ∧ sizeDigits line ≠ [] then
      some (sizeT (hexValue (sizeDigits line)))
    else none := by
  have hblanks : hexScan (0, false) (line.dropWhile isBlank) = hexScan (0, false) line := by
    have h := hexScan_blanks (l := line.takeWhile isBlank) (fun b hb => List.mem_takeWhile_imp hb)
      (0, false) (line.dropWhile isBlank)
    rw [List.takeWhile_append_dropWhile] at h
    exact h.symm
  have hvalue : ∀ ds : List Nat, ds.foldl (fun v d => sizeT (v * 16 + d)) 0
      = sizeT (Numeral.value 16 ds) := Numeral.value_foldl_mod 16 (2 ^ 64)
  unfold parseHexSizeLine
  rw [hblanks, hexScan_eq, hvalue]
  by_cases hall : OnlyDigitsAndBlanks line
  · rw [if_pos hall]
    cases hds : sizeDigits line with
    | nil => simp
    | cons c ds => simp [hall, hexValue]
  · rw [if_neg hall, if_neg fun h => hall h.1]

/-! ## the grammar -/

variable {line : Bytes} {n : Nat}

theorem sizeHead_append {head ext : Bytes}
    (hhead : ∀ c ∈ head, isHexDigit c = true ∨ isBlank c = true)
    (hext : ext = [] ∨ ext.head? = some (ch ';')) : sizeHead (head ++ ext) = head := by
  have hstop : sizeHead ext = [] := by
    cases ext with
    | nil => rfl
    | cons e ext =>
      have he : e = ch ';' := by simpa using hext
      rw [he, sizeHead_semicolon]
  rw [sizeHead, List.takeWhile_append_of_pos fun c hc =>
    decide_eq_true (not_semicolon (hhead c hc))]
  exact (congrArg _ hstop).trans (List.append_nil _)

theorem filter_isHexDigit_blanks {l : Bytes} (hl : ∀ c ∈ l, isBlank c = true) :
    l.filter isHexDigit = [] := by
  rw [List.filter_eq_nil_iff]
  intro c hc hd
  rw [not_isHexDigit_of_isBlank (hl c hc)] at hd
  exact absurd hd (by simp)

/-- what a line of the grammar looks like to the loop -/
theorem IsChunkSize.spec (h : IsChunkSize line n) : OnlyDigitsAndBlanks line ∧
    sizeDigits line ≠ [] ∧ DigitsTogether line ∧ hexValue (sizeDigits line) = n := by
  obtain ⟨lead, digits, trail, ext, rfl, hlead, htrail, hne, hdigits, hext, hn, hlt⟩ := h
  have hpart : ∀ c ∈ lead ++ (digits ++ trail), isHexDigit c = true ∨ isBlank c = true := by
    intro c hc
    rw [List.mem_append, List.mem_append] at hc
    rcases hc with hc | hc | hc
    · exact .inr (hlead c hc)
    · exact .inl (hdigits c hc)
    · exact .inr (htrail c hc)
  have hhead : sizeHead (lead ++ (digits ++ (trail ++ ext))) = lead ++ (digits ++ trail) := by
    have happ : lead ++ (digits ++ (trail ++ ext)) = (lead ++ (digits ++ trail)) ++ ext := by
      simp only [List.append_assoc]
    rw [happ]
    exact sizeHead_append hpart hext
  have hds : sizeDigits (lead ++ (digits ++ (trail ++ ext))) = digits := by
    rw [sizeDigits, hhead, List.filter_append, List.filter_append,
      filter_isHexDigit_blanks hlead, filter_isHexDigit_blanks htrail,
      List.filter_eq_self.mpr hdigits, List.nil_append, List.append_nil]
  rw [DigitsTogether, OnlyDigitsAndBlanks, hds, hhead]
  exact ⟨hpart, hne, ⟨⟨lead, trail, by rw [List.append_assoc]⟩, hn ▸ hlt⟩, hn⟩

/-- a line that is read, and whose digits stand together, is one of the grammar -/
theorem isChunkSize_of_together (hall : OnlyDigitsAndBlanks line) (hne : sizeDigits line ≠ [])
    (h : DigitsTogether line) : IsChunkSize line (hexValue (sizeDigits line)) := by
  obtain ⟨⟨lead, trail, hhead⟩, hlt⟩ := h
  have hext : line = sizeHead line ++ line.dropWhile (· ≠ ch ';') :=
    List.takeWhile_append_dropWhile.symm
  have hdigit : ∀ c ∈ sizeDigits line, isHexDigit c = true := fun c hc => (List.mem_filter.mp hc).2
  -- the digits are all there, so none is left for the parts beside them
  have hnone : lead.filter isHexDigit = [] ∧ trail.filter isHexDigit = [] := by
    have hlen := congrArg (fun l => (l.filter isHexDigit).length) hhead
    simp only [List.filter_append, List.length_append, List.filter_eq_self.mpr hdigit] at hlen
    rw [show (sizeHead line).filter isHexDigit = sizeDigits line from rfl] at hlen
    exact ⟨List.length_eq_zero_iff.mp (by omega), List.length_eq_zero_iff.mp (by omega)⟩
  have hblank : ∀ l : Bytes, l ⊆ sizeHead line → l.filter isHexDigit = [] →
      ∀ c ∈ l, isBlank c = true := by
    intro l hl hnil c hc
    exact (hall c (hl hc)).resolve_left (List.filter_eq_nil_iff.mp hnil c hc)
  have hlead : lead ⊆ sizeHead line := by
    rw [← hhead, List.append_assoc]
    exact List.subset_append_left _ _
  have htrail : trail ⊆ sizeHead line := by
    rw [← hhead]
    exact List.subset_append_right _ _
  refine ⟨lead, sizeDigits line, trail, line.dropWhile (· ≠ ch ';'), ?_,
    hblank lead hlead hnone.1, hblank trail htrail hnone.2, hne, hdigit, ?_, rfl, hlt⟩
  · conv_lhs => rw [hext, ← hhead]
    simp only [List.append_assoc]
  · have hhd := List.head?_dropWhile_not (fun c => decide (c ≠ ch ';')) line
    cases hd : line.dropWhile (· ≠ ch ';') with
    | nil => exact .inl rfl
    | cons e ext =>
      rw [hd] at hhd
      exact .inr (by simpa using hhd)

/-- **A size line is read by the grammar** exactly if its digits stand together and their number
fits, unless another byte before the `;` has it rejected. -/
theorem parse_iff_isChunkSize_iff (line : Bytes) :
    (∀ n, parseHexSizeLine line = some n ↔ IsChunkSize line n) ↔
      (OnlyDigitsAndBlanks line → DigitsTogether line) := by
  rw [parseHexSizeLine_eq]
  constructor
  · intro h hall
    by_cases hne : sizeDigits line = []
    · rw [DigitsTogether, hne]
      exact ⟨List.nil_infix, by decide⟩
    · rw [if_pos ⟨hall, hne⟩] at h
      exact ((h _).mp rfl).spec.2.2.1
  · intro h n
    constructor
    · intro hp
      rw [Option.ite_none_right_eq_some, Option.some.injEq] at hp
      obtain ⟨⟨hall, hne⟩, rfl⟩ := hp
      rw [sizeT_of_lt (h hall).2]
      exact isChunkSize_of_together hall hne (h hall)
    · intro hg
      obtain ⟨hall, hne, htogether, hn⟩ := hg.spec
      rw [if_pos ⟨hall, hne⟩, sizeT_of_lt htogether.2, hn]

/-- a blank between two digits, and a number of seventeen digits -/
theorem size_line_accepted :
    (¬ ∀ n, parseHexSizeLine (str "1 2") = some n ↔ IsChunkSize (str "1 2") n) ∧
    ¬ ∀ n, parseHexSizeLine (str "10000000000000002") = some n ↔
      IsChunkSize (str "10000000000000002") n := by
  constructor
  · intro h
    have h18 := (h 18).mp (by decide +kernel)
    exact absurd h18.spec.2.2.1.1 (by decide +kernel)
  · intro h
    have h2 := (h 2).mp (by decide +kernel)
    exact absurd h2.spec.2.2.1.2 (by decide +kernel)

end ServerHttpLib
