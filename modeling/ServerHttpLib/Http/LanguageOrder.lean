import ServerHttpLib.Http.AcceptLanguage
import ServerHttpLib.Lib.StableSort

/-!
# The order of the accepted languages

A well-formed header is a list of language tags, each with an optional weight, with optional blanks
around the commas and semicolons.  `std::stof` is a parameter here; relied on is that it reads the
decimals of the header and keeps their order (`ReadsDecimals`).

* `readVariant_text`         a well-formed piece gives its weight, and its tag with the blanks
                             around it;
* `languages_text`           the result is the tags with their blanks, stably sorted by weight;
* `getAcceptLanguage_iff`    so it is the sorted tags exactly if no tag has blanks around it.
-/

namespace ServerHttpLib
open Cutting StableSort

/-! ## well-formed headers -/

/-- a decimal between 0 and 1 with at most three decimals -/
structure Decimal where
  whole : Nat
  /-- `none`: there is no point -/
  decimals : Option (List (Fin 10))
  short : (decimals.getD []).length ≤ 3
  at_most_one : whole = 0 ∨ whole = 1 ∧ ∀ d ∈ decimals.getD [], d = 0

namespace Decimal

def text (d : Decimal) : Bytes :=
  digitByte d.whole :: match d.decimals with
    | none => []
    | some ds => ch '.' :: ds.map fun x : Fin 10 => digitByte x.val

/-- the value of the digit behind the point at this place -/
def place (d : Decimal) (i : Nat) : Nat := ((d.decimals.getD []).getD i 0).val

def thousandths (d : Decimal) : Nat :=
  d.whole * 1000 + d.place 0 * 100 + d.place 1 * 10 + d.place 2

end Decimal

/-- `;q=` and a weight -/
structure Quality where
  /-- the blanks behind the semicolon -/
  before : Bytes
  weight : Decimal
  after : Bytes
  blank : ∀ b ∈ before ++ after, isBlank b = true

def isTagByte (b : UInt8) : Bool := isAsciiAlphanumeric b || b = ch '-' || b = ch '*'

structure Language where
  before : Bytes
  tag : Bytes
  after : Bytes
  quality : Option Quality
  blank : ∀ b ∈ before ++ after, isBlank b = true
  tag_ne : tag ≠ []
  tag_bytes : ∀ b ∈ tag, isTagByte b = true

def Quality.text (q : Quality) : Bytes := q.before ++ str "q=" ++ (q.weight.text ++ q.after)

namespace Language

def padded (l : Language) : Bytes := l.before ++ l.tag ++ l.after

def text (l : Language) : Bytes :=
  match l.quality with
  | none => l.padded
  | some q => l.padded ++ ch ';' :: q.text

def thousandths (l : Language) : Nat :=
  match l.quality with
  | none => 1000
  | some q => q.weight.thousandths

end Language

def headerText (ls : List Language) : Bytes := [ch ','].intercalate (ls.map Language.text)

/-- what is relied on of `std::stof` and `float`: the decimals are read, whatever blanks follow
them, and their order is kept -/
structure ReadsDecimals {W : Type} (stof : Bytes → Option W) (one : W) (greater : W → W → Bool)
    (value : Nat → W) : Prop where
  reads : ∀ (d : Decimal) (s : Bytes), (∀ b ∈ s, isBlank b = true) →
    stof (d.text ++ s) = some (value d.thousandths)
  one_eq : one = value 1000
  greater_eq : ∀ a b, a ≤ 1000 → b ≤ 1000 → greater (value a) (value b) = decide (b < a)

/-- the accepted languages as they should be: the tags, the heaviest first, and those of equal
weight in the order of the header -/
def Preferred (ls : List Language) (tags : List Bytes) : Prop :=
  ∃ sorted, Descending Language.thousandths ls sorted ∧ tags = sorted.map Language.tag

/-! ## a well-formed piece -/

/-- without a delimiter of the header -/
def Undelimited (s : Bytes) : Prop := ch ',' ∉ s ∧ ch ';' ∉ s

theorem undelimited_append {s t : Bytes} (hs : Undelimited s) (ht : Undelimited t) :
    Undelimited (s ++ t) := by
  refine ⟨fun h => ?_, fun h => ?_⟩
  · exact (List.mem_append.mp h).elim hs.1 ht.1
  · exact (List.mem_append.mp h).elim hs.2 ht.2

theorem undelimited_of_forall {p : UInt8 → Bool} (hp : p (ch ',') = false ∧ p (ch ';') = false)
    {s : Bytes} (hs : ∀ b ∈ s, p b = true) : Undelimited s := by
  refine ⟨fun h => ?_, fun h => ?_⟩
  · have := hs _ h
    rw [hp.1] at this
    exact absurd this (by simp)
  · have := hs _ h
    rw [hp.2] at this
    exact absurd this (by simp)

theorem isDigit_digitByte : ∀ d : Fin 10, isDigit (digitByte d) = true := by decide

theorem Decimal.isDigit_whole (d : Decimal) : isDigit (digitByte d.whole) = true := by
  rcases d.at_most_one with h | ⟨h, -⟩ <;> rw [h] <;> decide

theorem Decimal.undelimited (d : Decimal) : Undelimited d.text := by
  have hbytes : ∀ b ∈ d.text, (isDigit b || b = ch '.') = true := by
    intro b hb
    rcases List.mem_cons.mp hb with rfl | hb
    · rw [d.isDigit_whole, Bool.true_or]
    · cases hd : d.decimals with
      | none =>
        rw [hd] at hb
        exact absurd hb (by simp)
      | some ds =>
        rw [hd] at hb
        rcases List.mem_cons.mp hb with rfl | hb
        · decide
        · obtain ⟨x, -, rfl⟩ := List.mem_map.mp hb
          rw [isDigit_digitByte, Bool.true_or]
  exact undelimited_of_forall (by decide) hbytes

theorem Decimal.place_le (d : Decimal) (i : Nat) : d.place i ≤ 9 := by
  have := ((d.decimals.getD []).getD i 0).isLt
  unfold place
  omega

theorem Decimal.thousandths_le (d : Decimal) : d.thousandths ≤ 1000 := by
  have h0 := d.place_le 0
  have h1 := d.place_le 1
  have h2 := d.place_le 2
  unfold thousandths
  rcases d.at_most_one with h | ⟨h, hz⟩
  · omega
  · have hzero : ∀ i, d.place i = 0 := by
      intro i
      unfold place
      rw [List.getD_eq_getElem?_getD]
      cases hi : (d.decimals.getD [])[i]? with
      | none => rfl
      | some x =>
        rw [Option.getD_some, hz x (List.mem_of_getElem? hi)]
        rfl
    rw [h, hzero, hzero, hzero]

theorem isBlank_delimiters : isBlank (ch ',') = false ∧ isBlank (ch ';') = false := by decide

theorem Quality.undelimited (q : Quality) : Undelimited q.text := by
  have hb : Undelimited (q.before ++ q.after) := undelimited_of_forall isBlank_delimiters q.blank
  refine undelimited_append (undelimited_append ⟨?_, ?_⟩ (by unfold Undelimited; decide))
    (undelimited_append q.weight.undelimited ⟨?_, ?_⟩)
  · exact fun h => hb.1 (List.mem_append_left _ h)
  · exact fun h => hb.2 (List.mem_append_left _ h)
  · exact fun h => hb.1 (List.mem_append_right _ h)
  · exact fun h => hb.2 (List.mem_append_right _ h)

namespace Language
variable (l : Language)

theorem padded_undelimited : Undelimited l.padded := by
  have hb : Undelimited (l.before ++ l.after) := undelimited_of_forall isBlank_delimiters l.blank
  have ht : Undelimited l.tag := undelimited_of_forall (by decide) l.tag_bytes
  refine undelimited_append (undelimited_append ⟨?_, ?_⟩ ht) ⟨?_, ?_⟩
  · exact fun h => hb.1 (List.mem_append_left _ h)
  · exact fun h => hb.2 (List.mem_append_left _ h)
  · exact fun h => hb.1 (List.mem_append_right _ h)
  · exact fun h => hb.2 (List.mem_append_right _ h)

theorem padded_ne_nil : l.padded ≠ [] := by
  intro h
  unfold padded at h
  rw [List.append_eq_nil_iff, List.append_eq_nil_iff] at h
  exact l.tag_ne h.1.2

theorem text_piece : ch ',' ∉ l.text ∧ l.text ≠ [] := by
  have hp := l.padded_undelimited
  unfold text
  cases l.quality with
  | none => exact ⟨hp.1, l.padded_ne_nil⟩
  | some q =>
    refine ⟨fun h => ?_, by simp⟩
    rcases List.mem_append.mp h with h | h
    · exact hp.1 h
    · rcases List.mem_cons.mp h with h | h
      · exact absurd h (by decide)
      · exact q.undelimited.1 h

theorem thousandths_le : l.thousandths ≤ 1000 := by
  unfold thousandths
  cases l.quality with
  | none => exact le_refl 1000
  | some q => exact q.weight.thousandths_le

theorem length_padded : l.padded.length = l.before.length + l.tag.length + l.after.length := by
  unfold padded
  rw [List.length_append, List.length_append]

end Language

theorem firstDigit_append {s : Bytes} (hs : ∀ b ∈ s, isDigit b = false) (t : Bytes) :
    firstDigit (s ++ t) = firstDigit t := by
  induction s with
  | nil => rfl
  | cons b s ih =>
    rw [List.cons_append, firstDigit, hs b List.mem_cons_self, if_neg Bool.false_ne_true]
    exact ih fun x hx => hs x (List.mem_cons_of_mem _ hx)

/-- no digit stands before the weight -/
theorem firstDigit_quality (q : Quality) :
    firstDigit q.text = .ok (q.weight.text ++ q.after) := by
  have hbefore : ∀ b ∈ q.before ++ str "q=", isDigit b = false := by
    intro b hb
    rcases List.mem_append.mp hb with hb | hb
    · exact not_isDigit_of_isBlank (q.blank b (List.mem_append_left _ hb))
    · have key : ∀ b ∈ str "q=", isDigit b = false := by decide +kernel
      exact key b hb
  rw [Quality.text, firstDigit_append hbefore, Decimal.text, List.cons_append, firstDigit,
    if_pos q.weight.isDigit_whole]

section
variable {W : Type} {stof : Bytes → Option W} {one : W} {greater : W → W → Bool} {value : Nat → W}

/-- **A well-formed piece** is read with its weight; the blanks around its tag stay. -/
theorem readVariant_text (h : ReadsDecimals stof one greater value) (l : Language) :
    readVariant stof one l.text = .ok (value l.thousandths, l.padded) := by
  have hp := l.padded_undelimited
  unfold readVariant Language.text Language.thousandths svSplit
  cases l.quality with
  | none =>
    rw [split_last hp.2 l.padded_ne_nil, h.one_eq]
    rfl
  | some q =>
    have hq : q.text ≠ [] := by simp [Quality.text, str]
    have hweight : readPriority stof q.text = .ok (value q.weight.thousandths) := by
      unfold readPriority
      rw [firstDigit_quality]
      dsimp only [bind, Except.bind]
      rw [h.reads _ _ fun b hb => q.blank b (List.mem_append_right _ hb)]
      rfl
    dsimp only
    rw [split_cons hp.2, split_last q.undelimited.2 hq]
    show (readPriority stof q.text >>= fun v => .ok (v, l.padded)) = _
    rw [hweight]
    rfl

theorem readVariants_text (h : ReadsDecimals stof one greater value) (ls : List Language) :
    readVariants stof one (ls.map Language.text)
      = .ok (ls.map fun l => (value l.thousandths, l.padded)) := by
  induction ls with
  | nil => rfl
  | cons l ls ih =>
    rw [List.map_cons, readVariants, readVariant_text h, ih]
    rfl

/-- **The result for a well-formed header**: the tags with their blanks in the right order -/
theorem languages_text (h : ReadsDecimals stof one greater value) (ls : List Language) :
    languages stof one greater (headerText ls)
      = .ok ((ls.mergeSort (before Language.thousandths)).map Language.padded) := by
  have hsplit : svSplit (headerText ls) (ch ',') = ls.map Language.text := by
    refine split_intercalate fun a ha => ?_
    obtain ⟨l, -, rfl⟩ := List.mem_map.mp ha
    exact l.text_piece
  have hsort : (ls.mergeSort (before Language.thousandths)).map
      (fun l => (value l.thousandths, l.padded))
        = sortByWeight greater (ls.map fun l => (value l.thousandths, l.padded)) := by
    refine List.map_mergeSort fun a _ b _ => ?_
    dsimp only
    rw [h.greater_eq _ _ b.thousandths_le a.thousandths_le, before, ← decide_not]
    exact decide_eq_decide.mpr not_lt.symm
  unfold languages
  rw [hsplit, readVariants_text h]
  show Except.ok ((sortByWeight greater _).map Prod.snd) = _
  rw [← hsort, List.map_map]
  rfl

/-- the sorted tags are as long as the tags with their blanks only if there are no blanks -/
theorem unpadded_of_preferred {ls : List Language}
    (h : Preferred ls ((ls.mergeSort (before Language.thousandths)).map Language.padded)) :
    ∀ l ∈ ls, l.before = [] ∧ l.after = [] := by
  obtain ⟨sorted, hsorted, he⟩ := h
  have hsum := congrArg (fun tags : List Bytes => (tags.map List.length).sum) he
  simp only [List.map_map] at hsum
  rw [(descending_mergeSort Language.thousandths ls).sum_eq, hsorted.sum_eq] at hsum
  have key : ∀ ls : List Language,
      (ls.map (List.length ∘ Language.padded)).sum = (ls.map (List.length ∘ Language.tag)).sum
        + (ls.map fun l => l.before.length + l.after.length).sum := by
    intro ls
    induction ls with
    | nil => rfl
    | cons l ls ih =>
      simp only [List.map_cons, List.sum_cons, Function.comp_apply, l.length_padded] at ih ⊢
      omega
  rw [key ls] at hsum
  have hzero : (ls.map fun l => l.before.length + l.after.length).sum = 0 := by omega
  intro l hl
  have hle := List.sum_eq_zero_iff_forall_eq_nat.mp hzero _
    (List.mem_map_of_mem (f := fun l : Language => l.before.length + l.after.length) hl)
  exact ⟨List.length_eq_zero_iff.mp (by omega), List.length_eq_zero_iff.mp (by omega)⟩

end

/-- **The languages are returned as they should be exactly if no tag has blanks around it.** -/
theorem getAcceptLanguage_iff {W : Type} (stof : Bytes → Option W) (one : W)
    (greater : W → W → Bool) (value : Nat → W) (h : ReadsDecimals stof one greater value)
    (r : RequestIncoming) (ls : List Language)
    (hr : r.getHeaders.get ACCEPT_LANGUAGE = headerText ls) :
    (∃ tags, r.getAcceptLanguage stof one greater = .ok tags ∧ Preferred ls tags) ↔
      ∀ l ∈ ls, l.before = [] ∧ l.after = [] := by
  have hresult := languages_text h ls
  unfold RequestIncoming.getAcceptLanguage
  rw [hr, hresult]
  constructor
  · rintro ⟨tags, htags, hp⟩
    rw [Except.ok.injEq] at htags
    rw [← htags] at hp
    exact unpadded_of_preferred hp
  · intro hblank
    refine ⟨_, rfl, _, descending_mergeSort Language.thousandths ls, ?_⟩
    refine List.map_congr_left fun l hl => ?_
    obtain ⟨h1, h2⟩ := hblank l (List.mem_mergeSort.mp hl)
    rw [Language.padded, h1, h2, List.nil_append, List.append_nil]

/-! ## two headers -/

/-- a reader of such decimals, in thousandths -/
def readThousandths (s : Bytes) : Option Nat :=
  let decimals := if (s.drop 1).head? = some (ch '.') then (s.drop 2).takeWhile isDigit else []
  let place := fun i => digitVal (decimals.getD i (ch '0'))
  some (digitVal (s.headD (ch '0')) * 1000 + place 0 * 100 + place 1 * 10 + place 2)

theorem digitVal_digitByte : ∀ d : Fin 10, digitVal (digitByte d) = d := by decide

theorem Decimal.digitVal_whole (d : Decimal) : digitVal (digitByte d.whole) = d.whole := by
  rcases d.at_most_one with h | ⟨h, -⟩ <;> rw [h] <;> decide

theorem readsDecimals_thousandths :
    ReadsDecimals readThousandths 1000 (fun a b => decide (b < a)) id := by
  refine ⟨fun d s hs => ?_, rfl, fun a b _ _ => rfl⟩
  have hstop : s.takeWhile isDigit = [] := by
    cases s with
    | nil => rfl
    | cons b s =>
      have hb := not_isDigit_of_isBlank (hs b List.mem_cons_self)
      exact List.takeWhile_cons_of_neg (by simp [hb])
  unfold readThousandths Decimal.thousandths Decimal.text Decimal.place
  cases d.decimals with
  | none =>
    have hpoint : s.head? ≠ some (ch '.') := by
      intro h
      have hb := hs _ (List.mem_of_mem_head? h)
      exact absurd hb (by decide)
    simp [d.digitVal_whole, hpoint, show digitVal (ch '0') = 0 by decide]
  | some ds =>
    have hdigits : (ds.map (fun x : Fin 10 => digitByte x.val) ++ s).takeWhile isDigit
        = ds.map fun x : Fin 10 => digitByte x.val := by
      rw [List.takeWhile_append_of_pos, hstop, List.append_nil]
      intro b hb
      obtain ⟨x, -, rfl⟩ := List.mem_map.mp hb
      exact isDigit_digitByte x
    have hplace : ∀ o : Option (Fin 10),
        digitVal ((o.map fun x => digitByte x.val).getD (ch '0')) = (o.getD 0).val := by
      intro o
      cases o with
      | none => decide
      | some x => exact digitVal_digitByte x
    simp [d.digitVal_whole, hdigits, hplace]

theorem no_pad : ∀ b ∈ ([] : Bytes) ++ [], isBlank b = true := by decide +kernel
theorem blank_pad : ∀ b ∈ [sp] ++ [], isBlank b = true := by decide +kernel

/-- `en`, and `de` with a weight behind the blanks `before` -/
def twoLanguages (before : Bytes) (h : ∀ b ∈ before ++ [], isBlank b = true) : List Language :=
  [⟨[], str "en", [], none, no_pad, by decide, by decide +kernel⟩,
    ⟨before, str "de", [], some ⟨[], ⟨0, some [5], by decide, by decide⟩, [], no_pad⟩, h,
      by decide, by decide +kernel⟩]

theorem getAcceptLanguage_iff_two :
    (∃ tags, (languageRequest (str "en,de;q=0.5")).getAcceptLanguage readThousandths 1000
        (fun a b => decide (b < a)) = .ok tags ∧ Preferred (twoLanguages [] no_pad) tags) ↔
      ∀ l ∈ twoLanguages [] no_pad, l.before = [] ∧ l.after = [] :=
  getAcceptLanguage_iff readThousandths 1000 _ id readsDecimals_thousandths _ _
    (by decide +kernel)

/-- behind `, ` the blank stays before the tag -/
theorem blank_before_tag :
    (languageRequest (str "en, de;q=0.5")).getHeaders.get ACCEPT_LANGUAGE
      = headerText (twoLanguages [sp] blank_pad) ∧
    (languageRequest (str "en, de;q=0.5")).getAcceptLanguage readThousandths 1000
      (fun a b => decide (b < a)) = .ok [str "en", str " de"] ∧
    ¬ Preferred (twoLanguages [sp] blank_pad) [str "en", str " de"] := by
  have hheader : (languageRequest (str "en, de;q=0.5")).getHeaders.get ACCEPT_LANGUAGE
      = headerText (twoLanguages [sp] blank_pad) := by decide +kernel
  refine ⟨hheader, ?_, ?_⟩
  · have hsorted : (twoLanguages [sp] blank_pad).Pairwise
        fun a b => before Language.thousandths a b = true := by
      unfold twoLanguages
      decide +kernel
    unfold RequestIncoming.getAcceptLanguage
    rw [hheader, languages_text readsDecimals_thousandths, List.mergeSort_of_pairwise hsorted]
    rfl
  · rintro ⟨sorted, hsorted, htags⟩
    have hmem : str " de" ∈ sorted.map Language.tag := by
      rw [← htags]
      exact List.mem_cons_of_mem _ List.mem_cons_self
    obtain ⟨l, hl, htag⟩ := List.mem_map.mp hmem
    have key : ∀ l ∈ twoLanguages [sp] blank_pad, l.tag ≠ str " de" := by
      unfold twoLanguages
      decide +kernel
    exact key l (hsorted.perm.subset hl) htag

end ServerHttpLib
