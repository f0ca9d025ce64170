import ServerHttpLib.Http.Request
import ServerHttpLib.Http.Split

/-!
# `Request::get_accept_language`

The header is split at its commas, each piece at its semicolons; a piece of two parts has a weight,
which is read from the first digit of the second part on.  Neither split checks that there is a
part, and the search for the digit does not stop at the end of the part.

* `firstDigit_eq`      the search finds the first digit, or leaves the part;
* `languages_ok_iff`   the header is read without a fault exactly if no piece is empty and the
                       second of two parts holds a number.
-/

namespace ServerHttpLib
open Cutting

def ACCEPT_LANGUAGE : Bytes := str "Accept-Language"

inductive LanguageFault where
  /-- `priority[0]` of an empty view, which is not checked -/
  | emptyView
  /-- `std::out_of_range`, of `at(0)` or of `std::stof` -/
  | outOfRange
  deriving DecidableEq, Repr

/-- the loop `while(!std::isdigit(priority[0])) priority.remove_prefix(1)` -/
def firstDigit : Bytes → Except LanguageFault Bytes
  | [] => .error .emptyView
  | c :: priority => if isDigit c then .ok (c :: priority) else firstDigit priority

section
variable {W : Type} (stof : Bytes → Option W) (one : W)

/-- the weight of a variant of two parts.  `stof` reads a text that begins with a digit; `none` is
its `out_of_range`. -/
def readPriority (priority : Bytes) : Except LanguageFault W := do
  let priority ← firstDigit priority
  match stof priority with
  | some value => return value
  | none => .error .outOfRange

/-- the body of the loop over the variants: the weight and the view that are pushed -/
def readVariant (variant : Bytes) : Except LanguageFault (W × Bytes) :=
  match svSplit variant (ch ';') with
  | [language, priority] => do
    let value ← readPriority stof priority
    return (value, language)
  | language :: _ => return (one, language)
  | [] => .error .outOfRange

def readVariants : List Bytes → Except LanguageFault (List (W × Bytes))
  | [] => return []
  | variant :: variants => do
    let first ← readVariant stof one variant
    let list ← readVariants variants
    return first :: list

/-- the list in the order of `list.sort`; `greater` is the `>` of two weights -/
def sortByWeight (greater : W → W → Bool) (list : List (W × Bytes)) : List (W × Bytes) :=
  list.mergeSort fun lhs rhs => !greater rhs.1 lhs.1

def languages (greater : W → W → Bool) (lang : Bytes) : Except LanguageFault (List Bytes) := do
  let list ← readVariants stof one (svSplit lang (ch ','))
  return (sortByWeight greater list).map Prod.snd

def RequestIncoming.getAcceptLanguage (greater : W → W → Bool) (r : RequestIncoming) :
    Except LanguageFault (List Bytes) :=
  languages stof one greater (r.getHeaders.get ACCEPT_LANGUAGE)

/-! ## faults -/

/-- the piece can be read: it is not empty, and if it has two parts, there is a number in the
second one -/
def Readable (variant : Bytes) : Prop :=
  variant ≠ [] ∧ ∀ language priority, svSplit variant (ch ';') = [language, priority] →
    (∃ c ∈ priority, isDigit c = true) ∧
      stof (priority.dropWhile fun c => !isDigit c) ≠ none

theorem firstDigit_eq (priority : Bytes) : firstDigit priority
    = if (∃ c ∈ priority, isDigit c = true) then .ok (priority.dropWhile fun c => !isDigit c)
      else .error .emptyView := by
  induction priority with
  | nil => simp [firstDigit]
  | cons c priority ih =>
    unfold firstDigit
    cases hc : isDigit c with
    | true => simp [hc]
    | false =>
      rw [ih, List.dropWhile_cons_of_pos (by simp [hc])]
      simp [hc]

theorem bind_ok_iff {ε α β : Type} {x : Except ε α} {f : α → Except ε β} {b : β} :
    x >>= f = .ok b ↔ ∃ a, x = .ok a ∧ f a = .ok b := by
  cases x with
  | error e => exact ⟨fun h => absurd h (by simp [bind, Except.bind]), fun ⟨a, h, _⟩ => nomatch h⟩
  | ok a =>
    constructor
    · exact fun h => ⟨a, rfl, h⟩
    · rintro ⟨a', h, h'⟩
      rw [Except.ok.injEq] at h
      exact h ▸ h'

theorem readPriority_ok_iff (priority : Bytes) :
    (∃ w, readPriority stof priority = .ok w) ↔
      (∃ c ∈ priority, isDigit c = true) ∧
        stof (priority.dropWhile fun c => !isDigit c) ≠ none := by
  unfold readPriority
  rw [firstDigit_eq]
  by_cases hd : ∃ c ∈ priority, isDigit c = true
  · rw [if_pos hd]
    show (∃ w, (match stof (priority.dropWhile fun c => !isDigit c) with
      | some value => .ok value
      | none => .error .outOfRange : Except LanguageFault W) = .ok w) ↔ _
    cases stof (priority.dropWhile fun c => !isDigit c) with
    | none => simp
    | some w => simp [hd]
  · rw [if_neg hd]
    exact ⟨fun ⟨w, hw⟩ => absurd hw (by simp [bind, Except.bind]), fun h => absurd h.1 hd⟩

theorem readVariant_ok_iff (variant : Bytes) :
    (∃ v, readVariant stof one variant = .ok v) ↔ Readable stof variant := by
  unfold readVariant Readable
  by_cases hne : variant = []
  · have hnil : svSplit variant (ch ';') = [] := by rw [hne]; exact split_nil _
    rw [hnil]
    exact ⟨fun ⟨v, hv⟩ => absurd hv (by simp), fun h => absurd hne h.1⟩
  match hs : svSplit variant (ch ';') with
  | [] => exact absurd (split_eq_nil_iff.mp hs) hne
  | [language] => exact ⟨fun _ => ⟨hne, fun l p h => absurd h (by simp)⟩, fun _ => ⟨_, rfl⟩⟩
  | [language, priority] =>
    have hp := readPriority_ok_iff stof priority
    constructor
    · rintro ⟨v, hv⟩
      obtain ⟨w, hw, -⟩ := bind_ok_iff.mp hv
      refine ⟨hne, fun l p h => ?_⟩
      obtain ⟨rfl, rfl⟩ : language = l ∧ priority = p := by simpa using h
      exact hp.mp ⟨w, hw⟩
    · rintro ⟨-, h⟩
      obtain ⟨w, hw⟩ := hp.mpr (h language priority rfl)
      exact ⟨(w, language), bind_ok_iff.mpr ⟨w, hw, rfl⟩⟩
  | _ :: _ :: _ :: _ =>
    exact ⟨fun _ => ⟨hne, fun l p h => absurd h (by simp)⟩, fun _ => ⟨_, rfl⟩⟩

theorem readVariants_ok_iff (variants : List Bytes) :
    (∃ list, readVariants stof one variants = .ok list) ↔
      ∀ variant ∈ variants, Readable stof variant := by
  induction variants with
  | nil => exact ⟨fun _ v hv => absurd hv (by simp), fun _ => ⟨[], rfl⟩⟩
  | cons variant variants ih =>
    rw [List.forall_mem_cons, ← ih, ← readVariant_ok_iff stof one, readVariants]
    constructor
    · rintro ⟨list, h⟩
      obtain ⟨v, hv, h⟩ := bind_ok_iff.mp h
      obtain ⟨vs, hvs, -⟩ := bind_ok_iff.mp h
      exact ⟨⟨v, hv⟩, vs, hvs⟩
    · rintro ⟨⟨v, hv⟩, vs, hvs⟩
      exact ⟨v :: vs, bind_ok_iff.mpr ⟨v, hv, bind_ok_iff.mpr ⟨vs, hvs, rfl⟩⟩⟩

theorem languages_ok_iff (greater : W → W → Bool) (lang : Bytes) :
    (∃ tags, languages stof one greater lang = .ok tags) ↔
      ∀ variant ∈ svSplit lang (ch ','), Readable stof variant := by
  rw [← readVariants_ok_iff stof one]
  constructor
  · rintro ⟨tags, h⟩
    obtain ⟨list, hl, -⟩ := bind_ok_iff.mp h
    exact ⟨list, hl⟩
  · rintro ⟨list, hl⟩
    exact ⟨_, bind_ok_iff.mpr ⟨list, hl, rfl⟩⟩

/-- **The header is read without a fault exactly if every piece is readable.** -/
theorem getAcceptLanguage_safe_iff (greater : W → W → Bool) (r : RequestIncoming) :
    (∃ tags, r.getAcceptLanguage stof one greater = .ok tags) ↔
      ∀ variant ∈ svSplit (r.getHeaders.get ACCEPT_LANGUAGE) (ch ','), Readable stof variant :=
  languages_ok_iff stof one greater _

end

/-- a request with this header -/
def languageRequest (value : Bytes) : RequestIncoming :=
  .new (str "GET / HTTP/1.1\r\nAccept-Language: " ++ value ++ crlf2)

/-- `en;q` leaves the header behind its last character, and the empty piece of `en,,de` throws;
the weights play no part in it -/
theorem getAcceptLanguage_faults :
    (languageRequest (str "en;q")).getAcceptLanguage (fun _ => some ()) () (fun _ _ => false)
      = .error .emptyView ∧
    (languageRequest (str "en,,de")).getAcceptLanguage (fun _ => some ()) () (fun _ _ => false)
      = .error .outOfRange := by
  constructor <;> decide +kernel

end ServerHttpLib
