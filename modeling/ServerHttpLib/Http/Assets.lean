import ServerHttpLib.Http.Utils
import ServerHttpLib.Lib.PosixPath

/-!
# The files below the assets root (`FileContent::normalize_asset_path`)

The path of a request is decoded up to three times, cleaned, stripped of a leading `assets` and
normalized, before it is appended to the assets root.  What is appended has only names of the
cleaned text, in the normal form and without `..`: the result lies in the root
(`normalizeAssetPath_inside`), whatever the root is.
-/

namespace ServerHttpLib
open PosixPath

/-- the decoding loop, with `k` rounds left -/
def decodeRounds : Nat → Bytes → Bytes
  | 0, s => s
  | k + 1, s => if ch '%' ∈ s then decodeRounds k (urlDecode s) else s

/-- a character that makes the path unacceptable -/
def isForbidden (c : UInt8) : Bool := c < 32 || c = 127 || c = ch '%'

def eraseSlash : Bytes → Bytes
  | [] => []
  | c :: cs => if c = ch '/' then cs else c :: cs

/-- the path without a first element `assets` -/
def stripAssets (rel : Path) : Path :=
  match rel.elements with
  | [] => rel
  | e :: es => if e = str "assets" then es.foldl (fun q e => q.append ⟨e⟩) .empty else rel

/-- the assets root, from the value of `ASSETS_ROOT` -/
def assetsPath (assetsRoot : Option Bytes) : Path := ⟨assetsRoot.getD (str "assets")⟩

/-- `out_path`, where `normalize_asset_path` returns true -/
def normalizeAssetPath (assetsRoot : Option Bytes) (input : Bytes) : Option Path :=
  let clean := decodeRounds 3 input
  if clean.any isForbidden then none
  else
    let rel : Path := ⟨eraseSlash (replaceChar clean backslash (ch '/'))⟩
    if rel.isAbsolute then none
    else
      let rel := (stripAssets rel).lexicallyNormal
      if rel.isEmpty || rel.elements = [[dot]] then none
      else if dotDot ∈ rel.elements then none
      else some ((assetsPath assetsRoot).append rel)

/-! ## what is accepted -/

/-- a name that cannot lead out of a directory, and holds no byte that is special in it -/
structure SafeName (n : List UInt8) : Prop where
  isName : IsName n
  not_dot : n ≠ [dot]
  not_dotDot : n ≠ dotDot
  bytes : ∀ b ∈ n, b ≠ backslash ∧ b ≠ ch '%' ∧ ¬ b < 32 ∧ b ≠ 127

theorem bytes_of_clean {clean : Bytes} (hc : ¬ clean.any isForbidden = true) {b : UInt8}
    (hb : b ∈ eraseSlash (replaceChar clean backslash (ch '/'))) :
    b ≠ backslash ∧ b ≠ ch '%' ∧ ¬ b < 32 ∧ b ≠ 127 := by
  have hmem : b ∈ replaceChar clean backslash (ch '/') := by
    unfold eraseSlash at hb
    split at hb
    · exact absurd hb List.not_mem_nil
    · rename_i c cs he
      rw [he]
      split at hb
      · exact List.mem_cons_of_mem _ hb
      · exact hb
  obtain ⟨a, ha, rfl⟩ := List.mem_map.mp hmem
  split
  · decide
  · rename_i hslash
    have hf : ¬ isForbidden a = true := fun h => hc (List.any_eq_true.mpr ⟨a, ha, h⟩)
    simp only [isForbidden, Bool.or_eq_true, decide_eq_true_eq, not_or] at hf
    exact ⟨hslash, hf.2, hf.1.1, hf.1.2⟩

theorem stripAssets_spec {rel : Path} (hrel : rel.isAbsolute = false) :
    (stripAssets rel).isAbsolute = false ∧ ∀ n ∈ (stripAssets rel).names, n ∈ rel.names := by
  unfold stripAssets
  split
  · exact ⟨hrel, fun n hn => hn⟩
  · rename_i e es he
    split
    · have hmem : ∀ x ∈ es, x ∈ rel.names ∨ x = [] := by
        intro x hx
        have hx' : x ∈ rel.elements := he ▸ List.mem_cons_of_mem _ hx
        unfold Path.elements Path.dirElements at hx'
        rw [hrel, if_neg Bool.false_ne_true, List.nil_append, List.mem_append] at hx'
        refine hx'.imp_right fun h => ?_
        split at h
        · exact List.mem_singleton.mp h
        · exact absurd h List.not_mem_nil
      have hsep : ∀ x ∈ es, PosixPath.sep ∉ x := by
        intro x hx
        rcases hmem x hx with h | rfl
        · exact (isName_of_mem h).sep
        · exact List.not_mem_nil
      obtain ⟨h1, h2⟩ := names_foldl_append hsep (a := .empty) rfl
      refine ⟨h1, fun n hn => ?_⟩
      rw [h2, show Path.empty.names = [] from rfl, List.nil_append, List.mem_filter] at hn
      exact (hmem n hn.1).resolve_right (of_decide_eq_true hn.2)
    · exact ⟨hrel, fun n hn => hn⟩

/-- **What is accepted lies in the assets root**: behind the root come one or more names, none of
which leads out of a directory, and at most the empty element of a trailing separator. -/
theorem normalizeAssetPath_inside (assetsRoot : Option Bytes) (input : Bytes) (out : Path)
    (h : normalizeAssetPath assetsRoot input = some out) :
    ∃ ns tr, ns ≠ [] ∧ (∀ n ∈ ns, SafeName n) ∧
      out.native = (assetsPath assetsRoot).native ++ (assetsPath assetsRoot).appendSep
        ++ (joined ns tr).native ∧
      out.elements = (assetsPath assetsRoot).dirElements ++ (ns ++ if tr then [[]] else []) := by
  unfold normalizeAssetPath at h
  simp only [Option.ite_none_left_eq_some, Option.some.injEq] at h
  obtain ⟨hclean, habs, hne, hdd, rfl⟩ := h
  rw [Bool.not_eq_true] at habs
  generalize hrel : (⟨eraseSlash (replaceChar (decodeRounds 3 input) backslash (ch '/'))⟩ : Path)
    = rel at *
  have hbytes : ∀ b ∈ rel.native, b ≠ backslash ∧ b ≠ ch '%' ∧ ¬ b < 32 ∧ b ≠ 127 := by
    rw [← hrel]
    exact fun b => bytes_of_clean hclean
  obtain ⟨hstrip, hsub⟩ := stripAssets_spec habs
  rw [Bool.or_eq_true, not_or, decide_eq_true_eq] at hne
  rcases lexicallyNormal_cases hstrip with ⟨h0, he⟩ | he | ⟨hns, he⟩
  · -- the empty path was rejected
    rw [he] at hne
    exact absurd (by simp [Path.isEmpty, h0]) hne.1
  · rw [he] at hne
    exact absurd (by decide) hne.2
  · rw [he] at hdd ⊢
    have hname : ∀ n ∈ (stripAssets rel).normalNames, IsName n := fun n hn =>
      isName_of_mem (mem_normalNames hn).1
    have habs' := isAbsolute_joined (stripAssets rel).normalTrailing hname hns
    refine ⟨_, (stripAssets rel).normalTrailing, hns, fun n hn => ?_, ?_, ?_⟩
    · obtain ⟨hmem, hdot⟩ := mem_normalNames hn
      refine ⟨hname n hn, hdot, ?_, fun b hb => hbytes b (mem_native_of_mem (hsub n hmem) hb)⟩
      rintro rfl
      refine hdd ?_
      rw [elements_joined hname hns]
      exact List.mem_append_left _ hn
    · unfold Path.append
      rw [habs']
      rfl
    · rw [elements_append _ habs' (by rw [names_joined hname hns]; exact hns),
        elements_joined hname hns]

theorem normalizeAssetPath_inside_img :
    ∃ out ns tr, normalizeAssetPath (some (str "/srv")) (str "/assets%255cimg/./x/../a+b.png")
        = some out ∧ out.native = str "/srv/img/a b.png" ∧ ns ≠ [] ∧ (∀ n ∈ ns, SafeName n) ∧
      out.native = (assetsPath (some (str "/srv"))).native
        ++ (assetsPath (some (str "/srv"))).appendSep ++ (joined ns tr).native ∧
      out.elements = (assetsPath (some (str "/srv"))).dirElements
        ++ (ns ++ if tr then [[]] else []) := by
  have h : normalizeAssetPath (some (str "/srv")) (str "/assets%255cimg/./x/../a+b.png")
      = some ⟨str "/srv/img/a b.png"⟩ := by decide +kernel
  obtain ⟨ns, tr, h1⟩ := normalizeAssetPath_inside _ _ _ h
  exact ⟨_, ns, tr, h, rfl, h1⟩

-- an attack with nested escapes and backslashes
example : normalizeAssetPath none (str "/assets/%252e%252e%255c..%2fetc/passwd") = none := by
  decide +kernel

end ServerHttpLib
