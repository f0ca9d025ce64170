import ServerHttpLib.Lib.PosixPath

/-!
# Renaming the bytes of a path

A renaming takes the separator and the dot to themselves, and nothing else to them.  The operations
on paths see no other byte, so they commute with it:

* `names_rename`, `elements_rename`   the names and elements are renamed one by one;
* `append_rename`, `foldl_append_rename`, `lexicallyNormal_rename`   and so are the results.
-/

namespace PosixPath

/-- a map of bytes that is faithful about `c` -/
def Faithful (f : UInt8 → UInt8) (c : UInt8) : Prop := ∀ b, f b = c ↔ b = c

structure Renaming where
  toFun : UInt8 → UInt8
  sep : Faithful toFun sep
  dot : Faithful toFun dot

theorem Faithful.self {f : UInt8 → UInt8} {c : UInt8} (h : Faithful f c) : f c = c := (h c).mpr rfl

/-- faithful about all bytes of a text: nothing else becomes this text -/
theorem map_eq_iff {f : UInt8 → UInt8} {t : List UInt8} (ht : ∀ c ∈ t, Faithful f c)
    (s : List UInt8) : s.map f = t ↔ s = t := by
  induction t generalizing s with
  | nil => exact List.map_eq_nil_iff
  | cons c t ih =>
    have ih := ih fun x hx => ht x (List.mem_cons_of_mem _ hx)
    cases s with
    | nil => simp
    | cons b s => rw [List.map_cons, List.cons.injEq, List.cons.injEq, ih,
        ht c List.mem_cons_self b]

def Path.rename (f : UInt8 → UInt8) (p : Path) : Path := ⟨p.native.map f⟩

theorem splitOn_map {f : UInt8 → UInt8} {c : UInt8} (hf : Faithful f c) (s : List UInt8) :
    (s.map f).splitOn c = (s.splitOn c).map (List.map f) := by
  induction s with
  | nil => simp
  | cons b s ih =>
    rw [List.map_cons, List.splitOn_cons_eq_if_modifyHead, List.splitOn_cons_eq_if_modifyHead, ih]
    have hb : (f b == c) = (b == c) := by
      rw [Bool.eq_iff_iff, beq_iff_eq, beq_iff_eq]
      exact hf b
    rw [hb]
    split
    · rfl
    · obtain ⟨l, ls, hl⟩ := List.exists_cons_of_ne_nil (List.splitOn_ne_nil c s)
      rw [hl]
      rfl

theorem filter_ne_nil_map (f : UInt8 → UInt8) (ls : List (List UInt8)) :
    (ls.map (List.map f)).filter (· ≠ []) = (ls.filter (· ≠ [])).map (List.map f) := by
  rw [List.filter_map]
  congr 1
  refine List.filter_congr fun l _ => ?_
  simp

theorem getLast?_map_eq_iff {f : UInt8 → UInt8} {c : UInt8} (hf : Faithful f c) (s : List UInt8) :
    (s.map f).getLast? = some c ↔ s.getLast? = some c := by
  rw [List.getLast?_map]
  cases s.getLast? with
  | none => simp
  | some b => simp [hf b]

section
variable (r : Renaming) (p : Path)

theorem isAbsolute_rename : (p.rename r.toFun).isAbsolute = p.isAbsolute := by
  unfold Path.isAbsolute Path.rename
  rw [List.head?_map]
  cases p.native.head? with
  | none => rfl
  | some b => simp [r.sep b]

theorem names_rename : (p.rename r.toFun).names = p.names.map (List.map r.toFun) := by
  unfold Path.names Path.rename
  rw [splitOn_map r.sep, filter_ne_nil_map]

theorem trailing_rename : (p.rename r.toFun).trailing = p.trailing := by
  unfold Path.trailing
  rw [names_rename]
  have hlast := getLast?_map_eq_iff r.sep p.native
  simp only [Path.rename, hlast, ne_eq, List.map_eq_nil_iff]

theorem elements_rename : (p.rename r.toFun).elements = p.elements.map (List.map r.toFun) := by
  unfold Path.elements Path.dirElements
  rw [isAbsolute_rename, names_rename, trailing_rename, List.map_append, List.map_append]
  congr 1
  · congr 1
    split
    · simp [r.sep.self]
    · rfl
  · split <;> rfl

theorem hasFilename_rename : (p.rename r.toFun).hasFilename = p.hasFilename := by
  unfold Path.hasFilename
  have hlast := getLast?_map_eq_iff r.sep p.native
  simp only [Path.rename, ne_eq, hlast, List.map_eq_nil_iff]

theorem append_rename (q : Path) :
    (p.append q).rename r.toFun = (p.rename r.toFun).append (q.rename r.toFun) := by
  unfold Path.append
  rw [isAbsolute_rename]
  split
  · rfl
  · unfold Path.appendSep
    rw [hasFilename_rename]
    unfold Path.rename
    split
    · simp [r.sep.self]
    · simp

theorem foldl_append_rename (es : List (List UInt8)) :
    (es.foldl (fun q e => q.append ⟨e⟩) p).rename r.toFun
      = (es.map (List.map r.toFun)).foldl (fun q e => q.append ⟨e⟩) (p.rename r.toFun) := by
  induction es generalizing p with
  | nil => rfl
  | cons e es ih =>
    rw [List.foldl_cons, ih, append_rename]
    rfl

theorem eq_dot_rename (n : List UInt8) : n.map r.toFun = [dot] ↔ n = [dot] :=
  map_eq_iff (fun c hc => by rw [List.mem_singleton.mp hc]; exact r.dot) n

theorem eq_dotDot_rename (n : List UInt8) : n.map r.toFun = dotDot ↔ n = dotDot := by
  refine map_eq_iff (fun c hc => ?_) n
  have hdot : c = dot := by simpa [dotDot] using hc
  rw [hdot]
  exact r.dot

theorem pushName_rename (rooted : Bool) (ns : List (List UInt8)) (n : List UInt8) :
    pushName rooted (ns.map (List.map r.toFun)) (n.map r.toFun)
      = (pushName rooted ns n).map (List.map r.toFun) := by
  unfold pushName
  simp only [eq_dot_rename, eq_dotDot_rename, List.getLast?_map]
  split
  · rfl
  · split
    · cases ns.getLast? with
      | none =>
        dsimp only [Option.map_none]
        split <;> rfl
      | some l =>
        simp only [Option.map_some, eq_dotDot_rename]
        split
        · rw [List.map_append]
          rfl
        · rw [List.map_dropLast]
    · rw [List.map_append]
      rfl

theorem normalNames_rename :
    (p.rename r.toFun).normalNames = p.normalNames.map (List.map r.toFun) := by
  have key : ∀ (names ns : List (List UInt8)),
      (names.map (List.map r.toFun)).foldl (pushName p.isAbsolute) (ns.map (List.map r.toFun))
        = (names.foldl (pushName p.isAbsolute) ns).map (List.map r.toFun) := by
    intro names
    induction names with
    | nil => exact fun ns => rfl
    | cons n names ih =>
      intro ns
      rw [List.map_cons, List.foldl_cons, List.foldl_cons, pushName_rename, ih]
  unfold Path.normalNames
  rw [isAbsolute_rename, names_rename]
  exact key p.names []

theorem getLast?_rename_eq_iff {t : List UInt8} (ht : ∀ n, n.map r.toFun = t ↔ n = t)
    (ns : List (List UInt8)) :
    (ns.map (List.map r.toFun)).getLast? = some t ↔ ns.getLast? = some t := by
  rw [List.getLast?_map]
  cases ns.getLast? with
  | none => simp
  | some n => simp [ht n]

theorem normalTrailing_rename : (p.rename r.toFun).normalTrailing = p.normalTrailing := by
  unfold Path.normalTrailing
  simp only [trailing_rename, names_rename, normalNames_rename, ne_eq,
    getLast?_rename_eq_iff r (eq_dot_rename r), getLast?_rename_eq_iff r (eq_dotDot_rename r)]

theorem intercalate_rename (ns : List (List UInt8)) :
    ([sep].intercalate ns).map r.toFun = [sep].intercalate (ns.map (List.map r.toFun)) := by
  induction ns with
  | nil => rfl
  | cons n ns ih =>
    cases ns with
    | nil => simp
    | cons m ns =>
      rw [List.map_cons, List.map_cons, List.intercalate_cons_cons, List.intercalate_cons_cons,
        List.map_append, List.map_append, ih, List.map_singleton, r.sep.self, List.map_cons]

theorem joined_rename (ns : List (List UInt8)) (tr : Bool) :
    (joined ns tr).rename r.toFun = joined (ns.map (List.map r.toFun)) tr := by
  unfold joined Path.rename
  rw [List.map_append, intercalate_rename]
  cases tr with
  | false => rfl
  | true => simp [r.sep.self]

/-- **The normal form commutes with a renaming.** -/
theorem lexicallyNormal_rename :
    (p.rename r.toFun).lexicallyNormal = p.lexicallyNormal.rename r.toFun := by
  have hnative : (p.rename r.toFun).native = [] ↔ p.native = [] := List.map_eq_nil_iff
  have hjoined := congrArg Path.native (joined_rename r p.normalNames p.normalTrailing)
  unfold Path.lexicallyNormal
  rw [normalNames_rename, normalTrailing_rename, isAbsolute_rename]
  simp only [hnative, List.map_eq_nil_iff]
  split
  · rfl
  · split
    · split
      · simp [Path.rename, r.sep.self]
      · simp [Path.rename, r.dot.self]
    · rw [← hjoined]
      unfold Path.rename
      rw [List.map_append]
      split
      · simp [r.sep.self]
      · rfl

end

end PosixPath
