import Mathlib.Data.List.Basic

/-!
# Lexical POSIX paths

A path is a byte string.  Its names are the non-empty pieces between its separators; there is no
root name, and the root directory is a separator at the front.  The operations are those of the
C++ standard (`[fs.path.append]`, `[fs.path.itr]`, `[fs.path.generic]`) for such paths:

* `names_append`             the names of `a / b`, for a relative `b`: those of `a`, then of `b`;
* `elements_append`          and so are the elements that iteration yields;
* `lexicallyNormal_cases`    the normal form of a relative path is empty, `.`, or a list of its own
                             names without `.`, perhaps with a separator behind them.
-/

namespace PosixPath

structure Path where
  native : List UInt8
  deriving DecidableEq, Repr

def sep : UInt8 := 47
def dot : UInt8 := 46

def dotDot : List UInt8 := [dot, dot]

namespace Path

def empty : Path := ⟨[]⟩

def isEmpty (p : Path) : Bool := p.native.isEmpty

/-- there is a root directory; without root names this is also `has_root_path` -/
def isAbsolute (p : Path) : Bool := p.native.head? = some sep

def names (p : Path) : List (List UInt8) := (p.native.splitOn sep).filter (· ≠ [])

/-- a separator that is not the root directory ends the path -/
def trailing (p : Path) : Bool := p.names ≠ [] && p.native.getLast? = some sep

/-- the elements from the root directory on, without the empty one behind a trailing separator -/
def dirElements (p : Path) : List (List UInt8) := (if p.isAbsolute then [[sep]] else []) ++ p.names

/-- what iteration yields -/
def elements (p : Path) : List (List UInt8) := p.dirElements ++ if p.trailing then [[]] else []

def hasFilename (p : Path) : Bool := p.native ≠ [] && p.native.getLast? ≠ some sep

/-- the separator that `/=` puts behind a path -/
def appendSep (p : Path) : List UInt8 := if p.hasFilename then [sep] else []

/-- `a /= b` -/
def append (a b : Path) : Path :=
  if b.isAbsolute then b else ⟨a.native ++ a.appendSep ++ b.native⟩

end Path

/-- a relative path made of names -/
def joined (ns : List (List UInt8)) (trailing : Bool) : Path :=
  ⟨[sep].intercalate ns ++ if trailing then [sep] else []⟩

/-- one name of a path in the normal form of what precedes it: `.` is dropped, and `..` drops the
name before it, if there is one -/
def pushName (rooted : Bool) (ns : List (List UInt8)) (n : List UInt8) : List (List UInt8) :=
  if n = [dot] then ns
  else if n = dotDot then
    match ns.getLast? with
    | none => if rooted then ns else [n]
    | some l => if l = dotDot then ns ++ [n] else ns.dropLast
  else ns ++ [n]

def Path.normalNames (p : Path) : List (List UInt8) := p.names.foldl (pushName p.isAbsolute) []

def Path.normalTrailing (p : Path) : Bool :=
  (p.trailing || p.names.getLast? = some [dot] || p.names.getLast? = some dotDot)
    && p.normalNames.getLast? ≠ some dotDot

def Path.lexicallyNormal (p : Path) : Path :=
  if p.native = [] then p
  else if p.normalNames = [] then ⟨if p.isAbsolute then [sep] else [dot]⟩
  else
    ⟨(if p.isAbsolute then [sep] else []) ++ (joined p.normalNames p.normalTrailing).native⟩

/-! ## names -/

/-- a name: not empty, and without separators -/
structure IsName (n : List UInt8) : Prop where
  ne : n ≠ []
  sep : sep ∉ n

theorem isName_of_mem {p : Path} {n : List UInt8} (hn : n ∈ p.names) : IsName n := by
  unfold Path.names at hn
  obtain ⟨hmem, hne⟩ := List.mem_filter.mp hn
  refine ⟨of_decide_eq_true hne, ?_⟩
  clear hn hne
  generalize p.native = s at hmem
  induction s generalizing n with
  | nil =>
    rw [List.splitOn_nil, List.mem_singleton] at hmem
    rw [hmem]
    exact List.not_mem_nil
  | cons c s ih =>
    rw [List.splitOn_cons_eq_if_modifyHead] at hmem
    split at hmem
    · rcases List.mem_cons.mp hmem with rfl | hmem
      · exact List.not_mem_nil
      · exact ih hmem
    · rename_i hc
      obtain ⟨l, ls, hl⟩ := List.exists_cons_of_ne_nil (List.splitOn_ne_nil sep s)
      rw [hl, List.modifyHead_cons] at hmem
      rw [hl] at ih
      rcases List.mem_cons.mp hmem with rfl | hmem
      · rw [List.mem_cons, not_or]
        exact ⟨fun h => hc (by rw [h, beq_self_eq_true]), ih List.mem_cons_self⟩
      · exact ih (List.mem_cons_of_mem _ hmem)

theorem mem_native_of_mem {p : Path} {n : List UInt8} (hn : n ∈ p.names) {b : UInt8} (hb : b ∈ n) :
    b ∈ p.native := by
  have hmem := (List.mem_filter.mp hn).1
  have hnative : [sep].intercalate (p.native.splitOn sep) = p.native := List.intercalate_splitOn sep
  rw [← hnative]
  obtain ⟨as, bs, he⟩ := List.append_of_mem hmem
  rw [he]
  clear he hmem hn
  induction as with
  | nil =>
    cases bs with
    | nil => simpa using hb
    | cons c bs => simp [hb]
  | cons a as ih =>
    rw [List.cons_append, List.intercalate_cons_of_ne_nil (by simp)]
    exact List.mem_append_right _ ih

theorem names_sep_append (a b : List UInt8) :
    (⟨a ++ sep :: b⟩ : Path).names = (⟨a⟩ : Path).names ++ (⟨b⟩ : Path).names := by
  unfold Path.names
  rw [List.splitOn_append_cons_self, List.filter_append]

theorem names_nil : Path.names ⟨[]⟩ = [] := rfl

theorem names_snoc_sep (a : List UInt8) : (⟨a ++ [sep]⟩ : Path).names = (⟨a⟩ : Path).names := by
  rw [names_sep_append, names_nil, List.append_nil]

theorem names_append (a : Path) {b : Path} (hb : b.isAbsolute = false) :
    (a.append b).names = a.names ++ b.names := by
  unfold Path.append
  rw [if_neg (by simp [hb])]
  unfold Path.appendSep
  by_cases h0 : a.native = []
  · obtain ⟨n⟩ := a
    subst h0
    rfl
  · by_cases hl : a.native.getLast? = some sep
    · -- the separator is there already
      have hf : ¬ a.hasFilename = true := by simp [Path.hasFilename, hl]
      obtain ⟨x, hx⟩ := List.getLast?_eq_some_iff.mp hl
      rw [if_neg hf, List.append_nil, hx, List.append_assoc, List.singleton_append,
        names_sep_append, ← names_snoc_sep, ← hx]
    · have hf : a.hasFilename = true := by simp [Path.hasFilename, hl, h0]
      rw [if_pos hf, List.append_assoc, List.singleton_append, names_sep_append]

theorem isAbsolute_append (a : Path) {b : Path} (hb : b.isAbsolute = false) :
    (a.append b).isAbsolute = a.isAbsolute := by
  have hb' : b.native.head? ≠ some sep := by simpa [Path.isAbsolute] using hb
  unfold Path.append
  rw [if_neg (by simp [hb])]
  unfold Path.isAbsolute
  cases h : a.native with
  | nil => simp [Path.appendSep, Path.hasFilename, h, hb']
  | cons c s => simp

theorem trailing_append (a : Path) {b : Path} (hb : b.isAbsolute = false) (hn : b.names ≠ []) :
    (a.append b).trailing = b.trailing := by
  have hne : b.native ≠ [] := by
    intro h0
    exact hn (by unfold Path.names; rw [h0]; rfl)
  have hnames : (a.append b).names ≠ [] := by
    rw [names_append a hb]
    simp [hn]
  have hlast : (a.append b).native.getLast? = b.native.getLast? := by
    unfold Path.append
    rw [if_neg (by simp [hb])]
    exact List.getLast?_append_of_ne_nil _ hne
  unfold Path.trailing
  rw [hlast]
  simp [hnames, hn]

theorem elements_append (a : Path) {b : Path} (hb : b.isAbsolute = false) (hn : b.names ≠ []) :
    (a.append b).elements = a.dirElements ++ b.elements := by
  unfold Path.elements Path.dirElements
  rw [isAbsolute_append a hb, names_append a hb, trailing_append a hb hn, hb]
  simp only [Bool.false_eq_true, if_false, List.nil_append, List.append_assoc]

theorem names_of_not_mem {e : List UInt8} (he : sep ∉ e) :
    (⟨e⟩ : Path).names = [e].filter (· ≠ []) := by
  unfold Path.names
  rw [List.splitOn_eq_singleton he]

theorem isAbsolute_of_not_mem {e : List UInt8} (he : sep ∉ e) :
    (⟨e⟩ : Path).isAbsolute = false := by
  cases e with
  | nil => rfl
  | cons c e =>
    have hc : c ≠ sep := fun h => he (h ▸ List.mem_cons_self)
    simp [Path.isAbsolute, hc]

theorem names_foldl_append {es : List (List UInt8)} (hes : ∀ e ∈ es, sep ∉ e) {a : Path}
    (ha : a.isAbsolute = false) :
    (es.foldl (fun q e => q.append ⟨e⟩) a).isAbsolute = false ∧
      (es.foldl (fun q e => q.append ⟨e⟩) a).names = a.names ++ es.filter (· ≠ []) := by
  induction es generalizing a with
  | nil => exact ⟨ha, (List.append_nil _).symm⟩
  | cons e es ih =>
    have he := hes e List.mem_cons_self
    have hrel := isAbsolute_of_not_mem he
    obtain ⟨h1, h2⟩ := ih (fun x hx => hes x (List.mem_cons_of_mem _ hx))
      (a := a.append ⟨e⟩) ((isAbsolute_append a hrel).trans ha)
    refine ⟨h1, ?_⟩
    rw [List.foldl_cons, h2, names_append a hrel, names_of_not_mem he, List.append_assoc,
      ← List.filter_append, List.singleton_append]

/-! ## paths made of names -/

section
variable {ns : List (List UInt8)} {tr : Bool}

theorem names_joined (hns : ∀ n ∈ ns, IsName n) (hne : ns ≠ []) : (joined ns tr).names = ns := by
  have hbase : (⟨[sep].intercalate ns⟩ : Path).names = ns := by
    unfold Path.names
    rw [List.splitOn_intercalate sep (fun n hn => (hns n hn).sep) hne, List.filter_eq_self]
    exact fun n hn => decide_eq_true (hns n hn).ne
  unfold joined
  cases tr with
  | false => simpa using hbase
  | true => exact (names_snoc_sep _).trans hbase

/-- the text of the names begins and ends with one of their bytes -/
theorem intercalate_ends (hns : ∀ n ∈ ns, IsName n) (hne : ns ≠ []) :
    [sep].intercalate ns ≠ [] ∧ ([sep].intercalate ns).head? ≠ some sep ∧
      ([sep].intercalate ns).getLast? ≠ some sep := by
  induction ns with
  | nil => exact absurd rfl hne
  | cons n ns ih =>
    obtain ⟨h1, h2⟩ := hns n List.mem_cons_self
    obtain ⟨c, n, rfl⟩ := List.exists_cons_of_ne_nil h1
    have hc : c ≠ sep := fun h => h2 (h ▸ List.mem_cons_self)
    by_cases h0 : ns = []
    · have hlast : (c :: n).getLast? ≠ some sep := fun h => h2 (List.mem_of_getLast? h)
      subst h0
      exact ⟨by simp, by simpa using hc, by simpa using hlast⟩
    · obtain ⟨h3, -, h4⟩ := ih (fun x hx => hns x (List.mem_cons_of_mem _ hx)) h0
      rw [List.intercalate_cons_of_ne_nil h0]
      refine ⟨by simp, by simpa using hc, ?_⟩
      rw [List.getLast?_append_of_ne_nil _ h3]
      exact h4

theorem isAbsolute_joined (tr : Bool) (hns : ∀ n ∈ ns, IsName n) (hne : ns ≠ []) :
    (joined ns tr).isAbsolute = false := by
  obtain ⟨h1, h2, -⟩ := intercalate_ends hns hne
  obtain ⟨c, s, hs⟩ := List.exists_cons_of_ne_nil h1
  have hc : c ≠ sep := by simpa [hs] using h2
  simp [joined, Path.isAbsolute, hs, hc]

theorem trailing_joined (hns : ∀ n ∈ ns, IsName n) (hne : ns ≠ []) :
    (joined ns tr).trailing = tr := by
  obtain ⟨-, -, h3⟩ := intercalate_ends hns hne
  unfold Path.trailing
  rw [names_joined hns hne]
  cases tr with
  | false => simpa [joined, hne] using h3
  | true => simp [joined, hne]

theorem elements_joined (hns : ∀ n ∈ ns, IsName n) (hne : ns ≠ []) :
    (joined ns tr).elements = ns ++ if tr then [[]] else [] := by
  unfold Path.elements Path.dirElements
  rw [isAbsolute_joined tr hns hne, names_joined hns hne, trailing_joined hns hne]
  rfl

end

/-! ## the normal form -/

theorem mem_pushName {rooted : Bool} {ns : List (List UInt8)} {n x : List UInt8}
    (hx : x ∈ pushName rooted ns n) : x ∈ ns ∨ (x = n ∧ n ≠ [dot]) := by
  unfold pushName at hx
  split at hx
  · exact Or.inl hx
  · rename_i hdot
    split at hx
    · split at hx
      · split at hx
        · exact Or.inl hx
        · exact Or.inr ⟨List.mem_singleton.mp hx, hdot⟩
      · split at hx
        · rcases List.mem_append.mp hx with hx | hx
          · exact Or.inl hx
          · exact Or.inr ⟨List.mem_singleton.mp hx, hdot⟩
        · exact Or.inl ((List.dropLast_sublist _).subset hx)
    · rcases List.mem_append.mp hx with hx | hx
      · exact Or.inl hx
      · exact Or.inr ⟨List.mem_singleton.mp hx, hdot⟩

theorem mem_foldl_pushName {rooted : Bool} {l ns : List (List UInt8)} {x : List UInt8}
    (hx : x ∈ l.foldl (pushName rooted) ns) : x ∈ ns ∨ (x ∈ l ∧ x ≠ [dot]) := by
  induction l generalizing ns with
  | nil => exact Or.inl hx
  | cons n l ih =>
    rcases ih hx with h | ⟨h1, h2⟩
    · rcases mem_pushName h with h | ⟨rfl, h⟩
      · exact Or.inl h
      · exact Or.inr ⟨List.mem_cons_self, h⟩
    · exact Or.inr ⟨List.mem_cons_of_mem _ h1, h2⟩

theorem mem_normalNames {p : Path} {x : List UInt8} (hx : x ∈ p.normalNames) :
    x ∈ p.names ∧ x ≠ [dot] :=
  (mem_foldl_pushName hx).resolve_left List.not_mem_nil

theorem lexicallyNormal_cases {p : Path} (hp : p.isAbsolute = false) :
    (p.native = [] ∧ p.lexicallyNormal = p) ∨ p.lexicallyNormal = ⟨[dot]⟩ ∨
      (p.normalNames ≠ [] ∧ p.lexicallyNormal = joined p.normalNames p.normalTrailing) := by
  unfold Path.lexicallyNormal
  by_cases h0 : p.native = []
  · exact Or.inl ⟨h0, if_pos h0⟩
  · rw [if_neg h0, hp]
    by_cases h1 : p.normalNames = []
    · exact Or.inr (Or.inl (if_pos h1))
    · exact Or.inr (Or.inr ⟨h1, if_neg h1⟩)

end PosixPath
