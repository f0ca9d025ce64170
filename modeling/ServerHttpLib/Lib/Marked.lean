import ServerHttpLib.Lib.Pieces

/-!
# Names between marks

A text holds variables: a name between two marks stands for a value.  `scan` reads the text from
left to right, `render` puts in the values; `runPasses` replaces the variables name by name, each
name in a pass over the whole text.  A pass also takes a name that stands between the closing mark
of one variable and the next mark, or that the passes before it have put together.

* `Joins`, `Clash`            a name between two marks that belong to different variables;
* `spans_fill`                what stands between the marks when one variable has been filled in;
* `pass_fill`                 without clashes a pass fills in the variables of its name;
* `runPasses_of_separate`     and all passes, in any order, do what `render` does.
-/

namespace Marked
open Cutting

inductive Part (α : Type*) where
  | char (c : α)
  | var (name : List α)
  deriving DecidableEq

/-- the values of the names -/
abbrev Env (α : Type*) := List α → Option (List α)

section
variable {α : Type*} (mark : α)

def token (name : List α) : List α := mark :: (name ++ [mark])

def Part.text : Part α → List α
  | char c => [c]
  | var name => token mark name

def textOf (parts : List (Part α)) : List α := parts.flatMap (Part.text mark)

def Part.value (env : Env α) : Part α → List α
  | char c => [c]
  | var name => (env name).getD []

def render (env : Env α) (parts : List (Part α)) : List α := parts.flatMap (Part.value env)

/-- neither names nor values have a mark -/
structure Env.Plain (env : Env α) : Prop where
  name : ∀ n v, env n = some v → mark ∉ n
  value : ∀ n v, env n = some v → mark ∉ v

/-- the entries of the environment, in some order -/
structure Env.Lists (env : Env α) (es : List (List α × List α)) : Prop where
  nodup : (es.map Prod.fst).Nodup
  mem : ∀ n v, env n = some v ↔ (n, v) ∈ es

variable {mark} {env : Env α} {parts : List (Part α)} {v : List α}

theorem textOf_char (c : α) (parts : List (Part α)) :
    textOf mark (.char c :: parts) = c :: textOf mark parts := rfl

theorem textOf_var (n : List α) (parts : List (Part α)) :
    textOf mark (.var n :: parts) = mark :: (n ++ mark :: textOf mark parts) := by
  show mark :: (n ++ [mark]) ++ textOf mark parts = _
  simp

theorem textOf_append (a b : List (Part α)) :
    textOf mark (a ++ b) = textOf mark a ++ textOf mark b := List.flatMap_append

theorem textOf_chars (v : List α) : textOf mark (v.map Part.char) = v := by
  induction v with
  | nil => rfl
  | cons c v ih => exact congrArg (List.cons c) ih

theorem token_append (n s : List α) : token mark n ++ s = mark :: (n ++ mark :: s) := by
  simp [token]

theorem token_ne_nil (n : List α) : token mark n ≠ [] := List.cons_ne_nil _ _

/-- what begins with a text without marks does not begin with a mark -/
theorem head_ne_mark {u z z' : List α} (hu : mark ∉ u) (hne : u ≠ []) : u ++ z ≠ mark :: z' := by
  cases u with
  | nil => exact absurd rfl hne
  | cons c u =>
    intro h
    rw [List.cons_append, List.cons.injEq] at h
    exact hu (h.1 ▸ List.mem_cons_self)

theorem not_isPrefix_mark {d : α} {w s : List α} (hw : mark ∉ d :: w) :
    ¬ d :: w ++ [mark] <+: mark :: s := by
  intro h
  rw [List.cons_append, List.cons_prefix_cons] at h
  exact hw (h.1 ▸ List.mem_cons_self)

theorem Env.Lists.perm {es es' : List (List α × List α)} (h : env.Lists es) (hp : es'.Perm es) :
    env.Lists es' :=
  ⟨(hp.map Prod.fst).nodup_iff.mpr h.nodup, fun n v => (h.mem n v).trans hp.mem_iff.symm⟩

/-! ## scanned parts -/

/-- no name stands between this place and the next mark -/
def NoName (mark : α) (env : Env α) (s : List α) : Prop :=
  ∀ n, (env n).isSome → ¬ n ++ [mark] <+: s

/-- what `scan` yields: variables are names, and no mark that is a character stands before one -/
def Scanned (mark : α) (env : Env α) : List (Part α) → Prop
  | [] => True
  | .char c :: parts => (c = mark → NoName mark env (textOf mark parts)) ∧ Scanned mark env parts
  | .var n :: parts => (env n).isSome ∧ Scanned mark env parts

theorem isSome_of_mem_scanned (h : Scanned mark env parts) {n : List α}
    (hn : Part.var n ∈ parts) : (env n).isSome := by
  induction parts with
  | nil => exact absurd hn List.not_mem_nil
  | cons x parts ih =>
    rcases List.mem_cons.mp hn with rfl | hrest
    · exact h.1
    · cases x with
      | char c => exact ih h.2 hrest
      | var m => exact ih h.2 hrest

theorem scanned_chars (hv : mark ∉ v) :
    Scanned mark env (v.map .char ++ parts) ↔ Scanned mark env parts := by
  induction v with
  | nil => exact Iff.rfl
  | cons c v ih =>
    rw [List.mem_cons, not_or] at hv
    rw [List.map_cons, List.cons_append, Scanned, ih hv.2]
    exact and_iff_right fun h => absurd h.symm hv.1

theorem render_eq_textOf (h : ∀ n, env n = none) (hs : Scanned mark env parts) :
    render env parts = textOf mark parts := by
  induction parts with
  | nil => rfl
  | cons x parts ih =>
    cases x with
    | char c => exact congrArg (List.cons c) (ih hs.2)
    | var n =>
      have hn := hs.1
      rw [h n] at hn
      exact absurd hn (by simp)

end

variable {α : Type*} [DecidableEq α] (mark : α)

/-- reading from left to right: text between two marks is a variable if it is a name, and else the
first mark is a character -/
def scan (env : Env α) : List α → List (Part α)
  | [] => []
  | c :: s =>
    if c = mark then
      match _h : cut [mark] s with
      | some (name, rest) =>
        if (env name).isSome then .var name :: scan env rest else .char c :: scan env s
      | none => .char c :: scan env s
    else .char c :: scan env s
termination_by s => s.length
decreasing_by
  · have h := cut_length _h
    rw [List.length_cons]
    omega
  all_goals exact Nat.lt_succ_self _

/-- the passes, in the order of the list -/
def runPasses (es : List (List α × List α)) (s : List α) : List α :=
  es.foldl (fun s e => replaceAll (token mark e.1) e.2 s) s

def Env.without (env : Env α) (k : List α) : Env α := fun n => if n = k then none else env n

/-! ## what stands between two marks -/

/-- text up to the next mark, when the variables `through` have been filled in; the mark is that of
the variable `next`, or a character -/
@[ext]
structure Span (α : Type*) where
  through : List (List α)
  text : List α
  next : Option (List α)
  deriving DecidableEq

def Span.push (c : α) (p : Span α) : Span α := { p with text := c :: p.text }

def Span.pass (n v : List α) (p : Span α) : Span α := ⟨n :: p.through, v ++ p.text, p.next⟩

/-- the spans at the beginning of a list of parts -/
def spans (env : Env α) : List (Part α) → List (Span α)
  | [] => []
  | .char c :: parts => if c = mark then [⟨[], [], none⟩] else (spans env parts).map (Span.push c)
  | .var n :: parts => ⟨[], [], some n⟩ :: (spans env parts).map (Span.pass n ((env n).getD []))

/-- behind a mark, of the variable `x` or a character, the span is a name, whose pass may come
before those of `x` and of the variable behind it -/
structure Span.Joins (env : Env α) (x : Option (List α)) (p : Span α) : Prop where
  name : (env p.text).isSome
  text : p.text ∉ p.through
  last : ∀ n ∈ x, n ≠ p.text ∧ n ∉ p.through
  next : ∀ n ∈ p.next, n ∉ p.through

instance (env : Env α) (x : Option (List α)) (p : Span α) : Decidable (p.Joins env x) :=
  decidable_of_iff ((env p.text).isSome ∧ p.text ∉ p.through ∧
      (∀ n ∈ x, n ≠ p.text ∧ n ∉ p.through) ∧ ∀ n ∈ p.next, n ∉ p.through)
    ⟨fun h => ⟨h.1, h.2.1, h.2.2.1, h.2.2.2⟩, fun h => ⟨h.name, h.text, h.last, h.next⟩⟩

/-- some pass may take the mark before `parts` for the opening mark of its name -/
def Clash (env : Env α) (x : Option (List α)) (parts : List (Part α)) : Prop :=
  ∃ p ∈ spans mark env parts, p.Joins env x

instance (env : Env α) (x : Option (List α)) (parts : List (Part α)) :
    Decidable (Clash mark env x parts) :=
  inferInstanceAs (Decidable (∃ p ∈ spans mark env parts, p.Joins env x))

/-- no clash, behind any mark that does not open a variable -/
def Separate (env : Env α) : List (Part α) → Prop
  | [] => True
  | .char c :: parts => (c = mark → ¬ Clash mark env none parts) ∧ Separate env parts
  | .var n :: parts => ¬ Clash mark env (some n) parts ∧ Separate env parts

instance decidableSeparate (env : Env α) : (parts : List (Part α)) →
    Decidable (Separate mark env parts)
  | [] => inferInstanceAs (Decidable True)
  | .char c :: parts =>
    have := decidableSeparate env parts
    inferInstanceAs (Decidable ((c = mark → ¬ Clash mark env none parts) ∧ Separate mark env parts))
  | .var n :: parts =>
    have := decidableSeparate env parts
    inferInstanceAs (Decidable (¬ Clash mark env (some n) parts ∧ Separate mark env parts))

variable {mark} {env : Env α} {parts : List (Part α)} {s k v : List α}

/-! ## the first mark -/

theorem cut_mark_iff {n : List α} (hn : mark ∉ n) :
    n ++ [mark] <+: s ↔ ∃ rest, cut [mark] s = some (n, rest) := by
  constructor
  · rintro ⟨rest, rfl⟩
    refine ⟨rest, ?_⟩
    rw [List.append_assoc]
    exact cut_of_mem_free hn rest
  · rintro ⟨rest, h⟩
    rw [cut_eq h]
    exact List.prefix_append _ _

/-- there is one name in front of a mark -/
theorem eq_of_mark_isPrefix {a b : List α} (ha : mark ∉ a) (hb : mark ∉ b)
    (h : a ++ [mark] <+: b ++ mark :: s) : a = b := by
  obtain ⟨rest, hrest⟩ := (cut_mark_iff ha).mp h
  exact (cut_inj (cut_of_mem_free hb s) hrest).1

/-! ## scanning -/

theorem scan_char {c : α} (hc : c ≠ mark) (s : List α) :
    scan mark env (c :: s) = .char c :: scan mark env s := by
  rw [scan, if_neg hc]

theorem scan_var {n : List α} (hn : (env n).isSome) (hm : mark ∉ n) (s : List α) :
    scan mark env (mark :: (n ++ mark :: s)) = .var n :: scan mark env s := by
  have hcut : cut [mark] (n ++ mark :: s) = some (n, s) := cut_of_mem_free hm s
  rw [scan, if_pos rfl]
  split
  · next h =>
    obtain ⟨rfl, rfl⟩ := cut_inj hcut h
    rw [if_pos hn]
  · next h =>
    rw [hcut] at h
    exact absurd h (by simp)

theorem scan_mark (h : NoName mark env s) :
    scan mark env (mark :: s) = .char mark :: scan mark env s := by
  rw [scan, if_pos rfl]
  split
  · next name rest hcut =>
    rw [if_neg]
    intro hn
    refine h name hn ?_
    rw [cut_eq hcut]
    exact List.prefix_append _ _
  · rfl

/-- along the parts of a text -/
theorem scan_induction (hp : env.Plain mark) {P : List α → Prop} (nil : P [])
    (char : ∀ c s, c ≠ mark → P s → P (c :: s))
    (var : ∀ n s, (env n).isSome → mark ∉ n → P s → P (mark :: (n ++ mark :: s)))
    (lone : ∀ s, NoName mark env s → P s → P (mark :: s)) (s : List α) : P s := by
  induction hlen : s.length using Nat.strong_induction_on generalizing s with
  | _ len ih =>
    cases s with
    | nil => exact nil
    | cons c s =>
      rw [List.length_cons] at hlen
      have hrest : P s := ih s.length (by omega) s rfl
      by_cases hc : c = mark
      · subst hc
        by_cases hname : ∃ n, (env n).isSome ∧ n ++ [c] <+: s
        · obtain ⟨n, hn, rest, rfl⟩ := hname
          rw [List.length_append, List.length_append] at hlen
          obtain ⟨v, hv⟩ := Option.isSome_iff_exists.mp hn
          have := var n rest hn (hp.name n v hv) (ih rest.length (by omega) rest rfl)
          simpa using this
        · exact lone s (fun n hn h => hname ⟨n, hn, h⟩) hrest
      · exact char c s hc hrest

theorem textOf_scan (hp : env.Plain mark) (s : List α) : textOf mark (scan mark env s) = s := by
  induction s using scan_induction hp with
  | nil =>
    rw [scan]
    rfl
  | char c s hc ih => rw [scan_char hc, textOf_char, ih]
  | var n s hn hm ih => rw [scan_var hn hm, textOf_var, ih]
  | lone s h ih => rw [scan_mark h, textOf_char, ih]

theorem scanned_scan (hp : env.Plain mark) (s : List α) : Scanned mark env (scan mark env s) := by
  induction s using scan_induction hp with
  | nil =>
    rw [scan]
    trivial
  | char c s hc ih =>
    rw [scan_char hc]
    exact ⟨fun h => absurd h hc, ih⟩
  | var n s hn hm ih =>
    rw [scan_var hn hm]
    exact ⟨hn, ih⟩
  | lone s h ih =>
    rw [scan_mark h]
    exact ⟨fun _ => by rwa [textOf_scan hp], ih⟩

theorem scan_textOf (hp : env.Plain mark) (h : Scanned mark env parts) :
    scan mark env (textOf mark parts) = parts := by
  induction parts with
  | nil => exact scan.eq_1 mark env
  | cons x parts ih =>
    cases x with
    | char c =>
      rw [textOf_char]
      by_cases hc : c = mark
      · subst hc
        rw [scan_mark (h.1 rfl), ih h.2]
      · rw [scan_char hc, ih h.2]
    | var n =>
      obtain ⟨v, hv⟩ := Option.isSome_iff_exists.mp h.1
      rw [textOf_var, scan_var h.1 (hp.name n v hv), ih h.2]

/-! ## the spans of a text -/

omit [DecidableEq α] in
theorem mem_push_iff {c : α} {l : List (Span α)} {ts : List (List α)} {w : List α}
    {y : Option (List α)} :
    ⟨ts, w, y⟩ ∈ l.map (Span.push c) ↔ ∃ w', w = c :: w' ∧ ⟨ts, w', y⟩ ∈ l := by
  rw [List.mem_map]
  constructor
  · rintro ⟨p, hp, he⟩
    rw [Span.push, Span.mk.injEq] at he
    obtain ⟨rfl, rfl, rfl⟩ := he
    exact ⟨p.text, rfl, hp⟩
  · rintro ⟨w', rfl, h⟩
    exact ⟨_, h, rfl⟩

/-- a name stands before the next mark of the text exactly if it is a span through no variable -/
theorem mark_isPrefix_iff {w : List α} (hw : mark ∉ w) :
    w ++ [mark] <+: textOf mark parts ↔ ∃ y, ⟨[], w, y⟩ ∈ spans mark env parts := by
  induction parts generalizing w with
  | nil =>
    refine iff_of_false (fun h => ?_) fun ⟨y, h⟩ => absurd h List.not_mem_nil
    exact absurd (List.prefix_nil.mp h) (by simp)
  | cons x parts ih =>
    cases x with
    | char c =>
      rw [textOf_char, spans]
      by_cases hc : c = mark
      · subst hc
        rw [if_pos rfl]
        cases w with
        | nil => exact iff_of_true (by simp) ⟨none, List.mem_singleton_self _⟩
        | cons d w =>
          refine iff_of_false (not_isPrefix_mark hw) fun ⟨y, h⟩ => ?_
          exact absurd (List.mem_singleton.mp h) (by simp)
      · rw [if_neg hc]
        cases w with
        | nil =>
          refine iff_of_false (fun h => ?_) fun ⟨y, h⟩ => ?_
          · rw [List.nil_append, List.cons_prefix_cons] at h
            exact hc h.1.symm
          · obtain ⟨w', he, -⟩ := mem_push_iff.mp h
            exact absurd he (by simp)
        | cons d w =>
          rw [List.mem_cons, not_or] at hw
          rw [List.cons_append, List.cons_prefix_cons, ih hw.2]
          constructor
          · rintro ⟨rfl, y, h⟩
            exact ⟨y, mem_push_iff.mpr ⟨w, rfl, h⟩⟩
          · rintro ⟨y, h⟩
            obtain ⟨w', he, h'⟩ := mem_push_iff.mp h
            rw [List.cons.injEq] at he
            obtain ⟨rfl, rfl⟩ := he
            exact ⟨rfl, y, h'⟩
    | var n =>
      rw [textOf_var, spans]
      cases w with
      | nil => exact iff_of_true (by simp) ⟨some n, List.mem_cons_self⟩
      | cons d w =>
        refine iff_of_false (not_isPrefix_mark hw) fun ⟨y, h⟩ => ?_
        rcases List.mem_cons.mp h with he | h
        · exact absurd (congrArg Span.text he) (by simp)
        · obtain ⟨p, -, he⟩ := List.mem_map.mp h
          exact absurd (congrArg Span.through he) (by simp [Span.pass])

/-- a span passes variables of the list -/
theorem mem_through {p : Span α} (hp : p ∈ spans mark env parts) {n : List α}
    (hn : n ∈ p.through) : Part.var n ∈ parts := by
  induction parts generalizing p with
  | nil => exact absurd hp List.not_mem_nil
  | cons x parts ih =>
    cases x with
    | char c =>
      rw [spans] at hp
      split at hp
      · rw [List.mem_singleton.mp hp] at hn
        exact absurd hn List.not_mem_nil
      · obtain ⟨q, hq, rfl⟩ := List.mem_map.mp hp
        exact List.mem_cons_of_mem _ (ih hq hn)
    | var m =>
      rcases List.mem_cons.mp hp with rfl | hp
      · exact absurd hn List.not_mem_nil
      · obtain ⟨q, hq, rfl⟩ := List.mem_map.mp hp
        rcases List.mem_cons.mp hn with rfl | hn
        · exact List.mem_cons_self
        · exact List.mem_cons_of_mem _ (ih hq hn)

/-! ## filling in one variable -/

/-- the parts with the variable `k` replaced by the characters of `v` -/
def fill (k v : List α) : List (Part α) → List (Part α)
  | [] => []
  | .char c :: parts => .char c :: fill k v parts
  | .var n :: parts => if n = k then v.map .char ++ fill k v parts else .var n :: fill k v parts

theorem fill_var_self (k v : List α) (parts : List (Part α)) :
    fill k v (.var k :: parts) = v.map .char ++ fill k v parts := if_pos rfl

theorem fill_var_of_ne {n : List α} (h : n ≠ k) (v : List α) (parts : List (Part α)) :
    fill k v (.var n :: parts) = .var n :: fill k v parts := if_neg h

theorem without_of_ne {n : List α} (h : n ≠ k) : env.without k n = env n := if_neg h

theorem without_isSome {n : List α} : (env.without k n).isSome ↔ (env n).isSome ∧ n ≠ k := by
  unfold Env.without
  split
  · next h => simp [h]
  · next h => simp [h]

theorem Env.Plain.without (hp : env.Plain mark) (k : List α) : (env.without k).Plain mark := by
  have key : ∀ n v, env.without k n = some v → env n = some v := by
    intro n v h
    unfold Env.without at h
    split at h
    · exact absurd h (by simp)
    · exact h
  exact ⟨fun n v h => hp.name n v (key n v h), fun n v h => hp.value n v (key n v h)⟩

/-- the span in the text in which `k` has been filled in -/
def Span.strip (k : List α) (p : Span α) : Span α :=
  { p with through := p.through.filter fun n => decide (n ≠ k) }

theorem spans_chars (hv : mark ∉ v) (parts : List (Part α)) :
    spans mark env (v.map .char ++ parts)
      = (spans mark env parts).map fun p => { p with text := v ++ p.text } := by
  induction v with
  | nil => exact (List.map_id _).symm
  | cons c v ih =>
    rw [List.mem_cons, not_or] at hv
    rw [List.map_cons, List.cons_append, spans, if_neg (Ne.symm hv.1), ih hv.2, List.map_map]
    rfl

/-- **What stands between the marks** when `k` has been filled in: the spans that do not end at a
variable `k`. -/
theorem spans_fill (hk : env k = some v) (hv : mark ∉ v) (parts : List (Part α)) :
    spans mark (env.without k) (fill k v parts)
      = ((spans mark env parts).filter fun p => decide (p.next ≠ some k)).map (Span.strip k) := by
  induction parts with
  | nil => rfl
  | cons x parts ih =>
    cases x with
    | char c =>
      rw [fill, spans, spans]
      split
      · rfl
      · rw [ih, List.filter_map, List.map_map, List.map_map]
        rfl
    | var n =>
      rw [spans]
      by_cases hn : n = k
      · subst hn
        rw [fill_var_self, spans_chars hv, ih, List.filter_cons_of_neg (by simp), List.filter_map,
          List.map_map, List.map_map, hk, Option.getD_some]
        refine List.map_congr_left fun p _ => ?_
        simp [Span.strip, Span.pass]
      · rw [fill_var_of_ne hn, spans, ih, List.filter_cons_of_pos (by simpa using hn),
          List.filter_map, List.map_cons, List.map_map, List.map_map, without_of_ne hn]
        congr 1
        refine List.map_congr_left fun p _ => ?_
        simp [Span.strip, Span.pass, hn]

theorem joins_strip {x : Option (List α)} {p : Span α} (hx : x ≠ some k)
    (hnext : p.next ≠ some k) :
    (p.strip k).Joins (env.without k) x ↔ p.Joins env x ∧ p.text ≠ k := by
  have hmem : ∀ n, n ≠ k → (n ∈ (p.strip k).through ↔ n ∈ p.through) := by
    intro n hn
    simp [Span.strip, hn]
  have hlast : ∀ n ∈ x, n ≠ k := fun n hn he => hx (by rw [← he]; exact hn)
  have hafter : ∀ n ∈ p.next, n ≠ k := fun n hn he => hnext (by rw [← he]; exact hn)
  constructor
  · intro h
    obtain ⟨hname, htext⟩ := without_isSome.mp h.name
    refine ⟨⟨hname, (hmem _ htext).not.mp h.text, fun n hn => ?_, fun n hn => ?_⟩, htext⟩
    · exact ⟨(h.last n hn).1, (hmem n (hlast n hn)).not.mp (h.last n hn).2⟩
    · exact (hmem n (hafter n hn)).not.mp (h.next n hn)
  · rintro ⟨h, htext⟩
    refine ⟨without_isSome.mpr ⟨h.name, htext⟩, (hmem _ htext).not.mpr h.text, fun n hn => ?_,
      fun n hn => ?_⟩
    · exact ⟨(h.last n hn).1, (hmem n (hlast n hn)).not.mpr (h.last n hn).2⟩
    · exact (hmem n (hafter n hn)).not.mpr (h.next n hn)

/-- the clashes when `k` has been filled in -/
theorem clash_fill_iff (hk : env k = some v) (hv : mark ∉ v) {x : Option (List α)}
    (hx : x ≠ some k) : Clash mark (env.without k) x (fill k v parts) ↔
      ∃ p ∈ spans mark env parts, p.next ≠ some k ∧ p.Joins env x ∧ p.text ≠ k := by
  unfold Clash
  rw [spans_fill hk hv]
  constructor
  · rintro ⟨q, hq, hj⟩
    obtain ⟨p, hp, rfl⟩ := List.mem_map.mp hq
    rw [List.mem_filter, decide_eq_true_eq] at hp
    exact ⟨p, hp.1, hp.2, (joins_strip hx hp.2).mp hj⟩
  · rintro ⟨p, hp, hnext, hj⟩
    refine ⟨p.strip k, List.mem_map.mpr ⟨p, ?_, rfl⟩, (joins_strip hx hnext).mpr hj⟩
    exact List.mem_filter.mpr ⟨hp, decide_eq_true hnext⟩

theorem not_clash_fill (hk : env k = some v) (hv : mark ∉ v) {x : Option (List α)}
    (hx : x ≠ some k) (h : ¬ Clash mark env x parts) :
    ¬ Clash mark (env.without k) x (fill k v parts) := by
  rw [clash_fill_iff hk hv hx]
  exact fun ⟨p, hp, _, hj, _⟩ => h ⟨p, hp, hj⟩

/-! ## one pass -/

theorem separate_chars (hv : mark ∉ v) :
    Separate mark env (v.map .char ++ parts) ↔ Separate mark env parts := by
  induction v with
  | nil => exact Iff.rfl
  | cons c v ih =>
    rw [List.mem_cons, not_or] at hv
    rw [List.map_cons, List.cons_append, Separate, ih hv.2]
    exact and_iff_right fun h => absurd h.symm hv.1

theorem noName_of_not_clash (hp : env.Plain mark) (h : ¬ Clash mark env none parts) :
    NoName mark env (textOf mark parts) := by
  intro n hn hpre
  obtain ⟨w, hw⟩ := Option.isSome_iff_exists.mp hn
  obtain ⟨y, hy⟩ := (mark_isPrefix_iff (hp.name n w hw)).mp hpre
  exact h ⟨_, hy, hn, List.not_mem_nil, fun _ h => absurd h (by simp),
    fun _ _ => List.not_mem_nil⟩

theorem eq_of_not_clash (hp : env.Plain mark) {l n : List α} (h : ¬ Clash mark env (some l) parts)
    (hn : (env n).isSome) (hpre : n ++ [mark] <+: textOf mark parts) : n = l := by
  by_contra hne
  obtain ⟨w, hw⟩ := Option.isSome_iff_exists.mp hn
  obtain ⟨y, hy⟩ := (mark_isPrefix_iff (hp.name n w hw)).mp hpre
  refine h ⟨_, hy, hn, List.not_mem_nil, fun m hm => ?_, fun _ _ => List.not_mem_nil⟩
  rw [Option.mem_def, Option.some.injEq] at hm
  exact ⟨fun he => hne (he.symm.trans hm.symm), List.not_mem_nil⟩

theorem scanned_fill (hp : env.Plain mark) (hk : env k = some v) (h : Scanned mark env parts)
    (hs : Separate mark env parts) : Scanned mark (env.without k) (fill k v parts) := by
  have hv := hp.value k v hk
  induction parts with
  | nil => trivial
  | cons x parts ih =>
    cases x with
    | char c =>
      refine ⟨fun hc => ?_, ih h.2 hs.2⟩
      exact noName_of_not_clash (hp.without k) (not_clash_fill hk hv (by simp) (hs.1 hc))
    | var n =>
      by_cases hn : n = k
      · rw [hn, fill_var_self]
        exact (scanned_chars hv).mpr (ih h.2 hs.2)
      · rw [fill_var_of_ne hn]
        exact ⟨without_isSome.mpr ⟨h.1, hn⟩, ih h.2 hs.2⟩

theorem separate_fill (hp : env.Plain mark) (hk : env k = some v)
    (hs : Separate mark env parts) : Separate mark (env.without k) (fill k v parts) := by
  have hv := hp.value k v hk
  induction parts with
  | nil => trivial
  | cons x parts ih =>
    cases x with
    | char c => exact ⟨fun hc => not_clash_fill hk hv (by simp) (hs.1 hc), ih hs.2⟩
    | var n =>
      by_cases hn : n = k
      · rw [hn, fill_var_self]
        exact (separate_chars hv).mpr (ih hs.2)
      · rw [fill_var_of_ne hn]
        exact ⟨not_clash_fill hk hv (by simpa using hn) hs.1, ih hs.2⟩

theorem render_fill (hk : env k = some v) (parts : List (Part α)) :
    render (env.without k) (fill k v parts) = render env parts := by
  have hchars : ∀ (e : Env α) (v : List α), render e (v.map .char) = v := by
    intro e v
    induction v with
    | nil => rfl
    | cons c v ih => exact congrArg (List.cons c) ih
  induction parts with
  | nil => rfl
  | cons x parts ih =>
    cases x with
    | char c => exact congrArg (List.cons c) ih
    | var n =>
      by_cases hn : n = k
      · have happend : render (env.without k) (v.map .char ++ fill k v parts)
            = v ++ render (env.without k) (fill k v parts) :=
          List.flatMap_append.trans (congrArg (· ++ _) (hchars _ v))
        have hvar : render env (.var k :: parts) = v ++ render env parts := by
          show (env k).getD [] ++ _ = _
          rw [hk]
          rfl
        rw [hn, fill_var_self, happend, hvar, ih]
      · rw [fill_var_of_ne hn]
        show (env.without k n).getD [] ++ _ = (env n).getD [] ++ _
        rw [without_of_ne hn]
        exact congrArg _ ih

/-- the pass of `k` on the text of another variable -/
theorem replaceAll_var {n : List α} (hn : mark ∉ n) (hne : k ≠ n) (hm : mark ∉ k) (v s : List α) :
    replaceAll (token mark k) v (mark :: (n ++ mark :: s))
      = mark :: (n ++ replaceAll (token mark k) v (mark :: s)) := by
  have hskip : ¬ token mark k <+: mark :: (n ++ mark :: s) := by
    rw [token, List.cons_prefix_cons]
    exact fun h => hne (eq_of_mark_isPrefix hm hn h.2)
  rw [replaceAll_skip (token_ne_nil k) hskip, token, replaceAll_free hn]

theorem replaceAll_mark (h : ¬ k ++ [mark] <+: s) (v : List α) :
    replaceAll (token mark k) v (mark :: s) = mark :: replaceAll (token mark k) v s := by
  have hskip : ¬ token mark k <+: mark :: s := by
    rw [token, List.cons_prefix_cons]
    exact fun hp => h hp.2
  exact replaceAll_skip (token_ne_nil k) hskip v

theorem replaceAll_char {c : α} (hc : c ≠ mark) (k v s : List α) :
    replaceAll (token mark k) v (c :: s) = c :: replaceAll (token mark k) v s := by
  have hfree : mark ∉ [c] := by simpa using Ne.symm hc
  exact replaceAll_free hfree _ v s

/-- **One pass** fills in the variables of its name. -/
theorem pass_fill (hp : env.Plain mark) (hk : env k = some v) (h : Scanned mark env parts)
    (hs : Separate mark env parts) :
    replaceAll (token mark k) v (textOf mark parts) = textOf mark (fill k v parts) := by
  have hkname : (env k).isSome := by rw [hk]; rfl
  have hm := hp.name k v hk
  induction parts with
  | nil => exact replaceAll_nil (token_ne_nil k) v
  | cons x parts ih =>
    have hrest : Scanned mark env parts → Separate mark env parts → _ := ih
    cases x with
    | char c =>
      rw [textOf_char, fill, textOf_char]
      by_cases hc : c = mark
      · rw [hc, replaceAll_mark (h.1 hc k hkname), hrest h.2 hs.2]
      · rw [replaceAll_char hc, hrest h.2 hs.2]
    | var n =>
      obtain ⟨w, hw⟩ := Option.isSome_iff_exists.mp h.1
      by_cases hn : n = k
      · rw [hn, textOf_var, ← token_append, replaceAll_hit (token_ne_nil k), hrest h.2 hs.2,
          fill_var_self, textOf_append, textOf_chars]
      · have hclose : ¬ k ++ [mark] <+: textOf mark parts :=
          fun hpre => hn (eq_of_not_clash hp hs.1 hkname hpre).symm
        rw [textOf_var, replaceAll_var (hp.name n w hw) (Ne.symm hn) hm, replaceAll_mark hclose,
          hrest h.2 hs.2, fill_var_of_ne hn, textOf_var]

/-! ## all passes -/

theorem Env.Lists.tail {e : List α × List α} {es : List (List α × List α)}
    (h : env.Lists (e :: es)) : env e.1 = some e.2 ∧ (env.without e.1).Lists es := by
  have hnodup := h.nodup
  rw [List.map_cons, List.nodup_cons] at hnodup
  refine ⟨(h.mem e.1 e.2).mpr List.mem_cons_self, hnodup.2, fun n v => ?_⟩
  unfold Env.without
  split
  · next hn =>
    refine iff_of_false (by simp) fun hm => ?_
    exact hnodup.1 (hn ▸ List.mem_map_of_mem (f := Prod.fst) hm)
  · next hn =>
    rw [h.mem, List.mem_cons]
    refine or_iff_right fun he => hn ?_
    rw [← he]

/-- **All passes**, in any order, put in the values if there are no clashes. -/
theorem runPasses_of_separate {es : List (List α × List α)} (hl : env.Lists es)
    (hp : env.Plain mark) (h : Scanned mark env parts) (hs : Separate mark env parts) :
    runPasses mark es (textOf mark parts) = render env parts := by
  induction es generalizing env parts with
  | nil =>
    refine (render_eq_textOf (fun n => ?_) h).symm
    cases hn : env n with
    | none => rfl
    | some v => exact absurd ((hl.mem n v).mp hn) List.not_mem_nil
  | cons e es ih =>
    obtain ⟨he, htail⟩ := hl.tail
    have hrest := ih htail (hp.without e.1) (scanned_fill hp he h hs) (separate_fill hp he hs)
    rw [runPasses, List.foldl_cons, pass_fill hp he h hs]
    exact hrest.trans (render_fill he parts)

end Marked
