import ServerHttpLib.Sql.Injection

/-!
# What the literals of a query denote

MySQL reads a literal by its default rules: a doubled delimiter stands for one, the other quote for
itself, and a backslash gives the character behind it a meaning of its own.  `Reader` follows the
automaton of `Sql.Lexer` and collects what each literal denotes; it reads a template as well, where
a placeholder in a literal stays in its text.

* `reads_value`          what an escaped value adds to the literal it is written into;
* `literals_rendered`    the literals of the result, each from one of the template;
* `literalsSurvive_iff`  they denote what they should, unless a value with an apostrophe stands
                         in a double-quoted literal: `to_sql_value` doubles it there too.
-/

namespace ServerHttpLib
open LexState

/-! ## reading literals -/

/-- what a character stands for behind a backslash -/
def escapeMeaning (c : UInt8) : Bytes :=
  if c = ch '0' then [0]
  else if c = ch 'b' then [8]
  else if c = ch 't' then [9]
  else if c = ch 'n' then [10]
  else if c = ch 'r' then [13]
  else if c = ch 'Z' then [26]
  else if c = ch '%' || c = ch '_' then [backslash, c]
  else [c]

structure Literal where
  quote : Quote
  /-- the characters that the literal denotes, and its placeholders -/
  body : List Item
  deriving DecidableEq, Repr

structure Reader where
  state : LexState
  /-- of the literal that is open, or closed unless its quote is doubled -/
  body : List Item
  literals : List Literal
  deriving DecidableEq, Repr

namespace Reader

def start : Reader := ⟨out, [], []⟩

/-- the literal that ends at the state `closed` -/
def finished (r : Reader) : List Literal :=
  match r.state with
  | closed q => r.literals ++ [⟨q, r.body⟩]
  | _ => r.literals

def step (r : Reader) : Item → Reader
  | .text c =>
    match r.state with
    | out => ⟨openStep c, [], r.literals⟩
    | inStr q =>
      if c = q.byte then ⟨closed q, r.body, r.literals⟩
      else if c = backslash then ⟨esc q, r.body, r.literals⟩
      else ⟨inStr q, r.body ++ [.text c], r.literals⟩
    | esc q => ⟨inStr q, r.body ++ (escapeMeaning c).map .text, r.literals⟩
    | closed q =>
      if c = q.byte then ⟨inStr q, r.body ++ [.text c], r.literals⟩
      else ⟨openStep c, [], r.finished⟩
  | .hole i =>
    match r.state with
    | out => r
    | inStr q => ⟨inStr q, r.body ++ [.hole i], r.literals⟩
    | esc q => ⟨inStr q, r.body ++ [.hole i], r.literals⟩
    | closed _ => ⟨out, [], r.finished⟩

def read (r : Reader) (items : List Item) : Reader := items.foldl step r

theorem read_nil (r : Reader) : r.read [] = r := rfl
theorem read_cons (r : Reader) (x : Item) (items : List Item) :
    r.read (x :: items) = (r.step x).read items := rfl
theorem read_append (r : Reader) (a b : List Item) : r.read (a ++ b) = (r.read a).read b :=
  List.foldl_append

end Reader

/-- the literals of a query or a template, in order; one that is not ended is none -/
def literalsOf (items : List Item) : List Literal := (Reader.start.read items).finished

def asItems (s : Bytes) : List Item := s.map .text

theorem asItems_append (s t : Bytes) : asItems (s ++ t) = asItems s ++ asItems t :=
  List.map_append

/-- the text of a literal with each placeholder replaced by its value -/
def filled (values : List Bytes) (body : List Item) : Bytes := body.flatMap fun
  | .text c => [c]
  | .hole i => values.getD i []

/-- **Quoted values survive**: each literal that contains placeholders denotes its text in the
template with the unescaped values -/
def LiteralsSurvive {n : Nat} (t : Template n) (values : List Bytes) : Prop :=
  List.Forall₂
    (fun lit lit' => lit.quote = lit'.quote ∧
      ((∃ i, Item.hole i ∈ lit.body) → lit'.body = asItems (filled values lit.body)))
    (literalsOf t.items) (literalsOf (asItems (buildQuery (templateText t.items) values)))

/-- no value with an apostrophe stands in a double-quoted literal -/
def NoApostropheInDouble {n : Nat} (t : Template n) (values : List Bytes) : Prop :=
  ∀ lit ∈ literalsOf t.items, lit.quote = .double →
    ∀ i, Item.hole i ∈ lit.body → squote ∉ values.getD i []

/-! ## the reader and the lexer -/

namespace Reader

theorem step_text_state (r : Reader) (c : UInt8) : (r.step (.text c)).state = r.state.step c := by
  unfold step LexState.step
  cases r.state with
  | out => rfl
  | inStr q => dsimp only; split_ifs <;> rfl
  | esc q => rfl
  | closed q => dsimp only; split_ifs <;> rfl

theorem step_hole_state (r : Reader) (i : Nat) :
    (r.step (.hole i)).state = r.state.run (placeholder i) := by
  have hp := plain_placeholder i
  unfold step
  cases hr : r.state with
  | out => rw [run_plain_out hp]; exact hr
  | inStr q => rw [run_plain_inStr q hp]
  | esc q =>
    show inStr q = (inStr q).run (decimal i)
    rw [run_plain_inStr q fun b hb => hp b (List.mem_cons_of_mem _ hb)]
  | closed q => rw [run_plain rfl hp (List.cons_ne_nil _ _)]

theorem read_state (pre : List Item) : (start.read pre).state = stateBehind pre := by
  induction pre using List.reverseRecOn with
  | nil => rfl
  | append_singleton pre x ih =>
    rw [read_append, read_cons, read_nil, stateBehind_snoc, ← ih]
    cases x with
    | text c => exact step_text_state _ c
    | hole i => exact step_hole_state _ i

theorem read_plain_out {s : Bytes} (hs : Plain s) (l : List Literal) :
    (⟨out, [], l⟩ : Reader).read (asItems s) = ⟨out, [], l⟩ := by
  induction s with
  | nil => rfl
  | cons b s ih =>
    have hb : (⟨out, [], l⟩ : Reader).step (.text b) = ⟨openStep b, [], l⟩ := rfl
    show ((⟨out, [], l⟩ : Reader).step (.text b)).read (asItems s) = _
    rw [hb, openStep_plain (hs b List.mem_cons_self)]
    exact ih fun x hx => hs x (List.mem_cons_of_mem _ hx)

theorem read_plain {r : Reader} (hr : r.state.inside = false) {s : Bytes} (hs : Plain s)
    (hne : s ≠ []) : r.read (asItems s) = ⟨out, [], r.finished⟩ := by
  obtain ⟨b, s, rfl⟩ := List.exists_cons_of_ne_nil hne
  have hb := hs b List.mem_cons_self
  have hfirst : r.step (.text b) = ⟨out, [], r.finished⟩ := by
    unfold step finished
    cases hst : r.state with
    | out => dsimp only; rw [openStep_plain hb]
    | inStr q => rw [hst] at hr; exact absurd hr (by simp [inside])
    | esc q => rw [hst] at hr; exact absurd hr (by simp [inside])
    | closed q => dsimp only; rw [if_neg (ne_byte hb q), openStep_plain hb]
  show (r.step (.text b)).read (asItems s) = _
  rw [hfirst]
  exact read_plain_out (fun x hx => hs x (List.mem_cons_of_mem _ hx)) _

end Reader

/-! ## what a value becomes -/

/-- what one character of a value denotes once it is escaped and read in a literal -/
def arrivesByte (q : Quote) (c : UInt8) : Bytes :=
  if q = .double ∧ c = squote then [squote, squote] else [c]

/-- what a value denotes once it is escaped and read in a literal -/
def arrives (q : Quote) (value : Bytes) : Bytes := value.flatMap (arrivesByte q)

theorem escapeMeaning_special : escapeMeaning backslash = [backslash] ∧
    escapeMeaning dquote = [dquote] := by decide

theorem reads_byte (q : Quote) (c : UInt8) (body : List Item) (l : List Literal) :
    (⟨inStr q, body, l⟩ : Reader).read (asItems (escapeByte c))
      = ⟨inStr q, body ++ asItems (arrivesByte q c), l⟩ := by
  obtain ⟨hsd, hsb, hdb⟩ := squote_ne
  obtain ⟨hmb, hmd⟩ := escapeMeaning_special
  unfold escapeByte arrivesByte
  by_cases h1 : c = squote
  · -- the doubled apostrophe is one only where it is the delimiter
    subst h1
    cases q <;> simp [asItems, Reader.read, Reader.step, Quote.byte, hsd, hsb]
  · have h1' : ¬ (q = .double ∧ c = squote) := fun h => h1 h.2
    rw [if_neg h1, if_neg h1']
    by_cases h2 : c = backslash ∨ c = dquote
    · have hm : escapeMeaning c = [c] := by rcases h2 with rfl | rfl <;> assumption
      cases q <;> simp [asItems, Reader.read, Reader.step, Quote.byte, h2, hm, hsb.symm, hdb.symm]
    · rw [not_or] at h2
      cases q <;> simp [asItems, Reader.read, Reader.step, Quote.byte, h1, h2.1, h2.2]

/-- **An escaped value in a literal**: it stays in it, and an apostrophe arrives doubled in
double quotes -/
theorem reads_value (q : Quote) (value : Bytes) (body : List Item) (l : List Literal) :
    (⟨inStr q, body, l⟩ : Reader).read (asItems (toSqlValue value))
      = ⟨inStr q, body ++ asItems (arrives q value), l⟩ := by
  induction value generalizing body with
  | nil => simp [toSqlValue, arrives, asItems, Reader.read]
  | cons c value ih =>
    have e1 : toSqlValue (c :: value) = escapeByte c ++ toSqlValue value := rfl
    have e2 : arrives q (c :: value) = arrivesByte q c ++ arrives q value := rfl
    rw [e1, e2, asItems_append, Reader.read_append, reads_byte, ih, asItems_append,
      List.append_assoc]

theorem arrives_eq {q : Quote} {value : Bytes} (h : q = .double → squote ∉ value) :
    arrives q value = value := by
  induction value with
  | nil => rfl
  | cons c value ih =>
    have hc : ¬ (q = .double ∧ c = squote) := by
      rintro ⟨hq, rfl⟩
      exact h hq List.mem_cons_self
    have hvalue : q = .double → squote ∉ value := fun hq hs => h hq (List.mem_cons_of_mem _ hs)
    show arrivesByte q c ++ arrives q value = _
    rw [ih hvalue, arrivesByte, if_neg hc]
    rfl

theorem length_arrives (q : Quote) (value : Bytes) : value.length ≤ (arrives q value).length := by
  induction value with
  | nil => exact le_refl 0
  | cons c value ih =>
    show (value.length + 1) ≤ (arrivesByte q c ++ arrives q value).length
    have hc : 1 ≤ (arrivesByte q c).length := by unfold arrivesByte; split <;> simp
    rw [List.length_append]
    omega

theorem length_arrives_double {value : Bytes} (h : squote ∈ value) :
    value.length < (arrives .double value).length := by
  obtain ⟨a, b, rfl⟩ := List.append_of_mem h
  have ha := length_arrives .double a
  have hb := length_arrives .double b
  have e : arrives .double (a ++ squote :: b)
      = arrives .double a ++ ([squote, squote] ++ arrives .double b) := by
    unfold arrives
    rw [List.flatMap_append, List.flatMap_cons]
    rfl
  rw [e]
  simp only [List.length_append, List.length_cons, List.length_nil]
  omega

/-! ## the literals of the result -/

section
variable (values : List Bytes)

/-- what a literal of the template denotes in the result -/
def arrived (q : Quote) (body : List Item) : Bytes := body.flatMap fun
  | .text c => [c]
  | .hole i => arrives q (values.getD i [])

def Literal.arrived (lit : Literal) : Literal :=
  ⟨lit.quote, asItems (ServerHttpLib.arrived values lit.quote lit.body)⟩

theorem arrived_append (q : Quote) (a b : List Item) :
    arrived values q (a ++ b) = arrived values q a ++ arrived values q b :=
  List.flatMap_append

theorem arrived_asItems (q : Quote) (s : Bytes) : arrived values q (asItems s) = s := by
  induction s with
  | nil => rfl
  | cons c s ih =>
    show [c] ++ arrived values q (asItems s) = _
    rw [ih]
    rfl

theorem arrived_hole (q : Quote) (i : Nat) :
    arrived values q [.hole i] = arrives q (values.getD i []) :=
  List.append_nil _

/-- the reader of the result beside that of the template -/
structure Reader.Follows (r r' : Reader) : Prop where
  state : r'.state = r.state
  literals : r'.literals = r.literals.map (Literal.arrived values)
  /-- outside of literals the body is none -/
  body : match r.state with
    | out => r.body = [] ∧ r'.body = []
    | inStr q | esc q | closed q => r'.body = asItems (arrived values q r.body)

variable {values}

theorem Reader.Follows.finished {r r' : Reader} (h : r.Follows values r') :
    r'.finished = r.finished.map (Literal.arrived values) := by
  have hb := h.body
  unfold Reader.finished
  rw [h.state]
  cases hr : r.state with
  | closed q =>
    rw [hr] at hb
    rw [List.map_append, h.literals, List.map_singleton, hb]
    rfl
  | out => exact h.literals
  | inStr q => exact h.literals
  | esc q => exact h.literals

theorem Reader.Follows.opened {r r' : Reader} (h : r.Follows values r') (c : UInt8) :
    Reader.Follows values ⟨openStep c, [], r.finished⟩ ⟨openStep c, [], r'.finished⟩ := by
  refine ⟨rfl, h.finished, ?_⟩
  unfold openStep
  split_ifs
  · exact rfl
  · exact rfl
  · exact ⟨rfl, rfl⟩

/-- in a literal both bodies grow by the same text -/
theorem Reader.Follows.grown {r r' : Reader} (h : r.Follows values r') {q : Quote}
    (hb : r'.body = asItems (arrived values q r.body)) (s : Bytes) :
    Reader.Follows values ⟨inStr q, r.body ++ asItems s, r.literals⟩
      ⟨inStr q, r'.body ++ asItems s, r'.literals⟩ := by
  refine ⟨rfl, h.literals, ?_⟩
  show r'.body ++ asItems s = asItems (arrived values q (r.body ++ asItems s))
  rw [arrived_append, arrived_asItems, asItems_append, hb]

theorem Reader.Follows.text {r r' : Reader} (h : r.Follows values r') (c : UInt8) :
    (r.step (.text c)).Follows values (r'.step (.text c)) := by
  have hb := h.body
  unfold Reader.step
  rw [h.state]
  cases hr : r.state with
  | out =>
    have hf : r.finished = r.literals := by unfold Reader.finished; rw [hr]
    have hf' : r'.finished = r'.literals := by unfold Reader.finished; rw [h.state, hr]
    have ho := h.opened c
    rwa [hf, hf'] at ho
  | inStr q =>
    rw [hr] at hb
    dsimp only
    split_ifs
    · exact ⟨rfl, h.literals, hb⟩
    · exact ⟨rfl, h.literals, hb⟩
    · exact h.grown hb [c]
  | esc q =>
    rw [hr] at hb
    exact h.grown hb (escapeMeaning c)
  | closed q =>
    rw [hr] at hb
    dsimp only
    split_ifs
    · exact h.grown hb [c]
    · exact h.opened c

theorem Reader.Follows.hole {n : Nat} {t : Template n} (ha : Admissible t values)
    {pre post : List Item} {i : Nat} (ht : t.items = pre ++ .hole i :: post) {r r' : Reader}
    (hr : r.state = stateBehind pre) (h : r.Follows values r') :
    (r.step (.hole i)).Follows values
      (r'.read (asItems (substituted values i (stateBehind pre).inside))) := by
  have hb := h.body
  rcases state_cases t ht with ⟨q, hq⟩ | hout
  · have hr' : r' = ⟨inStr q, r'.body, r'.literals⟩ := by rw [← hq, ← hr, ← h.state]
    have e : r.step (.hole i) = ⟨inStr q, r.body ++ [.hole i], r.literals⟩ := by
      unfold Reader.step
      rw [hr, hq]
    rw [hr, hq] at hb
    rw [hq, e, hr']
    show Reader.Follows values _ (Reader.read _ (asItems (toSqlValue (values.getD i []))))
    rw [reads_value]
    refine ⟨rfl, h.literals, ?_⟩
    show r'.body ++ _ = asItems (arrived values q (r.body ++ [.hole i]))
    rw [arrived_append, arrived_hole, asItems_append, hb]
  · have hi : i < n := t.fits (.hole i) (by rw [ht]; simp)
    have hmem : false ∈ contexts i .out t.items := by
      rw [ht, ← hout]
      exact mem_contexts
    obtain ⟨hp, hne⟩ := ha.raw i hi hmem
    have e : r.step (.hole i) = ⟨out, [], r.finished⟩ := by
      unfold Reader.step Reader.finished
      cases hst : r.state with
      | out =>
        rw [hst] at hb
        cases r
        exact congrArg₂ (Reader.mk · · _) hst hb.1
      | inStr q => rw [← hr, hst] at hout; exact absurd hout (by simp [inside])
      | esc q => rw [← hr, hst] at hout; exact absurd hout (by simp [inside])
      | closed q => rfl
    have hin : r'.state.inside = false := by rw [h.state, hr, hout]
    have hsub : substituted values i (stateBehind pre).inside = values.getD i [] := by
      rw [hout]
      rfl
    rw [e, hsub, Reader.read_plain hin hp hne]
    exact ⟨rfl, h.finished, rfl, rfl⟩

theorem follows_rendered {n : Nat} {t : Template n} (ha : Admissible t values)
    {pre post : List Item} (h : t.items = pre ++ post) :
    (Reader.start.read pre).Follows values
      (Reader.start.read (asItems (render values 0 .out pre))) := by
  induction pre using List.reverseRecOn generalizing post with
  | nil => exact ⟨rfl, rfl, rfl, rfl⟩
  | append_singleton pre x ih =>
    have h' : t.items = pre ++ x :: post := by rw [h, List.append_assoc]; rfl
    have hpre := ih h'
    rw [Reader.read_append, Reader.read_cons, Reader.read_nil, render_snoc, asItems_append,
      Reader.read_append]
    show Reader.Follows values _ (Reader.read _ (asItems (render values 0 (stateBehind pre) [x])))
    cases x with
    | text c => exact hpre.text c
    | hole i =>
      rw [render, render, List.append_nil, if_pos (Nat.zero_le i)]
      exact hpre.hole ha h' (Reader.read_state pre)

/-- **The literals of the result** are those of the template, with the values as they arrive. -/
theorem literals_rendered {n : Nat} {t : Template n} (ha : Admissible t values) :
    literalsOf (asItems (render values 0 .out t.items))
      = (literalsOf t.items).map (Literal.arrived values) :=
  (follows_rendered ha (List.append_nil t.items).symm).finished

theorem arrived_eq_filled {q : Quote} {body : List Item}
    (h : ∀ i, Item.hole i ∈ body → arrives q (values.getD i []) = values.getD i []) :
    arrived values q body = filled values body := by
  induction body with
  | nil => rfl
  | cons x body ih =>
    have hrest := ih fun i hi => h i (List.mem_cons_of_mem _ hi)
    cases x with
    | text c =>
      show [c] ++ arrived values q body = [c] ++ filled values body
      rw [hrest]
    | hole i =>
      show arrives q (values.getD i []) ++ arrived values q body
        = values.getD i [] ++ filled values body
      rw [h i List.mem_cons_self, hrest]

theorem length_filled (values : List Bytes) (q : Quote) (body : List Item) :
    (filled values body).length ≤ (arrived values q body).length := by
  induction body with
  | nil => exact le_refl 0
  | cons x body ih =>
    cases x with
    | text c => exact Nat.succ_le_succ ih
    | hole i =>
      show (values.getD i [] ++ filled values body).length
        ≤ (arrives q (values.getD i []) ++ arrived values q body).length
      have hi := length_arrives q (values.getD i [])
      rw [List.length_append, List.length_append]
      omega

/-- one apostrophe too many makes the literal longer than it should be -/
theorem length_filled_double {i : Nat} {body : List Item} (hi : Item.hole i ∈ body)
    (hs : squote ∈ values.getD i []) :
    (filled values body).length < (arrived values .double body).length := by
  obtain ⟨a, b, rfl⟩ := List.append_of_mem hi
  have h1 := length_filled values .double a
  have h2 := length_filled values .double b
  have h3 := length_arrives_double hs
  have e1 : filled values (a ++ .hole i :: b)
      = filled values a ++ (values.getD i [] ++ filled values b) := List.flatMap_append
  have e2 : arrived values .double (a ++ .hole i :: b)
      = arrived values .double a ++ (arrives .double (values.getD i [])
        ++ arrived values .double b) := List.flatMap_append
  rw [e1, e2]
  simp only [List.length_append]
  omega

/-- one literal survives exactly if its values arrive as they are -/
theorem literal_survives_iff (lit : Literal) :
    ((∃ i, Item.hole i ∈ lit.body) →
        (lit.arrived values).body = asItems (filled values lit.body)) ↔
      (lit.quote = .double → ∀ i, Item.hole i ∈ lit.body → squote ∉ values.getD i []) := by
  constructor
  · intro h hq i hi hs
    have hlen := length_filled_double hi hs
    have hbody := congrArg List.length (h ⟨i, hi⟩)
    rw [Literal.arrived, hq, asItems, asItems, List.length_map, List.length_map] at hbody
    omega
  · intro h _
    have hfix : ∀ i, Item.hole i ∈ lit.body →
        arrives lit.quote (values.getD i []) = values.getD i [] :=
      fun i hi => arrives_eq fun hq => h hq i hi
    rw [Literal.arrived, arrived_eq_filled hfix]

end

/-- **Quoted values survive exactly where no value with an apostrophe stands in double quotes**,
as long as no placeholder is captured. -/
theorem literalsSurvive_iff {n : Nat} (t : Template n) (values : List Bytes)
    (ha : Admissible t values) (hc : NoCapture t values) :
    LiteralsSurvive t values ↔ NoApostropheInDouble t values := by
  unfold LiteralsSurvive NoApostropheInDouble
  rw [buildQuery_rendered ha hc, literals_rendered ha, List.forall₂_map_right_iff,
    List.forall₂_same]
  refine forall₂_congr fun lit _ => ?_
  rw [← literal_survives_iff lit]
  exact and_iff_right rfl

instance : DecidableRel Item.Separated := fun x y =>
  match x, y with
  | .hole _, .hole _ => inferInstanceAs (Decidable False)
  | .text _, .hole _ => inferInstanceAs (Decidable True)
  | .hole _, .text _ => inferInstanceAs (Decidable True)
  | .text _, .text _ => inferInstanceAs (Decidable True)

/-- the placeholder `$0` in single quotes and `$1` in double quotes -/
def bothTemplate : Template 2 where
  items := [.text squote, .hole 0, .text squote, .text (ch ','), .text dquote, .hole 1,
    .text dquote]
  fits := by decide
  chain := by decide

theorem literalsSurvive_iff_both :
    LiteralsSurvive bothTemplate [str "it's", str "it is"] ↔
      NoApostropheInDouble bothTemplate [str "it's", str "it is"] :=
  literalsSurvive_iff bothTemplate _ ⟨rfl, by decide, by decide +kernel⟩
    (noCapture_of_separated _ _ (by decide))

/-- in double quotes the value `it's` becomes a literal that denotes `it''s` -/
theorem apostrophe_doubled :
    Admissible bothTemplate [str "it's", str "it's"] ∧
    buildQuery (templateText bothTemplate.items) [str "it's", str "it's"]
      = [squote] ++ str "it''s" ++ [squote, ch ',', dquote] ++ str "it''s" ++ [dquote] ∧
    ¬ LiteralsSurvive bothTemplate [str "it's", str "it's"] := by
  refine ⟨⟨rfl, by decide, by decide +kernel⟩, by decide +kernel, fun h => ?_⟩
  have ht : literalsOf bothTemplate.items
      = [⟨.single, [.hole 0]⟩, ⟨.double, [.hole 1]⟩] := by decide +kernel
  have hr : literalsOf (asItems
      (buildQuery (templateText bothTemplate.items) [str "it's", str "it's"]))
      = [⟨.single, asItems (str "it's")⟩, ⟨.double, asItems (str "it''s")⟩] := by decide +kernel
  rw [LiteralsSurvive, ht, hr, List.forall₂_cons, List.forall₂_cons] at h
  have hbody := h.2.1.2 ⟨1, List.mem_singleton_self _⟩
  exact absurd hbody (by decide +kernel)

end ServerHttpLib
