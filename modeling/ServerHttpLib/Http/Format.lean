import ServerHttpLib.Http.Replace
import ServerHttpLib.Lib.AssocMap
import ServerHttpLib.Lib.MarkedOrders

/-!
# `format` and `render_template`

`format` replaces `$name$` in one pass over the text for each variable, in the order in which the
hash table yields them.  Two tokens may share a `$`, and a value may make up a name between two of
them; then the order decides which token is replaced.

* `substitute`           the replacement from left to right;
* `format_orders`        without clashes every order is that replacement; if no value is empty, a
                         clash always shows.
-/

namespace ServerHttpLib
open Cutting Marked

/-- `format`, for an order in which the map yields its entries -/
def format (o : AssocMap.Order Bytes Bytes) (templateStr : Bytes)
    (values : AssocMap Bytes Bytes) : Bytes :=
  (o.list values).foldl
    (fun result e => replaceText result (ch '$' :: (e.1 ++ [ch '$'])) e.2) templateStr

structure Renderer where
  vars : AssocMap Bytes Bytes := .empty

def Renderer.renderTemplate (r : Renderer) (o : AssocMap.Order Bytes Bytes) (tmplt : Bytes) :
    Bytes := format o tmplt r.vars

/-- the replacement of `$name$` from left to right: what is replaced is not read again -/
def substitute (values : AssocMap Bytes Bytes) (templateStr : Bytes) : Bytes :=
  render values.find? (scan (ch '$') values.find? templateStr)

/-- the outcome is that replacement, for every order of the variables -/
structure OrderFree (values : AssocMap Bytes Bytes) (templateStr : Bytes) : Prop where
  format : ∀ o, format o templateStr values = substitute values templateStr
  renderTemplate : ∀ (r : Renderer) o, r.vars = values →
    r.renderTemplate o templateStr = substitute values templateStr

/-- no variable that can be read across the tokens of the template -/
def NoClash (values : AssocMap Bytes Bytes) (templateStr : Bytes) : Prop :=
  Separate (ch '$') values.find? (scan (ch '$') values.find? templateStr)

instance (values : AssocMap Bytes Bytes) (templateStr : Bytes) :
    Decidable (NoClash values templateStr) :=
  inferInstanceAs (Decidable (Separate (ch '$') values.find? _))

theorem format_eq_runPasses (o : AssocMap.Order Bytes Bytes) (templateStr : Bytes)
    (values : AssocMap Bytes Bytes) :
    format o templateStr values = runPasses (ch '$') (o.list values) templateStr := by
  unfold format runPasses
  congr 1
  funext result e
  exact replaceText_eq_join (token_ne_nil e.1) result e.2

section
variable {values : AssocMap Bytes Bytes}

theorem find?_lists {l : List (Bytes × Bytes)} (h : l.Perm values.entries) :
    Env.Lists values.find? l := by
  have hentries : Env.Lists values.find? values.entries :=
    ⟨values.nodup, fun _ _ => AssocMap.find?_eq_some_iff⟩
  exact hentries.perm h

theorem find?_plain (hp : ∀ e ∈ values.entries, ch '$' ∉ e.1 ∧ ch '$' ∉ e.2) :
    Env.Plain (ch '$') values.find? :=
  ⟨fun _ _ h => (hp _ (AssocMap.find?_eq_some_iff.mp h)).1,
    fun _ _ h => (hp _ (AssocMap.find?_eq_some_iff.mp h)).2⟩

theorem orderFree_iff {templateStr : Bytes} : OrderFree values templateStr ↔
    ∀ o, format o templateStr values = substitute values templateStr := by
  constructor
  · exact OrderFree.format
  · intro h
    refine ⟨h, fun r o hr => ?_⟩
    rw [Renderer.renderTemplate, hr]
    exact h o

end

/-- **The order of the variables** does not matter if the template has no clash; and if it does not
matter and no value is empty, there is no clash. -/
theorem format_orders (values : AssocMap Bytes Bytes) (templateStr : Bytes)
    (hp : ∀ e ∈ values.entries, ch '$' ∉ e.1 ∧ ch '$' ∉ e.2) :
    (NoClash values templateStr → OrderFree values templateStr) ∧
      ((∀ e ∈ values.entries, e.2 ≠ []) → OrderFree values templateStr →
        NoClash values templateStr) := by
  have hplain := find?_plain hp
  constructor
  · intro h
    refine orderFree_iff.mpr fun o => ?_
    have hrun := runPasses_of_separate (find?_lists (o.perm values)) hplain
      (scanned_scan hplain templateStr) h
    rw [format_eq_runPasses]
    rwa [textOf_scan hplain] at hrun
  · intro hne h
    refine separate_of_agree (find?_lists (List.Perm.refl _)) hplain
      (fun n v hn => hne _ (AssocMap.find?_eq_some_iff.mp hn))
      (x := substitute values templateStr) fun es hes => ?_
    obtain ⟨o, ho⟩ := AssocMap.exists_order hes
    rw [← ho, ← format_eq_runPasses]
    exact h.format o

/-- the variables `a` and `b` -/
def someVariables : AssocMap Bytes Bytes :=
  (AssocMap.empty.insert (str "a") (str "1")).insert (str "b") (str "2")

theorem format_orders_list :
    NoClash someVariables (str "$a$, $b$ costs 5$") ∧
      OrderFree someVariables (str "$a$, $b$ costs 5$") := by
  have h : NoClash someVariables (str "$a$, $b$ costs 5$") := by decide +kernel
  exact ⟨h, (format_orders someVariables _ (by decide +kernel)).1 h⟩

/-- the order in which the last entry comes first -/
def reversedOrder : AssocMap.Order Bytes Bytes :=
  ⟨fun m => m.entries.reverse, fun _ => List.reverse_perm _⟩

/-- two tokens share a `$`, and each order replaces another one -/
theorem shared_dollar :
    (∀ e ∈ someVariables.entries, ch '$' ∉ e.1 ∧ ch '$' ∉ e.2) ∧
      format .inserted (str "$a$b$") someVariables = str "1b$" ∧
      format reversedOrder (str "$a$b$") someVariables = str "$a2" ∧
      ¬ OrderFree someVariables (str "$a$b$") := by
  have h1 : format .inserted (str "$a$b$") someVariables = str "1b$" := by decide +kernel
  have h2 : format reversedOrder (str "$a$b$") someVariables = str "$a2" := by decide +kernel
  refine ⟨by decide +kernel, h1, h2, fun h => ?_⟩
  have heq := (h.format .inserted).trans (h.format reversedOrder).symm
  rw [h1, h2] at heq
  exact absurd heq (by decide)

end ServerHttpLib
