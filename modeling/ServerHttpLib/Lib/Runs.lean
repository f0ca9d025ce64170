import Mathlib.Data.List.Induction

/-!
# Runs of a partial step function

`step s e = none` says that the event `e` cannot happen in the state `s`.  `runs step s es` is the
state behind the events `es`, if each of them could happen; `runs_induction` carries an invariant,
which may speak about the events so far, along a run.  `Along` is a condition on every step of a
run, and `runs_along` carries an invariant that needs it.
-/

namespace Runs

variable {S E : Type*} (step : S → E → Option S)

/-- the state behind a list of events -/
def runs : S → List E → Option S
  | s, [] => some s
  | s, e :: es => (step s e).bind fun s' => runs s' es

theorem runs_nil (s : S) : runs step s [] = some s := rfl

theorem runs_cons (s : S) (e : E) (es : List E) :
    runs step s (e :: es) = (step s e).bind fun s' => runs step s' es := rfl

theorem runs_append (s : S) (es es' : List E) :
    runs step s (es ++ es') = (runs step s es).bind fun s' => runs step s' es' := by
  induction es generalizing s with
  | nil => rfl
  | cons e es ih =>
    rw [List.cons_append, runs_cons, runs_cons]
    cases step s e with
    | none => rfl
    | some s' => exact ih s'

variable {step} in
theorem runs_trans {s s₁ s₂ : S} {es es' : List E} (h : runs step s es = some s₁)
    (h' : runs step s₁ es' = some s₂) : runs step s (es ++ es') = some s₂ := by
  rw [runs_append, h, Option.bind_some]
  exact h'

theorem runs_snoc {s s' : S} {es : List E} {e : E} :
    runs step s (es ++ [e]) = some s' ↔ ∃ s₁, runs step s es = some s₁ ∧ step s₁ e = some s' := by
  rw [runs_append, Option.bind_eq_some_iff]
  constructor
  · rintro ⟨s₁, h1, h2⟩
    rw [runs_cons, Option.bind_eq_some_iff] at h2
    obtain ⟨s₂, h3, h4⟩ := h2
    rw [runs_nil, Option.some.injEq] at h4
    exact ⟨s₁, h1, by rw [h3, h4]⟩
  · rintro ⟨s₁, h1, h2⟩
    exact ⟨s₁, h1, by rw [runs_cons, h2, Option.bind_some, runs_nil]⟩

/-- what holds at the start and is kept by every step of a run holds behind the run -/
theorem runs_induction (s₀ : S) (P : List E → S → Prop) (h0 : P [] s₀)
    (hstep : ∀ es s e s', runs step s₀ es = some s → P es s → step s e = some s' →
      P (es ++ [e]) s') {es : List E} {s : S} (h : runs step s₀ es = some s) : P es s := by
  induction es using List.reverseRecOn generalizing s with
  | nil =>
    rw [runs_nil, Option.some.injEq] at h
    exact h ▸ h0
  | append_singleton es e ih =>
    obtain ⟨s₁, h1, h2⟩ := (runs_snoc step).mp h
    exact hstep es s₁ e s h1 (ih h1) h2

/-! ## conditions on the steps of a run -/

/-- every step of the run meets the condition, which sees the state before it and the event -/
def Along (ok : S → E → Prop) : S → List E → Prop
  | _, [] => True
  | s, e :: es => ok s e ∧ ∀ s', step s e = some s' → Along ok s' es

instance decidableAlong (ok : S → E → Prop) [∀ s e, Decidable (ok s e)] :
    ∀ s es, Decidable (Along step ok s es)
  | _, [] => isTrue trivial
  | s, e :: es =>
    match h : step s e with
    | none => decidable_of_iff (ok s e)
        ⟨fun ho => ⟨ho, fun s' hs => absurd (h.symm.trans hs) (by simp)⟩, And.left⟩
    | some s₁ =>
      have := decidableAlong ok s₁ es
      decidable_of_iff (ok s e ∧ Along step ok s₁ es) <| and_congr_right fun _ =>
        ⟨fun ha s' hs => Option.some.inj (h.symm.trans hs) ▸ ha, fun ha => ha s₁ h⟩

variable {step}

theorem along_append {ok : S → E → Prop} {s : S} {es es' : List E} :
    Along step ok s (es ++ es') ↔
      Along step ok s es ∧ ∀ s', runs step s es = some s' → Along step ok s' es' := by
  induction es generalizing s with
  | nil =>
    constructor
    · intro h
      refine ⟨trivial, fun s' hs => ?_⟩
      obtain rfl := Option.some.inj hs
      exact h
    · exact fun h => h.2 s rfl
  | cons e es ih =>
    rw [List.cons_append, Along, Along, and_assoc]
    refine and_congr_right fun _ => ?_
    constructor
    · intro h
      refine ⟨fun s₁ h1 => (ih.mp (h s₁ h1)).1, fun s' hs => ?_⟩
      rw [runs_cons, Option.bind_eq_some_iff] at hs
      obtain ⟨s₁, h1, h2⟩ := hs
      exact (ih.mp (h s₁ h1)).2 s' h2
    · intro h s₁ h1
      refine ih.mpr ⟨h.1 s₁ h1, fun s' hs => h.2 s' ?_⟩
      rw [runs_cons, h1, Option.bind_some, hs]

theorem Along.and {ok ok' : S → E → Prop} {s : S} {es : List E} (h : Along step ok s es)
    (h' : Along step ok' s es) : Along step (fun s e => ok s e ∧ ok' s e) s es := by
  induction es generalizing s with
  | nil => trivial
  | cons e es ih => exact ⟨⟨h.1, h'.1⟩, fun s₁ h1 => ih (h.2 s₁ h1) (h'.2 s₁ h1)⟩

/-- what holds at the start and is kept by every step that meets the condition -/
theorem runs_along {ok : S → E → Prop} {P : S → Prop}
    (hstep : ∀ s e s', P s → ok s e → step s e = some s' → P s') {s s' : S} {es : List E}
    (h0 : P s) (hok : Along step ok s es) (h : runs step s es = some s') : P s' := by
  induction es generalizing s with
  | nil =>
    rw [runs_nil, Option.some.injEq] at h
    exact h ▸ h0
  | cons e es ih =>
    rw [runs_cons, Option.bind_eq_some_iff] at h
    obtain ⟨s₁, h1, h2⟩ := h
    exact ih (hstep s e s₁ h0 hok.1 h1) (hok.2 s₁ h1) h2

end Runs
