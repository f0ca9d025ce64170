import ServerHttpLib.Lib.Runs

/-!
# Runs that come to an end

A system whose steps all lower a measure, and that can always make another step unless it is done:
no run is longer than the measure of its first state, every run can be continued to a state in
which the system is done, and a run that cannot be continued has reached one.

* `Draining.length_le`    the bound on the length of a run;
* `Draining.completes`    every state leads to one in which the system is done;
* `Draining.maximal`      where no step is possible the system is done.

A run without end in which the steps that help come again and again, and that never goes back: such
a run reaches its goal.

* `Ranking.reaches`       the goal comes, whatever happens between the steps that help.
-/

namespace Runs

variable {S E : Type*}

/-- steps keep `Inv` and lower `μ`, and there is one unless the system is `done` -/
structure Draining (step : S → E → Option S) (Inv done : S → Prop) (μ : S → ℕ) : Prop where
  keeps : ∀ {s s' e}, Inv s → step s e = some s' → Inv s'
  drops : ∀ {s s' e}, Inv s → step s e = some s' → μ s' < μ s
  moves : ∀ {s}, Inv s → ¬ done s → ∃ e s', step s e = some s'

namespace Draining
variable {step : S → E → Option S} {Inv done : S → Prop} {μ : S → ℕ}

theorem runs_inv (h : Draining step Inv done μ) {s s' : S} {es : List E} (hs : Inv s)
    (hr : runs step s es = some s') : Inv s' :=
  runs_induction step s (fun _ s => Inv s) hs (fun _ _ _ _ _ hi hst => h.keeps hi hst) hr

theorem length_le (h : Draining step Inv done μ) {s s' : S} {es : List E} (hs : Inv s)
    (hr : runs step s es = some s') : es.length + μ s' ≤ μ s := by
  induction es generalizing s with
  | nil =>
    rw [runs_nil, Option.some.injEq] at hr
    exact Nat.le_of_eq (by rw [hr, List.length_nil, Nat.zero_add])
  | cons e es ih =>
    rw [runs_cons, Option.bind_eq_some_iff] at hr
    obtain ⟨s₁, h1, h2⟩ := hr
    have hle := ih (h.keeps hs h1) h2
    have hlt := h.drops hs h1
    rw [List.length_cons]
    omega

theorem maximal (h : Draining step Inv done μ) {s s' : S} {es : List E} (hs : Inv s)
    (hr : runs step s es = some s') (hmax : ∀ e, step s' e = none) : done s' := by
  by_contra hd
  obtain ⟨e, s₁, h1⟩ := h.moves (h.runs_inv hs hr) hd
  rw [hmax e] at h1
  exact absurd h1 (by simp)

/-- by induction on the measure -/
theorem completes (h : Draining step Inv done μ) {s : S} (hs : Inv s) :
    ∃ es s', runs step s es = some s' ∧ done s' := by
  induction hn : μ s using Nat.strongRecOn generalizing s with
  | ind n ih =>
    by_cases hd : done s
    · exact ⟨[], s, rfl, hd⟩
    · obtain ⟨e, s₁, h1⟩ := h.moves hs hd
      have hlt := h.drops hs h1
      obtain ⟨es, s', h2, hd'⟩ := ih (μ s₁) (by omega) (h.keeps hs h1) rfl
      exact ⟨e :: es, s', by rw [runs_cons, h1, Option.bind_some, h2], hd'⟩

end Draining

/-! ## runs without end -/

/-- the states and the events of a run that goes on for ever -/
def Endless (step : S → E → Option S) (st : ℕ → S) (ev : ℕ → E) : Prop :=
  ∀ n, step (st n) (ev n) = some (st (n + 1))

/-- before the goal, a step that helps lowers the rank, and no other one raises it -/
structure Ranking {W : Type*} (step : S → E → Option S) (Inv goal : S → Prop) (helps : S → E → Prop)
    (lt : W → W → Prop) (rank : S → W) : Prop where
  keeps : ∀ {s s' e}, Inv s → step s e = some s' → Inv s'
  moves : ∀ {s s' e}, Inv s → ¬ goal s → step s e = some s' →
    goal s' ∨ lt (rank s') (rank s) ∨ rank s' = rank s ∧ ¬ helps s e

namespace Ranking
variable {W : Type*} {step : S → E → Option S} {Inv goal : S → Prop} {helps : S → E → Prop}
  {lt : W → W → Prop} {rank : S → W} {st : ℕ → S} {ev : ℕ → E}

theorem inv (h : Ranking step Inv goal helps lt rank) (hrun : Endless step st ev)
    (h0 : Inv (st 0)) (n : ℕ) : Inv (st n) := by
  induction n with
  | zero => exact h0
  | succ n ih => exact h.keeps ih (hrun n)

/-- a step that helps, at the latest, brings the goal or a lower rank -/
theorem descends (h : Ranking step Inv goal helps lt rank) (hrun : Endless step st ev)
    (h0 : Inv (st 0)) {n d : ℕ} (hhelps : helps (st (n + d)) (ev (n + d))) :
    ∃ m, n ≤ m ∧ (goal (st m) ∨ lt (rank (st m)) (rank (st n))) := by
  induction d using Nat.strongRecOn generalizing n with
  | ind d ih =>
    by_cases hg : goal (st n)
    · exact ⟨n, Nat.le_refl n, .inl hg⟩
    rcases h.moves (h.inv hrun h0 n) hg (hrun n) with hgoal | hlt | ⟨heq, hno⟩
    · exact ⟨n + 1, Nat.le_succ n, .inl hgoal⟩
    · exact ⟨n + 1, Nat.le_succ n, .inr hlt⟩
    · -- the step that helps is a later one
      cases d with
      | zero => exact absurd hhelps hno
      | succ d =>
        rw [show n + (d + 1) = n + 1 + d by omega] at hhelps
        obtain ⟨m, hm, hd⟩ := ih d (Nat.lt_succ_self d) hhelps
        exact ⟨m, by omega, heq ▸ hd⟩

theorem reaches (h : Ranking step Inv goal helps lt rank) (wf : WellFounded lt)
    (hrun : Endless step st ev) (h0 : Inv (st 0))
    (hfair : ∀ n, ∃ m, n ≤ m ∧ (goal (st m) ∨ helps (st m) (ev m))) (n : ℕ) :
    ∃ m, n ≤ m ∧ goal (st m) := by
  induction hw : rank (st n) using wf.induction generalizing n with
  | _ w ih =>
    obtain ⟨m, hm, hgoal | hhelps⟩ := hfair n
    · exact ⟨m, hm, hgoal⟩
    obtain ⟨d, rfl⟩ := Nat.exists_eq_add_of_le hm
    obtain ⟨m, hm, hgoal | hlt⟩ := h.descends hrun h0 hhelps
    · exact ⟨m, hm, hgoal⟩
    · obtain ⟨m', hm', hgoal⟩ := ih _ (hw ▸ hlt) m rfl
      exact ⟨m', Nat.le_trans hm hm', hgoal⟩

end Ranking
end Runs
