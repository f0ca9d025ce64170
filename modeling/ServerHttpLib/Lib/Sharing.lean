import ServerHttpLib.Lib.Runs

/-!
# Components over one shared state

Any number of components take steps in any order.  A step of one of them may call a service, which
changes a state that all of them share; at most one call is made by a step, and what the component
becomes depends on the state through the answer only.  `log` records the calls, each with the state
that it met.

* `Component.Acts`      what a step of a component can be;
* `Linear`              the log explains the state, and each component is in the state in which it
                        would be alone, in front of a service that answers from the log;
* `run_linear`          so it is in every state of every run;
* `log_isPrefix`        the log is in the order of time;
* `replay_induction`    an invariant of the calls is one of the state.
-/

namespace Sharing

variable {Srv C : Type → Type} {Q R E N : Type}

/-- a service: its answer to a call, and the state behind it -/
structure Service (Srv : Type → Type) (Q R : Type) where
  apply : ∀ {σ : Type}, Srv σ → Q → σ → R × σ
  /-- the service that answers from a list of states, as `srv` would in the first of them -/
  front : ∀ {σ : Type}, Srv σ → Srv (List σ)
  apply_front : ∀ {σ : Type} (srv : Srv σ) (q : Q) (w : σ) (ws : List σ),
    apply (front srv) q (w :: ws) = ((apply srv q w).1, ws)

/-- a kind of component; `C σ` is a component together with the state -/
structure Component (Srv C : Type → Type) (Q E : Type) where
  step : ∀ {σ : Type}, Srv σ → C σ → E → Option (C σ)
  onto : ∀ {σ τ : Type}, C σ → τ → C τ
  state : ∀ {σ : Type}, C σ → σ
  called : ∀ {σ : Type}, C σ → List Q

namespace Component

/-- a step from `c` to `c'` makes no call, or one -/
inductive Acts (k : Component Srv C Q E) (S : Service Srv Q R) {σ : Type} (srv : Srv σ) (e : E)
    (c c' : C σ) : Prop
  | quiet (hc : k.called c' = k.called c) (hs : k.state c' = k.state c)
      (h : ∀ {τ : Type} (srv' : Srv τ) (w : τ),
        k.step srv' (k.onto c w) e = some (k.onto c' w))
  | call (q : Q) (hc : k.called c' = k.called c ++ [q])
      (hs : k.state c' = (S.apply srv q (k.state c)).2)
      (h : ∀ {τ : Type} (srv' : Srv τ) (w : τ),
        (S.apply srv' q w).1 = (S.apply srv q (k.state c)).1 →
          k.step srv' (k.onto c w) e = some (k.onto c' (S.apply srv' q w).2))

structure Lawful (k : Component Srv C Q E) (S : Service Srv Q R) : Prop where
  onto_onto : ∀ {σ τ υ : Type} (c : C σ) (w : τ) (v : υ), k.onto (k.onto c w) v = k.onto c v
  state_onto : ∀ {σ τ : Type} (c : C σ) (w : τ), k.state (k.onto c w) = w
  called_onto : ∀ {σ τ : Type} (c : C σ) (w : τ), k.called (k.onto c w) = k.called c
  acts : ∀ {σ : Type} {srv : Srv σ} {e : E} {c c' : C σ}, k.step srv c e = some c' →
    k.Acts S srv e c c'

end Component

/-! ## the system -/

/-- a call that a component made, and the state that it met -/
structure Entry (Q σ : Type) where
  part : Nat
  call : Q
  before : σ

structure System (C : Type → Type) (Q σ : Type) where
  state : σ
  /-- the components in the order in which they entered, each without the state -/
  parts : List (C Unit)
  log : List (Entry Q σ)

inductive Event (N E : Type) where
  | enter (n : N)
  | act (i : Nat) (e : E)

namespace System
variable {σ : Type}

/-- the entries that component `i` made -/
def logOf (g : System C Q σ) (i : Nat) : List (Entry Q σ) := g.log.filter (·.part = i)

/-- component `i` has become `c'`, and made the calls behind the first `n` of them -/
def ran (k : Component Srv C Q E) (g : System C Q σ) (i n : Nat) (c' : C σ) : System C Q σ where
  state := k.state c'
  parts := g.parts.set i (k.onto c' ())
  log := g.log ++ ((k.called c').drop n).map fun q => ⟨i, q, g.state⟩

def step (k : Component Srv C Q E) (init : N → C Unit) (srv : Srv σ) (g : System C Q σ) :
    Event N E → Option (System C Q σ)
  | .enter n => some { g with parts := g.parts ++ [init n] }
  | .act i e =>
    match g.parts[i]? with
    | none => none
    | some c => (k.step srv (k.onto c g.state) e).map (g.ran k i (k.called c).length)

def run (k : Component Srv C Q E) (init : N → C Unit) (srv : Srv σ) (w : σ)
    (es : List (Event N E)) : Option (System C Q σ) :=
  Runs.runs (step k init srv) ⟨w, [], []⟩ es

end System

/-- those that entered, in order -/
def entered (es : List (Event N E)) : List N :=
  es.filterMap fun
    | .enter n => some n
    | .act _ _ => none

/-- the events of component `i` -/
def eventsOf (i : Nat) (es : List (Event N E)) : List E :=
  es.filterMap fun
    | .enter _ => none
    | .act j e => if j = i then some e else none

/-- the calls of a log, one after the other -/
def replay {σ : Type} (S : Service Srv Q R) (srv : Srv σ) (w : σ) (log : List (Entry Q σ)) : σ :=
  log.foldl (fun w h => (S.apply srv h.call w).2) w

/-- component `i` is `c`, as it would be alone with the states of the log behind it -/
structure Alone (k : Component Srv C Q E) (S : Service Srv Q R) {σ : Type} (srv : Srv σ)
    (es : List (Event N E)) (g : System C Q σ) (i : Nat) (start c : C Unit) : Prop where
  called : k.called c = (g.logOf i).map (·.call)
  run : ∀ ws, Runs.runs (k.step (S.front srv)) (k.onto start ((g.logOf i).map (·.before) ++ ws))
    (eventsOf i es) = some (k.onto c ws)

/-- what holds between two events -/
structure Linear (k : Component Srv C Q E) (S : Service Srv Q R) (init : N → C Unit) {σ : Type}
    (srv : Srv σ) (w : σ) (es : List (Event N E)) (g : System C Q σ) : Prop where
  before : ∀ l h l', g.log = l ++ h :: l' → h.before = replay S srv w l
  state : g.state = replay S srv w g.log
  parts : ∀ h ∈ g.log, h.part < g.parts.length
  length : g.parts.length = (entered es).length
  alone : ∀ i n, (entered es)[i]? = some n → ∃ c, g.parts[i]? = some c ∧
    Alone k S srv es g i (init n) c
  later : ∀ i, g.parts.length ≤ i → eventsOf i es = []

section
variable {k : Component Srv C Q E} {S : Service Srv Q R} {init : N → C Unit} {σ : Type}
  {srv : Srv σ} {w : σ} {es : List (Event N E)} {g g' : System C Q σ}

theorem entered_snoc (es : List (Event N E)) (e : Event N E) :
    entered (es ++ [e]) = entered es ++ entered [e] := List.filterMap_append

theorem eventsOf_snoc (i : Nat) (es : List (Event N E)) (e : Event N E) :
    eventsOf i (es ++ [e]) = eventsOf i es ++ eventsOf i [e] := List.filterMap_append

theorem eventsOf_act (i j : Nat) (e : E) :
    eventsOf i [(.act j e : Event N E)] = if j = i then [e] else [] := by
  unfold eventsOf
  by_cases h : j = i
  · simp [h]
  · simp [h]

theorem replay_append (S : Service Srv Q R) (srv : Srv σ) (w : σ) (l l' : List (Entry Q σ)) :
    replay S srv w (l ++ l') = replay S srv (replay S srv w l) l' := List.foldl_append ..

theorem Linear.start (init : N → C Unit) (srv : Srv σ) (w : σ) :
    Linear k S init srv w [] ⟨w, [], []⟩ where
  before := fun l h l' hl => absurd hl (by simp)
  state := rfl
  parts := fun h hh => absurd hh List.not_mem_nil
  length := rfl
  alone := fun i n h => absurd h (by simp [entered])
  later := fun _ _ => rfl

theorem Linear.logOf_later (h : Linear k S init srv w es g) {i : Nat} (hi : g.parts.length ≤ i) :
    g.logOf i = [] := by
  refine List.filter_eq_nil_iff.mpr fun e he hs => ?_
  have hlt := h.parts e he
  have hs : e.part = i := of_decide_eq_true hs
  omega

/-- **What each call of the log keeps** holds of the state in front of each entry, and of the last
state; it may depend on the entries before. -/
theorem Linear.replay_induction (h : Linear k S init srv w es g) {P : List (Entry Q σ) → σ → Prop}
    (hstart : P [] w) (hcall : ∀ l x l', g.log = l ++ x :: l' → P l x.before →
      P (l ++ [x]) (S.apply srv x.call x.before).2)
    {l l' : List (Entry Q σ)} (hl : g.log = l ++ l') : P l (replay S srv w l) := by
  induction l using List.reverseRecOn generalizing l' with
  | nil => exact hstart
  | append_singleton l x ih =>
    rw [List.append_assoc, List.singleton_append] at hl
    have hbefore := h.before l x l' hl
    have hlast : replay S srv w (l ++ [x]) = (S.apply srv x.call x.before).2 := by
      rw [replay_append, ← hbefore]
      rfl
    rw [hlast]
    exact hcall l x l' hl (hbefore ▸ ih hl)

/-! ## one event -/

theorem Linear.enter (h : Linear k S init srv w es g) (n : N) (hnew : k.called (init n) = []) :
    Linear k S init srv w (es ++ [.enter n]) { g with parts := g.parts ++ [init n] } where
  before := h.before
  state := h.state
  parts := by
    intro e he
    have hlt := h.parts e he
    rw [List.length_append]
    omega
  length := by
    rw [entered_snoc, List.length_append, List.length_append, h.length]
    rfl
  alone := by
    intro i n' hi
    have hev : eventsOf i (es ++ [.enter n]) = eventsOf i es := by
      rw [eventsOf_snoc]
      exact List.append_nil _
    rw [entered_snoc] at hi
    by_cases hlt : i < (entered es).length
    · -- a component from before
      rw [List.getElem?_append_left hlt] at hi
      obtain ⟨c, hc, ha⟩ := h.alone i n' hi
      refine ⟨c, ?_, ha.called, ?_⟩
      · rw [List.getElem?_append_left (h.length ▸ hlt)]
        exact hc
      · rw [hev]
        exact ha.run
    · -- the new one
      have hle := Nat.le_of_not_lt hlt
      rw [List.getElem?_append_right hle] at hi
      have hi0 : i - (entered es).length = 0 := by
        have : i - (entered es).length < 1 := (List.getElem?_eq_some_iff.mp hi).1
        omega
      rw [hi0] at hi
      obtain rfl : n = n' := Option.some.inj hi
      have hlog := h.logOf_later (h.length ▸ hle)
      refine ⟨init n, ?_, ?_, fun ws => ?_⟩
      · rw [List.getElem?_append_right (h.length ▸ hle), h.length, hi0]
        rfl
      · show _ = (g.logOf i).map _
        rw [hlog, hnew]
        rfl
      · show Runs.runs _ (k.onto (init n) ((g.logOf i).map _ ++ ws)) _ = _
        rw [hev, h.later i (h.length ▸ hle), hlog]
        exact Runs.runs_nil _ _
  later := by
    intro i hi
    rw [eventsOf_snoc]
    have hi : g.parts.length + 1 ≤ i := by simpa using hi
    exact (List.append_nil _).trans (h.later i (by omega))

/-- what a step of component `i` adds to the log -/
structure Adds (k : Component Srv C Q E) (S : Service Srv Q R) (srv : Srv σ) (g : System C Q σ)
    (i : Nat) (e : E) (c : C Unit) (c' : C σ) (new : List (Entry Q σ)) : Prop where
  log : (g.ran k i (k.called c).length c').log = g.log ++ new
  part : ∀ h ∈ new, h.part = i
  called : k.called c' = k.called c ++ new.map (·.call)
  before : ∀ l h l', new = l ++ h :: l' → h.before = replay S srv g.state l
  state : k.state c' = replay S srv g.state new
  run : ∀ ws, k.step (S.front srv) (k.onto c (new.map (·.before) ++ ws)) e = some (k.onto c' ws)

theorem exists_adds (hl : k.Lawful S) {i : Nat} {e : E} {c : C Unit} {c' : C σ}
    (hstep : k.step srv (k.onto c g.state) e = some c') :
    ∃ new, Adds k S srv g i e c c' new := by
  cases hl.acts hstep with
  | quiet hc hs h =>
    rw [hl.called_onto] at hc
    rw [hl.state_onto] at hs
    refine ⟨[], ?_, fun h hh => absurd hh List.not_mem_nil, ?_,
      fun l h l' hl => absurd hl (by simp), hs, fun ws => ?_⟩
    · unfold System.ran
      rw [hc, List.drop_length]
      rfl
    · exact hc.trans (List.append_nil _).symm
    · exact (congrArg (fun c => k.step _ c e) (hl.onto_onto c g.state ws)).symm.trans (h _ ws)
  | call q hc hs h =>
    rw [hl.called_onto] at hc
    rw [hl.state_onto] at hs h
    refine ⟨[⟨i, q, g.state⟩], ?_, ?_, hc, ?_, hs, fun ws => ?_⟩
    · unfold System.ran
      rw [hc, List.drop_left]
      rfl
    · intro h hh
      rw [List.mem_singleton.mp hh]
    · intro l h l' hl
      obtain ⟨rfl, hh⟩ := (List.append_eq_cons_iff.mp hl.symm).resolve_right (by simp)
      obtain rfl : ⟨i, q, g.state⟩ = h := (List.cons.inj hh).1.symm
      rfl
    · have happly := S.apply_front srv q g.state ws
      have hrun := h (S.front srv) (g.state :: ws) (congrArg Prod.fst happly)
      rw [happly, hl.onto_onto] at hrun
      exact hrun

theorem Adds.logOf {i : Nat} {e : E} {c : C Unit} {c' : C σ} {new : List (Entry Q σ)}
    (ha : Adds k S srv g i e c c' new) (j : Nat) :
    (g.ran k i (k.called c).length c').logOf j = g.logOf j ++ if j = i then new else [] := by
  unfold System.logOf
  rw [ha.log, List.filter_append]
  congr 1
  by_cases hj : j = i
  · rw [if_pos hj]
    exact List.filter_eq_self.mpr fun x hx => decide_eq_true (hj ▸ ha.part x hx)
  · rw [if_neg hj]
    exact List.filter_eq_nil_iff.mpr fun x hx hxj =>
      hj ((of_decide_eq_true hxj).symm.trans (ha.part x hx))

/-- each entry met the state that the entries before it leave -/
theorem Linear.before_append (h : Linear k S init srv w es g) {new : List (Entry Q σ)}
    (hnew : ∀ l x l', new = l ++ x :: l' → x.before = replay S srv g.state l) :
    ∀ l x l', g.log ++ new = l ++ x :: l' → x.before = replay S srv w l := by
  intro l x l' hl
  rw [List.append_eq_append_iff] at hl
  rcases hl with ⟨m, rfl, hm⟩ | ⟨m, hm, hx⟩
  · rw [replay_append, ← h.state]
    exact hnew m x l' hm
  · cases m with
    | nil =>
      rw [List.append_nil] at hm
      rw [← hm, ← h.state]
      exact hnew [] x l' hx.symm
    | cons y m =>
      obtain ⟨rfl, rfl⟩ := List.cons.inj hx
      exact h.before l _ m hm

theorem Linear.act (hl : k.Lawful S) (h : Linear k S init srv w es g) {i : Nat} {e : E}
    {c : C Unit} {c' : C σ} (hc : g.parts[i]? = some c)
    (hstep : k.step srv (k.onto c g.state) e = some c') :
    Linear k S init srv w (es ++ [.act i e]) (g.ran k i (k.called c).length c') := by
  have hi : i < g.parts.length := (List.getElem?_eq_some_iff.mp hc).1
  obtain ⟨new, ha⟩ := exists_adds hl hstep
  have hent : entered (es ++ [.act i e]) = entered es := by
    rw [entered_snoc]
    exact List.append_nil _
  have hparts : (g.ran k i (k.called c).length c').parts.length = g.parts.length :=
    List.length_set
  constructor
  · rw [ha.log]
    exact h.before_append ha.before
  · rw [ha.log, replay_append, ← h.state]
    exact ha.state
  · intro x hx
    rw [ha.log] at hx
    rw [hparts]
    rcases List.mem_append.mp hx with hx | hx
    · exact h.parts x hx
    · exact ha.part x hx ▸ hi
  · rw [hent, ← h.length]
    exact hparts
  · intro j n hj
    rw [hent] at hj
    obtain ⟨d, hd, hal⟩ := h.alone j n hj
    by_cases hji : j = i
    · obtain rfl := hji
      obtain rfl : c = d := Option.some.inj (hc.symm.trans hd)
      refine ⟨k.onto c' (), List.getElem?_set_self hi, ?_, fun ws => ?_⟩
      · rw [ha.logOf, if_pos rfl, List.map_append, ← hal.called, hl.called_onto]
        exact ha.called
      · rw [ha.logOf, if_pos rfl, List.map_append, List.append_assoc, eventsOf_snoc,
          eventsOf_act, if_pos rfl, hl.onto_onto]
        exact (Runs.runs_snoc _).mpr ⟨_, hal.run _, ha.run ws⟩
    · refine ⟨d, (List.getElem?_set_ne (Ne.symm hji)).trans hd, ?_, fun ws => ?_⟩
      · rw [ha.logOf, if_neg hji, List.append_nil]
        exact hal.called
      · rw [ha.logOf, if_neg hji, List.append_nil, eventsOf_snoc, eventsOf_act,
          if_neg (Ne.symm hji), List.append_nil]
        exact hal.run ws
  · intro j hj
    rw [hparts] at hj
    rw [eventsOf_snoc, eventsOf_act, if_neg (by omega), List.append_nil]
    exact h.later j hj

theorem step_cases {e : Event N E} (hstep : g.step k init srv e = some g') :
    (∃ n, e = .enter n ∧ g' = { g with parts := g.parts ++ [init n] }) ∨
    ∃ i e' c c', e = .act i e' ∧ g.parts[i]? = some c ∧
      k.step srv (k.onto c g.state) e' = some c' ∧ g' = g.ran k i (k.called c).length c' := by
  cases e with
  | enter n => exact .inl ⟨n, rfl, (Option.some.inj hstep).symm⟩
  | act i e =>
    unfold System.step at hstep
    cases hc : g.parts[i]? with
    | none =>
      simp only [hc] at hstep
      exact absurd hstep (by simp)
    | some c =>
      simp only [hc, Option.map_eq_some_iff] at hstep
      obtain ⟨c', hs, rfl⟩ := hstep
      exact .inr ⟨i, e, c, c', rfl, hc, hs, rfl⟩

theorem Linear.step (hl : k.Lawful S) (hinit : ∀ n, k.called (init n) = [])
    (h : Linear k S init srv w es g) {e : Event N E} (hstep : g.step k init srv e = some g') :
    Linear k S init srv w (es ++ [e]) g' := by
  rcases step_cases hstep with ⟨n, rfl, rfl⟩ | ⟨i, e', c, c', rfl, hc, hs, rfl⟩
  · exact h.enter n (hinit n)
  · exact h.act hl hc hs

/-! ## the results -/

/-- **Every state of every run is linear.** -/
theorem run_linear (hl : k.Lawful S) (hinit : ∀ n, k.called (init n) = [])
    (hrun : System.run k init srv w es = some g) : Linear k S init srv w es g :=
  Runs.runs_induction (System.step k init srv) ⟨w, [], []⟩
    (fun es g => Linear k S init srv w es g) (Linear.start init srv w)
    (fun _ _ _ _ _ h hs => h.step hl hinit hs) hrun

/-- what was called before comes first in the log -/
theorem log_isPrefix (hrun : Runs.runs (System.step k init srv) g es = some g') :
    g.log <+: g'.log := by
  refine Runs.runs_induction (System.step k init srv) g (fun _ g' => g.log <+: g'.log)
    (List.prefix_refl _) ?_ hrun
  intro _ g₁ e g₂ _ ih hstep
  rcases step_cases hstep with ⟨n, rfl, rfl⟩ | ⟨i, e', c, c', rfl, -, -, rfl⟩
  · exact ih
  · exact ih.trans (List.prefix_append _ _)

end
end Sharing
