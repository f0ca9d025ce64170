import Mathlib.Logic.Basic

/-!
# Programs over a set of actions

A program performs actions one after the other, goes on as each of them is answered, and ends with
a value or an exception.  A machine answers the actions and changes its state.

* `run_bind`, `run_catching`, `run_ends`   runs of composed programs;
* `Program.Sat`                            a contract: as long as the replies are as the program
                                           relies on, its actions and its end are as it promises;
* `Program.Sat.run`                        on a machine whose invariant bears the replies out, a
                                           run keeps the invariant and ends as promised;
* `returns_iff_chain_ends`                 a function that calls itself at most once, with a bound
                                           on the depth, returns if and only if the chain of its
                                           arguments ends.
-/

namespace Programs

variable {A : Type} {Reply : A → Type} {ε ε' α β S : Type}

inductive Program (Reply : A → Type) (ε α : Type) : Type
  | done (r : Except ε α)
  | step (a : A) (k : Reply a → Program Reply ε α)

namespace Program

def bind : Program Reply ε α → (α → Program Reply ε β) → Program Reply ε β
  | done (.ok v), f => f v
  | done (.error e), _ => done (.error e)
  | step a k, f => step a fun r => (k r).bind f

/-- what `h` makes of an exception -/
def catching : Program Reply ε α → (ε → Program Reply ε α) → Program Reply ε α
  | done (.ok v), _ => done (.ok v)
  | done (.error e), h => h e
  | step a k, h => step a fun r => (k r).catching h

/-- the program together with the way it ends, so that something can be done before it does -/
def ends : Program Reply ε α → Program Reply ε' (Except ε α)
  | done r => done (.ok r)
  | step a k => step a fun r => (k r).ends

instance : Monad (Program Reply ε) where
  pure v := done (.ok v)
  bind := bind

theorem bind_eq (p : Program Reply ε α) (f : α → Program Reply ε β) : p >>= f = p.bind f := rfl

theorem bind_assoc (p : Program Reply ε α) {γ : Type} (f : α → Program Reply ε β)
    (g : β → Program Reply ε γ) : p >>= f >>= g = p >>= fun v => f v >>= g := by
  simp only [bind_eq]
  induction p with
  | done r => cases r <;> rfl
  | step a k ih => exact congrArg (step a) (funext ih)

/-! ## runs -/

def run (perform : (a : A) → S → Reply a × S) : Program Reply ε α → S → Except ε α × S
  | done r, s => (r, s)
  | step a k, s => run perform (k (perform a s).1) (perform a s).2

variable (perform : (a : A) → S → Reply a × S)

theorem run_bind (p : Program Reply ε α) (f : α → Program Reply ε β) (s : S) :
    (p >>= f).run perform s = match p.run perform s with
      | (.ok v, s') => (f v).run perform s'
      | (.error e, s') => (.error e, s') := by
  rw [bind_eq]
  induction p generalizing s with
  | done r => cases r <;> rfl
  | step a k ih => exact ih _ _

theorem run_catching (p : Program Reply ε α) (h : ε → Program Reply ε α) (s : S) :
    (p.catching h).run perform s = match p.run perform s with
      | (.ok v, s') => (.ok v, s')
      | (.error e, s') => (h e).run perform s' := by
  induction p generalizing s with
  | done r => cases r <;> rfl
  | step a k ih => exact ih _ _

theorem run_ends (p : Program Reply ε α) (s : S) :
    (p.ends : Program Reply ε' _).run perform s
      = (.ok (p.run perform s).1, (p.run perform s).2) := by
  induction p generalizing s with
  | done r => rfl
  | step a k ih => exact ih _ _

/-! ## contracts -/

variable {rely rely' : (a : A) → Reply a → Prop} {guar guar' : A → Prop}
  {Q Q' : Except ε α → Prop}

def Sat (rely : (a : A) → Reply a → Prop) (guar : A → Prop) (Q : Except ε α → Prop) :
    Program Reply ε α → Prop
  | done r => Q r
  | step a k => guar a ∧ ∀ r, rely a r → (k r).Sat rely guar Q

theorem Sat.mono {p : Program Reply ε α} (h : p.Sat rely guar Q)
    (hrely : ∀ a r, rely' a r → rely a r) (hguar : ∀ a, guar a → guar' a)
    (hQ : ∀ r, Q r → Q' r) : p.Sat rely' guar' Q' := by
  induction p with
  | done r => exact hQ r h
  | step a k ih => exact ⟨hguar a h.1, fun r hr => ih r (h.2 r (hrely a r hr))⟩

theorem Sat.bind {p : Program Reply ε α} {f : α → Program Reply ε β} {Q' : Except ε β → Prop}
    (h : p.Sat rely guar Q) (hok : ∀ v, Q (.ok v) → (f v).Sat rely guar Q')
    (herror : ∀ e, Q (.error e) → Q' (.error e)) : (p >>= f).Sat rely guar Q' := by
  rw [bind_eq]
  induction p with
  | done r =>
    cases r with
    | ok v => exact hok v h
    | error e => exact herror e h
  | step a k ih => exact ⟨h.1, fun r hr => ih r (h.2 r hr)⟩

theorem Sat.catching {p : Program Reply ε α} {f : ε → Program Reply ε α}
    (h : p.Sat rely guar Q) (hok : ∀ v, Q (.ok v) → Q' (.ok v))
    (herror : ∀ e, Q (.error e) → (f e).Sat rely guar Q') :
    (p.catching f).Sat rely guar Q' := by
  induction p with
  | done r =>
    cases r with
    | ok v => exact hok v h
    | error e => exact herror e h
  | step a k ih => exact ⟨h.1, fun r hr => ih r (h.2 r hr)⟩

theorem Sat.ends {p : Program Reply ε α} {Q' : Except ε' (Except ε α) → Prop}
    (h : p.Sat rely guar Q) (hQ : ∀ r, Q r → Q' (.ok r)) : p.ends.Sat rely guar Q' := by
  induction p with
  | done r => exact hQ r h
  | step a k ih => exact ⟨h.1, fun r hr => ih r (h.2 r hr)⟩

/-- a run on a machine whose invariant bears out what the program relies on -/
theorem Sat.run {perform : (a : A) → S → Reply a × S} {I : S → Prop} {p : Program Reply ε α}
    (h : p.Sat rely guar Q)
    (hI : ∀ a s, guar a → I s → rely a (perform a s).1 ∧ I (perform a s).2) {s : S} (hs : I s) :
    Q (p.run perform s).1 ∧ I (p.run perform s).2 := by
  induction p generalizing s with
  | done r => exact ⟨h, hs⟩
  | step a k ih =>
    obtain ⟨hr, hs'⟩ := hI a s h.1 hs
    exact ih _ (h.2 _ hr) hs'

/-- the end of a run, if the program relies on nothing -/
theorem Sat.post {p : Program Reply ε α} (h : p.Sat (fun _ _ => True) guar Q)
    (perform : (a : A) → S → Reply a × S) (s : S) : Q (p.run perform s).1 :=
  (h.run (I := fun _ => True) (fun _ _ _ _ => ⟨trivial, trivial⟩) trivial).1

end Program

/-! ## recursion -/

/-- the arguments of the calls, from the outermost one to the innermost one -/
def chain {X : Type} (next : X → Option X) (x : X) : Nat → Option X
  | 0 => some x
  | n + 1 => (chain next x n).bind next

theorem chain_succ {X : Type} (next : X → Option X) (x : X) (n : Nat) :
    chain next x (n + 1) = (next x).bind fun y => chain next y n := by
  induction n with
  | zero => cases h : next x <;> simp [chain, h]
  | succ n ih =>
    rw [chain, ih, Option.bind_assoc]
    rfl

/-- `f n x` calls itself with `next x`, if that is something, and `n` bounds the depth -/
theorem returns_iff_chain_ends {X : Type} {next : X → Option X} (returns : Nat → X → Prop)
    (hzero : ∀ x, ¬ returns 0 x) (hlast : ∀ n x, next x = none → returns (n + 1) x)
    (hcall : ∀ n x y, next x = some y → (returns (n + 1) x ↔ returns n y)) (x : X) :
    (∃ n, returns n x) ↔ ∃ n, chain next x n = none := by
  constructor
  · rintro ⟨n, hn⟩
    induction n generalizing x with
    | zero => exact absurd hn (hzero x)
    | succ n ih =>
      cases hx : next x with
      | none => exact ⟨1, by rw [chain_succ, hx]; rfl⟩
      | some y =>
        obtain ⟨m, hm⟩ := ih y ((hcall n x y hx).mp hn)
        exact ⟨m + 1, by rw [chain_succ, hx]; exact hm⟩
  · rintro ⟨n, hn⟩
    induction n generalizing x with
    | zero => exact absurd hn (by simp [chain])
    | succ n ih =>
      rw [chain_succ] at hn
      cases hx : next x with
      | none => exact ⟨1, hlast 0 x hx⟩
      | some y =>
        rw [hx] at hn
        obtain ⟨m, hm⟩ := ih y hn
        exact ⟨m + 1, (hcall m x y hx).mpr hm⟩

end Programs
