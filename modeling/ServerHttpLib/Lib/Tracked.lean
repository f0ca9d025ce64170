import ServerHttpLib.Lib.Program

/-!
# Programs that keep track of something

A contract for a program that is one of several, or whose replies depend on a state.  A value goes
along with the program (what it owns, what it knows of the state); it tells which actions are
allowed and changes with every reply.

* `Tracks`        the contract, from a value on;
* `Tracks.bind`   the rule for composed programs, with `Tracks.catching` and `Tracks.ends` for the
                  two ways to catch;
* `Preserves`     a property of the value that a program keeps, also when it throws.
-/

namespace Programs

variable {A : Type} {Reply : A → Type} {ε ε' α β L : Type}

/-- which actions are allowed with a value, and how the value changes with the replies -/
structure Tracking (Reply : A → Type) (L : Type) where
  allowed : L → A → Prop
  moves : L → (a : A) → Reply a → L → Prop

namespace Program

/-- from the value `l` on, the program performs allowed actions, and ends with `Q` -/
def Tracks (π : Tracking Reply L) (Q : Except ε α → L → Prop) : L → Program Reply ε α → Prop
  | l, done r => Q r l
  | l, step a k => π.allowed l a ∧ ∀ r l', π.moves l a r l' → (k r).Tracks π Q l'

variable {π : Tracking Reply L} {Q : Except ε α → L → Prop}

theorem Tracks.mono {p : Program Reply ε α} {Q' : Except ε α → L → Prop} {l : L}
    (h : p.Tracks π Q l) (hQ : ∀ r l', Q r l' → Q' r l') : p.Tracks π Q' l := by
  induction p generalizing l with
  | done r => exact hQ r l h
  | step a k ih => exact ⟨h.1, fun r l' hl => ih r (h.2 r l' hl)⟩

theorem Tracks.bind {p : Program Reply ε α} {f : α → Program Reply ε β}
    {Q' : Except ε β → L → Prop} {l : L} (h : p.Tracks π Q l)
    (hok : ∀ v l', Q (.ok v) l' → (f v).Tracks π Q' l')
    (herror : ∀ e l', Q (.error e) l' → Q' (.error e) l') : (p >>= f).Tracks π Q' l := by
  rw [bind_eq]
  induction p generalizing l with
  | done r =>
    cases r with
    | ok v => exact hok v l h
    | error e => exact herror e l h
  | step a k ih => exact ⟨h.1, fun r l' hl => ih r (h.2 r l' hl)⟩

theorem Tracks.catching {p : Program Reply ε α} {f : ε → Program Reply ε α}
    {Q' : Except ε α → L → Prop} {l : L} (h : p.Tracks π Q l)
    (hok : ∀ v l', Q (.ok v) l' → Q' (.ok v) l')
    (herror : ∀ e l', Q (.error e) l' → (f e).Tracks π Q' l') :
    (p.catching f).Tracks π Q' l := by
  induction p generalizing l with
  | done r =>
    cases r with
    | ok v => exact hok v l h
    | error e => exact herror e l h
  | step a k ih => exact ⟨h.1, fun r l' hl => ih r (h.2 r l' hl)⟩

theorem Tracks.ends {p : Program Reply ε α} {Q' : Except ε' (Except ε α) → L → Prop} {l : L}
    (h : p.Tracks π Q l) (hQ : ∀ r l', Q r l' → Q' (.ok r) l') : p.ends.Tracks π Q' l := by
  induction p generalizing l with
  | done r => exact hQ r l h
  | step a k ih => exact ⟨h.1, fun r l' hl => ih r (h.2 r l' hl)⟩

/-- values with `P` stay such values -/
def Preserves (π : Tracking Reply L) (P : L → Prop) (p : Program Reply ε α) : Prop :=
  ∀ l, P l → p.Tracks π (fun _ l' => P l') l

section
variable {P : L → Prop}

theorem preserves_done (r : Except ε α) : (done r : Program Reply ε α).Preserves π P :=
  fun _ h => h

theorem Preserves.bind {p : Program Reply ε α} {f : α → Program Reply ε β} (h : p.Preserves π P)
    (hf : ∀ v, (f v).Preserves π P) : (p >>= f).Preserves π P := fun l hl =>
  Tracks.bind (h l hl) (fun v l' hl' => hf v l' hl') fun _ _ hl' => hl'

theorem Preserves.catching {p : Program Reply ε α} {f : ε → Program Reply ε α}
    (h : p.Preserves π P) (hf : ∀ e, (f e).Preserves π P) : (p.catching f).Preserves π P :=
  fun l hl => Tracks.catching (h l hl) (fun _ _ hl' => hl') fun e l' hl' => hf e l' hl'

theorem Preserves.ends {p : Program Reply ε α} (h : p.Preserves π P) :
    (p.ends : Program Reply ε' (Except ε α)).Preserves π P := fun l hl =>
  (h l hl).ends fun _ _ hl' => hl'

end

end Program

end Programs
