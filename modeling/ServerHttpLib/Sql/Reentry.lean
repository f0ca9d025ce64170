import ServerHttpLib.Sql.Retry

/-!
# When `query` comes back

`query` makes two attempts, but between them `reconnect` calls `set_schema`, which calls `query`
again, with two attempts of its own.  So `query` comes back if and only if somewhere down this
chain the first attempt does not fail with a code that is retried, or there is no schema.

* `reentry`               the call of `query` that `set_schema` makes between two attempts;
* `returns_attempts`      a call comes back if and only if that call does;
* `query_stable`          the bound on the depth does not matter for a call that comes back;
* `bounded_iff_settles`   `query` and `query_get` come back if and only if the chain ends;
* `settles_of_heldBehind` it ends if the driver reports no code that is retried any more;
* `Overloaded.diverges`   it does not end if every statement fails so and there is a schema.
-/

namespace ServerHttpLib.MysqlWrapper
open Programs

variable {α β : Type} {env : Environment}

/-- a call that ends within the bound on its depth -/
def Returns (env : Environment) (p : Method α) (w : World) : Prop :=
  (exec env p w).1 ≠ .error .outOfFuel

/-- `reconnect` up to the call of `query`: the statement of `set_schema`, if there is a schema -/
def reopen : Method (Option Bytes) := do
  reconnectLocked
  let m ← members
  if m.schema = [] then return none
  else do
    let name ← SchemaRef.member.read
    return some (createSchema name)

/-- the call of `query` between two attempts: its statement and the world it starts in -/
def reentry (env : Environment) (tryOnce : Method α) (w : World) : Option (Bytes × World) :=
  let first := exec env tryOnce w
  if retried first.1 then
    match exec env reopen first.2 with
    | (.ok (some q), w') => some (q, w')
    | _ => none
  else none

/-- from one call that `set_schema` makes to the next one -/
def nextReentry (env : Environment) (x : Bytes × World) : Option (Bytes × World) :=
  reentry env (tryQuery .setSchema x.1) x.2

/-- in the chain of these calls, the first attempt of one does not fail with a code that is retried,
or its `reconnect` finds no schema -/
def Settles (env : Environment) (tryOnce : Method α) (w : World) : Prop :=
  ∀ x, reentry env tryOnce w = some x → ∃ n, chain (nextReentry env) x n = none

/-- a call that comes back and runs its statement at most twice -/
def Bounded (env : Environment) (m : MysqlWrapper) (p : Nat → Method α) : Prop :=
  (∃ fuel, Returns env (p fuel) (start m)) ∧
    ∀ fuel, (ownCalls (exec env (p fuel) (start m)).2.trace).length ≤ 2

/-! ## methods that come back -/

theorem thrownBy_ne {r : Except Int α} : thrownBy r ≠ some .outOfFuel := by
  cases r <;> simp [thrownBy]

theorem throws_ne (call : DriverCall) (r : call.Reply) : call.throws r ≠ some .outOfFuel := by
  cases call with
  | connectionsCount => cases r <;> simp [DriverCall.throws]
  | delete _ => simp [DriverCall.throws]
  | _ => exact thrownBy_ne

theorem Tame.returns {p : Method α} (h : Tame AnyReply p) (w : World) :
    Returns env p w := by
  intro he
  have hr := Program.Sat.post h (perform env) w
  have he : (p.run (perform env) w).1 = .error .outOfFuel := he
  rw [he] at hr
  obtain ⟨call, r, -, -, ht⟩ := hr
  exact throws_ne call r ht

theorem returns_bind {p : Method α} {f : α → Method β} (hf : ∀ v w, Returns env (f v) w)
    (w : World) : Returns env (p >>= f) w ↔ Returns env p w := by
  unfold Returns
  rcases h : exec env p w with ⟨e | v, w'⟩
  · rw [exec_bind_error h]
    simp
  · rw [exec_bind_ok h]
    exact ⟨fun _ => by simp, fun _ => hf v w'⟩

theorem returns_catchSql {p : Method α} {f : Int → Method α}
    (hf : ∀ code w, Returns env (f code) w) (w : World) :
    Returns env (catchSql p f) w ↔ Returns env p w := by
  unfold Returns
  rcases h : exec env p w with ⟨e | v, w'⟩
  · cases e with
    | sql code =>
      rw [exec_catchSql h]
      exact ⟨fun _ => by simp, fun _ => hf code w'⟩
    | invalidArgument => rw [exec_catchSql_of_ne h (by simp)]
    | outOfFuel => rw [exec_catchSql_of_ne h (by simp)]
  · rw [exec_catchSql_of_ne h (by simp)]

theorem returns_pure (v : α) (w : World) : Returns env (pure v) w := by
  intro h
  have h : (Except.ok v : Except Thrown α) = .error .outOfFuel := h
  exact absurd h (by simp)

/-! ## the call between two attempts -/

/-- `set_schema` from its call of `query` on -/
def schemaQuery (query : Bytes → Method Bool) (q : Bytes) : Method Unit :=
  catchSql
    (do
      let _ ← query q
      SchemaRef.member.assign
      let m ← members
      setSchemaLoop .member m.connections)
    fun _ => return ()

theorem reconnect_eq (query : Bytes → Method Bool) :
    reconnect query = reopen >>= fun text => match text with
      | none => return ()
      | some q => schemaQuery query q := by
  unfold reopen reconnect
  rw [Program.bind_assoc]
  congr 1
  funext _
  rw [Program.bind_assoc]
  congr 1
  funext m
  split
  · rfl
  · rfl

theorem tame_reopen : Tame AnyReply reopen := by
  refine tame_reconnectLocked.bind fun _ => tame_members.bind fun m => ?_
  split
  · exact tame_pure none
  · exact (tame_members.bind fun _ => tame_pure _).bind fun name => tame_pure _

theorem tame_setSchemaLoop (pool : List PooledConnection) :
    Tame AnyReply (setSchemaLoop .member pool) := by
  induction pool with
  | nil => exact tame_pure ()
  | cons pooled rest ih =>
    refine (tame_members.bind fun _ => tame_pure _).bind fun name => ?_
    exact (tame_driverSetSchema _ name).bind fun _ => ih

theorem returns_schemaQuery (query : Bytes → Method Bool) (q : Bytes) (w : World) :
    Returns env (schemaQuery query q) w ↔ Returns env (query q) w := by
  have hrest : Tame AnyReply (do
      SchemaRef.member.assign
      let m ← members
      setSchemaLoop .member m.connections) :=
    Tame.bind (tame_pure ()) fun _ => tame_members.bind fun m => tame_setSchemaLoop _
  unfold schemaQuery
  rw [returns_catchSql fun _ => returns_pure (), returns_bind fun _ => hrest.returns]

theorem returns_reconnect (query : Bytes → Method Bool) (w : World) :
    Returns env (reconnect query) w ↔
      ∀ q w', exec env reopen w = (.ok (some q), w') → Returns env (query q) w' := by
  have hreopen : Returns env reopen w := tame_reopen.returns w
  rw [reconnect_eq]
  rcases h : exec env reopen w with ⟨e | text, w'⟩
  · have he : Returns env (reopen >>= fun text => match text with
        | none => return ()
        | some q => schemaQuery query q) w := by
      unfold Returns at hreopen ⊢
      rw [exec_bind_error h]
      rw [h] at hreopen
      simpa using hreopen
    exact ⟨fun _ q w' h' => absurd h' (by simp), fun _ => he⟩
  · unfold Returns
    rw [exec_bind_ok h]
    cases text with
    | none => exact ⟨fun _ q w' h' => absurd h' (by simp), fun _ => returns_pure () w'⟩
    | some q =>
      have hq : Returns env (schemaQuery query q) w' ↔ _ := returns_schemaQuery query q w'
      constructor
      · intro hr q' w'' h'
        rw [Prod.mk.injEq, Except.ok.injEq, Option.some.injEq] at h'
        obtain ⟨rfl, rfl⟩ := h'
        exact hq.mp hr
      · intro hr
        exact hq.mpr (hr q w' rfl)

theorem reentry_eq_some {tryOnce : Method α} {w : World} {x : Bytes × World} :
    reentry env tryOnce w = some x ↔ ∃ r₁ w₁, exec env tryOnce w = (r₁, w₁) ∧ retried r₁ = true ∧
      exec env reopen w₁ = (.ok (some x.1), x.2) := by
  obtain ⟨q, w'⟩ := x
  unfold reentry
  rcases exec env tryOnce w with ⟨r₁, w₁⟩
  constructor
  · intro h
    dsimp only at h
    split at h
    · next hr =>
      refine ⟨r₁, w₁, rfl, hr, ?_⟩
      split at h
      · next heq =>
        rw [Option.some.injEq, Prod.mk.injEq] at h
        obtain ⟨rfl, rfl⟩ := h
        exact heq
      · exact absurd h (by simp)
    · exact absurd h (by simp)
  · intro h
    obtain ⟨r, w₂, h1, hr, h2⟩ := h
    rw [Prod.mk.injEq] at h1
    obtain ⟨rfl, rfl⟩ := h1
    simp only [hr, h2, if_true]

/-- **A call comes back** if and only if the call does that `set_schema` makes in between. -/
theorem returns_attempts {query : Bytes → Method Bool} {tryOnce : Method α}
    (htry : ∀ w, Returns env tryOnce w) (failed : α) (w : World) :
    Returns env (attempts query tryOnce failed 2) w ↔
      ∀ x, reentry env tryOnce w = some x → Returns env (query x.1) x.2 := by
  have hsettle : ∀ {w₁ w₂ : World} {r : Except Thrown α}, exec env tryOnce w₁ = (r, w₂) →
      settle failed r ≠ .error .outOfFuel := by
    intro w₁ w₂ r h
    have hr := htry w₁
    unfold Returns at hr
    rw [h] at hr
    cases r with
    | ok v => simp [settle]
    | error e => cases e <;> simp_all [settle]
  obtain ⟨r₁, w₁, h1, ⟨hr, hend⟩ | ⟨hr, r₂, w₂, h2, hcases⟩⟩ :=
    attempts_cases env query tryOnce failed w
  · have hnone : ∀ x, reentry env tryOnce w ≠ some x := by
      intro x hx
      obtain ⟨r, w', h, hr', -⟩ := reentry_eq_some.mp hx
      rw [h1, Prod.mk.injEq] at h
      rw [← h.1, hr] at hr'
      exact absurd hr' (by simp)
    refine ⟨fun _ x hx => absurd hx (hnone x), fun _ => ?_⟩
    unfold Returns
    rw [hend]
    exact hsettle h1
  · have hsome : (∀ x, reentry env tryOnce w = some x → Returns env (query x.1) x.2) ↔
        Returns env (reconnect query) w₁ := by
      rw [returns_reconnect]
      constructor
      · intro h q w' hq
        exact h (q, w') (reentry_eq_some.mpr ⟨r₁, w₁, h1, hr, hq⟩)
      · intro h x hx
        obtain ⟨r, w', h', -, hx'⟩ := reentry_eq_some.mp hx
        rw [h1, Prod.mk.injEq] at h'
        obtain ⟨rfl, rfl⟩ := h'
        exact h x.1 x.2 hx'
    rw [hsome]
    unfold Returns
    rw [h2]
    rcases hcases with ⟨e, rfl, hend⟩ | ⟨rfl, r₃, w₃, h3, hend⟩
    · rw [hend]
      simp
    · rw [hend]
      exact ⟨fun _ => by simp, fun _ => hsettle h3⟩

theorem returns_trying (call : Connection → DriverCall)
    (f : (conn : Connection) → (call conn).Reply → Except Thrown α)
    (hf : ∀ conn r, f conn r ≠ .error .outOfFuel) (w : World) : Returns env (trying call f) w := by
  have hget : Returns env getConnection w := tame_getConnection.returns w
  have hbody : ∀ conn (w' : World), Returns env (do
      createStatement conn
      .step (.driver (call conn)) fun r => .done (f conn r) : Method α) w' := by
    intro conn w'
    rw [returns_bind]
    · exact (tame_createStatement conn).returns w'
    · intro _ w''
      exact hf conn _
  unfold Returns trying at *
  rcases exec_withConnection env (fun conn => do
      createStatement conn
      .step (.driver (call conn)) fun r => .done (f conn r)) w with
    ⟨e, w', h1, h, -⟩ | ⟨conn, w₁, w', -, h, -⟩
  · rw [h1] at hget
    rw [h]
    simpa using hget
  · rw [h]
    exact hbody conn w₁

/-! ## depth -/

theorem tryQuery_returns (origin : Origin) (q : Bytes) (w : World) :
    Returns env (tryQuery origin q) w := by
  rw [tryQuery_eq]
  apply returns_trying
  intro conn o
  cases o <;> simp [ExecuteOutcome.result, ofSql, Except.map]

theorem tryQueryGet_returns (origin : Origin) (q : Bytes) (w : World) :
    Returns env (tryQueryGet origin q) w := by
  rw [tryQueryGet_eq]
  apply returns_trying
  intro conn r
  cases r <;> simp [ofSql, Except.map]

theorem nested_returns_iff (x : Bytes × World) :
    (∃ fuel, Returns env (query fuel .setSchema x.1) x.2) ↔
      ∃ n, chain (nextReentry env) x n = none := by
  apply returns_iff_chain_ends
    fun fuel (x : Bytes × World) => Returns env (query fuel .setSchema x.1) x.2
  · intro x h
    exact h rfl
  · intro fuel x hx
    refine (returns_attempts (tryQuery_returns .setSchema x.1) false x.2).mpr fun y hy => ?_
    exact absurd (hx.symm.trans hy) (by simp)
  · intro fuel x y hy
    show Returns env (attempts _ _ _ 2) _ ↔ _
    rw [returns_attempts (tryQuery_returns .setSchema x.1)]
    constructor
    · intro h
      exact h y hy
    · intro h y' hy'
      have he : some y = some y' := hy.symm.trans hy'
      rw [← Option.some.inj he]
      exact h

/-- the outermost call comes back if and only if the first nested one does -/
theorem returns_iff_settles {tryOnce : Method α} (htry : ∀ w, Returns env tryOnce w) (failed : α)
    (w : World) :
    (∃ fuel, Returns env (attempts (query fuel .setSchema) tryOnce failed 2) w) ↔
      Settles env tryOnce w := by
  simp only [returns_attempts htry]
  constructor
  · rintro ⟨fuel, h⟩ x hx
    exact (nested_returns_iff x).mp ⟨fuel, h x hx⟩
  · intro h
    cases hx : reentry env tryOnce w with
    | none => exact ⟨0, fun x hx' => absurd hx' (by simp)⟩
    | some x =>
      obtain ⟨fuel, hf⟩ := (nested_returns_iff x).mpr (h x hx)
      refine ⟨fuel, fun y hy => ?_⟩
      rw [← Option.some.inj hy]
      exact hf

section
variable {query query' : Bytes → Method Bool} {w : World}

theorem exec_schemaQuery_congr {q : Bytes} (h : exec env (query q) w = exec env (query' q) w) :
    exec env (schemaQuery query q) w = exec env (schemaQuery query' q) w := by
  unfold exec at h ⊢
  unfold schemaQuery catchSql
  rw [Program.run_catching, Program.run_catching, Program.run_bind, Program.run_bind, h]

theorem exec_reconnect_congr (h : ∀ q w', exec env reopen w = (.ok (some q), w') →
      exec env (query q) w' = exec env (query' q) w') :
    exec env (reconnect query) w = exec env (reconnect query') w := by
  rw [reconnect_eq, reconnect_eq]
  rcases hr : exec env reopen w with ⟨e | text, w'⟩
  · rw [exec_bind_error hr, exec_bind_error hr]
  · rw [exec_bind_ok hr, exec_bind_ok hr]
    cases text with
    | none => rfl
    | some q => exact exec_schemaQuery_congr (h q w' hr)

theorem exec_attempts_congr {tryOnce : Method α} (failed : α)
    (h : ∀ x, reentry env tryOnce w = some x →
      exec env (query x.1) x.2 = exec env (query' x.1) x.2) :
    exec env (attempts query tryOnce failed 2) w
      = exec env (attempts query' tryOnce failed 2) w := by
  rcases h1 : exec env tryOnce w with ⟨r₁, w₁⟩
  by_cases hr : retried r₁ = true
  · have hq := exec_reconnect_congr fun q w' hq =>
      h (q, w') (reentry_eq_some.mpr ⟨r₁, w₁, h1, hr, hq⟩)
    rw [attempts_retried h1 failed hr, attempts_retried h1 failed hr]
    rcases h2 : exec env (reconnect query') w₁ with ⟨e | _, w₂⟩
    · rw [exec_bind_error h2, exec_bind_error (hq.trans h2)]
    · rcases h3 : exec env tryOnce w₂ with ⟨r₃, w₃⟩
      rw [exec_bind_ok h2, exec_bind_ok (hq.trans h2), attempts_settled h3 failed (by simp),
        attempts_settled h3 failed (by simp)]
  · rw [attempts_settled h1 failed fun h => hr h.2, attempts_settled h1 failed fun h => hr h.2]

end

/-- a larger bound does not change what a call does that comes back -/
theorem query_stable {fuel : Nat} {origin : Origin} {q : Bytes} {w : World}
    (h : Returns env (query fuel origin q) w) :
    exec env (query (fuel + 1) origin q) w = exec env (query fuel origin q) w := by
  induction fuel generalizing origin q w with
  | zero => exact absurd rfl h
  | succ fuel ih =>
    apply exec_attempts_congr
    intro x hx
    exact ih ((returns_attempts (tryQuery_returns origin q) false w).mp h x hx)

/-! ## the statement passed in -/

theorem length_ownCalls_attempts {call : Connection → DriverCall}
    (hown : ∀ conn, (Act.driver (call conn)).own = true)
    (f : (conn : Connection) → (call conn).Reply → Except Thrown α) (fuel : Nat) (failed : α)
    (m : MysqlWrapper) :
    (ownCalls (exec env (attempts (query fuel .setSchema) (trying call f) failed 2)
      (start m)).2.trace).length ≤ 2 := by
  rcases ownCalls_attempts env call f hown (within_reconnect (nested_query fuel)) failed m with
    h | ⟨_, _, h⟩ | ⟨_, _, _, _, h, -⟩
  · simp [h]
  · simp [h]
  · simp [h]

theorem length_ownCalls_query (m : MysqlWrapper) (fuel : Nat) (q : Bytes) :
    (ownCalls (exec env (query fuel .caller q) (start m)).2.trace).length ≤ 2 := by
  cases fuel with
  | zero => exact Nat.zero_le 2
  | succ fuel =>
    unfold query
    rw [tryQuery_eq]
    exact length_ownCalls_attempts (fun _ => rfl) _ fuel false m

theorem length_ownCalls_queryGet (m : MysqlWrapper) (fuel : Nat) (q : Bytes) :
    (ownCalls (exec env (queryGet fuel .caller q) (start m)).2.trace).length ≤ 2 := by
  unfold queryGet
  rw [tryQueryGet_eq]
  exact length_ownCalls_attempts (fun _ => rfl) _ fuel none m

/-- **`query` and `query_get` come back**, with at most two runs of their statement, if and only if
the chain of nested calls ends. -/
theorem bounded_iff_settles (env : Environment) (m : MysqlWrapper) (q : Bytes) :
    (Bounded env m (fun fuel => query fuel .caller q) ↔
      Settles env (tryQuery .caller q) (start m)) ∧
    (Bounded env m (fun fuel => queryGet fuel .caller q) ↔
      Settles env (tryQueryGet .caller q) (start m)) := by
  constructor
  · rw [← returns_iff_settles (tryQuery_returns .caller q) false]
    constructor
    · rintro ⟨⟨fuel, h⟩, -⟩
      cases fuel with
      | zero => exact absurd rfl h
      | succ fuel => exact ⟨fuel, h⟩
    · rintro ⟨fuel, h⟩
      exact ⟨⟨fuel + 1, h⟩, fun fuel => length_ownCalls_query m fuel q⟩
  · rw [← returns_iff_settles (tryQueryGet_returns .caller q) none]
    constructor
    · rintro ⟨h, -⟩
      exact h
    · intro h
      exact ⟨h, fun fuel => length_ownCalls_queryGet m fuel q⟩

/-! ## when the connection holds -/

/-- an attempt keeps to what its call of the connector and the methods of the pool keep to -/
theorem trying_sat {rely : (a : Act) → a.Reply → Prop} {guar : Act → Prop}
    {Q : Except Thrown α → Prop} {call : Connection → DriverCall}
    {f : (conn : Connection) → (call conn).Reply → Except Thrown α}
    (hplain : ∀ a : Act, a.Plain → guar a) (hcall : ∀ conn, guar (.driver (call conn)))
    (hraised : ∀ e, Raised rely (.error e : Except Thrown α) → Q (.error e))
    (hf : ∀ conn r, rely (.driver (call conn)) r → Q (f conn r)) :
    (trying call f).Sat rely guar Q := by
  have htame : ∀ {γ : Type} {p : Method γ}, Tame rely p → p.Sat rely guar (Raised rely) :=
    fun h => Program.Sat.mono h (fun _ _ hr => hr) hplain fun _ hr => hr
  refine (htame tame_getConnection).bind (fun pooled _ => ?_) hraised
  have hbody : (do
      createStatement pooled.connection
      .step (.driver (call pooled.connection)) fun r => .done (f pooled.connection r) :
      Method α).Sat rely guar Q :=
    (htame (tame_createStatement _)).bind (fun _ _ => ⟨hcall _, fun r hr => hf _ r hr⟩) hraised
  have hends : (Program.ends (do
      createStatement pooled.connection
      .step (.driver (call pooled.connection)) fun r => .done (f pooled.connection r)) :
      Method (Except Thrown α)).Sat rely guar fun r => ∃ v, r = .ok v ∧ Q v :=
    hbody.ends fun r hr => ⟨r, rfl, hr⟩
  apply hends.bind
  · intro v hv
    obtain ⟨v', hv', hQ⟩ := hv
    rw [Except.ok.inj hv']
    exact (htame (tame_releaseConnection pooled)).bind (fun _ _ => hQ) hraised
  · intro e he
    obtain ⟨v', hv', -⟩ := he
    exact absurd hv' (by simp)

/-- a reply without a code that is retried -/
def HeldReply : (a : Act) → a.Reply → Prop
  | .driver call, r => ∀ code, call.throws r = some (.sql code) → shouldRetry code = false
  | _, _ => True

/-- behind `N` actions the driver reports no such code any more -/
def HeldBehind (env : Environment) (N : Nat) : Prop :=
  ∀ n, N ≤ n → ∀ call, HeldReply (.driver call) (env.driver n call)

theorem tryQuery_held (origin : Origin) (q : Bytes) :
    (tryQuery origin q).Sat HeldReply (fun _ => True) fun r => retried r = false := by
  have hthrows : ∀ {call : DriverCall} {r : call.Reply} {e : Thrown},
      HeldReply (.driver call) r → call.throws r = some e →
        retried (.error e : Except Thrown Bool) = false := by
    intro call r e hr he
    cases e with
    | sql code => exact hr code he
    | invalidArgument => rfl
    | outOfFuel => rfl
  rw [tryQuery_eq]
  refine trying_sat (fun _ _ => trivial) (fun _ => trivial) ?_ fun conn o ho => ?_
  · rintro e ⟨call, r, -, hr, he⟩
    exact hthrows hr he
  · cases h : o.result with
    | ok v => rfl
    | error code => exact hthrows ho (congrArg thrownBy h)

theorem length_perform (a : Act) (w : World) :
    (perform env a w).2.trace.length = w.trace.length + 1 := List.length_append

theorem length_le_exec (p : Method α) (w : World) :
    w.trace.length ≤ (exec env p w).2.trace.length := by
  induction p generalizing w with
  | done r => exact le_rfl
  | step a k ih =>
    have hrest := ih (perform env a w).1 (perform env a w).2
    rw [length_perform] at hrest
    exact (Nat.le_succ _).trans hrest

theorem reentry_length {tryOnce : Method α} {w : World} {x : Bytes × World}
    (h : reentry env tryOnce w = some x) : w.trace.length < x.2.trace.length := by
  obtain ⟨r, w₁, h₁, -, h₂⟩ := reentry_eq_some.mp h
  have htry : w.trace.length ≤ (exec env tryOnce w).2.trace.length := length_le_exec tryOnce w
  rw [h₁] at htry
  obtain ⟨k, hk⟩ : ∃ k, reopen = .step .lock k := ⟨_, rfl⟩
  have hreopen : (perform env .lock w₁).2.trace.length
      ≤ (exec env (k ()) (perform env .lock w₁).2).2.trace.length := length_le_exec (k ()) _
  rw [length_perform] at hreopen
  have hrest : exec env (k ()) (perform env .lock w₁).2 = (.ok (some x.1), x.2) := by
    rw [← h₂, hk]
    rfl
  rw [hrest] at hreopen
  exact lt_of_le_of_lt htry hreopen

/-- **The chain ends** where the connection holds in the end. -/
theorem settles_of_heldBehind {N : Nat} (h : HeldBehind env N) (tryOnce : Method α) (w : World) :
    Settles env tryOnce w := by
  intro x _
  have hlength : ∀ n y, chain (nextReentry env) x n = some y → n ≤ y.2.trace.length := by
    intro n
    induction n with
    | zero => exact fun y _ => Nat.zero_le _
    | succ n ih =>
      intro y hy
      obtain ⟨z, hz, hzy⟩ := Option.bind_eq_some_iff.mp hy
      exact Nat.succ_le_of_lt (lt_of_le_of_lt (ih z hz) (reentry_length hzy))
  refine ⟨N + 1, ?_⟩
  cases hy : chain (nextReentry env) x N with
  | none => rw [chain, hy]; rfl
  | some y =>
    rw [chain, hy, Option.bind_some]
    by_contra hne
    obtain ⟨z, hz⟩ := Option.ne_none_iff_exists'.mp hne
    obtain ⟨r, w', hw', hr, -⟩ := reentry_eq_some.mp hz
    have hstep : ∀ (a : Act) (s : World), True → N ≤ s.trace.length →
        HeldReply a (perform env a s).1 ∧ N ≤ (perform env a s).2.trace.length := by
      intro a s _ hs
      refine ⟨?_, by rw [length_perform]; omega⟩
      cases a with
      | driver call => exact h _ hs call
      | _ => trivial
    have hend := (Program.Sat.run (tryQuery_held .setSchema y.1) hstep (hlength N y hy)).1
    have hrun : ((tryQuery .setSchema y.1).run (perform env) y.2).1 = r := congrArg Prod.fst hw'
    rw [hrun, hr] at hend
    exact absurd hend (by simp)

/-! ## when every statement fails -/

/-- a reply while the connector does whatever it is asked for, but every statement fails with a
code that is retried -/
def OverloadedReply : (a : Act) → a.Reply → Prop
  | .members, m => m.schema ≠ []
  | .driver (.execute _ _ _), o => ∃ code, o.result = .error code ∧ shouldRetry code = true
  | .driver (.executeQuery _ _ _), r => ∃ code, r = .error code ∧ shouldRetry code = true
  | .driver call, r => call.throws r = none
  | _, _ => True

/-- such replies, and other callers that leave the wrapper with a schema -/
structure Overloaded (env : Environment) : Prop where
  others : ∀ n m, m.schema ≠ [] → (env.others n m).schema ≠ []
  driver : ∀ n call, OverloadedReply (.driver call) (env.driver n call)

/-- actions that keep the schema -/
def Act.KeepsSchema : Act → Prop
  | .update f => ∀ m, (f m).schema = m.schema
  | _ => True

theorem Act.Plain.keepsSchema {a : Act} (h : a.Plain) : a.KeepsSchema := by
  cases a with
  | update f => exact h
  | _ => trivial

/-- the methods of the pool do not throw then -/
theorem not_raised {e : Thrown} : ¬ Raised OverloadedReply (.error e : Except Thrown α) := by
  rintro ⟨call, r, hc, hr, ht⟩
  have hnone : call.throws r = none := by
    cases call with
    | execute _ _ _ => exact absurd hc id
    | executeQuery _ _ _ => exact absurd hc id
    | _ => exact hr
  rw [hnone] at ht
  exact absurd ht (by simp)

theorem Tame.bindOk {p : Method α} {f : α → Method β} {Q : Except Thrown β → Prop}
    (h : Tame OverloadedReply p) (hf : ∀ v, (f v).Sat OverloadedReply Act.KeepsSchema Q) :
    (p >>= f).Sat OverloadedReply Act.KeepsSchema Q := by
  have h' : p.Sat OverloadedReply Act.KeepsSchema (Raised OverloadedReply) :=
    Program.Sat.mono h (fun _ _ hr => hr) (fun _ => Act.Plain.keepsSchema) fun _ hr => hr
  exact h'.bind (fun v _ => hf v) fun e he => absurd he not_raised

theorem trying_fails {call : Connection → DriverCall}
    {f : (conn : Connection) → (call conn).Reply → Except Thrown α}
    (hkeeps : ∀ conn, (Act.driver (call conn)).KeepsSchema)
    (hf : ∀ conn r, OverloadedReply (.driver (call conn)) r → retried (f conn r) = true) :
    (trying call f).Sat OverloadedReply Act.KeepsSchema fun r => retried r = true :=
  trying_sat (fun _ => Act.Plain.keepsSchema) hkeeps (fun _ he => absurd he not_raised) hf

theorem reopen_some : reopen.Sat OverloadedReply Act.KeepsSchema
    fun r => ∃ q, r = .ok (some q) := by
  refine tame_reconnectLocked.bindOk fun _ => ⟨trivial, fun m hm => ?_⟩
  have hm : m.schema ≠ [] := hm
  show Program.Sat _ _ _ (if m.schema = [] then _ else _)
  rw [if_neg hm]
  exact ⟨trivial, fun m' _ => ⟨createSchema m'.schema, rfl⟩⟩

namespace Overloaded

theorem run {p : Method α} {Q : Except Thrown α → Prop} (h : Overloaded env)
    (hp : p.Sat OverloadedReply Act.KeepsSchema Q) {w : World} (hw : w.wrapper.schema ≠ []) :
    Q (exec env p w).1 ∧ (exec env p w).2.wrapper.schema ≠ [] := by
  have hstep : ∀ (a : Act) (s : World), a.KeepsSchema → s.wrapper.schema ≠ [] →
      OverloadedReply a (perform env a s).1 ∧ (perform env a s).2.wrapper.schema ≠ [] := by
    intro a s ha hs
    have hm := h.others s.trace.length s.wrapper hs
    cases a with
    | update f =>
      refine ⟨trivial, ?_⟩
      show (f _).schema ≠ []
      rw [ha]
      exact hm
    | members => exact ⟨hm, hm⟩
    | driver call => exact ⟨h.driver _ call, hm⟩
    | lock => exact ⟨trivial, hm⟩
    | unlock => exact ⟨trivial, hm⟩
  exact Program.Sat.run hp hstep hw

theorem reentry (h : Overloaded env) {tryOnce : Method α}
    (hfails : tryOnce.Sat OverloadedReply Act.KeepsSchema fun r => retried r = true) {w : World}
    (hw : w.wrapper.schema ≠ []) :
    ∃ x, MysqlWrapper.reentry env tryOnce w = some x ∧ x.2.wrapper.schema ≠ [] := by
  obtain ⟨hr, hw₁⟩ := h.run hfails hw
  obtain ⟨⟨q, hq⟩, hw₂⟩ := h.run reopen_some hw₁
  exact ⟨(q, _), reentry_eq_some.mpr ⟨_, _, rfl, hr, Prod.ext hq rfl⟩, hw₂⟩

theorem tryQuery_fails (origin : Origin) (q : Bytes) :
    (tryQuery origin q).Sat OverloadedReply Act.KeepsSchema fun r => retried r = true := by
  rw [tryQuery_eq]
  refine trying_fails (fun _ => trivial) fun conn o ho => ?_
  obtain ⟨code, hcode, hr⟩ := ho
  rw [hcode]
  exact hr

theorem tryQueryGet_fails (origin : Origin) (q : Bytes) :
    (tryQueryGet origin q).Sat OverloadedReply Act.KeepsSchema fun r => retried r = true := by
  rw [tryQueryGet_eq]
  refine trying_fails (fun _ => trivial) fun conn r hr => ?_
  obtain ⟨code, rfl, hr⟩ := hr
  exact hr

theorem chain_ne_none (h : Overloaded env) {x : Bytes × World} (hx : x.2.wrapper.schema ≠ [])
    (n : Nat) : ∃ y, chain (nextReentry env) x n = some y ∧ y.2.wrapper.schema ≠ [] := by
  induction n with
  | zero => exact ⟨x, rfl, hx⟩
  | succ n ih =>
    obtain ⟨y, hy, hw⟩ := ih
    obtain ⟨z, hz, hw'⟩ := h.reentry (tryQuery_fails .setSchema y.1) hw
    exact ⟨z, by rw [chain, hy]; exact hz, hw'⟩

theorem not_settles (h : Overloaded env) {tryOnce : Method α}
    (hfails : tryOnce.Sat OverloadedReply Act.KeepsSchema fun r => retried r = true) {w : World}
    (hw : w.wrapper.schema ≠ []) : ¬ Settles env tryOnce w := by
  intro hs
  obtain ⟨x, hx, hw'⟩ := h.reentry hfails hw
  obtain ⟨n, hn⟩ := hs x hx
  obtain ⟨y, hy, -⟩ := h.chain_ne_none hw' n
  rw [hn] at hy
  exact absurd hy (by simp)

/-- **No call comes back** from a wrapper with a schema while every statement fails so. -/
theorem diverges (h : Overloaded env) {m : MysqlWrapper} (hm : m.schema ≠ []) (q : Bytes)
    (fuel : Nat) : ¬ Returns env (query fuel .caller q) (start m) ∧
      ¬ Returns env (queryGet fuel .caller q) (start m) := by
  constructor
  · intro hr
    cases fuel with
    | zero => exact hr rfl
    | succ fuel =>
      exact h.not_settles (tryQuery_fails .caller q) hm
        ((returns_iff_settles (tryQuery_returns .caller q) false _).mp ⟨fuel, hr⟩)
  · intro hr
    exact h.not_settles (tryQueryGet_fails .caller q) hm
      ((returns_iff_settles (tryQueryGet_returns .caller q) none _).mp ⟨fuel, hr⟩)

end Overloaded

/-- connecting works, but the server answers every statement with `ServerGone` -/
def busyEnvironment : Environment where
  others _ m := m
  driver n call :=
    match call with
    | .getDriverInstance | .setSchema _ _ | .close _ | .createStatement _ => .ok ()
    | .connectionsCount => some 1
    | .connect _ _ _ => .ok n
    | .isClosed _ => .ok false
    | .isValid _ => .ok true
    | .delete _ => ()
    | .execute _ _ _ => .failed 2006
    | .executeQuery _ _ _ => .error 2006

theorem overloaded_busyEnvironment : Overloaded busyEnvironment := by
  refine ⟨fun _ _ hm => hm, fun n call => ?_⟩
  cases call with
  | execute _ _ _ => exact ⟨2006, rfl, rfl⟩
  | executeQuery _ _ _ => exact ⟨2006, rfl, rfl⟩
  | _ => rfl

def schemaPooled : MysqlWrapper := ⟨str "h", str "u", str "p", str "app", [⟨0, 1⟩], 1⟩

theorem busy_not_bounded :
    ¬ Bounded busyEnvironment schemaPooled (fun fuel => query fuel .caller payment) ∧
      ¬ Bounded busyEnvironment schemaPooled (fun fuel => queryGet fuel .caller payment) := by
  have hm : schemaPooled.schema ≠ [] := by decide
  constructor
  · rintro ⟨⟨fuel, h⟩, -⟩
    exact (overloaded_busyEnvironment.diverges hm payment fuel).1 h
  · rintro ⟨⟨fuel, h⟩, -⟩
    exact (overloaded_busyEnvironment.diverges hm payment fuel).2 h

end ServerHttpLib.MysqlWrapper
