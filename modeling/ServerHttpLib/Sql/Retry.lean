import ServerHttpLib.Sql.Contracts

/-!
# What a retried statement does

`query` runs its statement a second time if the first attempt fails with a code that says that the
connection is gone.  The connector also reports such a code when it was only the reply that got
lost, so the statement may be applied twice.

* `exec_trying`         one attempt runs the caller's statement at most once;
* `attempts_cases`      the loop makes one attempt, or two with a `reconnect` in between;
* `ownCalls_attempts`   the caller's statement runs once, or twice if the first end asks for that;
* `applied_twice_iff`   it is applied at most twice, and twice only if its first reply was lost.
-/

namespace ServerHttpLib.MysqlWrapper
open Programs

variable {α : Type} {guar : Act → Prop} (env : Environment)

/-! ## one attempt and the next -/

theorem ownCalls_exec {p : Method α} (h : Within Act.Nested p) (w : World) :
    ownCalls (exec env p w).2.trace = ownCalls w.trace := by
  have hstep : ∀ (a : Act) (s : World), a.Nested → ownCalls s.trace = ownCalls w.trace →
      True ∧ ownCalls (perform env a s).2.trace = ownCalls w.trace := by
    intro a s ha hs
    refine ⟨trivial, ?_⟩
    show ownCalls (s.trace ++ [_]) = _
    unfold ownCalls
    rw [List.filter_append, List.filter_cons_of_neg (by simp [ha.own]), List.filter_nil,
      List.append_nil]
    exact hs
  exact (h.run hstep rfl).2

theorem exec_releaseConnection (pooled : PooledConnection) (w : World) :
    ∃ w', exec env (releaseConnection pooled) w = (.ok (), w') ∧
      ownCalls w'.trace = ownCalls w.trace := by
  have hok := (releaseConnection_ok pooled).post (perform env) w
  refine ⟨(exec env (releaseConnection pooled) w).2, Prod.ext hok rfl, ?_⟩
  exact ownCalls_exec env ((tame_releaseConnection pooled).within fun _ => Act.Plain.nested) w

/-- the scope of `conn`: it ends like its body, if there is a connection -/
theorem exec_withConnection (body : Connection → Method α) (w : World) :
    (∃ e w', exec env getConnection w = (.error e, w') ∧
      exec env (withConnection body) w = (.error e, w') ∧ ownCalls w'.trace = ownCalls w.trace) ∨
    ∃ conn w₁ w', ownCalls w₁.trace = ownCalls w.trace ∧
      exec env (withConnection body) w = ((exec env (body conn) w₁).1, w') ∧
      ownCalls w'.trace = ownCalls (exec env (body conn) w₁).2.trace := by
  have hget := ownCalls_exec env (tame_getConnection.within fun _ => Act.Plain.nested) w
  unfold withConnection
  rcases h1 : exec env getConnection w with ⟨e | pooled, w₁⟩
  · rw [h1] at hget
    exact Or.inl ⟨e, w₁, rfl, exec_bind_error h1 _, hget⟩
  · rw [h1] at hget
    obtain ⟨w', hrel, hown⟩ := exec_releaseConnection env pooled
      (exec env (body pooled.connection) w₁).2
    refine Or.inr ⟨pooled.connection, w₁, w', hget, ?_, hown⟩
    rw [exec_bind_ok h1, exec_bind_ok (exec_ends _ _), exec_bind_ok hrel]
    rfl

/-- an attempt with this call of the connector and this way to end -/
def trying (call : Connection → DriverCall)
    (f : (conn : Connection) → (call conn).Reply → Except Thrown α) : Method α :=
  withConnection fun conn => do
    createStatement conn
    .step (.driver (call conn)) fun r => .done (f conn r)

theorem exec_trying (call : Connection → DriverCall)
    (f : (conn : Connection) → (call conn).Reply → Except Thrown α)
    (hown : ∀ conn, (Act.driver (call conn)).own = true) (w : World) :
    ∃ r w' xs, exec env (trying call f) w = (r, w') ∧ ownCalls w'.trace = ownCalls w.trace ++ xs ∧
      (xs = [] ∨ ∃ conn o, xs = [⟨.driver (call conn), o⟩] ∧ r = f conn o) := by
  rcases exec_withConnection env (fun conn => do
      createStatement conn
      .step (.driver (call conn)) fun r => .done (f conn r)) w with
    ⟨e, w', -, h, hw⟩ | ⟨conn, w₁, w', hw₁, h, hw⟩
  · exact ⟨_, w', [], h, by rw [hw, List.append_nil], Or.inl rfl⟩
  · have hcreate := ownCalls_exec env
      ((tame_createStatement conn).within fun _ => Act.Plain.nested) w₁
    rcases h1 : exec env (createStatement conn) w₁ with ⟨e | _, w₂⟩
    · rw [h1] at hcreate
      rw [exec_bind_error h1] at h hw
      exact ⟨_, w', [], h, by rw [hw, hcreate, hw₁, List.append_nil], Or.inl rfl⟩
    · rw [h1] at hcreate
      rw [exec_bind_ok h1] at h hw
      refine ⟨_, w', [⟨.driver (call conn), _⟩], h, ?_, Or.inr ⟨conn, _, rfl, rfl⟩⟩
      rw [hw, ← hw₁, ← hcreate]
      show ownCalls (w₂.trace ++ [_]) = _
      unfold ownCalls
      rw [List.filter_append, List.filter_cons_of_pos (by simpa using hown conn), List.filter_nil]
      rfl

theorem tryQuery_eq (origin : Origin) (q : Bytes) :
    tryQuery origin q = trying (fun conn => .execute origin conn q)
      fun _ o => (ofSql o.result).map fun _ => true := by
  have hbody : ∀ conn, (execute origin conn q >>= fun _ => pure true)
      = (.step (.driver (.execute origin conn q)) fun o =>
        .done ((ofSql o.result).map fun _ => true) : Method Bool) := by
    intro conn
    show Program.step _ _ = Program.step _ _
    congr 1
    funext o
    cases o <;> rfl
  unfold tryQuery trying
  simp only [hbody]

theorem tryQueryGet_eq (origin : Origin) (q : Bytes) :
    tryQueryGet origin q = trying (fun conn => .executeQuery origin conn q)
      fun _ r => (ofSql r).map some := by
  have hbody : ∀ conn, (executeQuery origin conn q >>= fun res => pure (some res))
      = (.step (.driver (.executeQuery origin conn q)) fun r =>
        .done ((ofSql r).map some) : Method (Option ResultSet)) := by
    intro conn
    show Program.step _ _ = Program.step _ _
    congr 1
    funext r
    cases r <;> rfl
  unfold tryQueryGet trying
  simp only [hbody]

/-- an attempt that ends so is made again, if it is the first one -/
def retried : Except Thrown α → Bool
  | .error (.sql code) => shouldRetry code
  | _ => false

/-- what the loop makes of the end of its last attempt -/
def settle (failed : α) : Except Thrown α → Except Thrown α
  | .error (.sql _) => .ok failed
  | r => r

section
variable {env} {q : Bytes → Method Bool} {tryOnce : Method α} {r : Except Thrown α} {w w' : World}

theorem attempts_settled (h : exec env tryOnce w = (r, w')) (failed : α) {left : Nat}
    (hr : ¬ (left + 1 = 2 ∧ retried r = true)) :
    exec env (attempts q tryOnce failed (left + 1)) w = (settle failed r, w') := by
  unfold attempts
  cases r with
  | ok v => exact exec_catchSql_of_ne h (by simp) _
  | error e =>
    cases e with
    | sql code =>
      have hr : ¬ (left + 1 = 2 ∧ shouldRetry code = true) := hr
      rw [exec_catchSql h, if_neg hr]
      rfl
    | invalidArgument => exact exec_catchSql_of_ne h (by simp) _
    | outOfFuel => exact exec_catchSql_of_ne h (by simp) _

theorem attempts_retried (h : exec env tryOnce w = (r, w')) (failed : α) (hr : retried r = true) :
    exec env (attempts q tryOnce failed 2) w
      = exec env (reconnect q >>= fun _ => attempts q tryOnce failed 1) w' := by
  cases r with
  | ok v => exact absurd hr (by simp [retried])
  | error e =>
    cases e with
    | sql code =>
      show exec env (catchSql tryOnce _) w = _
      rw [exec_catchSql h, if_pos ⟨rfl, hr⟩]
    | invalidArgument => exact absurd hr (by simp [retried])
    | outOfFuel => exact absurd hr (by simp [retried])

end

/-- what the loop does: one attempt, or two with a `reconnect` in between -/
theorem attempts_cases (q : Bytes → Method Bool) (tryOnce : Method α) (failed : α) (w : World) :
    ∃ r₁ w₁, exec env tryOnce w = (r₁, w₁) ∧
      ((retried r₁ = false ∧ exec env (attempts q tryOnce failed 2) w = (settle failed r₁, w₁)) ∨
        (retried r₁ = true ∧ ∃ r₂ w₂, exec env (reconnect q) w₁ = (r₂, w₂) ∧
          ((∃ e, r₂ = .error e ∧ exec env (attempts q tryOnce failed 2) w = (.error e, w₂)) ∨
            (r₂ = .ok () ∧ ∃ r₃ w₃, exec env tryOnce w₂ = (r₃, w₃) ∧
              exec env (attempts q tryOnce failed 2) w = (settle failed r₃, w₃))))) := by
  rcases h1 : exec env tryOnce w with ⟨r₁, w₁⟩
  refine ⟨r₁, w₁, rfl, ?_⟩
  by_cases hr : retried r₁ = true
  · rcases h2 : exec env (reconnect q) w₁ with ⟨e | _, w₂⟩
    · exact Or.inr ⟨hr, _, w₂, rfl, Or.inl ⟨e, rfl, by
        rw [attempts_retried h1 failed hr, exec_bind_error h2]⟩⟩
    · rcases h3 : exec env tryOnce w₂ with ⟨r₃, w₃⟩
      exact Or.inr ⟨hr, _, w₂, rfl, Or.inr ⟨rfl, r₃, w₃, h3, by
        rw [attempts_retried h1 failed hr, exec_bind_ok h2, attempts_settled h3 failed (by simp)]⟩⟩
  · exact Or.inl ⟨by simpa using hr, attempts_settled h1 failed fun h => hr h.2⟩

/-! ## the statement of the caller -/

theorem ownCalls_attempts (call : Connection → DriverCall)
    (f : (conn : Connection) → (call conn).Reply → Except Thrown α)
    (hown : ∀ conn, (Act.driver (call conn)).own = true) {q : Bytes → Method Bool}
    (hq : Within Act.Nested (reconnect q)) (failed : α) (m : MysqlWrapper) :
    let t := ownCalls (exec env (attempts q (trying call f) failed 2) (start m)).2.trace
    t = [] ∨ (∃ conn o, t = [⟨.driver (call conn), o⟩]) ∨
      ∃ conn o conn' o', t = [⟨.driver (call conn), o⟩, ⟨.driver (call conn'), o'⟩] ∧
        retried (f conn o) = true := by
  intro t
  obtain ⟨r₁, w₁, h1, hcases⟩ := attempts_cases env q (trying call f) failed (start m)
  obtain ⟨r, w, xs, h, hxs, hcase⟩ := exec_trying env call f hown (start m)
  rw [h1, Prod.mk.injEq] at h
  obtain ⟨rfl, rfl⟩ := h
  have hxs : ownCalls w₁.trace = xs := hxs
  -- what stands in the trace behind the first attempt
  have hfirst : xs = [] ∨ ∃ conn o, xs = [⟨.driver (call conn), o⟩] := by
    rcases hcase with hx | ⟨conn, o, hx, -⟩
    · exact Or.inl hx
    · exact Or.inr ⟨conn, o, hx⟩
  rcases hcases with ⟨-, hend⟩ | ⟨hr, r₂, w₂, h2, ⟨e, -, hend⟩ | ⟨-, r₃, w₃, h3, hend⟩⟩
  · have ht : t = xs := by
      show ownCalls (exec env _ _).2.trace = xs
      rw [hend, hxs]
    rw [ht]
    exact hfirst.imp_right Or.inl
  · have ht : t = xs := by
      have hrec := ownCalls_exec env hq w₁
      rw [h2] at hrec
      show ownCalls (exec env _ _).2.trace = xs
      rw [hend, hrec, hxs]
    rw [ht]
    exact hfirst.imp_right Or.inl
  · obtain ⟨r, w, ys, h, hys, hcase'⟩ := exec_trying env call f hown w₂
    rw [h3, Prod.mk.injEq] at h
    obtain ⟨rfl, rfl⟩ := h
    have ht : t = xs ++ ys := by
      have hrec := ownCalls_exec env hq w₁
      rw [h2] at hrec
      show ownCalls (exec env _ _).2.trace = xs ++ ys
      rw [hend, hys, hrec, hxs]
    rw [ht]
    rcases hcase' with rfl | ⟨conn', o', rfl, -⟩
    · rw [List.append_nil]
      exact hfirst.imp_right Or.inl
    · rcases hcase with rfl | ⟨conn, o, rfl, hro⟩
      · exact Or.inr (Or.inl ⟨conn', o', rfl⟩)
      · exact Or.inr (Or.inr ⟨conn, o, conn', o', rfl, by rw [← hro]; exact hr⟩)

/-- how a statement of the caller went -/
def outcome : Event → Option ExecuteOutcome
  | ⟨.driver (.execute .caller _ _), o⟩ => some o
  | _ => none

def outcomes (t : List Event) : List ExecuteOutcome := t.filterMap outcome

/-- how often the statement of the caller was applied -/
def applications (t : List Event) : Nat := (outcomes t).countP ExecuteOutcome.applied

theorem outcomes_eq (t : List Event) : outcomes t = (ownCalls t).filterMap outcome := by
  have h : ∀ e : Event, e.1.own = false → outcome e = none := by
    intro e he
    obtain ⟨a, r⟩ := e
    cases a with
    | driver call =>
      cases call with
      | execute origin conn q =>
        cases origin with
        | caller => exact absurd he (by simp [Act.own])
        | setSchema => rfl
      | _ => rfl
    | _ => rfl
  unfold outcomes ownCalls
  rw [List.filterMap_filter]
  congr 1
  funext e
  split
  · rfl
  · next he => exact h e (by simpa using he)

/-- an attempt that was applied and is made again has lost its reply -/
theorem lost_of_retried {o : ExecuteOutcome} (happlied : o.applied = true)
    (hr : retried ((ofSql o.result).map fun _ => true) = true) : ∃ code, o = .lost code := by
  cases o with
  | acknowledged => exact absurd hr (by simp [ExecuteOutcome.result, ofSql, Except.map, retried])
  | failed code => exact absurd happlied (by simp [ExecuteOutcome.applied])
  | lost code => exact ⟨code, rfl⟩

theorem Within.trace {p : Method α} (h : Within guar p) (m : MysqlWrapper) :
    ∀ e ∈ (exec env p (start m)).2.trace, guar e.1 := by
  have hstep : ∀ (a : Act) (w : World), guar a → (∀ e ∈ w.trace, guar e.1) →
      True ∧ ∀ e ∈ (perform env a w).2.trace, guar e.1 := by
    intro a w ha hw
    refine ⟨trivial, fun e he => ?_⟩
    have he : e ∈ w.trace ++ [⟨a, _⟩] := he
    rcases List.mem_append.mp he with he | he
    · exact hw e he
    · rw [List.mem_singleton.mp he]
      exact ha
  exact (h.run hstep fun e he => absurd he List.not_mem_nil).2

theorem within_query (fuel : Nat) (q : Bytes) :
    Within (fun a => a.Nested ∨ ∃ conn, a = .driver (.execute .caller conn q))
      (query fuel .caller q) := by
  cases fuel with
  | zero => exact trivial
  | succ fuel =>
    apply within_attempts false ((within_reconnect (nested_query fuel)).mono fun _ => Or.inl)
    exact within_tryQuery (fun _ h => Or.inl h.nested) fun conn => Or.inr ⟨conn, rfl⟩

/-- a statement is executed once, or a second time if the first outcome asks for it -/
theorem outcomes_query (env : Environment) (m : MysqlWrapper) (fuel : Nat) (q : Bytes) :
    let t := (exec env (query fuel .caller q) (start m)).2.trace
    outcomes t = [] ∨ (∃ o, outcomes t = [o]) ∨ ∃ o o', outcomes t = [o, o'] ∧
      retried ((ofSql o.result).map fun _ => true) = true := by
  intro t
  rw [outcomes_eq]
  cases fuel with
  | zero => exact Or.inl rfl
  | succ fuel =>
    have h := ownCalls_attempts env (fun conn => .execute .caller conn q)
      (fun _ o => (ofSql o.result).map fun _ => true) (fun _ => rfl)
      (within_reconnect (nested_query fuel)) false m
    rw [← tryQuery_eq] at h
    rcases h with h | ⟨conn, o, h⟩ | ⟨conn, o, conn', o', h, hr⟩
    · exact Or.inl (congrArg (List.filterMap outcome) h)
    · exact Or.inr (Or.inl ⟨o, congrArg (List.filterMap outcome) h⟩)
    · exact Or.inr (Or.inr ⟨o, o', congrArg (List.filterMap outcome) h, hr⟩)

/-- **A statement is applied at most twice**, in at most two attempts, and twice only if it was
applied the first time and its reply was lost.  Besides it, a call runs only statements that create
the schema. -/
theorem applied_twice_iff (env : Environment) (m : MysqlWrapper) (fuel : Nat) (q : Bytes) :
    let t := (exec env (query fuel .caller q) (start m)).2.trace
    (∀ e ∈ t, e.1.Nested ∨ ∃ conn, e.1 = .driver (.execute .caller conn q)) ∧
      (outcomes t).length ≤ 2 ∧ applications t ≤ 2 ∧
      (applications t = 2 ↔ ∃ code o, outcomes t = [.lost code, o] ∧ o.applied = true) := by
  intro t
  have hcases : outcomes t = [] ∨ (∃ o, outcomes t = [o]) ∨ ∃ o o', outcomes t = [o, o'] ∧
      retried ((ofSql o.result).map fun _ => true) = true := outcomes_query env m fuel q
  have hattempts : (outcomes t).length ≤ 2 := by
    rcases hcases with h | ⟨o, h⟩ | ⟨o, o', h, -⟩
    · simp [h]
    · simp [h]
    · simp [h]
  refine ⟨(within_query fuel q).trace env m, hattempts, ?_, ?_⟩
  · exact List.countP_le_length.trans hattempts
  · show (outcomes t).countP _ = 2 ↔ _
    constructor
    · intro h2
      rcases hcases with h | ⟨o, h⟩ | ⟨o, o', h, hr⟩
      · exact absurd h2 (by simp [h])
      · have hle : (outcomes t).countP ExecuteOutcome.applied ≤ 1 := by
          rw [h]
          exact List.countP_le_length
        omega
      · rw [h] at h2 ⊢
        have hall := List.countP_eq_length.mp h2
        obtain ⟨code, rfl⟩ := lost_of_retried (hall o (by simp)) hr
        exact ⟨code, o', rfl, hall o' (by simp)⟩
    · rintro ⟨code, o, h, ho⟩
      rw [h]
      refine List.countP_eq_length.mpr fun x hx => ?_
      rcases List.mem_pair.mp hx with rfl | rfl
      · rfl
      · exact ho

/-- the reply to the first statement is lost, everything else works -/
def lossyEnvironment : Environment where
  others _ m := m
  driver n call :=
    match call with
    | .getDriverInstance | .setSchema _ _ | .close _ | .createStatement _ => .ok ()
    | .connectionsCount => some 1
    | .connect _ _ _ => .ok n
    | .isClosed _ => .ok false
    | .isValid _ => .ok true
    | .delete _ => ()
    | .execute _ _ _ => if n < 20 then .lost ⟨2013, Or.inl rfl⟩ else .acknowledged
    | .executeQuery _ _ _ => .ok []

def onePooled : MysqlWrapper := ⟨str "h", str "u", str "p", [], [⟨0, 1⟩], 1⟩

def payment : Bytes := str "UPDATE account SET balance = balance - 10"

theorem payment_applied_twice :
    (exec lossyEnvironment (query 1 .caller payment) (start onePooled)).1 = .ok true ∧
      applications (exec lossyEnvironment (query 1 .caller payment) (start onePooled)).2.trace
        = 2 := by
  constructor
  · rfl
  · rfl

end ServerHttpLib.MysqlWrapper
