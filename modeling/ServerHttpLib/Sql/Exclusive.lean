import ServerHttpLib.Sql.Ownership

/-!
# One owner for every connection, and none lost

* `exclusive`        no connection is in the pool twice, in the pool and with a caller, or with two
                     callers, and none is used or handed out after its end;
* `accounted_iff`    when nothing runs, every connection that was opened is in the pool, held or
                     deleted, exactly if no `setSchema` in `create_connection` threw.
-/

namespace ServerHttpLib
open Programs MysqlWrapper Runs

/-- the operation uses the connection in its next action, or hands it out -/
def Running.Uses (op : Running) (conn : Connection) : Prop :=
  match op.rest with
  | .step (.driver call) _ => call.used = some conn
  | .done r => ∃ p ∈ System.handedOut r, p.connection = conn
  | _ => False

namespace System

/-- every connection has one owner -/
structure Exclusive (s : System) : Prop where
  pool : (s.wrapper.connections.map (·.connection)).Nodup
  held : (s.held.map (·.connection)).Nodup
  /-- what a caller holds is not in the pool, and is alive -/
  holder : ∀ conn ∈ s.held.map (·.connection),
    conn ∉ s.wrapper.connections.map (·.connection) ∧ conn ∉ s.history.deleted
  /-- what an operation uses or hands out is in its hands -/
  used : ∀ op ∈ s.operations, ∀ conn, op.Uses conn → conn ∈ op.hand.connections
  /-- what an operation has in hand is alive and held by no caller; it is in the pool only while
  the operation has the mutex -/
  hand : ∀ op ∈ s.operations, ∀ conn ∈ op.hand.connections,
    conn ∉ s.history.deleted ∧ conn ∉ s.held.map (·.connection) ∧
      (conn ∈ s.wrapper.connections.map (·.connection) → op.hasMutex = true)
  /-- two operations have different connections in hand -/
  apart : s.operations.Pairwise fun op op' => Disjoint op.hand.connections op'.hand.connections

theorem pairwise_of_nodup {operations : List Running} (h : (inHand operations).Nodup) :
    operations.Pairwise fun op op' => Disjoint op.hand.connections op'.hand.connections := by
  induction operations with
  | nil => exact List.Pairwise.nil
  | cons op operations ih =>
    obtain ⟨-, hrest, hdisj⟩ := Multiset.nodup_add.mp
      (show Multiset.Nodup (op.hand.connections + inHand operations) from h)
    refine List.pairwise_cons.mpr ⟨fun op' hop' => ?_, ih hrest⟩
    refine Multiset.disjoint_left.mpr fun hc hc' => ?_
    exact Multiset.disjoint_left.mp hdisj hc (mem_inHand hop' hc')

section
variable {s : System} (h : Kept s)
include h

theorem Kept.exists_critical (hm : s.mutex = true) : ∃ op ∈ s.operations, op.hasMutex = true := by
  have hpos : 0 < s.operations.countP Running.hasMutex := by
    rw [h.mutex, hm]
    decide
  exact List.countP_pos_iff.mp hpos

/-- the pool in a critical section: in the hands of the operation, or deleted by it -/
theorem Kept.pool_le {op : Running} (hop : op ∈ s.operations) (hc : op.hasMutex = true) :
    connectionsOf s.wrapper.connections
      ≤ op.hand.own.map (·.connection) + (s.history.deleted : Multiset Connection) := by
  obtain ⟨c, hcrit⟩ := Option.isSome_iff_exists.mp hc
  have hk := h.knows op hop c hcrit
  have hle := Multiset.map_le_map (f := (·.connection)) hk.owned
  rw [hk.pool, Multiset.map_add] at hle
  exact hle.trans (add_le_add (le_refl _) hk.gone)

theorem Kept.pool_held_le : connectionsOf s.wrapper.connections + connectionsOf s.held
    ≤ s.outside + inHand s.operations := by
  cases hm : s.mutex with
  | false =>
    rw [Acting.outside_free hm, away]
    refine le_trans ?_ (le_add_right (le_refl _))
    rw [← add_assoc]
    exact le_add_right (le_refl _)
  | true =>
    obtain ⟨op, hop, hc⟩ := h.exists_critical hm
    obtain ⟨pre, post, hs⟩ := List.append_of_mem hop
    rw [Acting.outside_locked hm, away, hs, inHand_split, Hand.connections]
    refine (add_le_add (h.pool_le hop hc) (le_refl _)).trans ?_
    have hsum : connectionsOf s.held + (s.history.deleted + s.history.lost)
        + (op.hand.own.map (·.connection) + (op.hand.stage.connection.toList : Multiset Connection)
          + inHand (pre ++ post))
        = op.hand.own.map (·.connection) + (s.history.deleted : Multiset Connection)
          + connectionsOf s.held + ((s.history.lost : Multiset Connection)
            + (op.hand.stage.connection.toList + inHand (pre ++ post))) := by
      abel
    rw [hsum]
    exact le_add_right (le_refl _)

end

section
variable {s : System} (h : Kept s)
include h

theorem Kept.uses_in_hand {op : Running} (hop : op ∈ s.operations) {conn : Connection}
    (hu : op.Uses conn) : conn ∈ op.hand.connections := by
  have hcontract := h.contract op hop
  refine Multiset.mem_add.mpr (.inl ?_)
  unfold Running.Uses at hu
  split at hu
  · next call k hrest =>
    rw [hrest] at hcontract
    exact hcontract.1.1 conn hu
  · next r hrest =>
    rw [hrest] at hcontract
    obtain ⟨p, hp, rfl⟩ := hu
    have hdone : Done op.exclusive r op.hand := hcontract
    unfold Done at hdone
    split at hdone
    · rw [hdone.1] at hp
      exact absurd hp List.not_mem_nil
    · rw [hdone]
      exact Multiset.mem_map_of_mem _ (Multiset.mem_coe.mpr hp)
  · exact hu.elim

theorem Kept.apart {op op' : Running} (hop : op ∈ s.operations) (hop' : op' ∈ s.operations)
    (hne : op ≠ op') : Disjoint op.hand.connections op'.hand.connections := by
  have hsymm : Std.Symm fun op op' : Running => Disjoint op.hand.connections op'.hand.connections :=
    ⟨fun _ _ hd => hd.symm⟩
  exact (pairwise_of_nodup (Multiset.nodup_add.mp h.nodup).2.1).forall hop hop' hne

/-- what is in hand is in the pool only while the operation has the mutex -/
theorem Kept.hasMutex_of_mem_pool {op : Running} (hop : op ∈ s.operations) {conn : Connection}
    (hconn : conn ∈ op.hand.connections)
    (hpool : conn ∈ connectionsOf s.wrapper.connections) : op.hasMutex = true := by
  by_contra hmutex
  cases hm : s.mutex with
  | false =>
    have hdisj := (Multiset.nodup_add.mp h.nodup).2.2
    rw [Acting.outside_free hm] at hdisj
    exact Multiset.disjoint_left.mp hdisj (Multiset.mem_add.mpr (.inl hpool))
      (mem_inHand hop hconn)
  | true =>
    obtain ⟨q, hq, hc⟩ := h.exists_critical hm
    rcases Multiset.mem_add.mp (Multiset.mem_of_le (h.pool_le hq hc) hpool) with hown | hdeleted
    · have hne : op ≠ q := fun he => hmutex (he ▸ hc)
      exact Multiset.disjoint_left.mp (h.apart hop hq hne) hconn (Multiset.mem_add.mpr (.inl hown))
    · exact h.not_mem_away hop hconn
        (Multiset.mem_add.mpr (.inr (Multiset.mem_add.mpr (.inl hdeleted))))

end

/-- **Exclusive ownership**: along every run, each connection has one owner. -/
theorem exclusive {fuel : Nat} {ls : List Label} {s : System}
    (h : runs (step fuel) start ls = some s) : Exclusive s := by
  have hk := kept_run h
  obtain ⟨hpool, hheld, hdisj⟩ :=
    Multiset.nodup_add.mp (Multiset.nodup_of_le hk.pool_held_le hk.nodup)
  have haway : s.away.Nodup :=
    (Multiset.nodup_add.mp (Multiset.nodup_add.mp hk.nodup).1).2.1
  refine ⟨Multiset.coe_nodup.mp hpool, Multiset.coe_nodup.mp hheld, ?_, ?_, ?_, ?_⟩
  · intro conn hconn
    refine ⟨fun hp => Multiset.disjoint_left.mp hdisj hp hconn, fun hd => ?_⟩
    exact Multiset.disjoint_left.mp (Multiset.nodup_add.mp haway).2.2 hconn
      (Multiset.mem_add.mpr (.inl hd))
  · exact fun op hop conn hu => hk.uses_in_hand hop hu
  · intro op hop conn hconn
    have hnot := hk.not_mem_away hop hconn
    refine ⟨fun hd => hnot ?_, fun hh => hnot (Multiset.mem_add.mpr (.inl hh)),
      hk.hasMutex_of_mem_pool hop hconn⟩
    exact Multiset.mem_add.mpr (.inr (Multiset.mem_add.mpr (.inl hd)))
  · exact pairwise_of_nodup (Multiset.nodup_add.mp hk.nodup).2.1

/-- Two callers at once find the pool empty, and open a connection each.  One of them gives its
connection back, and a reconnect deletes that. -/
def interleavedRun : List Label :=
  [.start .getConnection, .start .getConnection]
    ++ ([0, 0, 0, 1, 1, 1, 0, 0, 0, 1, 1, 1, 0, 1, 0, 1, 0, 1, 0, 1].map fun n =>
      .act n (driverAnswers (.ok (n + 1)) (.ok ())))
    ++ [.finish 0, .finish 0]
    ++ oneOperation (.release ⟨1, 1⟩) 4 (driverAnswers (.error 2003) (.ok ()))
    ++ oneOperation .reconnect 14 (driverAnswers (.error 2003) (.ok ()))

def interleaved : System :=
  { start with
    wrapper := ⟨[], [], [], [], [], 2⟩
    held := [⟨2, 1⟩]
    history := ⟨1, 1, [(2, 0), (1, 0)], [1], [], fun _ => none⟩ }

theorem interleavedRun_interleaved : runs (step 0) start interleavedRun = some interleaved := rfl

theorem exclusive_interleaved : runs (step 0) start interleavedRun = some interleaved ∧
    interleaved.held = [⟨2, 1⟩] ∧ interleaved.history.deleted = [1] ∧ Exclusive interleaved :=
  ⟨interleavedRun_interleaved, rfl, rfl, exclusive interleavedRun_interleaved⟩

/-! ## nothing is lost -/

/-- every connection that was opened is in the pool, held or deleted -/
def Accounted (s : System) : Prop := ∀ conn ∈ s.history.created.map Prod.fst,
  conn ∈ s.wrapper.connections.map (·.connection) ∨ conn ∈ s.held.map (·.connection) ∨
    conn ∈ s.history.deleted

end System

/-- the next action is the `setSchema` of `create_connection`, and that throws -/
def Running.NamingThrows (op : Running) (answer : (call : DriverCall) → call.Reply) : Prop :=
  match op.rest with
  | .step (.driver (.setSchema conn schema)) _ =>
    op.hand.stage = .naming conn ∧ ∃ code, answer (.setSchema conn schema) = Except.error code
  | _ => False

namespace System

/-- a step in which the `setSchema` of `create_connection` throws -/
def NamingThrows (s : System) : Label → Prop
  | .act number answer => ∃ op ∈ s.operations[number]?, op.NamingThrows answer
  | _ => False

/-- a connection is lost exactly in such a step -/
theorem lost_record (s : System) (answer : (call : DriverCall) → call.Reply) (exclusive : Bool)
    (hand : Hand) (a : Act) (k : a.Reply → MysqlWrapper.Method (Option PooledConnection)) :
    (s.history.record hand.stage s.wrapper a (s.reply answer a)).lost = [] ↔
      s.history.lost = [] ∧
        ¬ (⟨exclusive, .step a k, hand⟩ : Running).NamingThrows answer := by
  have hsame : s.history.lost = [] ↔ s.history.lost = [] ∧ ¬ False := by simp
  cases a with
  | update f =>
    rw [History.record]
    split <;> exact hsame
  | driver call =>
    cases call with
    | connect host user password =>
      simp only [History.record, reply]
      split <;> exact hsame
    | setSchema conn schema =>
      unfold Running.NamingThrows
      simp only [History.record, reply]
      split
      · next u hr => simp [hr]
      · next code hr =>
        by_cases hs : hand.stage = .naming conn
        · rw [if_pos hs]
          exact ⟨fun h => absurd h (List.cons_ne_nil _ _), fun h => absurd ⟨hs, code, hr⟩ h.2⟩
        · rw [if_neg hs]
          exact ⟨fun h => ⟨h, fun hn => hs hn.1⟩, And.left⟩
    | _ => exact hsame
  | _ => exact hsame

theorem lost_step {fuel : Nat} {s s' : System} {l : Label} (hs : step fuel s l = some s') :
    s'.history.lost = [] ↔ s.history.lost = [] ∧ ¬ NamingThrows s l := by
  cases l with
  | start op =>
    have hsame : s'.history = s.history := by
      rcases startOperation_cases hs with ⟨_, _, _, -, -, rfl⟩ | ⟨-, _, _, -, rfl⟩ <;> rfl
    rw [hsame]
    exact ⟨fun h => ⟨h, id⟩, And.left⟩
  | finish number =>
    obtain ⟨exclusive, r, hand, -, rfl⟩ := step_finish hs
    have hsame : (s.finishBehind number exclusive r).history.lost = s.history.lost := by
      cases exclusive <;> rfl
    rw [hsame]
    exact ⟨fun h => ⟨h, id⟩, And.left⟩
  | act number answer =>
    obtain ⟨exclusive, a, k, hand, hop, -, rfl⟩ := step_act hs
    have hthrows : NamingThrows s (.act number answer) ↔
        (⟨exclusive, .step a k, hand⟩ : Running).NamingThrows answer := by
      rw [NamingThrows, hop]
      simp
    rw [hthrows]
    exact lost_record s answer exclusive hand a k

theorem lost_run {fuel : Nat} {ls : List Label} {s s' : System}
    (h : runs (step fuel) s ls = some s') :
    s'.history.lost = [] ↔
      s.history.lost = [] ∧ Along (step fuel) (fun s l => ¬ NamingThrows s l) s ls := by
  induction ls generalizing s with
  | nil =>
    obtain rfl := Option.some.inj h
    exact ⟨fun h => ⟨h, trivial⟩, And.left⟩
  | cons l ls ih =>
    rw [runs_cons, Option.bind_eq_some_iff] at h
    obtain ⟨s₁, h1, h2⟩ := h
    rw [ih h2, lost_step h1, and_assoc]
    refine and_congr_right fun _ => and_congr_right fun _ =>
      ⟨fun ha s₂ hs => ?_, fun ha => ha s₁ h1⟩
    rw [h1] at hs
    exact Option.some.inj hs ▸ ha

/-- **No connection is lost** in a run exactly if no `setSchema` that `create_connection` calls
throws: the connection whose `setSchema` throws is neither returned nor deleted. -/
theorem accounted_iff {fuel : Nat} {ls : List Label} {s : System}
    (h : runs (step fuel) start ls = some s) (hidle : s.operations = []) :
    Accounted s ↔ Along (step fuel) (fun s l => ¬ NamingThrows s l) start ls := by
  have hk := kept_run h
  have hfree : s.mutex = false := by
    have hm := hk.mutex
    rw [hidle] at hm
    exact Bool.toNat_eq_zero.mp hm.symm
  have hplaces := hk.places
  have hnd := hk.nodup
  rw [hidle, Acting.outside_free hfree, away] at hplaces hnd
  have hsum : connectionsOf s.wrapper.connections + (connectionsOf s.held
      + ((s.history.deleted : Multiset Connection) + s.history.lost)) + inHand []
      = connectionsOf s.wrapper.connections + connectionsOf s.held
        + (s.history.deleted : Multiset Connection) + s.history.lost := by
    show _ + 0 = _
    abel
  rw [hsum] at hplaces hnd
  have hlost : s.history.lost = [] ↔ Along (step fuel) (fun s l => ¬ NamingThrows s l) start ls :=
    (lost_run h).trans (and_iff_right rfl)
  rw [← hlost]
  have hfound : ∀ conn, (conn ∈ s.wrapper.connections.map (·.connection) ∨
      conn ∈ s.held.map (·.connection) ∨ conn ∈ s.history.deleted) ↔
        conn ∈ connectionsOf s.wrapper.connections + connectionsOf s.held
          + (s.history.deleted : Multiset Connection) := by
    intro conn
    rw [Multiset.mem_add, Multiset.mem_add, or_assoc]
    rfl
  have hcreated : ∀ conn, conn ∈ s.history.created.map Prod.fst ↔
      conn ∈ connectionsOf s.wrapper.connections + connectionsOf s.held
          + (s.history.deleted : Multiset Connection) ∨ conn ∈ s.history.lost := by
    intro conn
    rw [← Multiset.mem_coe, hplaces, Multiset.mem_add]
    rfl
  constructor
  · intro hall
    by_contra hne
    obtain ⟨conn, hconn⟩ := List.exists_mem_of_ne_nil _ hne
    have hmem := (hfound conn).mp (hall conn ((hcreated conn).mpr (.inr hconn)))
    exact Multiset.disjoint_left.mp (Multiset.nodup_add.mp hnd).2.2 hmem hconn
  · intro hnone conn hconn
    rcases (hcreated conn).mp hconn with hmem | hmem
    · exact (hfound conn).mpr hmem
    · rw [hnone] at hmem
      exact absurd hmem List.not_mem_nil

theorem accounted_iff_interleaved : runs (step 0) start interleavedRun = some interleaved ∧
    (Accounted interleaved ↔
      Along (step 0) (fun s l => ¬ NamingThrows s l) start interleavedRun) :=
  ⟨interleavedRun_interleaved, accounted_iff interleavedRun_interleaved rfl⟩

/-- a connection is opened, and its `setSchema` throws -/
def leakRun : List Label := oneOperation .getConnection 10 (driverAnswers (.ok 1) (.error 1049))

def leaked : System := { configured with history := ⟨0, 0, [(1, 0)], [], [1], fun _ => none⟩ }

theorem leakRun_leaked : runs (step 1) configured leakRun = some leaked := rfl

/-- the driver has opened connection 1, nothing runs, and the connection is nowhere -/
theorem connection_leaked : runs (step 1) start (setRun ++ leakRun) = some leaked ∧
    leaked.operations = [] ∧ leaked.history.created = [(1, 0)] ∧
    leaked.wrapper.connections = [] ∧ leaked.held = [] ∧ leaked.history.deleted = [] ∧
    ¬ Accounted leaked := by
  refine ⟨runs_trans setRun_configured leakRun_leaked, rfl, rfl, rfl, rfl, rfl, fun h => ?_⟩
  rcases h 1 (List.mem_singleton_self 1) with h | h | h <;> exact absurd h List.not_mem_nil

end System

end ServerHttpLib
