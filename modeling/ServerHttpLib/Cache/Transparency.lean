import ServerHttpLib.Cache.Specification

/-!
# Pruning is invisible, except to `erase`

An expired entry stays in the cache until a call comes across it.  `get`, `ttl_left` and `contains`
look at the expiry time themselves; `erase` does not, and reports an expired entry as erased if it
is still there.

* `lazyCall_sub`            a call on a list and on a part of it that has the same live items;
* `prune_transparent_iff`   extra calls of `prune` change no result, wherever they are inserted, if
                            and only if no `erase` comes across an expired entry.
-/

namespace ServerHttpLib.LRUCache
open Recency RecencyList

attribute [local instance] timeOrder

/-- calls of `prune` were inserted -/
inductive Inserts : List (Call × Time) → List (Call × Time) → Prop
  | nil : Inserts [] []
  | call {h h' : List (Call × Time)} (p : Call × Time) (hi : Inserts h h') :
      Inserts (p :: h) (p :: h')
  | prune {h h' : List (Call × Time)} (t : Time) (hi : Inserts h h') :
      Inserts h ((.prune, t) :: h')

/-- the calls that tell something about a key -/
def Call.answers : Call → Bool
  | .get _ | .ttlLeft _ | .contains _ | .erase _ => true
  | _ => false

/-- no `erase` finds an entry that is expired at the time of the call -/
def NoStaleErase : LRUCache → List (Call × Time) → Prop
  | _, [] => True
  | c, (q, t) :: h =>
    (∀ key, q = .erase key → ∀ node, c.map.find? key = some node →
      (node.entry.isExpired fun _ => t).1 = false) ∧ NoStaleErase (c.call (fun _ => t) q).2 h

variable {now later : Time} {r r' : Recent} {q : Call} {cap : Nat}

theorem Inserts.refl (h : List (Call × Time)) : Inserts h h := by
  induction h with
  | nil => exact .nil
  | cons p h ih => exact .call p ih

/-! ## a list and a part of it -/

/-- `r'` is `r` without some of its expired items -/
structure Sub (now : Time) (r' r : Recent) : Prop where
  same : SameLive now r' r
  subset : ∀ i ∈ r'.items, i ∈ r.items

theorem Sub.refl (now : Time) (r : Recent) : Sub now r r := ⟨rfl, fun _ h => h⟩

theorem Sub.mono (h : Sub now r' r) (hle : now ≤ later) : Sub later r' r :=
  ⟨h.same.mono hle, h.subset⟩

theorem Sub.prune (h : Sub later r' r) (hle : now ≤ later) : Sub later (live now r') r :=
  ⟨(live_live hle r').trans h.same, fun i hi => h.subset i (List.mem_filter.mp hi).1⟩

theorem Sub.erase (h : Sub now r' r) (k : Bytes) : Sub now (r'.erase k) (r.erase k) := by
  refine ⟨h.same.erase k, fun i hi => ?_⟩
  obtain ⟨hm, hne⟩ := mem_erase_iff.mp hi
  exact mem_erase_iff.mpr ⟨h.subset i hm, hne⟩

theorem Sub.put (h : Sub now r' r) (i : Item Bytes Bytes Time) : Sub now (r'.put i) (r.put i) := by
  refine ⟨h.same.put i, fun j hj => ?_⟩
  rcases mem_put_iff.mp hj with he | ⟨hm, hne⟩
  · exact mem_put_iff.mpr (.inl he)
  · exact mem_put_iff.mpr (.inr ⟨h.subset j hm, hne⟩)

theorem Sub.ask (h : Sub now r' r) (key : Bytes) (absent : Result)
    (found found' : Item Bytes Bytes Time → Result × Recent)
    (hf : ∀ i, (found' i).1 = (found i).1 ∧ Sub now (found' i).2 (found i).2) :
    (ask now r' key absent found').1 = (ask now r key absent found).1 ∧
      Sub now (ask now r' key absent found').2 (ask now r key absent found).2 := by
  have hl : (live now r').find? key = (live now r).find? key := congrArg (·.find? key) h.same
  rcases ask_spec key absent found r with ⟨hn, he⟩ | ⟨i, hi, -, he⟩
  · rcases ask_spec key absent found' r' with ⟨-, he'⟩ | ⟨j, hj, -, -⟩
    · rw [he, he']
      exact ⟨rfl, h.erase key⟩
    · rw [hl, hn] at hj
      exact absurd hj (by simp)
  · rcases ask_spec key absent found' r' with ⟨hn', -⟩ | ⟨j, hj, -, he'⟩
    · rw [hl, hi] at hn'
      exact absurd hn' (by simp)
    · rw [hl, hi, Option.some.injEq] at hj
      rw [he, he', ← hj]
      exact hf i

/-- an erased item that is live is in both lists, and an absent one in neither -/
theorem Sub.erase_result (h : Sub now r' r) {key : Bytes}
    (hstale : ∀ i, r.find? key = some i → i.Live now) :
    (r'.find? key).isSome = (r.find? key).isSome := by
  cases hr : r.find? key with
  | none =>
    have hn : r'.find? key = none :=
      find?_eq_none_iff.mpr fun i hi => find?_eq_none_iff.mp hr i (h.subset i hi)
    rw [hn]
  | some i =>
    have hs := h.same.find? key
    rw [hr, Option.filter_some, if_pos (decide_eq_true (hstale i hr)),
      Option.filter_eq_some_iff] at hs
    rw [hs.1]

/-- **A call answers the same on a list and on a part of it** with the same live items, unless it
is an `erase` of an expired item. -/
theorem lazyCall_sub (cap : Nat) (h : Sub now r' r)
    (hstale : ∀ key, q = .erase key → ∀ i, r.find? key = some i →
      i.Live now) :
    (lazyCall cap now r' q).1 = (lazyCall cap now r q).1 ∧
      Sub now (lazyCall cap now r' q).2 (lazyCall cap now r q).2 := by
  cases q with
  | set key value ttlMs =>
    have hl : live now r' = live now r := h.same
    have e : lazyCall cap now r' (.set key value ttlMs)
        = lazyCall cap now r (.set key value ttlMs) := by
      unfold lazyCall
      rw [hl]
    rw [e]
    exact ⟨rfl, Sub.refl _ _⟩
  | get key =>
    exact h.ask key (.value none) (fun i => (.value (some i.value), r.put i))
      (fun i => (.value (some i.value), r'.put i)) fun i => ⟨rfl, h.put i⟩
  | ttlLeft key =>
    exact h.ask key (.left none) (fun i => (.left (msLeft now i.expiry), r))
      (fun i => (.left (msLeft now i.expiry), r')) fun _ => ⟨rfl, h⟩
  | contains key =>
    exact h.ask key (.bool false) (fun _ => (.bool true, r)) (fun _ => (.bool true, r'))
      fun _ => ⟨rfl, h⟩
  | erase key => exact ⟨congrArg Result.bool (h.erase_result (hstale key rfl)), h.erase key⟩
  | clear => exact ⟨rfl, Sub.refl _ _⟩
  | prune =>
    have e : lazyCall cap now r' .prune = lazyCall cap now r .prune :=
      congrArg (Prod.mk Result.unit) h.same
    rw [e]
    exact ⟨rfl, Sub.refl _ _⟩

/-! ## whole runs -/

theorem observed_cons (kind : Call → Bool) (p : Call × Time) (h : List (Call × Time)) (a : Result)
    (rs : List Result) : observed kind (p :: h) (a :: rs)
      = if kind p.1 then (p.1, a) :: observed kind h rs else observed kind h rs := by
  unfold observed
  rw [List.map_cons, List.zip_cons_cons, List.filter_cons]

def NoStale (cap : Nat) : Recent → List (Call × Time) → Prop
  | _, [] => True
  | r, (q, t) :: h =>
    (∀ key, q = .erase key → ∀ i, r.find? key = some i → i.Live t) ∧
      NoStale cap (lazyCall cap t r q).2 h

theorem Refines.stale_iff {c : LRUCache} (hr : Refines c r) (t : Time) (key : Bytes) :
    (∀ node, c.map.find? key = some node → (node.entry.isExpired fun _ => t).1 = false) ↔
      ∀ i, r.find? key = some i → i.Live t := by
  obtain ⟨l, hl, hi⟩ := hr
  rcases hl.lookup key with ⟨hn, hne⟩ | ⟨l₁, s, l₂, rfl, rfl, hs⟩
  · rw [hn, find?_none hi hne]
    exact iff_of_true (fun _ h => absurd h (by simp)) fun _ h => absurd h (by simp)
  · rw [hs, find?_item hi hl.keys]
    have hx := (expired_eq s t).2
    constructor
    · rintro h i ⟨⟩
      exact not_expired (h s.node rfl)
    · rintro h node ⟨⟩
      exact Bool.eq_false_iff.mpr fun he => hx.mp he (h s.item rfl)

theorem noStaleErase_iff {c : LRUCache} (hr : Refines c r) (h : List (Call × Time)) :
    NoStaleErase c h ↔ NoStale c.capacityBytes r h := by
  induction h generalizing c r with
  | nil => exact Iff.rfl
  | cons p h ih =>
    obtain ⟨q, t⟩ := p
    obtain ⟨-, hr', hcap⟩ := call_refines hr t q
    have hih := ih hr'
    rw [hcap] at hih
    refine and_congr ?_ hih
    exact forall_congr' fun key => imp_congr_right fun _ => hr.stale_iff t key

/-- inserted calls of `prune` change no result, if no erased item is expired -/
theorem lazyRun_inserts {h h' : List (Call × Time)} (hi : Inserts h h')
    (hs : ∀ t ∈ h'.map Prod.snd, Sub t r' r) (hclock : (h'.map Prod.snd).Pairwise (· ≤ ·))
    (hstale : NoStale cap r h) :
    observed Call.answers h' (lazyRun cap r' h').1
      = observed Call.answers h (lazyRun cap r h).1 := by
  induction hi generalizing r r' with
  | nil => rfl
  | @call h h' p hi ih =>
    obtain ⟨q, t⟩ := p
    rw [List.map_cons, List.pairwise_cons] at hclock
    obtain ⟨h1, h2⟩ := lazyCall_sub cap (hs t List.mem_cons_self) hstale.1
    have hih := ih (fun t' ht' => h2.mono (hclock.1 t' ht')) hclock.2 hstale.2
    show observed Call.answers _ ((lazyCall cap t r' q).1 :: (lazyRun cap _ h').1)
      = observed Call.answers _ ((lazyCall cap t r q).1 :: (lazyRun cap _ h).1)
    rw [observed_cons, observed_cons, h1, hih]
  | @prune h h' t hi ih =>
    rw [List.map_cons, List.pairwise_cons] at hclock
    have hs' : ∀ t' ∈ h'.map Prod.snd, Sub t' (live t r') r := fun t' ht' =>
      (hs t' (List.mem_cons_of_mem _ ht')).prune (hclock.1 t' ht')
    have hih := ih hs' hclock.2 hstale
    show observed Call.answers _ (Result.unit :: (lazyRun cap (live t r') h').1) = _
    rw [observed_cons, if_neg (by simp [Call.answers]), hih]

/-- if `prune` cannot be noticed then no erased item is expired: a `prune` right before the `erase`
would change its result -/
theorem noStale_of_inserts {h : List (Call × Time)} (t₀ : Time)
    (hclock : (h.map Prod.snd).Pairwise (· ≤ ·)) (hle : ∀ t ∈ h.map Prod.snd, t₀ ≤ t)
    (hsame : ∀ h', Inserts h h' → (h'.map Prod.snd).Pairwise (· ≤ ·) →
      (∀ t ∈ h'.map Prod.snd, t₀ ≤ t) → observed Call.answers h' (lazyRun cap r h').1
        = observed Call.answers h (lazyRun cap r h).1) : NoStale cap r h := by
  induction h generalizing r t₀ with
  | nil => trivial
  | cons p h ih =>
    obtain ⟨q, t⟩ := p
    have hc := hclock
    rw [List.map_cons, List.pairwise_cons] at hc
    refine ⟨?_, ih t hc.2 hc.1 fun h' hi' hclock' hle' => ?_⟩
    · rintro key rfl i hk
      by_contra hx
      have hins := hsame ((.prune, t) :: (.erase key, t) :: h) (.prune t (.refl _)) ?_ ?_
      · have hnone : (live t r).find? key = none := by
          rw [find?_live, hk, Option.filter_some, if_neg (by simpa using hx)]
        change observed Call.answers ((.prune, t) :: (.erase key, t) :: h) (.unit
            :: .bool ((live t r).find? key).isSome :: (lazyRun cap ((live t r).erase key) h).1)
          = observed Call.answers ((.erase key, t) :: h)
            (.bool (r.find? key).isSome :: (lazyRun cap (r.erase key) h).1) at hins
        rw [observed_cons, if_neg (by simp [Call.answers]), observed_cons, observed_cons, hnone,
          hk] at hins
        have hhead := congrArg List.head? hins
        exact absurd hhead (by simp [Call.answers])
      · rw [List.map_cons, List.map_cons, List.pairwise_cons]
        refine ⟨fun t' ht' => ?_, hclock⟩
        rcases List.mem_cons.mp ht' with rfl | ht'
        · exact le_refl _
        · exact hc.1 t' ht'
      · intro t' ht'
        rcases List.mem_cons.mp ht' with rfl | ht'
        · exact hle _ List.mem_cons_self
        · exact hle t' ht'
    · have hins := hsame ((q, t) :: h') (.call _ hi') ?_ ?_
      · change observed Call.answers ((q, t) :: h')
            ((lazyCall cap t r q).1 :: (lazyRun cap (lazyCall cap t r q).2 h').1)
          = observed Call.answers ((q, t) :: h)
            ((lazyCall cap t r q).1 :: (lazyRun cap (lazyCall cap t r q).2 h).1) at hins
        rw [observed_cons, observed_cons] at hins
        split at hins
        · exact (List.cons.inj hins).2
        · exact hins
      · rw [List.map_cons, List.pairwise_cons]
        exact ⟨hle', hclock'⟩
      · intro t' ht'
        rcases List.mem_cons.mp ht' with rfl | ht'
        · exact hle _ List.mem_cons_self
        · exact (hle t List.mem_cons_self).trans (hle' t' ht')

/-- **Pruning is invisible if and only if no `erase` meets an expired entry**: the results of
`get`, `ttl_left`, `contains` and `erase` are the same for every way to insert calls of `prune`. -/
theorem prune_transparent_iff (capacityMb : Nat) (h : List (Call × Time))
    (hclock : (h.map Prod.snd).Pairwise (· ≤ ·)) :
    (∀ h', Inserts h h' → (h'.map Prod.snd).Pairwise (· ≤ ·) →
      observed Call.answers h' ((new capacityMb).runCalls (atTimes h')).1
        = observed Call.answers h ((new capacityMb).runCalls (atTimes h)).1) ↔
    NoStaleErase (new capacityMb) h := by
  have hrun := fun h => (runAt_refines (refines_new capacityMb) h).1
  simp only [hrun]
  rw [noStaleErase_iff (refines_new capacityMb)]
  constructor
  · intro hsame
    cases h with
    | nil => trivial
    | cons p h =>
      refine noStale_of_inserts p.2 hclock (fun t ht => ?_)
        fun h' hi hclock' _ => hsame h' hi hclock'
      rw [List.map_cons, List.pairwise_cons] at hclock
      rcases List.mem_cons.mp ht with rfl | ht
      · exact le_refl _
      · exact hclock.1 t ht
  · intro hstale h' hi hclock'
    exact lazyRun_inserts hi (fun t _ => Sub.refl t _) hclock' hstale

/-- an entry that expires, is looked for and is then erased -/
def expiringErase : List (Call × Time) :=
  [(.set (str "k") (str "v") 1, 0), (.contains (str "k"), 0), (.get (str "k"), 1000000),
    (.erase (str "k"), 1000000)]

theorem prune_transparent_iff_expiring :
    (expiringErase.map Prod.snd).Pairwise (· ≤ ·) ∧
    ((∀ h', Inserts expiringErase h' → (h'.map Prod.snd).Pairwise (· ≤ ·) →
      observed Call.answers h' ((new 1).runCalls (atTimes h')).1
        = observed Call.answers expiringErase ((new 1).runCalls (atTimes expiringErase)).1) ↔
    NoStaleErase (new 1) expiringErase) := by
  have hclock : (expiringErase.map Prod.snd).Pairwise (· ≤ ·) := by decide
  exact ⟨hclock, prune_transparent_iff 1 expiringErase hclock⟩

/-- an entry that has expired and is then erased, with nothing in between -/
def staleErase : List (Call × Time) :=
  [(.set (str "k") (str "v") 1, 0), (.erase (str "k"), 1000000)]

/-- `staleErase` with a `prune` ahead of the `erase` -/
def prunedErase : List (Call × Time) :=
  [(.set (str "k") (str "v") 1, 0), (.prune, 1000000), (.erase (str "k"), 1000000)]

/-- `erase` does not look at the expiry: it answers `true` for an expired entry that is still
stored and `false` for one that was pruned -/
theorem stale_erase_observed :
    Inserts staleErase prunedErase ∧ (prunedErase.map Prod.snd).Pairwise (· ≤ ·) ∧
      observed Call.answers staleErase ((new 1).runCalls (atTimes staleErase)).1
        = [(.erase (str "k"), .bool true)] ∧
      observed Call.answers prunedErase ((new 1).runCalls (atTimes prunedErase)).1
        = [(.erase (str "k"), .bool false)] := by
  have hins : Inserts staleErase prunedErase := by
    apply Inserts.call
    apply Inserts.prune
    apply Inserts.call
    exact Inserts.nil
  exact ⟨hins, by decide, by decide +kernel, by decide +kernel⟩

end ServerHttpLib.LRUCache
