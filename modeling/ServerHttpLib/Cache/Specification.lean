import ServerHttpLib.Cache.Refinement

/-!
# What the cache should answer

The specification is a recency list in which an expired item is never looked at.  `set` drops what
is expired, puts its item to the front and keeps the longest prefix that fits; a `get` that finds
its key moves it to the front.

* `lazyCall_spec`         with the same live items, the list of the cache answers the same;
* `refines_spec`          so does the cache over whole runs; what `get` returns was set last, and
                          what a call drops did not fit together with all that is more recent;
* `expired_set_evicts`    an item that is expired when it is set takes part in the eviction;
* `refines_liveStored`    without such items only live ones are ever kept, and they fit.
-/

namespace ServerHttpLib.LRUCache
open Recency RecencyList

attribute [local instance] timeOrder

/-- the expiry time that `set` is asked for; the last time point stands for never -/
def askedExpiry (now : Time) (ttlMs : Int) : WithTop Time :=
  if ttlMs = 0 then ⊤ else deadline (now + ttlMs * ticksPerMs)

/-- what `set` does with its item, at a time -/
abbrev Store := Time → Item Bytes Bytes Time → Recent → Recent

/-- the item before all that is live, as far as it fits -/
def storeLive (cap : Nat) : Store := fun now i s => keep bytes cap ((live now s).put i)

/-- all that is live, the item included, as far as it fits -/
def liveStored (cap : Nat) : Store := fun now i s => keep bytes cap (live now (s.put i))

def specAsk (now : Time) (s : Recent) (key : Bytes) (absent : Result)
    (found : Item Bytes Bytes Time → Result × Recent) : Result × Recent :=
  match (live now s).find? key with
  | none => (absent, s)
  | some i => found i

def specCall (store : Store) (now : Time) (s : Recent) : Call → Result × Recent
  | .set key value ttlMs => (.unit, store now ⟨key, value, askedExpiry now ttlMs⟩ s)
  | .get key => specAsk now s key (.value none) fun i => (.value (some i.value), s.put i)
  | .ttlLeft key => specAsk now s key (.left none) fun i => (.left (msLeft now i.expiry), s)
  | .contains key => specAsk now s key (.bool false) fun _ => (.bool true, s)
  | .erase key => (.bool ((live now s).find? key).isSome, s.erase key)
  | .clear => (.unit, .nil)
  | .prune => (.unit, s)

def specRun (store : Store) : Recent → List (Call × Time) → List Result × Recent
  | s, [] => ([], s)
  | s, (q, now) :: h =>
    let a := specCall store now s q
    let rs := specRun store a.2 h
    (a.1 :: rs.1, rs.2)

/-- `get`, `contains` and `ttl_left` -/
def Call.looks : Call → Bool
  | .get _ | .contains _ | .ttlLeft _ => true
  | _ => false

/-- the results of the calls of a kind -/
def observed (kind : Call → Bool) (h : List (Call × Time)) (rs : List Result) :
    List (Call × Result) :=
  ((h.map Prod.fst).zip rs).filter fun p => kind p.1

variable {now later : Time} {r r' s : Recent} {q : Call} {cap : Nat}

/-! ## what is live decides -/

section
variable (key : Bytes) (absent : Result) (found : Item Bytes Bytes Time → Result × Recent)

/-- a call that asks sees the live items only; an absent key is absent behind it -/
theorem ask_spec (r : Recent) :
    ((live now r).find? key = none ∧ ask now r key absent found = (absent, r.erase key)) ∨
    ∃ i, (live now r).find? key = some i ∧ i ∈ r.items ∧ ask now r key absent found = found i := by
  cases hr : r.find? key with
  | none =>
    left
    rw [find?_live, hr, ask_none absent found hr, erase_of_none hr]
    exact ⟨rfl, rfl⟩
  | some i =>
    rw [find?_live, hr]
    by_cases hi : i.Live now
    · right
      rw [ask_live absent found hr hi]
      exact ⟨i, by rw [Option.filter_some, if_pos (decide_eq_true hi)],
        (find?_eq_some_iff.mp hr).1, rfl⟩
    · left
      rw [ask_expired absent found hr hi, Option.filter_some, if_neg (by simpa using hi)]
      exact ⟨rfl, rfl⟩

theorem ask_eq (h : SameLive now r s) (found' : Item Bytes Bytes Time → Result × Recent)
    (hf : ∀ i, (found i).1 = (found' i).1 ∧ SameLive now (found i).2 (found' i).2) :
    (ask now r key absent found).1 = (specAsk now s key absent found').1 ∧
      SameLive now (ask now r key absent found).2 (specAsk now s key absent found').2 := by
  unfold specAsk
  rw [← h]
  rcases ask_spec key absent found r with ⟨hn, he⟩ | ⟨i, hi, -, he⟩
  · rw [hn, he]
    exact ⟨rfl, (sameLive_erase hn).trans h⟩
  · rw [hi, he]
    exact hf i

end

/-- the expiry time is computed without overflow -/
def NoOverflow (q : Call) (now : Time) : Prop :=
  ∀ key value ttlMs, q = .set key value ttlMs →
    -2 ^ 63 ≤ now + ttlMs * ticksPerMs ∧ now + ttlMs * ticksPerMs < 2 ^ 63

theorem askedExpiry_eq {key value : Bytes} {ttlMs : Int}
    (h : NoOverflow (.set key value ttlMs) now) :
    deadline (expiry ttlMs fun _ => now) = askedExpiry now ttlMs := by
  obtain ⟨h1, h2⟩ := h key value ttlMs rfl
  unfold expiry askedExpiry
  split
  · exact if_pos rfl
  · congr 1
    norm_num at h1 h2
    exact Int.bmod_eq_of_le (by norm_num; omega) (by norm_num; omega)

/-- the eviction drops what the specification drops, if the counter does not wrap -/
theorem evicted_eq_keep {r : Recent} (h : total bytes r.items < 2 ^ 64) :
    evicted cap r = keep bytes cap r := by
  refine RecencyList.ext (trim_congr fun p hp => ?_)
  have hle : total bytes p ≤ total bytes r.items := total_le_of_isPrefix hp
  rw [sizeT_of_lt (by omega)]

/-- **The list of the cache answers like the specification**, as long as both have the same live
items, and they keep them the same. -/
theorem lazyCall_spec (cap : Nat) (h : SameLive now r s) (q : Call) (ho : NoOverflow q now)
    (hfit : ∀ key value ttlMs, q = .set key value ttlMs →
      total bytes ((live now r).put ⟨key, value, askedExpiry now ttlMs⟩).items < 2 ^ 64) :
    (q.looks = true → (lazyCall cap now r q).1 = (specCall (storeLive cap) now s q).1) ∧
      SameLive now (lazyCall cap now r q).2 (specCall (storeLive cap) now s q).2 := by
  cases q with
  | set key value ttlMs =>
    refine ⟨fun hk => absurd hk (by simp [Call.looks]), ?_⟩
    have hw := hfit key value ttlMs rfl
    show live now (evicted cap ((live now r).put _))
      = live now (keep bytes cap ((live now s).put _))
    rw [askedExpiry_eq ho, evicted_eq_keep hw, h]
  | get key =>
    obtain ⟨h1, h2⟩ := ask_eq key (.value none) (fun i => (.value (some i.value), r.put i)) h
      (fun i => (.value (some i.value), s.put i)) fun i => ⟨rfl, h.put i⟩
    exact ⟨fun _ => h1, h2⟩
  | ttlLeft key =>
    obtain ⟨h1, h2⟩ := ask_eq key (.left none) (fun i => (.left (msLeft now i.expiry), r)) h
      (fun i => (.left (msLeft now i.expiry), s)) fun i => ⟨rfl, h⟩
    exact ⟨fun _ => h1, h2⟩
  | contains key =>
    obtain ⟨h1, h2⟩ := ask_eq key (.bool false) (fun _ => (.bool true, r)) h
      (fun _ => (.bool true, s)) fun i => ⟨rfl, h⟩
    exact ⟨fun _ => h1, h2⟩
  | erase key => exact ⟨fun hk => absurd hk (by simp [Call.looks]), h.erase key⟩
  | clear => exact ⟨fun hk => absurd hk (by simp [Call.looks]), rfl⟩
  | prune =>
    exact ⟨fun hk => absurd hk (by simp [Call.looks]), (sameLive_live now r).trans h⟩

/-! ## what is in the list -/

/-- the last `set` of the key had this value, and it was neither erased nor cleared since -/
def LastSet (h : List (Call × Time)) (key value : Bytes) : Prop :=
  ∃ before ttlMs t after, h = before ++ (.set key value ttlMs, t) :: after ∧
    ∀ p ∈ after, (∀ value' ttlMs', p.1 ≠ .set key value' ttlMs') ∧ p.1 ≠ .erase key ∧ p.1 ≠ .clear

theorem LastSet.snoc {h : List (Call × Time)} {key value : Bytes} (hl : LastSet h key value)
    {q : Call} (t : Time) (h1 : ∀ value' ttlMs', q ≠ .set key value' ttlMs') (h2 : q ≠ .erase key)
    (h3 : q ≠ .clear) : LastSet (h ++ [(q, t)]) key value := by
  obtain ⟨before, ttlMs, t', after, rfl, hafter⟩ := hl
  refine ⟨before, ttlMs, t', after ++ [(q, t)], by simp, fun p hp => ?_⟩
  rw [List.mem_append, List.mem_singleton] at hp
  rcases hp with hp | rfl
  · exact hafter p hp
  · exact ⟨h1, h2, h3⟩

theorem mem_of_ask {key : Bytes} {absent : Result}
    {found : Item Bytes Bytes Time → Result × Recent} {i : Item Bytes Bytes Time}
    (hf : ∀ j ∈ r.items, i ∈ (found j).2.items → i ∈ r.items)
    (hi : i ∈ (ask now r key absent found).2.items) : i ∈ r.items := by
  rcases ask_spec key absent found r with ⟨-, he⟩ | ⟨j, -, hj, he⟩
  · rw [he] at hi
    exact (mem_erase_iff.mp hi).1
  · rw [he] at hi
    exact hf j hj hi

theorem mem_lazyCall {i : Item Bytes Bytes Time} (hi : i ∈ (lazyCall cap now r q).2.items) :
    (∃ ttlMs, q = .set i.key i.value ttlMs) ∨
    i ∈ r.items ∧ (∀ value ttlMs, q ≠ .set i.key value ttlMs) ∧ q ≠ .erase i.key ∧ q ≠ .clear := by
  cases q with
  | set key value ttlMs =>
    have hm : i ∈ ((live now r).put ⟨key, value, deadline (expiry ttlMs fun _ => now)⟩).items :=
      (trim_isPrefix _ _).subset hi
    rcases mem_put_iff.mp hm with rfl | ⟨hl, hne⟩
    · exact .inl ⟨ttlMs, rfl⟩
    · refine .inr ⟨(List.mem_filter.mp hl).1, fun _ _ he => ?_, by simp, by simp⟩
      rw [Call.set.injEq] at he
      exact hne he.1.symm
  | get key =>
    refine .inr ⟨?_, by simp, by simp, by simp⟩
    refine mem_of_ask (fun j hj hm => ?_) hi
    rcases mem_put_iff.mp hm with rfl | hm
    · exact hj
    · exact hm.1
  | ttlLeft key => exact .inr ⟨mem_of_ask (fun _ _ hm => hm) hi, by simp, by simp, by simp⟩
  | contains key => exact .inr ⟨mem_of_ask (fun _ _ hm => hm) hi, by simp, by simp, by simp⟩
  | erase key =>
    obtain ⟨hm, hne⟩ := mem_erase_iff.mp hi
    exact .inr ⟨hm, by simp, fun he => hne (Call.erase.inj he).symm, by simp⟩
  | clear => exact absurd hi List.not_mem_nil
  | prune => exact .inr ⟨(List.mem_filter.mp hi).1, by simp, by simp, by simp⟩

/-- the bytes that a `set` holds before it evicts can be counted in a `size_t` -/
def Roomy (now : Time) (r : Recent) (q : Call) : Prop :=
  ∀ key value ttlMs, q = .set key value ttlMs → ∀ expiry,
    total bytes ((live now r).put ⟨key, value, expiry⟩).items < 2 ^ 64

/-- the item does not fit together with the one that is set and the items `pre` before it -/
def Excess (cap : Nat) (key value : Bytes) (pre : List (Item Bytes Bytes Time))
    (i : Item Bytes Bytes Time) : Prop :=
  i.key = key ∧ cap < bytes key value ∨
  i.key ≠ key ∧ cap < bytes key value + total bytes (pre.filter fun x => decide (x.key ≠ key))
    + bytes i.key i.value

theorem ask_keeps {key : Bytes} {absent : Result}
    {found : Item Bytes Bytes Time → Result × Recent} {i : Item Bytes Bytes Time}
    (hi : i ∈ (live now r).items) (hf : ∀ j, ∃ x ∈ (found j).2.items, x.key = i.key) :
    ¬ ∀ x ∈ (ask now r key absent found).2.items, x.key ≠ i.key := by
  intro hgone
  rcases ask_spec key absent found r with ⟨hn, he⟩ | ⟨j, -, -, he⟩
  · rw [he] at hgone
    exact hgone i ((sameLive_erase hn).mem hi) rfl
  · rw [he] at hgone
    obtain ⟨x, hx, hk⟩ := hf j
    exact hgone x hx hk

/-- a live item disappears behind `erase`, `clear`, or a `set` with which it does not fit -/
theorem lazyCall_drops {i : Item Bytes Bytes Time} {pre post : List (Item Bytes Bytes Time)}
    (hlive : (live now r).items = pre ++ i :: post) (hroom : Roomy now r q)
    (hgone : ∀ j ∈ (lazyCall cap now r q).2.items, j.key ≠ i.key) :
    q = .erase i.key ∨ q = .clear ∨
      ∃ key value ttlMs, q = .set key value ttlMs ∧ Excess cap key value pre i := by
  have hi : i ∈ (live now r).items := hlive ▸ List.mem_append_right _ List.mem_cons_self
  cases q with
  | set key value ttlMs =>
    refine .inr (.inr ⟨key, value, ttlMs, rfl, ?_⟩)
    have hgone' : ∀ j ∈ (evicted cap ((live now r).put
        ⟨key, value, deadline (expiry ttlMs fun _ => now)⟩)).items, j.key ≠ i.key := hgone
    rw [evicted_eq_keep (hroom key value ttlMs rfl _)] at hgone'
    exact dropped_of_put hlive hgone'
  | get key =>
    exfalso
    refine ask_keeps hi (fun j => ?_) hgone
    by_cases hk : i.key = j.key
    · exact ⟨j, mem_put_iff.mpr (.inl rfl), hk.symm⟩
    · exact ⟨i, mem_put_iff.mpr (.inr ⟨(List.mem_filter.mp hi).1, hk⟩), rfl⟩
  | ttlLeft key =>
    exact absurd hgone (ask_keeps hi fun _ => ⟨i, (List.mem_filter.mp hi).1, rfl⟩)
  | contains key =>
    exact absurd hgone (ask_keeps hi fun _ => ⟨i, (List.mem_filter.mp hi).1, rfl⟩)
  | erase key =>
    left
    by_contra hne
    refine hgone i (mem_erase_iff.mpr ⟨(List.mem_filter.mp hi).1, fun hk => hne ?_⟩) rfl
    rw [hk]
  | clear => exact .inr (.inl rfl)
  | prune => exact absurd rfl (hgone i hi)

/-! ## whole runs -/

theorem Refines.roomy {c : LRUCache} (h : Refines c r)
    (hfit : ∀ key value ttlMs, q = .set key value ttlMs →
      (c.store key value ttlMs fun _ => now).totalBytes < 2 ^ 64) : Roomy now r q := by
  intro key value ttlMs hq e
  obtain ⟨l, hl, hr⟩ := h
  obtain ⟨⟨addr, hs⟩, -⟩ := hl.store key value ttlMs fun _ => now
  have hlt := hfit key value ttlMs hq
  rw [hs.totalBytes, survivors_eq, slotsSize_cons] at hlt
  show total bytes (_ :: ((live now r).erase key).items) < _
  rw [erase_items (live_items hr now), total, List.map_cons, List.sum_cons]
  have ht := total_items (others (l.filter (Slot.isLive now)) key)
  unfold total at ht
  rw [ht]
  exact hlt

theorem lazyRun_spec {c : LRUCache} {h : List (Call × Time)} (hr : Refines c r)
    (hs : ∀ t ∈ h.map Prod.snd, SameLive t r s) (hclock : (h.map Prod.snd).Pairwise (· ≤ ·))
    (hover : ∀ p ∈ h, NoOverflow p.1 p.2) (hfit : Countable c (atTimes h)) :
    observed Call.looks h (lazyRun c.capacityBytes r h).1
      = observed Call.looks h (specRun (storeLive c.capacityBytes) s h).1 := by
  induction h generalizing c r s with
  | nil => rfl
  | cons p h ih =>
    obtain ⟨q, t⟩ := p
    rw [List.map_cons, List.pairwise_cons] at hclock
    obtain ⟨-, hr', hcap⟩ := call_refines hr t q
    obtain ⟨h1, h2⟩ := lazyCall_spec c.capacityBytes (hs t List.mem_cons_self) q
      (hover _ List.mem_cons_self) fun key value ttlMs hq => hr.roomy hfit.1 key value ttlMs hq _
    have hih := ih hr' (fun t' ht' => h2.mono (hclock.1 t' ht')) hclock.2
      (fun p hp => hover p (List.mem_cons_of_mem _ hp)) hfit.2
    rw [hcap] at hih
    show ((q, (lazyCall c.capacityBytes t r q).1)
        :: (h.map Prod.fst).zip (lazyRun c.capacityBytes _ h).1).filter (fun p => p.1.looks)
      = ((q, (specCall (storeLive c.capacityBytes) t s q).1)
        :: (h.map Prod.fst).zip (specRun (storeLive c.capacityBytes) _ h).1).filter
          fun p => p.1.looks
    rw [List.filter_cons, List.filter_cons]
    by_cases hq : q.looks = true
    · rw [if_pos hq, if_pos hq, h1 hq]
      exact congrArg _ hih
    · rw [if_neg hq, if_neg hq]
      exact hih

theorem lazyRun_snoc (cap : Nat) (r : Recent) (h : List (Call × Time)) (q : Call) (t : Time) :
    (lazyRun cap r (h ++ [(q, t)])).2 = (lazyCall cap t (lazyRun cap r h).2 q).2 := by
  induction h generalizing r with
  | nil => rfl
  | cons p h ih => exact ih _

/-- what the list holds was set last -/
theorem lazyRun_lastSet (cap : Nat) (h : List (Call × Time)) {i : Item Bytes Bytes Time}
    (hi : i ∈ (lazyRun cap .nil h).2.items) : LastSet h i.key i.value := by
  induction h using List.reverseRecOn with
  | nil => exact absurd hi List.not_mem_nil
  | append_singleton h p ih =>
    obtain ⟨q, t⟩ := p
    rw [lazyRun_snoc] at hi
    rcases mem_lazyCall hi with ⟨ttlMs, rfl⟩ | ⟨hm, h1, h2, h3⟩
    · exact ⟨h, ttlMs, t, [], rfl, fun _ hp => absurd hp List.not_mem_nil⟩
    · exact (ih hm).snoc t h1 h2 h3

theorem Countable.left {c : LRUCache} {l l' : List (Call × Readings)}
    (h : Countable c (l ++ l')) : Countable c l ∧ Countable (c.runCalls l).2 l' := by
  induction l generalizing c with
  | nil => exact ⟨trivial, h⟩
  | cons p l ih =>
    obtain ⟨h1, h2⟩ := ih h.2
    exact ⟨⟨h.1, h1⟩, h2⟩

def after (capacityMb : Nat) (h : List (Call × Time)) : LRUCache :=
  ((new capacityMb).runCalls (atTimes h)).2

def liveItems (c : LRUCache) (now : Time) : List (Item Bytes Bytes Time) :=
  c.items.filter fun i => decide (i.Live now)

theorem after_lastSet (capacityMb : Nat) (h : List (Call × Time)) {key value : Bytes}
    {clk : Readings} (hget : ((after capacityMb h).get key clk).1 = some value) :
    LastSet h key value := by
  obtain ⟨-, ⟨l, hl, hr⟩, -⟩ := runAt_refines (refines_new capacityMb) h
  rcases hl.get key clk with ⟨-, e⟩ | ⟨l₁, s, l₂, he, rfl, ⟨-, e⟩ | ⟨-, e⟩⟩
  · rw [after, e] at hget
    exact absurd hget (by simp)
  · rw [after, e] at hget
    exact absurd hget (by simp)
  · rw [after, e, Option.some.injEq] at hget
    subst hget
    have hm : s.item ∈ (lazyRun (new capacityMb).capacityBytes .nil h).2.items := by
      rw [hr, he]
      exact List.mem_map_of_mem (List.mem_append_right _ List.mem_cons_self)
    exact lazyRun_lastSet _ h hm

/-- what the last call has removed among the entries that were not expired -/
theorem after_drops (capacityMb : Nat) {before : List (Call × Time)} {q : Call} {t : Time}
    (hfit : Countable (new capacityMb) (atTimes (before ++ [(q, t)])))
    {pre post : List (Item Bytes Bytes Time)} {i : Item Bytes Bytes Time}
    (hlive : liveItems (after capacityMb before) t = pre ++ i :: post)
    (hgone : ∀ j ∈ (after capacityMb (before ++ [(q, t)])).items, j.key ≠ i.key) :
    q = .erase i.key ∨ q = .clear ∨ ∃ key value ttlMs, q = .set key value ttlMs ∧
      Excess (sizeT (capacityMb * 1024 * 1024)) key value pre i := by
  obtain ⟨-, hb, hcap⟩ := runAt_refines (refines_new capacityMb) before
  obtain ⟨-, ha, -⟩ := runAt_refines (refines_new capacityMb) (before ++ [(q, t)])
  have hat : atTimes (before ++ [(q, t)]) = atTimes before ++ [(q, fun _ => t)] :=
    List.map_append
  rw [hat] at hfit
  have hroom := hb.roomy (hfit.left.2.1)
  have hitems : (after capacityMb (before ++ [(q, t)])).items
      = (lazyCall (new capacityMb).capacityBytes t
          (lazyRun (new capacityMb).capacityBytes .nil before).2 q).2.items := by
    rw [← lazyRun_snoc]
    exact ha.items
  rw [hitems] at hgone
  have hl : (live t (lazyRun (new capacityMb).capacityBytes .nil before).2).items
      = pre ++ i :: post := by
    rw [← hlive]
    show _ = (after capacityMb before).items.filter _
    rw [after, hb.items]
    rfl
  exact lazyCall_drops hl hroom hgone

/-- **The cache refines its specification**: over every sequence of calls whose times do not
decrease, `get`, `contains` and `ttl_left` answer as the specification does.  A value that `get`
returns is that of the last `set`, and an entry that is not expired disappears only behind `erase`,
`clear`, or a `set` for which it is too much together with all that was used after it. -/
theorem refines_spec (capacityMb : Nat) (h : List (Call × Time))
    (hclock : (h.map Prod.snd).Pairwise (· ≤ ·)) (hover : ∀ p ∈ h, NoOverflow p.1 p.2)
    (hfit : Countable (new capacityMb) (atTimes h)) :
    observed Call.looks h ((new capacityMb).runCalls (atTimes h)).1
      = observed Call.looks h
          (specRun (storeLive (sizeT (capacityMb * 1024 * 1024))) .nil h).1 ∧
    (∀ key value clk, ((after capacityMb h).get key clk).1 = some value → LastSet h key value) ∧
    (∀ before q t, h = before ++ [(q, t)] → ∀ pre i post,
      liveItems (after capacityMb before) t = pre ++ i :: post →
      (∀ j ∈ (after capacityMb h).items, j.key ≠ i.key) →
      q = .erase i.key ∨ q = .clear ∨ ∃ key value ttlMs, q = .set key value ttlMs ∧
        Excess (sizeT (capacityMb * 1024 * 1024)) key value pre i) := by
  refine ⟨?_, ?_, ?_⟩
  · rw [(runAt_refines (refines_new capacityMb) h).1]
    exact lazyRun_spec (refines_new capacityMb) (fun _ _ => rfl) hclock hover hfit
  · intro key value clk hget
    exact after_lastSet capacityMb h hget
  · rintro before q t rfl pre i post hlive hgone
    exact after_drops capacityMb hfit hlive hgone

/-- an entry that expires between two calls of `get`, beside one that does not -/
def expiringCalls : List (Call × Time) :=
  [(.set (str "a") (str "1") 1, 0), (.set (str "b") (str "2") 0, 0), (.get (str "a"), 999999),
    (.ttlLeft (str "b"), 1000000), (.get (str "a"), 1000000), (.contains (str "b"), 1000000)]

theorem expiringCalls_noOverflow : ∀ p ∈ expiringCalls, NoOverflow p.1 p.2 := by
  intro p hp key value ttlMs hq
  simp only [expiringCalls, List.mem_cons, List.not_mem_nil, or_false] at hp
  rcases hp with rfl | rfl | rfl | rfl | rfl | rfl <;> cases hq <;> decide

theorem expiringCalls_countable : Countable (new 1) (atTimes expiringCalls) := by
  refine ⟨?_, ?_, ?_, ?_, ?_, ?_, trivial⟩
  · rintro _ _ _ ⟨⟩
    decide +kernel
  · rintro _ _ _ ⟨⟩
    decide +kernel
  all_goals rintro _ _ _ ⟨⟩

theorem refines_spec_expiring :
    observed Call.looks expiringCalls ((new 1).runCalls (atTimes expiringCalls)).1
      = observed Call.looks expiringCalls
          (specRun (storeLive (sizeT (1 * 1024 * 1024))) .nil expiringCalls).1 :=
  (refines_spec 1 expiringCalls (by decide) expiringCalls_noOverflow expiringCalls_countable).1

/-- an empty entry, one that is expired as soon as it is set, and a look at the first -/
def expiredSetCalls : List (Call × Time) :=
  [(.set [] [] 0, 0), (.set (str "a") [] (-1), 0), (.get [], 0)]

/-- `set` evicts by the size of its item also where that item is expired already: a cache of
capacity `0` drops the empty entry, which fits, to make room for one that nobody will see -/
theorem expired_set_evicts :
    (expiredSetCalls.map Prod.snd).Pairwise (· ≤ ·) ∧
      (∀ p ∈ expiredSetCalls, NoOverflow p.1 p.2) ∧
      Countable (new 0) (atTimes expiredSetCalls) ∧
      observed Call.looks expiredSetCalls ((new 0).runCalls (atTimes expiredSetCalls)).1
        ≠ observed Call.looks expiredSetCalls
            (specRun (liveStored (sizeT (0 * 1024 * 1024))) .nil expiredSetCalls).1 := by
  refine ⟨by decide, ?_, ⟨?_, ?_, ?_, trivial⟩, by decide +kernel⟩
  · intro p hp key value ttlMs hq
    simp only [expiredSetCalls, List.mem_cons, List.not_mem_nil, or_false] at hp
    rcases hp with rfl | rfl | rfl <;> cases hq <;> decide
  · rintro _ _ _ ⟨⟩
    decide +kernel
  · rintro _ _ _ ⟨⟩
    decide +kernel
  · rintro _ _ _ ⟨⟩

/-! ## only live items are kept -/

/-- no item is expired when it is set -/
def SetLive (q : Call) : Prop := ∀ key value ttlMs, q = .set key value ttlMs → 0 ≤ ttlMs

theorem live_askedExpiry (key value : Bytes) {ttlMs : Int} (h : 0 ≤ ttlMs) :
    (⟨key, value, askedExpiry now ttlMs⟩ : Item Bytes Bytes Time).Live now := by
  by_cases h0 : ttlMs = 0
  · exact Item.live_of_top (if_pos h0)
  · have he : askedExpiry now ttlMs = deadline (now + ttlMs * ticksPerMs) := if_neg h0
    by_cases hlast : now + ttlMs * ticksPerMs = noExpireTime
    · exact Item.live_of_top (he.trans (if_pos hlast))
    · have hlive := he.trans (if_neg hlast)
      refine (Item.live_iff hlive).mpr ?_
      have hpos : 0 < ttlMs * ticksPerMs := Int.mul_pos (by omega) (by decide)
      exact Int.lt_add_of_pos_right now hpos

theorem storeLive_eq {i : Item Bytes Bytes Time} (hi : i.Live now) (s : Recent) :
    storeLive cap now i s = liveStored cap now i s := by
  unfold storeLive liveStored
  rw [live_put_of_live hi]

theorem specRun_liveStored (s : Recent) {h : List (Call × Time)} (hset : ∀ p ∈ h, SetLive p.1) :
    specRun (storeLive cap) s h = specRun (liveStored cap) s h := by
  induction h generalizing s with
  | nil => rfl
  | cons p h ih =>
    obtain ⟨q, t⟩ := p
    have hcall : specCall (storeLive cap) t s q = specCall (liveStored cap) t s q := by
      cases q with
      | set key value ttlMs =>
        have hlive := @live_askedExpiry t key value _
          (hset _ List.mem_cons_self key value ttlMs rfl)
        exact congrArg (Prod.mk Result.unit) (storeLive_eq hlive s)
      | _ => rfl
    have hrest := ih (specCall (liveStored cap) t s q).2 fun p hp =>
      hset p (List.mem_cons_of_mem _ hp)
    unfold specRun
    dsimp only
    rw [hcall, hrest]

/-- **If no item is expired when it is set**, the cache keeps the longest prefix of the live items
that fits. -/
theorem refines_liveStored (capacityMb : Nat) (h : List (Call × Time))
    (hclock : (h.map Prod.snd).Pairwise (· ≤ ·)) (hover : ∀ p ∈ h, NoOverflow p.1 p.2)
    (hfit : Countable (new capacityMb) (atTimes h)) (hset : ∀ p ∈ h, SetLive p.1) :
    observed Call.looks h ((new capacityMb).runCalls (atTimes h)).1
      = observed Call.looks h
          (specRun (liveStored (sizeT (capacityMb * 1024 * 1024))) .nil h).1 ∧
    (∀ key value clk, ((after capacityMb h).get key clk).1 = some value → LastSet h key value) ∧
    (∀ before q t, h = before ++ [(q, t)] → ∀ pre i post,
      liveItems (after capacityMb before) t = pre ++ i :: post →
      (∀ j ∈ (after capacityMb h).items, j.key ≠ i.key) →
      q = .erase i.key ∨ q = .clear ∨ ∃ key value ttlMs, q = .set key value ttlMs ∧
        Excess (sizeT (capacityMb * 1024 * 1024)) key value pre i) := by
  rw [← specRun_liveStored _ hset]
  exact refines_spec capacityMb h hclock hover hfit

theorem refines_liveStored_expiring :
    observed Call.looks expiringCalls ((new 1).runCalls (atTimes expiringCalls)).1
      = observed Call.looks expiringCalls
          (specRun (liveStored (sizeT (1 * 1024 * 1024))) .nil expiringCalls).1 := by
  refine (refines_liveStored 1 expiringCalls (by decide) expiringCalls_noOverflow
    expiringCalls_countable ?_).1
  intro p hp key value ttlMs hq
  simp only [expiringCalls, List.mem_cons, List.not_mem_nil, or_false] at hp
  rcases hp with rfl | rfl | rfl | rfl | rfl | rfl <;> cases hq <;> decide

end ServerHttpLib.LRUCache
