import ServerHttpLib.Cache.Specification
import ServerHttpLib.Lib.Inclusion

/-!
# A larger cache keeps what a smaller one keeps

The same calls at the same times on caches of two capacities.  As long as all entries have one
size, the list of the smaller cache lies within that of the larger one: what the smaller one finds,
the larger one finds.  With entries of several sizes this fails, for a use that the smaller cache
misses reorders the list of the larger one only.

* `ask_within`, `set_within`   one call that asks, and `set`;
* `lazyCall_within`            one call on both lists;
* `hits_grow`                  whole runs of the two caches.
-/

namespace ServerHttpLib.LRUCache
open Recency RecencyList

attribute [local instance] timeOrder

def Result.found : Result → Bool
  | .value v => v.isSome
  | .left ms => ms.isSome
  | .bool b => b
  | .unit => false

/-- what a cache found, the other one found the same -/
def Result.Covered (a a' : Result) : Prop := a.found = true → a' = a

/-- every `set` has an entry of this size -/
def EntriesOf (n : Nat) (h : List (Call × Time)) : Prop :=
  ∀ p ∈ h, ∀ key value ttlMs, p.1 = .set key value ttlMs → bytes key value = n

variable {now : Time} {r r' : Recent} {q : Call} {n d cap cap' : Nat}

/-- the two lists, and the bytes that the larger one has -/
structure Nested (n cap cap' : Nat) (r r' : Recent) : Prop where
  within : Within (cap' / n - cap / n) r r'
  uniform : Uniform bytes n r'.items
  fits : total bytes r'.items ≤ cap'

theorem covered_of_not {a a' : Result} (h : a.found = false) : a.Covered a' :=
  fun hf => absurd hf (by rw [h]; exact Bool.false_ne_true)

theorem covered_refl (a : Result) : a.Covered a := fun _ => rfl

/-- a call that asks: what is left to show is about a key that is found, or only in the larger
list -/
theorem ask_within (key : Bytes) {absent : Result} (h : Within d r r')
    (habsent : absent.found = false) (found found' : Item Bytes Bytes Time → Result × Recent)
    (hboth : ∀ i, (found i).1.Covered (found' i).1 ∧ Within d (found i).2 (found' i).2)
    (hright : ∀ i, r.find? i.key = none → i ∈ r'.items → Within d r (found' i).2) :
    (ask now r key absent found).1.Covered (ask now r' key absent found').1 ∧
      Within d (ask now r key absent found).2 (ask now r' key absent found').2 := by
  cases hr : r.find? key with
  | some i =>
    have hr' := h.find? hr
    by_cases hi : i.Live now
    · rw [ask_live _ _ hr hi, ask_live _ _ hr' hi]
      exact hboth i
    · rw [ask_expired _ _ hr hi, ask_expired _ _ hr' hi]
      exact ⟨covered_refl absent, h.erase key⟩
  | none =>
    rw [ask_none _ _ hr]
    refine ⟨covered_of_not habsent, ?_⟩
    cases hr' : r'.find? key with
    | none =>
      rw [ask_none _ _ hr']
      exact h
    | some i =>
      by_cases hi : i.Live now
      · obtain ⟨hm, rfl⟩ := find?_eq_some_iff.mp hr'
        rw [ask_live _ _ hr' hi]
        exact hright i hr hm
      · rw [ask_expired _ _ hr' hi]
        have he := h.erase key
        rwa [erase_of_none hr] at he

theorem lazyCall_asks (h : Within d r r') (hq : ∀ key value ttlMs, q ≠ .set key value ttlMs)
    (cap cap' : Nat) (now : Time) :
    (lazyCall cap now r q).1.Covered (lazyCall cap' now r' q).1 ∧
      Within d (lazyCall cap now r q).2 (lazyCall cap' now r' q).2 := by
  cases q with
  | set key value ttlMs => exact absurd rfl (hq key value ttlMs)
  | get key =>
    apply ask_within key h rfl (fun i => (.value (some i.value), r.put i))
      fun i => (.value (some i.value), r'.put i)
    · exact fun i => ⟨covered_refl _, h.put i⟩
    · exact fun i hi hm => h.put_right hi hm
  | ttlLeft key =>
    apply ask_within key h rfl (fun i => (.left (msLeft now i.expiry), r))
      fun i => (.left (msLeft now i.expiry), r')
    · exact fun i => ⟨covered_refl _, h⟩
    · exact fun i _ _ => h
  | contains key =>
    apply ask_within key h rfl (fun _ => (.bool true, r)) fun _ => (.bool true, r')
    · exact fun i => ⟨covered_refl _, h⟩
    · exact fun i _ _ => h
  | erase key =>
    refine ⟨fun hf => ?_, h.erase key⟩
    obtain ⟨i, hi⟩ := Option.isSome_iff_exists.mp hf
    show Result.bool (r'.find? key).isSome = .bool (r.find? key).isSome
    rw [hi, h.find? hi]
  | clear => exact ⟨covered_refl _, within_nil d⟩
  | prune => exact ⟨covered_refl _, h.live now⟩

theorem set_within (h : Nested n cap cap' r r') (hcap : cap ≤ cap') (hroom : cap' + n < 2 ^ 64)
    {i : Item Bytes Bytes Time} (hi : bytes i.key i.value = n) :
    Nested n cap cap' (evicted cap ((live now r).put i)) (evicted cap' ((live now r').put i)) := by
  have hput := (h.within.live now).put i
  have hl : (live now r').items.Sublist r'.items := List.filter_sublist
  have he : ((live now r').erase i.key).items.Sublist r'.items := List.filter_sublist.trans hl
  have hu : Uniform bytes n ((live now r').put i).items := by
    intro j hj
    rcases List.mem_cons.mp hj with rfl | hj
    · exact hi
    · exact h.uniform j (he.subset hj)
  have hlt : total bytes ((live now r').put i).items < 2 ^ 64 := by
    have hold := h.fits
    rw [h.uniform.total] at hold
    have hfew : ((live now r').erase i.key).items.length * n ≤ r'.items.length * n :=
      Nat.mul_le_mul_right n he.length_le
    have hlen : ((live now r').put i).items.length
        = ((live now r').erase i.key).items.length + 1 := rfl
    rw [hu.total, hlen, Nat.succ_mul]
    omega
  have hlt' : total bytes ((live now r).put i).items < 2 ^ 64 := by
    have hle := Nat.mul_le_mul_right n hput.sublist.length_le
    rw [← hu.total, ← (hu.sublist hput.sublist).total] at hle
    exact hle.trans_lt hlt
  rw [evicted_eq_keep hlt, evicted_eq_keep hlt']
  exact ⟨hput.keep hu hcap, hu.sublist (trim_isPrefix _ _).sublist, total_keep bytes cap' _⟩

theorem lazyCall_subset (hq : ∀ key value ttlMs, q ≠ .set key value ttlMs) (cap : Nat) (now : Time)
    (r : Recent) : ∀ i ∈ (lazyCall cap now r q).2.items, i ∈ r.items := by
  intro i hi
  rcases mem_lazyCall hi with ⟨ttlMs, rfl⟩ | ⟨hm, -⟩
  · exact absurd rfl (hq _ _ _)
  · exact hm

theorem Nested.of_subset {s s' : Recent} (h : Nested n cap cap' r r')
    (hw : Within (cap' / n - cap / n) s s') (hs : ∀ i ∈ s'.items, i ∈ r'.items) :
    Nested n cap cap' s s' := by
  have hu : Uniform bytes n s'.items := fun i hi => h.uniform i (hs i hi)
  have hle : s'.items.length ≤ r'.items.length :=
    (List.subperm_of_subset s'.nodup.of_map hs).length_le
  refine ⟨hw, hu, ?_⟩
  have hfits := h.fits
  rw [h.uniform.total] at hfits
  rw [hu.total]
  exact (Nat.mul_le_mul_right n hle).trans hfits

/-- **A call on both lists**: what the smaller one finds the larger one finds, and the smaller one
stays within the larger one. -/
theorem lazyCall_within (h : Nested n cap cap' r r') (hcap : cap ≤ cap')
    (hroom : cap' + n < 2 ^ 64) (now : Time)
    (hn : ∀ key value ttlMs, q = .set key value ttlMs → bytes key value = n) :
    (lazyCall cap now r q).1.Covered (lazyCall cap' now r' q).1 ∧
      Nested n cap cap' (lazyCall cap now r q).2 (lazyCall cap' now r' q).2 := by
  by_cases hq : ∃ key value ttlMs, q = .set key value ttlMs
  · obtain ⟨key, value, ttlMs, rfl⟩ := hq
    exact ⟨covered_refl _, set_within h hcap hroom (hn key value ttlMs rfl)⟩
  · have hq' : ∀ key value ttlMs, q ≠ .set key value ttlMs :=
      fun key value ttlMs he => hq ⟨key, value, ttlMs, he⟩
    obtain ⟨h1, h2⟩ := lazyCall_asks h.within hq' cap cap' now
    exact ⟨h1, h.of_subset h2 (lazyCall_subset hq' cap' now r')⟩

/-! ## whole runs -/

theorem lazyRun_within {h : List (Call × Time)} (hw : Nested n cap cap' r r') (hcap : cap ≤ cap')
    (hroom : cap' + n < 2 ^ 64) (hn : EntriesOf n h) :
    List.Forall₂ Result.Covered (lazyRun cap r h).1 (lazyRun cap' r' h).1 ∧
      Nested n cap cap' (lazyRun cap r h).2 (lazyRun cap' r' h).2 := by
  induction h generalizing r r' with
  | nil => exact ⟨.nil, hw⟩
  | cons p h ih =>
    obtain ⟨q, now⟩ := p
    obtain ⟨h1, h2⟩ := lazyCall_within hw hcap hroom now (hn _ List.mem_cons_self)
    obtain ⟨h3, h4⟩ := ih h2 fun p hp => hn p (List.mem_cons_of_mem _ hp)
    exact ⟨.cons h1 h3, h4⟩

theorem nested_nil (n cap cap' : Nat) : Nested n cap cap' .nil .nil :=
  ⟨within_nil _, fun _ hi => absurd hi List.not_mem_nil, Nat.zero_le _⟩

/-- **A larger cache finds what a smaller one finds.**  For every sequence of calls, at any times,
in which all entries that are set have one size: where the smaller cache finds a key, the larger
one returns the same, and its list holds the entries of the smaller one in their order. -/
theorem hits_grow (capacityMb capacityMb' n : Nat) (h : List (Call × Time)) (hn : EntriesOf n h)
    (hcap : (new capacityMb).capacityBytes ≤ (new capacityMb').capacityBytes)
    (hroom : (new capacityMb').capacityBytes + n < 2 ^ 64) :
    List.Forall₂ Result.Covered ((new capacityMb).runCalls (atTimes h)).1
        ((new capacityMb').runCalls (atTimes h)).1 ∧
      (after capacityMb h).items.Sublist (after capacityMb' h).items := by
  obtain ⟨h1, h2, -⟩ := runAt_refines (refines_new capacityMb) h
  obtain ⟨k1, k2, -⟩ := runAt_refines (refines_new capacityMb') h
  obtain ⟨hc, hw⟩ := lazyRun_within (nested_nil n _ _) hcap hroom hn
  rw [h1, k1]
  refine ⟨hc, ?_⟩
  rw [after, after, h2.items, k2.items]
  exact hw.within.sublist

/-- an entry of `700000` bytes; two of them do not fit into a megabyte -/
def wideCalls : List (Call × Time) :=
  [(.set (str "a") (List.replicate 699999 0) 0, 0), (.set (str "b") (List.replicate 699999 0) 0, 1),
    (.get (str "b"), 2), (.get (str "a"), 3)]

theorem hits_grow_wide :
    List.Forall₂ Result.Covered ((new 1).runCalls (atTimes wideCalls)).1
        ((new 2).runCalls (atTimes wideCalls)).1 ∧
      (after 1 wideCalls).items.Sublist (after 2 wideCalls).items := by
  refine hits_grow 1 2 700000 wideCalls ?_ (by decide) (by decide)
  intro p hp key value ttlMs hq
  simp only [wideCalls, List.mem_cons, List.not_mem_nil, or_false] at hp
  rcases hp with rfl | rfl | rfl | rfl <;> cases hq <;> rw [bytes, List.length_replicate] <;> rfl

/-- entries of one and of two bytes: `m` is used where the larger cache only has it, and moves `b`
to the back there -/
def mixedCalls : List (Call × Time) :=
  [(.set (str "m") (str "1") 0, 0), (.set (str "b") [] 0, 0), (.get (str "m"), 0),
    (.set (str "d") [] 0, 0), (.get (str "b"), 0)]

example : (lazyRun 2 .nil mixedCalls).1.getLast? = some (.value (some [])) ∧
    (lazyRun 3 .nil mixedCalls).1.getLast? = some (.value none) := by
  decide +kernel

end ServerHttpLib.LRUCache
