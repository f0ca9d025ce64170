import ServerHttpLib.Cache.Invariant

/-!
# The cache is a recency list

Read from the front, the slots of a state are a recency list (`items`).  With one reading of the
clock for a call, the calls act on that list as `lazyCall` says (`call_refines`, and
`runAt_refines` for sequences of calls): an expired item stays in it until a call comes across it.
-/

namespace ServerHttpLib.LRUCache
open Recency RecencyList

/-- the order of time points -/
@[reducible]
def timeOrder : LinearOrder Time := Int.instLinearOrder

attribute [local instance] timeOrder

/-- the latest time point stands for never -/
def deadline (t : Time) : WithTop Time := if t = noExpireTime then ⊤ else (t : WithTop Time)

abbrev Recent := RecencyList Bytes Bytes Time

/-- what a slot holds -/
def Slot.item (s : Slot) : Item Bytes Bytes Time := ⟨s.key, s.value, deadline s.expireAt⟩

def items (c : LRUCache) : List (Item Bytes Bytes Time) :=
  c.lru.filterMap fun x => (c.map.find? x.key).map fun node =>
    ⟨x.key, node.entry.value, deadline node.entry.expireAt⟩

def bytes (key value : Bytes) : Nat := key.length + value.length

/-- the milliseconds that are left until an expiry time -/
def msLeft (now : Time) : WithTop Time → Option Int
  | none => none
  | some t => some ((t - now).tdiv ticksPerMs)

/-! ## the list that the cache is -/

/-- the list without what does not fit, by a counter that wraps -/
def evicted (cap : Nat) (r : Recent) : Recent :=
  r.part (trim (fun p => decide (cap < sizeT (total bytes p))) r.items) (trim_isPrefix _ _).sublist

/-- a call that asks for a key: an expired item is removed and answered like an absent one -/
def ask (now : Time) (r : Recent) (key : Bytes) (absent : Result)
    (found : Item Bytes Bytes Time → Result × Recent) : Result × Recent :=
  match r.find? key with
  | none => (absent, r)
  | some i => if i.Live now then found i else (absent, r.erase key)

/-- a call at the time `now`, on the recency list of the cache -/
def lazyCall (cap : Nat) (now : Time) (r : Recent) : Call → Result × Recent
  | .set key value ttlMs =>
    (.unit, evicted cap ((live now r).put ⟨key, value, deadline (expiry ttlMs fun _ => now)⟩))
  | .get key => ask now r key (.value none) fun i => (.value (some i.value), r.put i)
  | .ttlLeft key => ask now r key (.left none) fun i => (.left (msLeft now i.expiry), r)
  | .contains key => ask now r key (.bool false) fun _ => (.bool true, r)
  | .erase key => (.bool (r.find? key).isSome, r.erase key)
  | .clear => (.unit, .nil)
  | .prune => (.unit, live now r)

section
variable {now : Time} {r : Recent} {key : Bytes} {i : Item Bytes Bytes Time} (absent : Result)
  (found : Item Bytes Bytes Time → Result × Recent)

theorem ask_none (h : r.find? key = none) : ask now r key absent found = (absent, r) := by
  unfold ask
  rw [h]

theorem ask_live (h : r.find? key = some i) (hi : i.Live now) :
    ask now r key absent found = found i := by
  unfold ask
  rw [h]
  exact if_pos hi

theorem ask_expired (h : r.find? key = some i) (hi : ¬ i.Live now) :
    ask now r key absent found = (absent, r.erase key) := by
  unfold ask
  rw [h]
  exact if_neg hi

end

/-- the state holds the list -/
def Refines (c : LRUCache) (r : Recent) : Prop := ∃ l, Rep c l ∧ r.items = l.map Slot.item

variable {c : LRUCache} {r : Recent} {l l₁ l₂ : List Slot} {s : Slot} {now : Time}

theorem Rep.items (h : Rep c l) : c.items = l.map Slot.item := by
  unfold LRUCache.items
  rw [h.lru, List.filterMap_map, ← List.filterMap_eq_map]
  refine List.filterMap_congr fun s hs => ?_
  obtain ⟨l₁, l₂, rfl⟩ := List.append_of_mem hs
  have hf : c.map.find? s.cell.key = some s.node := h.find_split
  simp only [Function.comp_apply, hf]
  rfl

theorem Refines.items (h : Refines c r) : c.items = r.items := by
  obtain ⟨l, hl, hr⟩ := h
  rw [hl.items, hr]

theorem refines_new (capacityMb : Nat) : Refines (new capacityMb) .nil :=
  ⟨[], rep_new capacityMb, rfl⟩

/-! ## one reading of the clock -/

theorem live_of_noExpire {s : Slot} (h : s.expireAt = noExpireTime) : s.item.Live now :=
  Item.live_of_top (if_pos h)

theorem live_of_expires {s : Slot} (h : s.expireAt ≠ noExpireTime) :
    s.item.Live now ↔ now < s.expireAt :=
  Item.live_iff (if_neg h)

theorem expired_eq (s : Slot) (now : Time) : (s.expired fun _ => now).2 = (fun _ => now) ∧
    ((s.expired fun _ => now).1 = true ↔ ¬ s.item.Live now) := by
  unfold Slot.expired Entry.isExpired Entry.isNoExpire
  show (if decide (s.expireAt = noExpireTime) = true then _ else _ : Bool × Readings).2 = _ ∧
    ((if decide (s.expireAt = noExpireTime) = true then _ else _ : Bool × Readings).1 = true ↔
      ¬ s.item.Live now)
  by_cases hs : s.expireAt = noExpireTime
  · rw [if_pos (decide_eq_true hs)]
    exact ⟨rfl, iff_of_false Bool.false_ne_true (not_not_intro (live_of_noExpire hs))⟩
  · rw [if_neg (by simpa using hs), live_of_expires hs]
    refine ⟨rfl, ?_⟩
    show decide (s.expireAt ≤ now) = true ↔ ¬ now < s.expireAt
    rw [decide_eq_true_eq, Int.not_lt]

/-- the slot is not expired -/
def Slot.isLive (now : Time) (s : Slot) : Bool := decide (s.item.Live now)

theorem survivors_eq (l : List Slot) (now : Time) :
    survivors l (fun _ => now) = (l.filter (Slot.isLive now), fun _ => now) := by
  induction l with
  | nil => rfl
  | cons s l ih =>
    obtain ⟨hclk, hx⟩ := expired_eq s now
    simp only [survivors, hclk, ih]
    by_cases hl : s.item.Live now
    · rw [if_neg fun he => hx.mp he hl, List.filter_cons_of_pos (by simpa [Slot.isLive] using hl)]
    · rw [if_pos (hx.mpr hl), List.filter_cons_of_neg (by simpa [Slot.isLive] using hl)]

/-! ## lists of slots and of items -/

theorem find?_items (hr : r.items = l.map Slot.item) (k : Bytes) :
    r.find? k = (l.find? fun s => decide (s.key = k)).map Slot.item := by
  unfold RecencyList.find?
  rw [hr, List.find?_map]
  rfl

theorem erase_items (hr : r.items = l.map Slot.item) (k : Bytes) :
    (r.erase k).items = (others l k).map Slot.item := by
  show r.items.filter _ = _
  rw [hr, List.filter_map]
  rfl

theorem live_items (hr : r.items = l.map Slot.item) (now : Time) :
    (live now r).items = (l.filter (Slot.isLive now)).map Slot.item := by
  show r.items.filter _ = _
  rw [hr, List.filter_map]
  rfl

theorem total_items (l : List Slot) : total bytes (l.map Slot.item) = slotsSize l := by
  unfold total slotsSize
  rw [List.map_map]
  rfl

theorem evicted_items (hr : r.items = l.map Slot.item) (cap : Nat) :
    (evicted cap r).items = (trim (exceeds cap) l).map Slot.item := by
  show trim _ r.items = _
  rw [hr, trim_map]
  congr 1
  refine trim_congr fun p _ => ?_
  unfold exceeds
  rw [total_items]

theorem find?_item (hr : r.items = (l₁ ++ s :: l₂).map Slot.item)
    (hk : ((l₁ ++ s :: l₂).map Slot.key).Nodup) : r.find? s.key = some s.item := by
  rw [find?_items hr, find?_split hk, if_pos rfl, Option.map_some]

theorem erase_item (hr : r.items = (l₁ ++ s :: l₂).map Slot.item)
    (hk : ((l₁ ++ s :: l₂).map Slot.key).Nodup) :
    (r.erase s.key).items = (l₁ ++ l₂).map Slot.item := by
  rw [erase_items hr]
  exact congrArg _ (filter_split Slot.key hk).1

/-! ## the calls -/

theorem find?_none (hr : r.items = l.map Slot.item) {k : Bytes} (h : ∀ s ∈ l, s.key ≠ k) :
    r.find? k = none := by
  rw [find?_items hr, Option.map_eq_none_iff, List.find?_eq_none]
  exact fun s hs he => h s hs (of_decide_eq_true he)

theorem not_expired {s : Slot} (h : (s.expired fun _ => now).1 = false) :
    s.item.Live now := by
  by_contra hn
  rw [(expired_eq s now).2.mpr hn] at h
  exact absurd h (by simp)

/-- a call on `c` and one on its list: the same result, and the list is kept -/
def Follows (c : LRUCache) (x : Result × LRUCache) (a : Result × Recent) : Prop :=
  x.1 = a.1 ∧ Refines x.2 a.2 ∧ x.2.capacityBytes = c.capacityBytes

theorem Rep.follows (hl : Rep c l) (hr : r.items = l.map Slot.item) (a : Result) :
    Follows c (a, c) (a, r) :=
  ⟨rfl, ⟨l, hl, hr⟩, rfl⟩

theorem Rep.follows_eraseIt (hl : Rep c (l₁ ++ s :: l₂))
    (hr : r.items = (l₁ ++ s :: l₂).map Slot.item) (a : Result) :
    Follows c (a, c.eraseIt s.key s.node) (a, r.erase s.key) :=
  ⟨rfl, ⟨_, hl.eraseIt, erase_item hr hl.keys⟩, rfl⟩

/-- a call that asks for a key: what is left to show is about a slot that is not expired -/
theorem Rep.follows_ask (hl : Rep c l) (hr : r.items = l.map Slot.item) {key : Bytes}
    {absent : Result} {found : Item Bytes Bytes Time → Result × Recent} {x : Result × LRUCache}
    (h : ((∀ s ∈ l, s.key ≠ key) ∧ x = (absent, c)) ∨
      ∃ l₁ s l₂, l = l₁ ++ s :: l₂ ∧ s.key = key ∧
        (¬ s.item.Live now ∧ x = (absent, c.eraseIt s.key s.node) ∨
          s.item.Live now ∧ Follows c x (found s.item))) :
    Follows c x (ask now r key absent found) := by
  rcases h with ⟨hne, rfl⟩ | ⟨l₁, s, l₂, rfl, rfl, ⟨hx, rfl⟩ | ⟨hx, hfollows⟩⟩
  · rw [ask_none _ _ (find?_none hr hne)]
    exact hl.follows hr absent
  · rw [ask_expired _ _ (find?_item hr hl.keys) hx]
    exact hl.follows_eraseIt hr absent
  · rw [ask_live _ _ (find?_item hr hl.keys) hx]
    exact hfollows

theorem Rep.follows_get (hl : Rep c l) (hr : r.items = l.map Slot.item) (key : Bytes) :
    Follows c (c.call (fun _ => now) (.get key)) (lazyCall c.capacityBytes now r (.get key)) := by
  have hcall : c.call (fun _ => now) (.get key)
      = (.value (c.get key fun _ => now).1, (c.get key fun _ => now).2) := rfl
  refine hl.follows_ask hr ?_
  rw [hcall]
  rcases hl.get key fun _ => now with ⟨hne, e⟩ | ⟨l₁, s, l₂, rfl, rfl, ⟨hx, e⟩ | ⟨hx, e⟩⟩
  · exact .inl ⟨hne, by rw [e]⟩
  · exact .inr ⟨l₁, s, l₂, rfl, rfl, .inl ⟨(expired_eq s now).2.mp hx, by rw [e]⟩⟩
  · refine .inr ⟨l₁, s, l₂, rfl, rfl, .inr ⟨not_expired hx, ?_⟩⟩
    rw [e]
    refine ⟨rfl, ⟨_, hl.touch, ?_⟩, touch_capacity c s.addr⟩
    show s.item :: (r.erase s.key).items = _
    rw [erase_item hr hl.keys]
    rfl

theorem Rep.follows_ttlLeft (hl : Rep c l) (hr : r.items = l.map Slot.item) (key : Bytes) :
    Follows c (c.call (fun _ => now) (.ttlLeft key))
      (lazyCall c.capacityBytes now r (.ttlLeft key)) := by
  have hcall : c.call (fun _ => now) (.ttlLeft key)
      = (.left (c.ttlLeft key fun _ => now).1, (c.ttlLeft key fun _ => now).2) := rfl
  refine hl.follows_ask hr ?_
  rw [hcall]
  rcases hl.ttlLeft key fun _ => now with
    ⟨hne, e⟩ | ⟨l₁, s, l₂, rfl, rfl, ⟨hx, e⟩ | ⟨hx, he, e⟩ | ⟨hx, he, hlt, e⟩⟩
  · exact .inl ⟨hne, by rw [e]⟩
  · have hx' : ¬ s.item.Live now := by
      rcases hx with hx | ⟨he, hle⟩
      · exact (expired_eq s now).2.mp hx
      · rw [(expired_eq s now).1] at hle
        rw [live_of_expires he, Int.not_lt]
        exact hle
    exact .inr ⟨l₁, s, l₂, rfl, rfl, .inl ⟨hx', by rw [e]⟩⟩
  · have hms : msLeft now s.item.expiry = none := by
      show msLeft now (deadline s.expireAt) = none
      rw [deadline, if_pos he]
      rfl
    refine .inr ⟨l₁, s, l₂, rfl, rfl, .inr ⟨not_expired hx, ?_⟩⟩
    rw [e, hms]
    exact hl.follows hr _
  · have hms : msLeft now s.item.expiry = some ((s.expireAt - now).tdiv ticksPerMs) := by
      show msLeft now (deadline s.expireAt) = _
      rw [deadline, if_neg he]
      rfl
    refine .inr ⟨l₁, s, l₂, rfl, rfl, .inr ⟨not_expired hx, ?_⟩⟩
    rw [e, hms, (expired_eq s now).1]
    exact hl.follows hr _

theorem Rep.follows_contains (hl : Rep c l) (hr : r.items = l.map Slot.item) (key : Bytes) :
    Follows c (c.call (fun _ => now) (.contains key))
      (lazyCall c.capacityBytes now r (.contains key)) := by
  have hcall : c.call (fun _ => now) (.contains key)
      = (.bool (c.contains key fun _ => now).1, (c.contains key fun _ => now).2) := rfl
  refine hl.follows_ask hr ?_
  rw [hcall]
  rcases hl.contains key fun _ => now with ⟨hne, e⟩ | ⟨l₁, s, l₂, rfl, rfl, ⟨hx, e⟩ | ⟨hx, e⟩⟩
  · exact .inl ⟨hne, by rw [e]⟩
  · exact .inr ⟨l₁, s, l₂, rfl, rfl, .inl ⟨(expired_eq s now).2.mp hx, by rw [e]⟩⟩
  · refine .inr ⟨l₁, s, l₂, rfl, rfl, .inr ⟨not_expired hx, ?_⟩⟩
    rw [e]
    exact hl.follows hr _

theorem Rep.follows_erase (hl : Rep c l) (hr : r.items = l.map Slot.item) (key : Bytes) :
    Follows c (c.call (fun _ => now) (.erase key))
      (lazyCall c.capacityBytes now r (.erase key)) := by
  show Follows c (.bool (c.erase key).1, (c.erase key).2)
    (.bool (r.find? key).isSome, r.erase key)
  rcases hl.erase key with ⟨hne, e⟩ | ⟨l₁, s, l₂, rfl, rfl, e⟩
  · have hn := find?_none hr hne
    rw [e, hn, erase_of_none hn]
    exact hl.follows hr _
  · rw [e, find?_item hr hl.keys]
    exact hl.follows_eraseIt hr _

theorem Rep.follows_set (hl : Rep c l) (hr : r.items = l.map Slot.item) (key value : Bytes)
    (ttlMs : Int) : Follows c (c.call (fun _ => now) (.set key value ttlMs))
      (lazyCall c.capacityBytes now r (.set key value ttlMs)) := by
  obtain ⟨⟨addr, hs⟩, hcap⟩ := hl.set key value ttlMs fun _ => now
  rw [survivors_eq] at hs
  refine ⟨rfl, ⟨_, hs, evicted_items ?_ _⟩, hcap⟩
  show _ :: ((live now r).erase key).items = _
  rw [erase_items (live_items hr now)]
  rfl

/-- **A call on the cache is the call on its recency list.** -/
theorem call_refines (h : Refines c r) (now : Time) (q : Call) :
    (c.call (fun _ => now) q).1 = (lazyCall c.capacityBytes now r q).1 ∧
      Refines (c.call (fun _ => now) q).2 (lazyCall c.capacityBytes now r q).2 ∧
      (c.call (fun _ => now) q).2.capacityBytes = c.capacityBytes := by
  obtain ⟨l, hl, hr⟩ := h
  cases q with
  | set key value ttlMs => exact hl.follows_set hr key value ttlMs
  | get key => exact hl.follows_get hr key
  | ttlLeft key => exact hl.follows_ttlLeft hr key
  | contains key => exact hl.follows_contains hr key
  | erase key => exact hl.follows_erase hr key
  | clear => exact ⟨rfl, ⟨[], rep_clear c, rfl⟩, rfl⟩
  | prune =>
    obtain ⟨hp, -, hcap⟩ := hl.pruneUnlocked fun _ => now
    rw [survivors_eq] at hp
    exact ⟨rfl, ⟨_, hp, live_items hr now⟩, hcap⟩

/-! ## sequences of calls, each at one time -/

/-- the readings that a call takes at a time -/
def atTimes (h : List (Call × Time)) : List (Call × Readings) := h.map fun p => (p.1, fun _ => p.2)

/-- what a sequence of calls at given times returns on the list -/
def lazyRun (cap : Nat) : Recent → List (Call × Time) → List Result × Recent
  | r, [] => ([], r)
  | r, (q, now) :: h =>
    let a := lazyCall cap now r q
    let rs := lazyRun cap a.2 h
    (a.1 :: rs.1, rs.2)

theorem runAt_refines (h : Refines c r) (calls : List (Call × Time)) :
    (c.runCalls (atTimes calls)).1 = (lazyRun c.capacityBytes r calls).1 ∧
      Refines (c.runCalls (atTimes calls)).2 (lazyRun c.capacityBytes r calls).2 ∧
      (c.runCalls (atTimes calls)).2.capacityBytes = c.capacityBytes := by
  induction calls generalizing c r with
  | nil => exact ⟨rfl, h, rfl⟩
  | cons p calls ih =>
    obtain ⟨q, now⟩ := p
    obtain ⟨h1, h2, h3⟩ := call_refines h now q
    obtain ⟨k1, k2, k3⟩ := ih h2
    rw [h3] at k1 k2 k3
    exact ⟨congrArg₂ List.cons h1 k1, k2, k3⟩

end ServerHttpLib.LRUCache
