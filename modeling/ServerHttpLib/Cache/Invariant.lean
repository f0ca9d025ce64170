import Mathlib.Algebra.BigOperators.Group.List.Basic
import Mathlib.Algebra.Order.BigOperators.Group.List
import ServerHttpLib.Cache.Model
import ServerHttpLib.Lib.Recency

/-!
# The two structures of the cache stay one

A state of the cache represents a list of slots, each with the address of its list node, its key,
its value and its expiry time (`Rep`): list and map are both read off it, and the counter is its
size.  What each helper does to the list of slots:

* `Rep.eraseBoth`, `Rep.touch`, `Rep.update`   remove a slot, move it to the front, replace it;
* `Rep.pruneUnlocked`                          leaves the slots that the clock readings spare;
* `Rep.evict`                                  drops slots from the back while the counter is
                                               above the capacity;
* `Rep.set`, `Rep.get`, `Rep.erase`, ..        so this is what a call does.

From them the representation invariant of every state (`runCalls_consistent`).
-/

namespace ServerHttpLib.LRUCache

/-- everything about one key -/
structure Slot where
  addr : Nat
  key : Bytes
  value : Bytes
  expireAt : Time
  deriving DecidableEq

namespace Slot

def cell (s : Slot) : Cell := ⟨s.addr, s.key⟩
def node (s : Slot) : Node :=
  ⟨⟨s.key, s.value, s.key.length, s.value.length, s.expireAt⟩, s.addr⟩
def size (s : Slot) : Nat := s.key.length + s.value.length

end Slot

def slotsSize (l : List Slot) : Nat := (l.map Slot.size).sum

theorem slotsSize_append (l l' : List Slot) :
    slotsSize (l ++ l') = slotsSize l + slotsSize l' := by
  simp [slotsSize]

theorem slotsSize_cons (s : Slot) (l : List Slot) : slotsSize (s :: l) = s.size + slotsSize l := by
  simp [slotsSize]

/-- the state of the cache that holds the slots `l`, most recently used first -/
structure Rep (c : LRUCache) (l : List Slot) : Prop where
  lru : c.lru = l.map Slot.cell
  find : ∀ k, c.map.find? k = (l.find? fun s => decide (s.key = k)).map Slot.node
  keys : (l.map Slot.key).Nodup
  addrs : (l.map Slot.addr).Nodup
  fresh : ∀ s ∈ l, s.addr < c.next
  used : c.usedBytes = sizeT (slotsSize l)

variable {c : LRUCache} {l l₁ l₂ : List Slot} {s : Slot}

/-! ## lists with distinct keys -/

theorem find?_split (h : ((l₁ ++ s :: l₂).map Slot.key).Nodup) (k : Bytes) :
    (l₁ ++ s :: l₂).find? (fun s => decide (s.key = k))
      = if k = s.key then some s else (l₁ ++ l₂).find? fun s => decide (s.key = k) := by
  rw [List.map_append, List.map_cons, List.nodup_append, List.nodup_cons] at h
  split
  · next hk =>
    have h1 : l₁.find? (fun s => decide (s.key = k)) = none := by
      rw [List.find?_eq_none]
      intro x hx he
      exact h.2.2 x.key (List.mem_map_of_mem hx) s.key List.mem_cons_self
        ((of_decide_eq_true he).trans hk)
    rw [List.find?_append, h1, Option.none_or, List.find?_cons_of_pos (by simpa using hk.symm)]
  · next hk =>
    rw [List.find?_append, List.find?_append,
      List.find?_cons_of_neg (by simpa using fun e : s.key = k => hk e.symm)]

theorem filter_split {β : Type} [DecidableEq β] (f : Slot → β)
    (h : ((l₁ ++ s :: l₂).map f).Nodup) :
    (l₁ ++ s :: l₂).filter (fun x => decide (f x ≠ f s)) = l₁ ++ l₂ ∧
      (l₁ ++ s :: l₂).filter (fun x => decide (f x = f s)) = [s] := by
  rw [List.map_append, List.map_cons, List.nodup_append, List.nodup_cons] at h
  have h1 : ∀ x ∈ l₁, f x ≠ f s := fun x hx =>
    h.2.2 (f x) (List.mem_map_of_mem hx) (f s) List.mem_cons_self
  have h2 : ∀ x ∈ l₂, f x ≠ f s := fun x hx he =>
    h.2.1.1 (he ▸ List.mem_map_of_mem hx)
  constructor
  · rw [List.filter_append, List.filter_cons_of_neg (by simp),
      List.filter_eq_self.mpr fun x hx => decide_eq_true (h1 x hx),
      List.filter_eq_self.mpr fun x hx => decide_eq_true (h2 x hx)]
  · rw [List.filter_append, List.filter_cons_of_pos (by simp),
      List.filter_eq_nil_iff.mpr fun x hx => by simpa using h1 x hx,
      List.filter_eq_nil_iff.mpr fun x hx => by simpa using h2 x hx, List.nil_append]

theorem nodup_split {β : Type} {f : Slot → β} (h : ((l₁ ++ s :: l₂).map f).Nodup) :
    ((l₁ ++ l₂).map f).Nodup :=
  h.sublist (((List.sublist_cons_self s l₂).append_left l₁).map f)

theorem nodup_front {β : Type} {f : Slot → β} (h : ((l₁ ++ s :: l₂).map f).Nodup) :
    ((s :: (l₁ ++ l₂)).map f).Nodup :=
  ((List.perm_middle.map f).nodup_iff).mp h

/-! ## looking up -/

theorem Rep.find_some (h : Rep c l) {k : Bytes} {node : Node} (hk : c.map.find? k = some node) :
    ∃ l₁ s l₂, l = l₁ ++ s :: l₂ ∧ s.key = k ∧ node = s.node := by
  rw [h.find, Option.map_eq_some_iff] at hk
  obtain ⟨s, hs, rfl⟩ := hk
  obtain ⟨l₁, l₂, rfl⟩ := List.append_of_mem (List.mem_of_find?_eq_some hs)
  exact ⟨l₁, s, l₂, rfl, by simpa using List.find?_some hs, rfl⟩

theorem Rep.find_none (h : Rep c l) {k : Bytes} (hk : c.map.find? k = none) :
    ∀ s ∈ l, s.key ≠ k := by
  rw [h.find, Option.map_eq_none_iff, List.find?_eq_none] at hk
  intro s hs he
  exact hk s hs (decide_eq_true he)

theorem Rep.find_split (h : Rep c (l₁ ++ s :: l₂)) : c.map.find? s.key = some s.node := by
  rw [h.find, find?_split h.keys, if_pos rfl, Option.map_some]

/-! ## the helpers -/

theorem Rep.eraseBoth (h : Rep c (l₁ ++ s :: l₂)) :
    Rep (c.eraseBoth s.key s.node s.addr) (l₁ ++ l₂) where
  lru := by
    show c.lru.filter _ = _
    rw [h.lru, List.filter_map]
    exact congrArg (List.map Slot.cell) (filter_split Slot.addr h.addrs).1
  find := by
    intro k
    show (c.map.erase s.key).find? k = _
    rw [AssocMap.find?_erase, h.find, find?_split h.keys]
    split
    · next hk =>
      symm
      rw [Option.map_eq_none_iff, List.find?_eq_none]
      intro x hx he
      have hn := nodup_front h.keys
      rw [List.map_cons, List.nodup_cons] at hn
      exact hn.1 (hk ▸ of_decide_eq_true he ▸ List.mem_map_of_mem hx)
    · rfl
  keys := nodup_split h.keys
  addrs := nodup_split h.addrs
  fresh := fun x hx => h.fresh x (by
    rw [List.mem_append] at hx ⊢
    exact hx.imp_right (List.mem_cons_of_mem _))
  used := by
    show sizeSub c.usedBytes (sizeT (s.key.length + s.value.length)) = _
    have e : slotsSize (l₁ ++ s :: l₂) = slotsSize (l₁ ++ l₂) + s.size := by
      rw [slotsSize_append, slotsSize_append, slotsSize_cons]
      omega
    rw [h.used, e]
    unfold sizeSub sizeT Slot.size
    omega

theorem Rep.touch (h : Rep c (l₁ ++ s :: l₂)) : Rep (c.touch s.addr) (s :: (l₁ ++ l₂)) := by
  have hfirst : (c.lru.head?.map Cell.addr) = some s.addr → l₁ = [] := by
    intro he
    cases l₁ with
    | nil => rfl
    | cons x l₁ =>
      have hx : x.addr = s.addr := by
        rw [h.lru] at he
        exact Option.some.inj he
      have hn := h.addrs
      rw [List.cons_append, List.map_cons, List.nodup_cons] at hn
      exact absurd (hx ▸ List.mem_map_of_mem (List.mem_append_right _ List.mem_cons_self)) hn.1
  unfold LRUCache.touch
  split
  · next he =>
    rw [hfirst he] at h ⊢
    exact h
  · refine ⟨?_, ?_, nodup_front h.keys, nodup_front h.addrs, ?_, ?_⟩
    · obtain ⟨h1, h2⟩ := filter_split Slot.addr h.addrs
      show (c.lru.filter fun x => decide (x.addr = s.addr))
        ++ (c.lru.filter fun x => decide (x.addr ≠ s.addr)) = _
      rw [h.lru, List.filter_map, List.filter_map]
      show ((l₁ ++ s :: l₂).filter fun x => decide (x.addr = s.addr)).map Slot.cell
        ++ ((l₁ ++ s :: l₂).filter fun x => decide (x.addr ≠ s.addr)).map Slot.cell = _
      rw [h1, h2]
      rfl
    · intro k
      show c.map.find? k = _
      rw [h.find, find?_split h.keys]
      have hn : (([] ++ s :: (l₁ ++ l₂) : List Slot).map Slot.key).Nodup := nodup_front h.keys
      have h2 := find?_split hn k
      rw [List.nil_append] at h2
      rw [h2, List.nil_append]
    · intro x hx
      exact h.fresh x (List.perm_middle.mem_iff.mpr hx)
    · show c.usedBytes = _
      rw [h.used, slotsSize_append, slotsSize_cons, slotsSize_cons, slotsSize_append]
      congr 1
      omega

theorem touch_capacity (c : LRUCache) (it : Nat) :
    (c.touch it).capacityBytes = c.capacityBytes := by
  unfold LRUCache.touch
  split <;> rfl

def Slot.assign (s : Slot) (value : Bytes) (exp : Time) : Slot := ⟨s.addr, s.key, value, exp⟩

theorem Rep.update (h : Rep c (l₁ ++ s :: l₂)) (value : Bytes) (exp : Time) :
    Rep (c.update s.key value s.node exp) (s.assign value exp :: (l₁ ++ l₂)) := by
  have hkeys : (l₁ ++ s.assign value exp :: l₂).map Slot.key = (l₁ ++ s :: l₂).map Slot.key := by
    rw [List.map_append, List.map_append, List.map_cons, List.map_cons]
    rfl
  have haddrs : (l₁ ++ s.assign value exp :: l₂).map Slot.addr
      = (l₁ ++ s :: l₂).map Slot.addr := by
    rw [List.map_append, List.map_append, List.map_cons, List.map_cons]
    rfl
  refine Rep.touch (s := s.assign value exp) ⟨?_, ?_, hkeys ▸ h.keys, haddrs ▸ h.addrs, ?_, ?_⟩
  · show c.lru = _
    rw [h.lru, List.map_append, List.map_append, List.map_cons, List.map_cons]
    rfl
  · intro k
    show (c.map.insertOrAssign s.key (s.assign value exp).node).find? k = _
    rw [AssocMap.find?_insertOrAssign, find?_split (hkeys ▸ h.keys), h.find, find?_split h.keys]
    show _ = Option.map Slot.node (if k = s.key then _ else _)
    split <;> rfl
  · intro x hx
    rw [List.mem_append, List.mem_cons] at hx
    rcases hx with hx | rfl | hx
    · exact h.fresh x (List.mem_append_left _ hx)
    · exact h.fresh s (List.mem_append_right _ List.mem_cons_self)
    · exact h.fresh x (List.mem_append_right _ (List.mem_cons_of_mem _ hx))
  · show sizeT (sizeSub (if s.key.length ≠ s.key.length then _ else c.usedBytes) s.value.length
      + value.length) = _
    rw [if_neg (not_not_intro rfl), h.used, slotsSize_append, slotsSize_append, slotsSize_cons,
      slotsSize_cons]
    unfold sizeSub sizeT Slot.size Slot.assign
    simp only
    omega

theorem Rep.insert (h : Rep c l) {key : Bytes} (hk : c.map.find? key = none) (value : Bytes)
    (exp : Time) : Rep (c.insert key value exp) (⟨c.next, key, value, exp⟩ :: l) where
  lru := by
    show Cell.mk c.next key :: c.lru = _
    rw [h.lru]
    rfl
  find := by
    intro k
    show (c.map.insert key _).find? k = _
    rw [AssocMap.find?_insert_of_none _ hk]
    by_cases he : k = key
    · rw [if_pos he, List.find?_cons_of_pos (by simpa using he.symm)]
      rfl
    · rw [if_neg he, List.find?_cons_of_neg (by simpa using fun e : key = k => he e.symm), h.find]
  keys := by
    rw [List.map_cons, List.nodup_cons]
    refine ⟨fun hm => ?_, h.keys⟩
    obtain ⟨s, hs, he⟩ := List.mem_map.mp hm
    exact h.find_none hk s hs he
  addrs := by
    rw [List.map_cons, List.nodup_cons]
    refine ⟨fun hm => ?_, h.addrs⟩
    obtain ⟨s, hs, he⟩ := List.mem_map.mp hm
    exact absurd (h.fresh s hs) (by simp only at he; omega)
  fresh := by
    intro s hs
    rw [List.mem_cons] at hs
    rcases hs with rfl | hs
    · exact Nat.lt_succ_self _
    · exact Nat.lt_succ_of_lt (h.fresh s hs)
  used := by
    show sizeT (c.usedBytes + sizeT (key.length + value.length)) = _
    rw [h.used, slotsSize_cons]
    unfold sizeT Slot.size
    simp only
    omega

/-! ## `prune_unlocked` -/

def Slot.expired (s : Slot) (clk : Readings) : Bool × Readings := s.node.entry.isExpired clk

/-- the slots that are found not expired, and the readings left -/
def survivors : List Slot → Readings → List Slot × Readings
  | [], clk => ([], clk)
  | s :: l, clk =>
    let q := survivors l (s.expired clk).2
    (if (s.expired clk).1 then q.1 else s :: q.1, q.2)

theorem survivors_sublist (l : List Slot) (clk : Readings) : (survivors l clk).1.Sublist l := by
  induction l generalizing clk with
  | nil => exact List.Sublist.refl _
  | cons s l ih =>
    show (if (s.expired clk).1 then _ else _ : List Slot).Sublist _
    split
    · exact (ih _).cons s
    · exact (ih _).cons_cons s

theorem pruneLoop_rep (clk : Readings) (h : Rep c (l₁ ++ l₂)) :
    Rep (pruneLoop (l₂.map Slot.cell) clk c).1 (l₁ ++ (survivors l₂ clk).1) ∧
      (pruneLoop (l₂.map Slot.cell) clk c).2 = (survivors l₂ clk).2 ∧
      (pruneLoop (l₂.map Slot.cell) clk c).1.capacityBytes = c.capacityBytes := by
  induction l₂ generalizing l₁ clk c with
  | nil => exact ⟨h, rfl, rfl⟩
  | cons s l₂ ih =>
    have hf : c.map.find? s.cell.key = some s.node := h.find_split
    have hx : s.node.entry.isExpired clk = s.expired clk := rfl
    simp only [List.map_cons, pruneLoop, hf, survivors, hx]
    rcases s.expired clk with ⟨_ | _, clk'⟩
    · have h' : Rep c (l₁ ++ [s] ++ l₂) := by
        rw [List.append_assoc]
        exact h
      have key := ih clk' h'
      rw [List.append_assoc] at key
      exact key
    · exact ih clk' h.eraseBoth

theorem Rep.pruneUnlocked (h : Rep c l) (clk : Readings) :
    Rep (c.pruneUnlocked clk).1 (survivors l clk).1 ∧
      (c.pruneUnlocked clk).2 = (survivors l clk).2 ∧
      (c.pruneUnlocked clk).1.capacityBytes = c.capacityBytes := by
  unfold LRUCache.pruneUnlocked
  split
  · next he =>
    have hnil : l = [] := by
      cases l with
      | nil => rfl
      | cons s l =>
        have h' : Rep c ([] ++ s :: l) := h
        have hs : c.map.find? s.key = some s.node := h'.find_split
        have hm := AssocMap.find?_eq_some_iff.mp hs
        rw [List.isEmpty_iff.mp he] at hm
        exact absurd hm List.not_mem_nil
    rw [hnil] at h ⊢
    exact ⟨h, rfl, rfl⟩
  · rw [h.lru]
    have h' : Rep c ([] ++ l) := h
    exact pruneLoop_rep clk h'

/-! ## `evict_over_capacity` -/

def exceeds (cap : Nat) (l : List Slot) : Bool := decide (cap < sizeT (slotsSize l))

theorem Rep.evict (h : Rep c l) :
    Rep c.evictOverCapacity (Recency.trim (exceeds c.capacityBytes) l) ∧
      c.evictOverCapacity.capacityBytes = c.capacityBytes := by
  unfold LRUCache.evictOverCapacity
  rw [h.lru]
  induction l using List.reverseRecOn generalizing c with
  | nil => exact ⟨h, rfl⟩
  | append_singleton l s ih =>
    have hf : c.map.find? s.cell.key = some s.node := h.find_split
    rw [List.map_append, List.map_singleton, List.reverse_append, List.reverse_singleton,
      List.singleton_append, evictLoop, Recency.trim_snoc, h.used, hf]
    by_cases ho : c.capacityBytes < sizeT (slotsSize (l ++ [s]))
    · have h' := h.eraseBoth
      rw [List.append_nil] at h'
      have hx : exceeds c.capacityBytes (l ++ [s]) = true := decide_eq_true ho
      rw [if_pos ho, if_pos hx]
      exact ih h'
    · rw [if_neg ho, if_neg (by simpa [exceeds] using ho)]
      exact ⟨h, rfl⟩

/-! ## the calls -/

/-- a key is nowhere, or it is the key of one slot -/
theorem Rep.lookup (h : Rep c l) (key : Bytes) :
    (c.map.find? key = none ∧ ∀ s ∈ l, s.key ≠ key) ∨
    ∃ l₁ s l₂, l = l₁ ++ s :: l₂ ∧ s.key = key ∧ c.map.find? key = some s.node := by
  cases hk : c.map.find? key with
  | none => exact .inl ⟨rfl, h.find_none hk⟩
  | some node =>
    obtain ⟨l₁, s, l₂, hl, hs, rfl⟩ := h.find_some hk
    exact .inr ⟨l₁, s, l₂, hl, hs, rfl⟩

theorem Rep.eraseIt (h : Rep c (l₁ ++ s :: l₂)) : Rep (c.eraseIt s.key s.node) (l₁ ++ l₂) :=
  h.eraseBoth

/-- the expiry time that `set` computes -/
def expiry (ttlMs : Int) (clk : Readings) : Time :=
  if ttlMs = 0 then noExpireTime else (clk 0).addMs ttlMs

def others (l : List Slot) (key : Bytes) : List Slot := l.filter fun s => decide (s.key ≠ key)

/-- `set` before the eviction: the unexpired slots of other keys, and the new one before them -/
theorem Rep.store (h : Rep c l) (key value : Bytes) (ttlMs : Int) (clk : Readings) :
    (∃ addr, Rep (c.store key value ttlMs clk)
      (⟨addr, key, value, expiry ttlMs (survivors l clk).2⟩
        :: others (survivors l clk).1 key)) ∧
      (c.store key value ttlMs clk).capacityBytes = c.capacityBytes := by
  obtain ⟨hp, hclk, hcap⟩ := h.pruneUnlocked clk
  unfold LRUCache.store
  simp only [hclk]
  rcases hp.lookup key with ⟨hn, hne⟩ | ⟨l₁, s, l₂, hl, rfl, hs⟩
  · have e : others (survivors l clk).1 key = (survivors l clk).1 :=
      List.filter_eq_self.mpr fun s hs => decide_eq_true (hne s hs)
    simp only [hn, e]
    exact ⟨⟨_, hp.insert hn value _⟩, hcap⟩
  · rw [hl] at hp
    have e : others (l₁ ++ s :: l₂) s.key = l₁ ++ l₂ := (filter_split Slot.key hp.keys).1
    simp only [hs, hl, e]
    exact ⟨⟨_, hp.update value _⟩, (touch_capacity _ _).trans hcap⟩

theorem Rep.set (h : Rep c l) (key value : Bytes) (ttlMs : Int) (clk : Readings) :
    (∃ addr, Rep (c.set key value ttlMs clk) (Recency.trim (exceeds c.capacityBytes)
      (⟨addr, key, value, expiry ttlMs (survivors l clk).2⟩
        :: others (survivors l clk).1 key))) ∧
      (c.set key value ttlMs clk).capacityBytes = c.capacityBytes := by
  obtain ⟨⟨addr, hs⟩, hcap⟩ := h.store key value ttlMs clk
  have he := hs.evict
  rw [hcap] at he
  exact ⟨⟨addr, he.1⟩, he.2⟩

theorem ite_expired {α : Type} (b : Bool) (gone kept : α) :
    b = true ∧ (if b = true then gone else kept) = gone ∨
      b = false ∧ (if b = true then gone else kept) = kept := by
  cases b with
  | true => exact .inl ⟨rfl, rfl⟩
  | false => exact .inr ⟨rfl, rfl⟩

/-- a call that asks for a key: the key is nowhere; or its slot is expired and removed; or the
slot stays, and `get` moves it to the front -/
theorem Rep.get (h : Rep c l) (key : Bytes) (clk : Readings) :
    ((∀ s ∈ l, s.key ≠ key) ∧ c.get key clk = (none, c)) ∨
    ∃ l₁ s l₂, l = l₁ ++ s :: l₂ ∧ s.key = key ∧
      ((s.expired clk).1 = true ∧ c.get key clk = (none, c.eraseIt s.key s.node) ∨
        (s.expired clk).1 = false ∧ c.get key clk = (some s.value, c.touch s.addr)) := by
  unfold LRUCache.get
  rcases h.lookup key with ⟨hn, hne⟩ | ⟨l₁, s, l₂, hl, rfl, hs⟩
  · rw [hn]
    exact .inl ⟨hne, rfl⟩
  · rw [hs]
    exact .inr ⟨l₁, s, l₂, hl, rfl, ite_expired (s.expired clk).1 _ _⟩

theorem Rep.contains (h : Rep c l) (key : Bytes) (clk : Readings) :
    ((∀ s ∈ l, s.key ≠ key) ∧ c.contains key clk = (false, c)) ∨
    ∃ l₁ s l₂, l = l₁ ++ s :: l₂ ∧ s.key = key ∧
      ((s.expired clk).1 = true ∧ c.contains key clk = (false, c.eraseIt s.key s.node) ∨
        (s.expired clk).1 = false ∧ c.contains key clk = (true, c)) := by
  unfold LRUCache.contains
  rcases h.lookup key with ⟨hn, hne⟩ | ⟨l₁, s, l₂, hl, rfl, hs⟩
  · rw [hn]
    exact .inl ⟨hne, rfl⟩
  · rw [hs]
    exact .inr ⟨l₁, s, l₂, hl, rfl, ite_expired (s.expired clk).1 _ _⟩

theorem Rep.erase (h : Rep c l) (key : Bytes) :
    ((∀ s ∈ l, s.key ≠ key) ∧ c.erase key = (false, c)) ∨
    ∃ l₁ s l₂, l = l₁ ++ s :: l₂ ∧ s.key = key ∧ c.erase key = (true, c.eraseIt s.key s.node) := by
  unfold LRUCache.erase
  rcases h.lookup key with ⟨hn, hne⟩ | ⟨l₁, s, l₂, hl, rfl, hs⟩
  · rw [hn]
    exact .inl ⟨hne, rfl⟩
  · rw [hs]
    exact .inr ⟨l₁, s, l₂, hl, rfl, rfl⟩

/-- `ttl_left` removes a slot that is expired at the second reading too -/
theorem Rep.ttlLeft (h : Rep c l) (key : Bytes) (clk : Readings) :
    ((∀ s ∈ l, s.key ≠ key) ∧ c.ttlLeft key clk = (none, c)) ∨
    ∃ l₁ s l₂, l = l₁ ++ s :: l₂ ∧ s.key = key ∧
      (((s.expired clk).1 = true ∨ s.expireAt ≠ noExpireTime ∧ s.expireAt ≤ (s.expired clk).2 0) ∧
          c.ttlLeft key clk = (none, c.eraseIt s.key s.node) ∨
        (s.expired clk).1 = false ∧ s.expireAt = noExpireTime ∧ c.ttlLeft key clk = (none, c) ∨
        (s.expired clk).1 = false ∧ s.expireAt ≠ noExpireTime ∧
          (s.expired clk).2 0 < s.expireAt ∧ c.ttlLeft key clk
            = (some ((s.expireAt - (s.expired clk).2 0).tdiv ticksPerMs), c)) := by
  unfold LRUCache.ttlLeft
  rcases h.lookup key with ⟨hn, hne⟩ | ⟨l₁, s, l₂, hl, rfl, hs⟩
  · rw [hn]
    exact .inl ⟨hne, rfl⟩
  · rw [hs]
    refine .inr ⟨l₁, s, l₂, hl, rfl, ?_⟩
    have hx : s.node.entry.isExpired clk = s.expired clk := rfl
    have he : s.node.entry.expireAt = s.expireAt := rfl
    simp only [hx, he]
    cases (s.expired clk).1 with
    | true => exact .inl ⟨.inl rfl, rfl⟩
    | false =>
      by_cases hne : s.expireAt = noExpireTime
      · rw [if_neg Bool.false_ne_true, if_pos hne]
        exact .inr (.inl ⟨rfl, hne, rfl⟩)
      · rw [if_neg Bool.false_ne_true, if_neg hne]
        by_cases hle : s.expireAt ≤ (s.expired clk).2 0
        · rw [if_pos hle]
          exact .inl ⟨.inr ⟨hne, hle⟩, rfl⟩
        · rw [if_neg hle]
          exact .inr (.inr ⟨rfl, hne, Int.not_le.mp hle, rfl⟩)

theorem rep_clear (c : LRUCache) : Rep c.clear [] :=
  ⟨rfl, fun _ => rfl, List.nodup_nil, List.nodup_nil, fun _ hs => absurd hs List.not_mem_nil, rfl⟩

theorem rep_new (capacityMb : Nat) : Rep (new capacityMb) [] :=
  ⟨rfl, fun _ => rfl, List.nodup_nil, List.nodup_nil, fun _ hs => absurd hs List.not_mem_nil, rfl⟩

/-! ## the representation invariant -/

/-- the two structures hold the same keys, and every recorded number is the real one -/
structure Consistent (c : LRUCache) : Prop where
  keys : (c.lru.map Cell.key).Perm (c.map.entries.map Prod.fst)
  once : (c.lru.map Cell.key).Nodup
  iterators : ∀ k node, c.map.find? k = some node → c.deref node.lruIt = some k
  sizes : ∀ k node, c.map.find? k = some node → node.entry.key = k ∧
    node.entry.keySize = k.length ∧ node.entry.valueSize = node.entry.value.length
  used : c.usedBytes = c.totalBytes

theorem Rep.entries_perm (h : Rep c l) :
    c.map.entries.Perm (l.map fun s => (s.key, s.node)) := by
  have hk : (l.map fun s => (s.key, s.node)).map Prod.fst = l.map Slot.key := by
    rw [List.map_map]
    rfl
  refine AssocMap.perm_of_find? (hk ▸ h.keys) fun k node => ?_
  constructor
  · intro hf
    obtain ⟨l₁, s, l₂, rfl, rfl, rfl⟩ := h.find_some hf
    exact List.mem_map.mpr ⟨s, List.mem_append_right _ List.mem_cons_self, rfl⟩
  · intro hm
    obtain ⟨s, hs, he⟩ := List.mem_map.mp hm
    rw [Prod.mk.injEq] at he
    obtain ⟨l₁, l₂, rfl⟩ := List.append_of_mem hs
    rw [← he.1, ← he.2]
    exact h.find_split

theorem Rep.totalBytes (h : Rep c l) : c.totalBytes = slotsSize l := by
  unfold LRUCache.totalBytes slotsSize
  rw [(h.entries_perm.map _).sum_eq, List.map_map]
  rfl

theorem Rep.consistent (h : Rep c l) (hlt : slotsSize l < 2 ^ 64) : Consistent c where
  keys := by
    refine List.Perm.trans (List.Perm.of_eq ?_) (h.entries_perm.map Prod.fst).symm
    rw [h.lru, List.map_map, List.map_map]
    rfl
  once := by
    rw [h.lru, List.map_map]
    exact h.keys
  iterators := by
    intro k node hf
    obtain ⟨l₁, s, l₂, rfl, rfl, rfl⟩ := h.find_some hf
    have hs := filter_split Slot.addr h.addrs
    unfold deref
    rw [h.lru, ← List.head?_filter, List.filter_map]
    show Option.map Cell.key (((l₁ ++ s :: l₂).filter fun x => decide (x.addr = s.addr)).map
      Slot.cell).head? = _
    rw [hs.2]
    rfl
  sizes := by
    intro k node hf
    obtain ⟨l₁, s, l₂, rfl, rfl, rfl⟩ := h.find_some hf
    exact ⟨rfl, rfl, rfl⟩
  used := by rw [h.used, h.totalBytes, sizeT_of_lt hlt]

/-- a state between two calls -/
def Sound (c : LRUCache) : Prop :=
  ∃ l, Rep c l ∧ slotsSize l ≤ c.capacityBytes ∧ c.capacityBytes < 2 ^ 64

theorem sound_new (capacityMb : Nat) : Sound (new capacityMb) :=
  ⟨[], rep_new capacityMb, Nat.zero_le _, Nat.mod_lt _ (by norm_num)⟩

theorem slotsSize_le_of_sublist {p l : List Slot} (h : p.Sublist l) : slotsSize p ≤ slotsSize l :=
  (h.map Slot.size).sum_le_sum fun _ _ => Nat.zero_le _

/-- what is left behind the eviction fits, if the counter did not wrap -/
theorem trim_fits {cap : Nat} {l : List Slot} (hlt : slotsSize l < 2 ^ 64) :
    slotsSize (Recency.trim (exceeds cap) l) ≤ cap := by
  have hg := Recency.trim_good (exceeds cap) (decide_eq_false (by simp [slotsSize, sizeT])) l
  have hle := slotsSize_le_of_sublist (Recency.trim_isPrefix (exceeds cap) l).sublist
  have hn := of_decide_eq_false hg
  rw [sizeT_of_lt (by omega)] at hn
  omega

theorem Sound.set {key value : Bytes} {ttlMs : Int} {clk : Readings} (h : Sound c)
    (hfit : (c.store key value ttlMs clk).totalBytes < 2 ^ 64) :
    Sound (c.set key value ttlMs clk) := by
  obtain ⟨l, hr, -, hcap⟩ := h
  obtain ⟨⟨addr, hs⟩, hc⟩ := hr.store key value ttlMs clk
  obtain ⟨he, hce⟩ := hs.evict
  rw [hs.totalBytes] at hfit
  rw [hc] at he hce
  refine ⟨_, he, ?_, ?_⟩
  · show _ ≤ (c.store key value ttlMs clk).evictOverCapacity.capacityBytes
    rw [hce]
    exact trim_fits hfit
  · show (c.store key value ttlMs clk).evictOverCapacity.capacityBytes < _
    rw [hce]
    exact hcap

theorem Sound.of_sublist {c' : LRUCache} {l l' : List Slot} (h : Rep c' l')
    (hsub : slotsSize l' ≤ slotsSize l) (hle : slotsSize l ≤ c.capacityBytes)
    (hcap : c.capacityBytes < 2 ^ 64) (hc : c'.capacityBytes = c.capacityBytes) : Sound c' :=
  ⟨l', h, by rw [hc]; exact hsub.trans hle, by rw [hc]; exact hcap⟩

theorem slotsSize_split (l₁ l₂ : List Slot) (s : Slot) :
    slotsSize (l₁ ++ l₂) ≤ slotsSize (l₁ ++ s :: l₂) :=
  slotsSize_le_of_sublist ((List.sublist_cons_self s l₂).append_left l₁)

theorem slotsSize_front (l₁ l₂ : List Slot) (s : Slot) :
    slotsSize (s :: (l₁ ++ l₂)) = slotsSize (l₁ ++ s :: l₂) :=
  ((List.perm_middle.map Slot.size).sum_eq).symm

/-- **Every call keeps the two structures one**, if a `set` does not overflow the counter. -/
theorem Sound.call (h : Sound c) (clk : Readings) (q : Call)
    (hfit : ∀ key value ttlMs, q = .set key value ttlMs →
      (c.store key value ttlMs clk).totalBytes < 2 ^ 64) : Sound (c.call clk q).2 := by
  obtain ⟨l, hr, hle, hcap⟩ := id h
  cases q with
  | set key value ttlMs => exact h.set (hfit key value ttlMs rfl)
  | get key =>
    show Sound (c.get key clk).2
    rcases hr.get key clk with ⟨-, e⟩ | ⟨l₁, s, l₂, rfl, -, ⟨-, e⟩ | ⟨-, e⟩⟩
    · rw [e]
      exact h
    · rw [e]
      exact .of_sublist hr.eraseIt (slotsSize_split l₁ l₂ s) hle hcap rfl
    · rw [e]
      exact .of_sublist hr.touch (slotsSize_front l₁ l₂ s).le hle hcap (touch_capacity c s.addr)
  | ttlLeft key =>
    show Sound (c.ttlLeft key clk).2
    rcases hr.ttlLeft key clk with ⟨-, e⟩ | ⟨l₁, s, l₂, rfl, -, ⟨-, e⟩ | ⟨-, -, e⟩ | ⟨-, -, -, e⟩⟩
    · rw [e]
      exact h
    · rw [e]
      exact .of_sublist hr.eraseIt (slotsSize_split l₁ l₂ s) hle hcap rfl
    · rw [e]
      exact h
    · rw [e]
      exact h
  | contains key =>
    show Sound (c.contains key clk).2
    rcases hr.contains key clk with ⟨-, e⟩ | ⟨l₁, s, l₂, rfl, -, ⟨-, e⟩ | ⟨-, e⟩⟩
    · rw [e]
      exact h
    · rw [e]
      exact .of_sublist hr.eraseIt (slotsSize_split l₁ l₂ s) hle hcap rfl
    · rw [e]
      exact h
  | erase key =>
    show Sound (c.erase key).2
    rcases hr.erase key with ⟨-, e⟩ | ⟨l₁, s, l₂, rfl, -, e⟩
    · rw [e]
      exact h
    · rw [e]
      exact .of_sublist hr.eraseIt (slotsSize_split l₁ l₂ s) hle hcap rfl
  | clear => exact .of_sublist (rep_clear c) (Nat.zero_le _) hle hcap rfl
  | prune =>
    obtain ⟨hp, -, hc⟩ := hr.pruneUnlocked clk
    exact .of_sublist hp (slotsSize_le_of_sublist (survivors_sublist l clk)) hle hcap hc

/-- behind every `set` of the sequence, before it evicts, the bytes can be counted in a `size_t` -/
def Countable : LRUCache → List (Call × Readings) → Prop
  | _, [] => True
  | c, (q, clk) :: calls =>
    (∀ key value ttlMs, q = .set key value ttlMs →
      (c.store key value ttlMs clk).totalBytes < 2 ^ 64) ∧ Countable (c.call clk q).2 calls

theorem Sound.runCalls (h : Sound c) {calls : List (Call × Readings)} (hfit : Countable c calls) :
    Sound (c.runCalls calls).2 := by
  induction calls generalizing c with
  | nil => exact h
  | cons q calls ih => exact ih (h.call q.2 q.1 hfit.1) hfit.2

/-- **The representation invariant** holds behind every sequence of calls, whatever the readings of
the clock are: list and map hold the same keys, each once, iterators and sizes are right, and the
counter is the sum of the sizes and not above the capacity. -/
theorem runCalls_consistent (capacityMb : Nat) (calls : List (Call × Readings))
    (hfit : Countable (new capacityMb) calls) :
    Consistent ((new capacityMb).runCalls calls).2 ∧
      ((new capacityMb).runCalls calls).2.usedBytes
        ≤ ((new capacityMb).runCalls calls).2.capacityBytes := by
  obtain ⟨l, hr, hle, hcap⟩ := (sound_new capacityMb).runCalls hfit
  have hc := hr.consistent (hle.trans_lt hcap)
  exact ⟨hc, by rw [hc.used, hr.totalBytes]; exact hle⟩

/-- two keys, a new value for the first of them, and a prune behind its expiry -/
def exampleCalls : List (Call × Readings) :=
  [(.set (str "a") (str "1") 1, fun _ => 0), (.set (str "b") (str "2") 0, fun _ => 0),
    (.set (str "a") (str "123") 2, fun _ => 500000), (.get (str "b"), fun _ => 600000),
    (.prune, fun _ => 3000000)]

theorem runCalls_consistent_pair :
    Consistent ((new 1).runCalls exampleCalls).2 ∧
      ((new 1).runCalls exampleCalls).2.usedBytes
        ≤ ((new 1).runCalls exampleCalls).2.capacityBytes := by
  refine runCalls_consistent 1 exampleCalls ⟨?_, ?_, ?_, ?_, ?_, trivial⟩
  · rintro _ _ _ ⟨⟩
    decide +kernel
  · rintro _ _ _ ⟨⟩
    decide +kernel
  · rintro _ _ _ ⟨⟩
    decide +kernel
  · rintro _ _ _ ⟨⟩
  · rintro _ _ _ ⟨⟩

example : (((new 1).runCalls exampleCalls).2.lru.map Cell.key,
    ((new 1).runCalls exampleCalls).2.usedBytes) = ([str "b"], 2) := by decide +kernel

end ServerHttpLib.LRUCache
