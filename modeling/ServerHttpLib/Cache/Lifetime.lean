import ServerHttpLib.Cache.Invariant

/-!
# How long an entry lives

`set` adds the TTL in nanoseconds to the time, in 64 bits, and the last time point stands for an
entry that does not expire.  An entry is kept by every call that does not overwrite, erase or evict
it, as long as its expiry time is ahead of the clock (`call_keeps`); so what matters is whether the
sum is one of time points.

* `runCalls_keeps`   an entry whose expiry is ahead is there behind every such run;
* `lasts_iff`        it lives as long as was asked for, and no shorter TTL gives a later expiry,
                     exactly if the sum does not wrap, or wraps to the last time point.
-/

namespace ServerHttpLib.LRUCache

/-- the entry is not expired at any time up to `t` -/
def Entry.FreshAt (e : Entry) (t : Time) : Prop := e.expireAt = noExpireTime ∨ t < e.expireAt

def Readings.Upto (clk : Readings) (t : Time) : Prop := ∀ n, clk n ≤ t

/-- a reading of the clock; its last value is reserved -/
def IsReading (t : Time) : Prop := -2 ^ 63 ≤ t ∧ t < 2 ^ 63 - 1

/-- the call neither overwrites nor erases nor evicts the entry of `key` -/
def Call.Spares (key : Bytes) (c : LRUCache) (clk : Readings) : Call → Prop
  | .set k value ttlMs => k ≠ key ∧
      (((c.store k value ttlMs clk).map.find? key).isSome →
        ((c.set k value ttlMs clk).map.find? key).isSome)
  | .erase k => k ≠ key
  | .clear => False
  | .get _ | .ttlLeft _ | .contains _ | .prune => True

/-- calls with readings up to `t` that all spare the entry of `key` -/
def Spared (key : Bytes) (t : Time) : LRUCache → List (Call × Readings) → Prop
  | _, [] => True
  | c, (q, clk) :: calls =>
    q.Spares key c clk ∧ clk.Upto t ∧ Spared key t (c.call clk q).2 calls

/-- **What a TTL promises** for an entry stored at `now`: in every cache, for every key and value
that fit, behind every run of calls that spare the entry, `get` returns the value at any time before
`now` plus the TTL.  The readings of `set` before the one for the expiry are those of its prune. -/
def Lasts (now : Time) (ttlMs : Int) : Prop :=
  ∀ (capacityMb : Nat) (before calls : List (Call × Readings)) (key value : Bytes)
    (clk later : Readings),
    let c := ((new capacityMb).runCalls before).2
    (c.pruneUnlocked clk).2 0 = now → key.length + value.length ≤ c.capacityBytes →
    Spared key (later 0) (c.set key value ttlMs clk) calls →
    IsReading (later 0) → now ≤ later 0 → later 0 < now + ttlMs * ticksPerMs →
    (((c.set key value ttlMs clk).runCalls calls).2.get key later).1 = some value

variable {c : LRUCache} {key : Bytes} {node : Node} {t now : Time} {clk : Readings}

/-! ## what keeps an entry -/

theorem isExpired_upto (e : Entry) (h : clk.Upto t) : (e.isExpired clk).2.Upto t := by
  unfold Entry.isExpired
  split
  · exact h
  · exact fun n => h (n + 1)

theorem not_isExpired {e : Entry} (hf : e.FreshAt t) (h : clk.Upto t) :
    (e.isExpired clk).1 = false := by
  unfold Entry.isExpired Entry.isNoExpire
  by_cases hn : e.expireAt = noExpireTime
  · rw [if_pos (decide_eq_true hn)]
  · have hlt := hf.resolve_left hn
    have hle := h 0
    rw [if_neg (by simpa using hn)]
    exact decide_eq_false (Int.not_le.mpr (Int.lt_of_le_of_lt hle hlt))

theorem touch_map (c : LRUCache) (it : Nat) : (c.touch it).map = c.map := by
  unfold touch
  split
  · rfl
  · rfl

theorem eraseBoth_keeps {k : Bytes} (hk : k ≠ key) (n : Node) (it : Nat)
    (h : c.map.find? key = some node) : (c.eraseBoth k n it).map.find? key = some node := by
  show (c.map.erase k).find? key = some node
  rw [AssocMap.find?_erase, if_neg fun e => hk e.symm, h]

/-- the prune erases no entry that is not expired -/
theorem pruneLoop_keeps (hf : node.entry.FreshAt t) (cells : List Cell) (hclk : clk.Upto t)
    (h : c.map.find? key = some node) : (pruneLoop cells clk c).1.map.find? key = some node := by
  induction cells generalizing clk c with
  | nil => exact h
  | cons x cells ih =>
    rw [pruneLoop]
    cases hx : c.map.find? x.key with
    | none => exact ih hclk h
    | some n =>
      refine ih (isExpired_upto n.entry hclk) ?_
      by_cases hk : x.key = key
      · rw [hk, h, Option.some.injEq] at hx
        rw [← hx, not_isExpired hf hclk]
        exact h
      · split
        · exact eraseBoth_keeps hk n x.addr h
        · exact h

theorem pruneUnlocked_keeps (hf : node.entry.FreshAt t) (hclk : clk.Upto t)
    (h : c.map.find? key = some node) : (c.pruneUnlocked clk).1.map.find? key = some node := by
  unfold pruneUnlocked
  split
  · exact h
  · exact pruneLoop_keeps hf c.lru hclk h

/-- the eviction removes entries and changes none -/
theorem evictLoop_find (cells : List Cell) (c : LRUCache) (key : Bytes) :
    (evictLoop cells c).map.find? key = none ∨
      (evictLoop cells c).map.find? key = c.map.find? key := by
  induction cells generalizing c with
  | nil => exact .inr rfl
  | cons back cells ih =>
    rw [evictLoop]
    split
    · cases hb : c.map.find? back.key with
      | none => exact ih { c with lru := c.lru.dropLast }
      | some n =>
        rcases ih (c.eraseBoth back.key n back.addr) with h | h
        · exact .inl h
        · have he : (c.eraseBoth back.key n back.addr).map.find? key
              = if key = back.key then none else c.map.find? key := AssocMap.find?_erase _ _ _
          rw [he] at h
          split at h
          · exact .inl h
          · exact .inr h
    · exact .inr rfl

theorem store_keeps {k : Bytes} (hk : k ≠ key) (value : Bytes) (ttlMs : Int)
    (hf : node.entry.FreshAt t) (hclk : clk.Upto t) (h : c.map.find? key = some node) :
    (c.store k value ttlMs clk).map.find? key = some node := by
  have hp := pruneUnlocked_keeps hf hclk h
  unfold store
  cases hn : (c.pruneUnlocked clk).1.map.find? k with
  | none =>
    simp only [hn, insert]
    rw [AssocMap.find?_insert, if_neg fun e => hk e.symm, hp]
  | some n =>
    simp only [hn, update]
    rw [touch_map, AssocMap.find?_insertOrAssign, if_neg fun e => hk e.symm, hp]

/-- what a call that asks for a key finds there is not expired, or it is another entry -/
theorem eraseIt_keeps {k : Bytes} {n : Node} (hn : c.map.find? k = some n)
    (hne : n ≠ node) (h : c.map.find? key = some node) :
    (c.eraseIt k n).map.find? key = some node := by
  refine eraseBoth_keeps (fun hk => hne ?_) n n.lruIt h
  rw [hk, h, Option.some.injEq] at hn
  exact hn.symm

theorem expired_keeps {β : Type} {k : Bytes} {n : Node} (hf : node.entry.FreshAt t)
    (hclk : clk.Upto t) (hn : c.map.find? k = some n) (h : c.map.find? key = some node) (gone : β)
    {live : β × LRUCache} (hlive : live.2.map.find? key = some node) :
    (if (n.entry.isExpired clk).1 then (gone, c.eraseIt k n) else live).2.map.find? key
      = some node := by
  split
  · next hx =>
    refine eraseIt_keeps hn ?_ h
    rintro rfl
    rw [not_isExpired hf hclk] at hx
    exact absurd hx (by simp)
  · exact hlive

/-- `ttl_left` reads the clock again for an entry that was not expired; this one is not then -/
theorem ttlLeft_keeps (hf : node.entry.FreshAt t) (hclk : clk.Upto t) (k : Bytes)
    (h : c.map.find? key = some node) : (c.ttlLeft k clk).2.map.find? key = some node := by
  unfold LRUCache.ttlLeft
  cases hn : c.map.find? k with
  | none => exact h
  | some n =>
    apply expired_keeps hf hclk hn h
    split
    · exact h
    · next hno =>
      split
      · next hle =>
        refine eraseIt_keeps hn ?_ h
        rintro rfl
        have hlt := hf.resolve_left hno
        have hup := isExpired_upto n.entry hclk 0
        exact absurd (Int.le_trans hle hup) (Int.not_le.mpr hlt)
      · exact h

/-- a `set` of another key that does not evict the entry -/
theorem set_keeps (hf : node.entry.FreshAt t) (hclk : clk.Upto t) {k value : Bytes} {ttlMs : Int}
    (hs : (Call.set k value ttlMs).Spares key c clk) (h : c.map.find? key = some node) :
    (c.set k value ttlMs clk).map.find? key = some node := by
  have hstore := store_keeps hs.1 value ttlMs hf hclk h
  have hsome := hs.2 (by rw [hstore]; rfl)
  rcases evictLoop_find (c.store k value ttlMs clk).lru.reverse (c.store k value ttlMs clk) key
    with hn | he
  · rw [LRUCache.set, evictOverCapacity, hn] at hsome
    exact absurd hsome (by simp)
  · exact he.trans hstore

/-- **A call keeps an entry** whose expiry is ahead of the clock, unless it overwrites, erases or
evicts it. -/
theorem call_keeps (hf : node.entry.FreshAt t) (hclk : clk.Upto t) {q : Call}
    (hs : q.Spares key c clk) (h : c.map.find? key = some node) :
    (c.call clk q).2.map.find? key = some node := by
  cases q with
  | set k value ttlMs => exact set_keeps hf hclk hs h
  | get k =>
    show (c.get k clk).2.map.find? key = some node
    unfold LRUCache.get
    cases hn : c.map.find? k with
    | none => exact h
    | some n =>
      apply expired_keeps hf hclk hn h
      rw [touch_map, h]
  | ttlLeft k => exact ttlLeft_keeps hf hclk k h
  | contains k =>
    show (c.contains k clk).2.map.find? key = some node
    unfold LRUCache.contains
    cases hn : c.map.find? k with
    | none => exact h
    | some n => exact expired_keeps hf hclk hn h false h
  | erase k =>
    show (c.erase k).2.map.find? key = some node
    unfold LRUCache.erase
    cases hn : c.map.find? k with
    | none => exact h
    | some n => exact eraseBoth_keeps hs n n.lruIt h
  | clear => exact absurd hs id
  | prune => exact pruneUnlocked_keeps hf hclk h

theorem runCalls_keeps (hf : node.entry.FreshAt t) {calls : List (Call × Readings)}
    (hs : Spared key t c calls) (h : c.map.find? key = some node) :
    (c.runCalls calls).2.map.find? key = some node := by
  induction calls generalizing c with
  | nil => exact h
  | cons q calls ih => exact ih hs.2.2 (call_keeps hf hs.2.1 hs.1 h)

/-! ## what `set` stores -/

theorem rep_call {l : List Slot} (h : Rep c l) (clk : Readings) (q : Call) :
    ∃ l', Rep (c.call clk q).2 l' := by
  cases q with
  | set k value ttlMs =>
    obtain ⟨⟨addr, hr⟩, -⟩ := h.set k value ttlMs clk
    exact ⟨_, hr⟩
  | get k =>
    show ∃ l', Rep (c.get k clk).2 l'
    rcases h.get k clk with ⟨-, e⟩ | ⟨l₁, s, l₂, rfl, -, ⟨-, e⟩ | ⟨-, e⟩⟩
    · exact ⟨l, by rw [e]; exact h⟩
    · exact ⟨_, by rw [e]; exact h.eraseIt⟩
    · exact ⟨_, by rw [e]; exact h.touch⟩
  | ttlLeft k =>
    show ∃ l', Rep (c.ttlLeft k clk).2 l'
    rcases h.ttlLeft k clk with ⟨-, e⟩ | ⟨l₁, s, l₂, rfl, -, ⟨-, e⟩ | ⟨-, -, e⟩ | ⟨-, -, -, e⟩⟩
    · exact ⟨l, by rw [e]; exact h⟩
    · exact ⟨_, by rw [e]; exact h.eraseIt⟩
    · exact ⟨_, by rw [e]; exact h⟩
    · exact ⟨_, by rw [e]; exact h⟩
  | contains k =>
    show ∃ l', Rep (c.contains k clk).2 l'
    rcases h.contains k clk with ⟨-, e⟩ | ⟨l₁, s, l₂, rfl, -, ⟨-, e⟩ | ⟨-, e⟩⟩
    · exact ⟨l, by rw [e]; exact h⟩
    · exact ⟨_, by rw [e]; exact h.eraseIt⟩
    · exact ⟨_, by rw [e]; exact h⟩
  | erase k =>
    show ∃ l', Rep (c.erase k).2 l'
    rcases h.erase k with ⟨-, e⟩ | ⟨l₁, s, l₂, rfl, -, e⟩
    · exact ⟨l, by rw [e]; exact h⟩
    · exact ⟨_, by rw [e]; exact h.eraseIt⟩
  | clear => exact ⟨[], rep_clear c⟩
  | prune => exact ⟨_, (h.pruneUnlocked clk).1⟩

theorem rep_runCalls {l : List Slot} (h : Rep c l) (calls : List (Call × Readings)) :
    ∃ l', Rep (c.runCalls calls).2 l' := by
  induction calls generalizing c l with
  | nil => exact ⟨l, h⟩
  | cons q calls ih =>
    obtain ⟨l', h'⟩ := rep_call h q.2 q.1
    exact ih h'

/-- an entry that fits is in front, and the eviction does not come to it -/
theorem set_stores {l : List Slot} (h : Rep c l) {value : Bytes}
    (hfit : key.length + value.length ≤ c.capacityBytes) (ttlMs : Int) (clk : Readings) :
    ∃ node, (c.set key value ttlMs clk).map.find? key = some node ∧ node.entry.value = value ∧
      node.entry.expireAt = expiry ttlMs (c.pruneUnlocked clk).2 := by
  obtain ⟨⟨addr, hr⟩, -⟩ := h.set key value ttlMs clk
  rw [← (h.pruneUnlocked clk).2.1] at hr
  generalize hslot : (⟨addr, key, value, expiry ttlMs (c.pruneUnlocked clk).2⟩ : Slot) = s at hr
  generalize others (survivors l clk).1 key = rest at hr
  have hgood : exceeds c.capacityBytes [s] = false := by
    have hmod : sizeT (key.length + value.length) ≤ key.length + value.length :=
      Nat.mod_le _ _
    refine decide_eq_false ?_
    rw [← hslot, slotsSize, List.map_singleton, List.sum_singleton]
    exact Nat.not_lt.mpr (hmod.trans hfit)
  obtain ⟨tail, htail⟩ := Recency.trim_greatest (exceeds c.capacityBytes)
    (List.prefix_append [s] rest) hgood
  change s :: tail = Recency.trim (exceeds c.capacityBytes) (s :: rest) at htail
  rw [← htail] at hr
  have hsplit : Rep (c.set key value ttlMs clk) ([] ++ s :: tail) := hr
  have hfind : (c.set key value ttlMs clk).map.find? s.key = some s.node := hsplit.find_split
  subst hslot
  exact ⟨_, hfind, rfl, rfl⟩

/-! ## the sum -/

/-- the sum of the time and the TTL is a time point, or is taken for the last one -/
def Reaches (now : Time) (ttlMs : Int) : Prop :=
  now + ttlMs * ticksPerMs < 2 ^ 63 ∨ (now + ttlMs * ticksPerMs) % 2 ^ 64 = 2 ^ 63 - 1

theorem bmod_of_lt {sum : Int} (h1 : -2 ^ 63 ≤ sum) (h2 : sum < 2 ^ 63) :
    Int.bmod sum (2 ^ 64) = sum := by
  norm_num at h1 h2
  exact Int.bmod_eq_of_le (by norm_num; omega) (by norm_num; omega)

theorem bmod_eq_last (sum : Int) :
    Int.bmod sum (2 ^ 64) = 2 ^ 63 - 1 ↔ sum % 2 ^ 64 = 2 ^ 63 - 1 := by
  rw [Int.bmod_def]
  norm_num
  split
  · omega
  · omega

theorem addMs_of_lt {ttlMs : Int} (hnow : IsReading now) (hpos : 0 < ttlMs)
    (h : now + ttlMs * ticksPerMs < 2 ^ 63) : now.addMs ttlMs = now + ttlMs * ticksPerMs := by
  have hmul : 0 < ttlMs * ticksPerMs := Int.mul_pos hpos (by decide)
  exact bmod_of_lt (Int.le_trans hnow.1 (Int.le_add_of_nonneg_right hmul.le)) h

theorem addMs_le (now : Time) (ttlMs : Int) : now.addMs ttlMs ≤ noExpireTime := by
  have h := Int.bmod_lt (x := now + ttlMs * ticksPerMs) (m := 2 ^ 64) (by norm_num)
  norm_num at h
  exact Int.le_of_lt_add_one h

theorem addMs_eq_last {ttlMs : Int} : now.addMs ttlMs = noExpireTime ↔
    (now + ttlMs * ticksPerMs) % 2 ^ 64 = 2 ^ 63 - 1 :=
  bmod_eq_last _

/-- an entry whose expiry is that of a TTL that reaches is fresh at any time before it is due -/
theorem freshAt_of_reaches {ttlMs : Int} (hnow : IsReading now) (hpos : 0 < ttlMs)
    (h : Reaches now ttlMs) {e : Entry} (he : e.expireAt = now.addMs ttlMs)
    (ht : t < now + ttlMs * ticksPerMs) : e.FreshAt t := by
  rcases h with hlt | hlast
  · right
    rw [he, addMs_of_lt hnow hpos hlt]
    exact ht
  · left
    rw [he, addMs_eq_last.mpr hlast]

theorem lasts_of_reaches {ttlMs : Int} (hnow : IsReading now) (hpos : 0 < ttlMs)
    (h : Reaches now ttlMs) : Lasts now ttlMs := by
  intro capacityMb before calls key value clk later c hclk hfit hs _ _ ht
  obtain ⟨l, hr⟩ := rep_runCalls (rep_new capacityMb) before
  obtain ⟨node, hfind, rfl, he⟩ := set_stores hr hfit ttlMs clk
  rw [expiry, if_neg (by omega), hclk] at he
  have hf : node.entry.FreshAt (later 0) := freshAt_of_reaches hnow hpos h he ht
  have hkept := runCalls_keeps hf hs hfind
  have hfresh : (node.entry.isExpired later).1 = false := by
    have hconst : (node.entry.isExpired fun _ => later 0).1 = false :=
      not_isExpired hf fun _ => Int.le_refl _
    unfold Entry.isExpired at hconst ⊢
    split at hconst
    · next hno => rw [if_pos hno]
    · next hno => rw [if_neg hno]; exact hconst
  unfold LRUCache.get
  rw [hkept]
  simp only [hfresh, Bool.false_eq_true, if_false]

/-- the entry of a sum that wraps to a time point is expired at the last reading of the clock -/
theorem reaches_of_lasts {ttlMs : Int} (hnow : IsReading now) (hpos : 0 < ttlMs)
    (h : Lasts now ttlMs) : Reaches now ttlMs := by
  by_contra hnot
  rw [Reaches, not_or] at hnot
  have hfit : ([] : Bytes).length + ([] : Bytes).length ≤ (new 1).capacityBytes := by decide
  obtain ⟨node, hfind, hv, he⟩ := set_stores (rep_new 1) hfit ttlMs fun _ => now
  have hclk : ((new 1).pruneUnlocked fun _ => now).2 0 = now := rfl
  rw [expiry, if_neg (by omega), hclk] at he
  have hno : node.entry.expireAt ≠ noExpireTime := fun e =>
    hnot.2 (addMs_eq_last.mp (he.symm.trans e))
  have hle : node.entry.expireAt ≤ 2 ^ 63 - 2 := by
    have hmax : ∀ e : Int, e ≤ 2 ^ 63 - 1 → e ≠ 2 ^ 63 - 1 → e ≤ 2 ^ 63 - 2 := by omega
    exact hmax _ (he ▸ addMs_le now ttlMs) hno
  have hlate : now ≤ 2 ^ 63 - 2 ∧ (2 ^ 63 - 2 : Int) < now + ttlMs * ticksPerMs := by
    have hlast : ∀ n sum : Int, n < 2 ^ 63 - 1 → ¬ sum < 2 ^ 63 →
        n ≤ 2 ^ 63 - 2 ∧ 2 ^ 63 - 2 < sum := by omega
    exact hlast _ _ hnow.2 hnot.1
  have hget := h 1 [] [] [] [] (fun _ => now) (fun _ => 2 ^ 63 - 2) hclk (by decide) trivial
    ⟨by norm_num, by norm_num⟩ hlate.1 hlate.2
  have hexp : (node.entry.isExpired fun _ => 2 ^ 63 - 2).1 = true := by
    unfold Entry.isExpired Entry.isNoExpire
    rw [if_neg (by simpa using hno)]
    exact decide_eq_true hle
  have hnone : (((new 1).set [] [] ttlMs fun _ => now).get [] fun _ => 2 ^ 63 - 2).1 = none := by
    unfold LRUCache.get
    rw [hfind]
    simp only [hexp, if_true]
  have hsome : (((new 1).set [] [] ttlMs fun _ => now).get [] fun _ => 2 ^ 63 - 2).1 = some [] :=
    hget
  rw [hnone] at hsome
  exact absurd hsome (by simp)

/-- **A TTL lasts as long as asked for**, and no shorter one gives a later expiry, exactly if the
sum of the time and the TTL does not wrap, or wraps to the time that stands for no expiration. -/
theorem lasts_iff {now : Time} {ttlMs : Int} (hnow : IsReading now) (hpos : 0 < ttlMs) :
    (Lasts now ttlMs ∧
      ∀ shorter, 0 < shorter → shorter ≤ ttlMs → now.addMs shorter ≤ now.addMs ttlMs) ↔
    Reaches now ttlMs := by
  constructor
  · exact fun h => reaches_of_lasts hnow hpos h.1
  · intro h
    refine ⟨lasts_of_reaches hnow hpos h, fun shorter hs hle => ?_⟩
    rcases h with hlt | hlast
    · have hmul : shorter * ticksPerMs ≤ ttlMs * ticksPerMs :=
        Int.mul_le_mul_of_nonneg_right hle (by decide)
      have hsum : now + shorter * ticksPerMs ≤ now + ttlMs * ticksPerMs :=
        Int.add_le_add_left hmul now
      rw [addMs_of_lt hnow hpos hlt, addMs_of_lt hnow hs (Int.lt_of_le_of_lt hsum hlt)]
      exact hsum
    · rw [addMs_eq_last.mpr hlast]
      exact addMs_le now shorter

/-- the default of five minutes, at a time in the second week -/
theorem lasts_iff_default : (Lasts (10 ^ 15) 300000 ∧ ∀ shorter, 0 < shorter → shorter ≤ 300000 →
      Time.addMs (10 ^ 15) shorter ≤ Time.addMs (10 ^ 15) 300000) ↔ Reaches (10 ^ 15) 300000 :=
  lasts_iff ⟨by norm_num, by norm_num⟩ (by norm_num)

/-- the longest TTL of all stores an entry that is expired at once -/
theorem longest_ttl_expired : ¬ Lasts (10 ^ 15) (2 ^ 63 - 1) := by
  intro h
  have hget := h 1 [] [] (str "k") (str "v") (fun _ => 10 ^ 15) (fun _ => 10 ^ 15)
    (by decide +kernel) (by decide +kernel) trivial ⟨by norm_num, by norm_num⟩ (by norm_num)
    (by norm_num [ticksPerMs])
  exact absurd hget (by decide +kernel)

end ServerHttpLib.LRUCache
