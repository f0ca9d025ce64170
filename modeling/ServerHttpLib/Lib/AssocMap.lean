import Mathlib.Data.List.Nodup

/-!
# Finite maps without an order

A map with distinct keys, held as its list of entries.  What depends on the order in which a hash
table yields its entries takes an `Order`: some permutation of the entries of each map.
-/

@[ext]
structure AssocMap (κ ν : Type*) where
  entries : List (κ × ν)
  nodup : (entries.map Prod.fst).Nodup

namespace AssocMap

variable {κ ν : Type*}

/-- an order of iteration: for each map a permutation of its entries -/
structure Order (κ ν : Type*) where
  list : AssocMap κ ν → List (κ × ν)
  perm : ∀ m, (list m).Perm m.entries

/-- every order of the entries of a map is that of some iteration -/
theorem exists_order {m : AssocMap κ ν} {l : List (κ × ν)} (h : l.Perm m.entries) :
    ∃ o : Order κ ν, o.list m = l := by
  classical
  refine ⟨⟨fun m' => if m' = m then l else m'.entries, fun m' => ?_⟩, if_pos rfl⟩
  split
  · next he =>
    rw [he]
    exact h
  · exact List.Perm.refl _

def Order.inserted : Order κ ν := ⟨entries, fun _ => List.Perm.refl _⟩

def empty : AssocMap κ ν := ⟨[], List.nodup_nil⟩

def isEmpty (m : AssocMap κ ν) : Bool := m.entries.isEmpty

variable [DecidableEq κ]

def find? (m : AssocMap κ ν) (k : κ) : Option ν :=
  (m.entries.find? fun e => e.1 = k).map Prod.snd

def contains (m : AssocMap κ ν) (k : κ) : Bool := (m.find? k).isSome

theorem find?_eq_none_iff {m : AssocMap κ ν} {k : κ} :
    m.find? k = none ↔ k ∉ m.entries.map Prod.fst := by
  simp only [find?, Option.map_eq_none_iff, List.find?_eq_none, decide_eq_true_eq, List.mem_map,
    not_exists, not_and]

theorem nodup_append_of_find?_none {m : AssocMap κ ν} {k : κ} (v : ν) (h : m.find? k = none) :
    ((m.entries ++ [(k, v)]).map Prod.fst).Nodup := by
  rw [List.map_append, List.map_singleton, List.nodup_append]
  refine ⟨m.nodup, List.nodup_singleton _, ?_⟩
  rintro a ha b hb rfl
  rw [List.mem_singleton] at hb
  subst hb
  exact find?_eq_none_iff.mp h ha

/-- adds an entry unless the key is there -/
def insert (m : AssocMap κ ν) (k : κ) (v : ν) : AssocMap κ ν :=
  match h : m.find? k with
  | some _ => m
  | none => ⟨m.entries ++ [(k, v)], nodup_append_of_find?_none v h⟩

/-- the entry `e` with the value replaced if its key is `k` -/
def assign (k : κ) (v : ν) (e : κ × ν) : κ × ν := if e.1 = k then (k, v) else e

theorem assign_fst (k : κ) (v : ν) (e : κ × ν) : (assign k v e).1 = e.1 := by
  unfold assign
  split
  · rename_i h
    exact h.symm
  · rfl

theorem map_assign_fst (k : κ) (v : ν) (l : List (κ × ν)) :
    (l.map (assign k v)).map Prod.fst = l.map Prod.fst := by
  rw [List.map_map]
  exact List.map_congr_left fun e _ => assign_fst k v e

/-- adds an entry or replaces the value of the key -/
def insertOrAssign (m : AssocMap κ ν) (k : κ) (v : ν) : AssocMap κ ν :=
  match h : m.find? k with
  | some _ => ⟨m.entries.map (assign k v), by rw [map_assign_fst]; exact m.nodup⟩
  | none => ⟨m.entries ++ [(k, v)], nodup_append_of_find?_none v h⟩

theorem find?_eq_some_iff {m : AssocMap κ ν} {k : κ} {v : ν} :
    m.find? k = some v ↔ (k, v) ∈ m.entries := by
  obtain ⟨l, hl⟩ := m
  show (l.find? fun e => e.1 = k).map Prod.snd = some v ↔ (k, v) ∈ l
  induction l with
  | nil => simp
  | cons e l ih =>
    obtain ⟨k', v'⟩ := e
    rw [List.map_cons, List.nodup_cons] at hl
    by_cases hk : k' = k
    · subst hk
      have hnot : (k', v) ∉ l := fun hm => hl.1 (List.mem_map.mpr ⟨(k', v), hm, rfl⟩)
      simp only [decide_true, List.find?_cons_of_pos, Option.map_some, Option.some.injEq,
        List.mem_cons, Prod.mk.injEq, true_and, hnot, or_false]
      exact eq_comm
    · rw [List.find?_cons_of_neg (by simpa using hk), ih hl.2, List.mem_cons, Prod.mk.injEq]
      constructor
      · exact Or.inr
      · rintro (⟨h, _⟩ | h)
        · exact absurd h.symm hk
        · exact h

theorem insert_of_none {m : AssocMap κ ν} {k : κ} (v : ν) (h : m.find? k = none) :
    (m.insert k v).entries = m.entries ++ [(k, v)] := by
  unfold insert
  split
  · rename_i h'
    rw [h] at h'
    exact absurd h' (by simp)
  · rfl

theorem insertOrAssign_of_none {m : AssocMap κ ν} {k : κ} (v : ν) (h : m.find? k = none) :
    (m.insertOrAssign k v).entries = m.entries ++ [(k, v)] := by
  unfold insertOrAssign
  split
  · rename_i h'
    rw [h] at h'
    exact absurd h' (by simp)
  · rfl

theorem insertOrAssign_of_some {m : AssocMap κ ν} {k : κ} (v : ν) {v' : ν}
    (h : m.find? k = some v') : (m.insertOrAssign k v).entries = m.entries.map (assign k v) := by
  unfold insertOrAssign
  split
  · rfl
  · rename_i h'
    rw [h] at h'
    exact absurd h' (by simp)

/-- the last assignment of a key wins, other keys keep their value -/
theorem find?_insertOrAssign (m : AssocMap κ ν) (k k' : κ) (v : ν) :
    (m.insertOrAssign k v).find? k' = if k' = k then some v else m.find? k' := by
  cases h : m.find? k with
  | none =>
    by_cases hk : k' = k
    · rw [if_pos hk, find?_eq_some_iff, insertOrAssign_of_none v h, hk]
      exact List.mem_append_right _ (List.mem_singleton_self _)
    · rw [if_neg hk]
      simp only [find?, insertOrAssign_of_none v h, List.find?_append]
      rw [List.find?_cons_of_neg (by simpa using fun e => hk e.symm), List.find?_nil,
        Option.or_none]
  | some w =>
    by_cases hk : k' = k
    · rw [if_pos hk, find?_eq_some_iff, insertOrAssign_of_some v h, hk]
      refine List.mem_map.mpr ⟨(k, w), find?_eq_some_iff.mp h, ?_⟩
      simp [assign]
    · rw [if_neg hk]
      ext u
      rw [find?_eq_some_iff, find?_eq_some_iff, insertOrAssign_of_some v h, List.mem_map]
      constructor
      · rintro ⟨e, he, heq⟩
        unfold assign at heq
        split at heq
        · exact absurd (congrArg Prod.fst heq).symm hk
        · exact heq ▸ he
      · intro hm
        exact ⟨(k', u), hm, by simp [assign, hk]⟩

theorem isEmpty_iff {m : AssocMap κ ν} : m.isEmpty = true ↔ ∀ k, m.find? k = none := by
  unfold isEmpty
  rw [List.isEmpty_iff]
  constructor
  · intro h k
    rw [find?_eq_none_iff, h]
    exact List.not_mem_nil
  · intro h
    rw [List.eq_nil_iff_forall_not_mem]
    rintro ⟨k, v⟩ hm
    exact find?_eq_none_iff.mp (h k) (List.mem_map.mpr ⟨(k, v), hm, rfl⟩)

theorem find?_empty (k : κ) : (empty : AssocMap κ ν).find? k = none := rfl

theorem find?_insert_of_none {m : AssocMap κ ν} {k : κ} (v : ν) (h : m.find? k = none) (k' : κ) :
    (m.insert k v).find? k' = if k' = k then some v else m.find? k' := by
  have he : m.insert k v = m.insertOrAssign k v :=
    AssocMap.ext ((insert_of_none v h).trans (insertOrAssign_of_none v h).symm)
  rw [he, find?_insertOrAssign]

/-- the first insertion of a key wins, other keys keep their value -/
theorem find?_insert (m : AssocMap κ ν) (k k' : κ) (v : ν) :
    (m.insert k v).find? k' = if k' = k then some ((m.find? k).getD v) else m.find? k' := by
  cases h : m.find? k with
  | none => rw [find?_insert_of_none v h, Option.getD_none]
  | some w =>
    have he : m.insert k v = m := by
      unfold insert
      split
      · rfl
      · rename_i h'
        rw [h] at h'
        exact absurd h' (by simp)
    rw [he, Option.getD_some]
    split
    · next hk => rw [hk, h]
    · rfl

theorem insert_of_some {m : AssocMap κ ν} {k : κ} (v : ν) {w : ν} (h : m.find? k = some w) :
    m.insert k v = m := by
  unfold insert
  split
  · rfl
  · next h' =>
    rw [h] at h'
    exact absurd h' (by simp)

/-- assigning the value that is there changes nothing -/
theorem insertOrAssign_self {m : AssocMap κ ν} {k : κ} {v : ν} (h : m.find? k = some v) :
    m.insertOrAssign k v = m := by
  apply AssocMap.ext
  rw [insertOrAssign_of_some v h]
  refine (List.map_congr_left fun e he => ?_).trans m.entries.map_id
  unfold assign
  split
  · next hk =>
    have hv : m.find? e.1 = some e.2 := find?_eq_some_iff.mpr he
    rw [hk, h, Option.some.injEq] at hv
    exact Prod.ext hk.symm hv
  · rfl

/-- assigning distinct new keys one after the other appends their entries -/
theorem entries_foldl_insertOrAssign (l : List (κ × ν)) (m : AssocMap κ ν)
    (h : (m.entries.map Prod.fst ++ l.map Prod.fst).Nodup) :
    (l.foldl (fun m e => m.insertOrAssign e.1 e.2) m).entries = m.entries ++ l := by
  induction l generalizing m with
  | nil => rw [List.foldl_nil, List.append_nil]
  | cons e l ih =>
    have hnew : m.find? e.1 = none := by
      rw [find?_eq_none_iff]
      rw [List.map_cons, List.nodup_append] at h
      exact fun hm => h.2.2 _ hm _ List.mem_cons_self rfl
    have hentries := insertOrAssign_of_none e.2 hnew
    rw [List.foldl_cons, ih, hentries, List.append_assoc, List.singleton_append]
    rw [hentries, List.map_append, List.map_singleton, List.append_assoc]
    exact h

/-- maps with the same entries in any order answer alike -/
theorem find?_of_perm {m m' : AssocMap κ ν} (h : m.entries.Perm m'.entries) (k : κ) :
    m.find? k = m'.find? k := by
  ext v
  rw [find?_eq_some_iff, find?_eq_some_iff, h.mem_iff]

/-! ## erasing -/

/-- removes the entry of a key, if there is one -/
def erase (m : AssocMap κ ν) (k : κ) : AssocMap κ ν where
  entries := m.entries.filter fun e => decide (e.1 ≠ k)
  nodup := m.nodup.sublist (List.filter_sublist.map _)

theorem find?_erase (m : AssocMap κ ν) (k k' : κ) :
    (m.erase k).find? k' = if k' = k then none else m.find? k' := by
  split
  · next hk =>
    rw [find?_eq_none_iff]
    intro hm
    obtain ⟨e, he, rfl⟩ := List.mem_map.mp hm
    exact of_decide_eq_true (List.mem_filter.mp he).2 hk
  · next hk =>
    ext v
    rw [find?_eq_some_iff, find?_eq_some_iff]
    show (k', v) ∈ m.entries.filter _ ↔ _
    rw [List.mem_filter]
    exact and_iff_left (decide_eq_true hk)

/-- a list with distinct keys that yields the same entries is a permutation of the map -/
theorem perm_of_find? {m : AssocMap κ ν} {l : List (κ × ν)} (hl : (l.map Prod.fst).Nodup)
    (h : ∀ k v, m.find? k = some v ↔ (k, v) ∈ l) : m.entries.Perm l := by
  refine (List.perm_ext_iff_of_nodup m.nodup.of_map hl.of_map).mpr ?_
  rintro ⟨k, v⟩
  rw [← h, find?_eq_some_iff]

/-! ## a list of calls, one after the other -/

/-- the value of the first call with a name -/
def firstOf (calls : List (κ × ν)) (k : κ) : Option ν :=
  (calls.find? fun e => e.1 = k).map Prod.snd

/-- the value of the last call with a name -/
def lastOf (calls : List (κ × ν)) (k : κ) : Option ν := firstOf calls.reverse k

theorem firstOf_cons (e : κ × ν) (calls : List (κ × ν)) (k : κ) :
    firstOf (e :: calls) k = if k = e.1 then some e.2 else firstOf calls k := by
  unfold firstOf
  by_cases hk : k = e.1
  · rw [if_pos hk, List.find?_cons_of_pos (by simpa using hk.symm), Option.map_some]
  · rw [if_neg hk, List.find?_cons_of_neg (by simpa using fun h => hk h.symm)]

theorem firstOf_snoc (calls : List (κ × ν)) (e : κ × ν) (k : κ) :
    firstOf (calls ++ [e]) k = (firstOf calls k).or (if k = e.1 then some e.2 else none) := by
  have h := firstOf_cons e [] k
  unfold firstOf at *
  rw [List.find?_append, Option.map_or, h]
  rfl

theorem mem_of_firstOf {calls : List (κ × ν)} {k : κ} {v : ν} (h : firstOf calls k = some v) :
    (k, v) ∈ calls := by
  obtain ⟨e, he, rfl⟩ := Option.map_eq_some_iff.mp h
  obtain rfl : e.1 = k := by simpa using List.find?_some he
  exact List.mem_of_find?_eq_some he

theorem find?_insert_firstOf {m : AssocMap κ ν} {calls : List (κ × ν)}
    (h : ∀ k, m.find? k = firstOf calls k) (k : κ) (v : ν) (k' : κ) :
    (m.insert k v).find? k' = firstOf (calls ++ [(k, v)]) k' := by
  rw [find?_insert, firstOf_snoc, h, h]
  by_cases hk : k' = k
  · rw [if_pos hk, if_pos hk, hk]
    cases firstOf calls k with
    | none => rfl
    | some w => rfl
  · rw [if_neg hk, if_neg hk, Option.or_none]

theorem lastOf_cons (e : κ × ν) (calls : List (κ × ν)) (k : κ) :
    lastOf (e :: calls) k = (lastOf calls k).or (if k = e.1 then some e.2 else none) := by
  unfold lastOf
  rw [List.reverse_cons, firstOf_snoc]

theorem lastOf_snoc (calls : List (κ × ν)) (e : κ × ν) (k : κ) :
    lastOf (calls ++ [e]) k = if k = e.1 then some e.2 else lastOf calls k := by
  unfold lastOf
  rw [List.reverse_append, List.reverse_singleton, List.singleton_append, firstOf_cons]

theorem firstOf_eq_none_iff {calls : List (κ × ν)} {k : κ} :
    firstOf calls k = none ↔ k ∉ calls.map Prod.fst := by
  simp only [firstOf, Option.map_eq_none_iff, List.find?_eq_none, decide_eq_true_eq, List.mem_map,
    not_exists, not_and]

theorem lastOf_eq_none_iff {calls : List (κ × ν)} {k : κ} :
    lastOf calls k = none ↔ k ∉ calls.map Prod.fst := by
  rw [lastOf, firstOf_eq_none_iff, List.map_reverse, List.mem_reverse]

/-- among distinct names the first one is the last one -/
theorem lastOf_of_nodup {calls : List (κ × ν)} (h : (calls.map Prod.fst).Nodup) (k : κ) :
    lastOf calls k = firstOf calls k := by
  induction calls with
  | nil => rfl
  | cons e calls ih =>
    rw [List.map_cons, List.nodup_cons] at h
    rw [lastOf_cons, firstOf_cons, ih h.2]
    by_cases hk : k = e.1
    · rw [if_pos hk, if_pos hk, hk, firstOf_eq_none_iff.mpr h.1, Option.none_or]
    · rw [if_neg hk, if_neg hk, Option.or_none]

/-- **The last of the assignments wins**, if the key is among them. -/
theorem find?_foldl_insertOrAssign (calls : List (κ × ν)) (m : AssocMap κ ν) (k : κ) :
    (calls.foldl (fun m e => m.insertOrAssign e.1 e.2) m).find? k
      = (lastOf calls k).or (m.find? k) := by
  induction calls generalizing m with
  | nil => rfl
  | cons e calls ih =>
    rw [List.foldl_cons, ih, find?_insertOrAssign, lastOf_cons, Option.or_assoc]
    congr 1
    split
    · rfl
    · rfl

end AssocMap
