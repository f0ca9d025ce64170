import Mathlib.Algebra.Ring.Nat
import Mathlib.Data.List.Nodup
import Mathlib.Order.WithBot
import Mathlib.Data.List.Induction

/-!
# Recency lists

A list of items with distinct keys, the most recently used one first.  Every item has an expiry
time, which may be `⊤` (never), and a size.

* `trim_greatest`             dropping from the back leaves the longest prefix that is good;
* `live_live`, `find?_live`   what is live at a time, when time goes on and when it is looked up;
* `SameLive`                  two lists that nobody can tell apart from a time on; the operations
                              keep it (`SameLive.erase`, `SameLive.put`);
* `dropped_of_put`            what is dropped did not fit together with all that is more recent.
-/

namespace Recency

variable {α κ ν T : Type*}

/-! ## dropping from the back -/

section
variable (bad : List α → Bool)

/-- `trim` of the reversed list -/
def trimRev : List α → List α
  | [] => []
  | b :: l => if bad (b :: l).reverse then trimRev l else b :: l

/-- drops elements from the back as long as the list is bad -/
def trim (l : List α) : List α := (trimRev bad l.reverse).reverse

theorem trim_snoc (l : List α) (b : α) :
    trim bad (l ++ [b]) = if bad (l ++ [b]) then trim bad l else l ++ [b] := by
  unfold trim
  rw [List.reverse_append, List.reverse_singleton, List.singleton_append, trimRev,
    List.reverse_cons, List.reverse_reverse]
  split
  · rfl
  · rw [List.reverse_cons, List.reverse_reverse]

theorem trim_isPrefix (l : List α) : trim bad l <+: l := by
  induction l using List.reverseRecOn with
  | nil => exact List.prefix_refl _
  | append_singleton l b ih =>
    rw [trim_snoc]
    split
    · exact ih.trans (List.prefix_append _ _)
    · exact List.prefix_refl _

theorem trim_good (h : bad [] = false) (l : List α) : bad (trim bad l) = false := by
  induction l using List.reverseRecOn with
  | nil => exact h
  | append_singleton l b ih =>
    rw [trim_snoc]
    split
    · exact ih
    · next hb => exact Bool.eq_false_iff.mpr hb

/-- every good prefix is a prefix of what is left -/
theorem trim_greatest {l p : List α} (hp : p <+: l) (hg : bad p = false) : p <+: trim bad l := by
  induction l using List.reverseRecOn with
  | nil => exact hp
  | append_singleton l b ih =>
    rw [trim_snoc]
    rcases List.prefix_concat_iff.mp hp with he | hp'
    · have hb : ¬ bad (l ++ [b]) = true := by rw [← he, hg]; exact Bool.false_ne_true
      rw [if_neg hb]
      exact hp
    · split
      · exact ih hp'
      · exact hp

theorem trim_congr {bad bad' : List α → Bool} {l : List α}
    (h : ∀ p, p <+: l → bad p = bad' p) : trim bad l = trim bad' l := by
  induction l using List.reverseRecOn with
  | nil => rfl
  | append_singleton l b ih =>
    rw [trim_snoc, trim_snoc, h _ (List.prefix_refl _),
      ih fun p hp => h p (hp.trans (List.prefix_append _ _))]

theorem trim_map {β : Type*} (f : α → β) (bad : List β → Bool) (l : List α) :
    trim bad (l.map f) = (trim (fun p => bad (p.map f)) l).map f := by
  induction l using List.reverseRecOn with
  | nil => rfl
  | append_singleton l b ih =>
    rw [List.map_append, List.map_singleton, trim_snoc, trim_snoc, ih, ← List.map_singleton,
      ← List.map_append]
    split <;> rfl

end

/-! ## items and lists -/

structure Item (κ ν T : Type*) where
  key : κ
  value : ν
  expiry : WithTop T

/-- the items in order of their last use; no key occurs twice -/
@[ext]
structure RecencyList (κ ν T : Type*) where
  items : List (Item κ ν T)
  nodup : (items.map Item.key).Nodup

section
variable [LinearOrder T]

/-- the item is not expired at the time -/
def Item.Live (now : T) (i : Item κ ν T) : Prop := (now : WithTop T) < i.expiry

instance (now : T) (i : Item κ ν T) : Decidable (i.Live now) :=
  inferInstanceAs (Decidable ((now : WithTop T) < i.expiry))

theorem Item.live_of_top {now : T} {i : Item κ ν T} (h : i.expiry = ⊤) : i.Live now := by
  unfold Item.Live
  rw [h]
  exact WithTop.coe_lt_top now

theorem Item.live_iff {now t : T} {i : Item κ ν T} (h : i.expiry = (t : WithTop T)) :
    i.Live now ↔ now < t := by
  unfold Item.Live
  rw [h]
  exact WithTop.coe_lt_coe

end

namespace RecencyList

def nil : RecencyList κ ν T := ⟨[], List.nodup_nil⟩

/-- the part of the list that a sublist of its items makes up -/
def part (l : RecencyList κ ν T) (p : List (Item κ ν T)) (h : p.Sublist l.items) :
    RecencyList κ ν T := ⟨p, l.nodup.sublist (h.map _)⟩

def total (size : κ → ν → ℕ) (l : List (Item κ ν T)) : ℕ :=
  (l.map fun i => size i.key i.value).sum

theorem total_append (size : κ → ν → ℕ) (l l' : List (Item κ ν T)) :
    total size (l ++ l') = total size l + total size l' := by
  simp [total]

theorem total_le_of_isPrefix {size : κ → ν → ℕ} {p l : List (Item κ ν T)} (h : p <+: l) :
    total size p ≤ total size l := by
  obtain ⟨t, rfl⟩ := h
  rw [total_append]
  exact Nat.le_add_right _ _

/-- the longest prefix whose total size is at most `cap` -/
def keep (size : κ → ν → ℕ) (cap : ℕ) (l : RecencyList κ ν T) : RecencyList κ ν T :=
  l.part (trim (fun p => decide (cap < total size p)) l.items)
    (trim_isPrefix _ _).sublist

/-- `keep` is the longest prefix that fits -/
theorem keep_greatest {size : κ → ν → ℕ} {cap : ℕ} {l : RecencyList κ ν T}
    {p : List (Item κ ν T)} (hp : p <+: l.items) (hfit : total size p ≤ cap) :
    p <+: (keep size cap l).items :=
  trim_greatest _ hp (decide_eq_false (Nat.not_lt.mpr hfit))

section
variable [DecidableEq κ]

def find? (l : RecencyList κ ν T) (k : κ) : Option (Item κ ν T) :=
  l.items.find? fun i => decide (i.key = k)

def erase (l : RecencyList κ ν T) (k : κ) : RecencyList κ ν T :=
  l.part (l.items.filter fun i => decide (i.key ≠ k)) List.filter_sublist

/-- the item becomes the most recently used one and replaces the item of its key -/
def put (l : RecencyList κ ν T) (i : Item κ ν T) : RecencyList κ ν T where
  items := i :: (l.erase i.key).items
  nodup := by
    rw [List.map_cons, List.nodup_cons]
    refine ⟨fun hm => ?_, (l.erase i.key).nodup⟩
    obtain ⟨j, hj, hk⟩ := List.mem_map.mp hm
    exact of_decide_eq_true (List.mem_filter.mp hj).2 hk

theorem find?_eq_some_iff {l : RecencyList κ ν T} {k : κ} {i : Item κ ν T} :
    l.find? k = some i ↔ i ∈ l.items ∧ i.key = k := by
  obtain ⟨l, hl⟩ := l
  show (l.find? fun i => decide (i.key = k)) = some i ↔ i ∈ l ∧ i.key = k
  induction l with
  | nil => simp
  | cons j l ih =>
    rw [List.map_cons, List.nodup_cons] at hl
    by_cases hj : j.key = k
    · rw [List.find?_cons_of_pos (by simpa using hj), Option.some.injEq, List.mem_cons]
      constructor
      · rintro rfl
        exact ⟨Or.inl rfl, hj⟩
      · rintro ⟨rfl | hm, hk⟩
        · rfl
        · exact absurd (List.mem_map.mpr ⟨i, hm, hk.trans hj.symm⟩) hl.1
    · rw [List.find?_cons_of_neg (by simpa using hj), ih hl.2, List.mem_cons]
      constructor
      · rintro ⟨hm, hk⟩
        exact ⟨Or.inr hm, hk⟩
      · rintro ⟨rfl | hm, hk⟩
        · exact absurd hk hj
        · exact ⟨hm, hk⟩

theorem mem_erase_iff {l : RecencyList κ ν T} {k : κ} {i : Item κ ν T} :
    i ∈ (l.erase k).items ↔ i ∈ l.items ∧ i.key ≠ k := by
  show i ∈ l.items.filter _ ↔ _
  rw [List.mem_filter, decide_eq_true_eq]

theorem mem_put_iff {l : RecencyList κ ν T} {i j : Item κ ν T} :
    j ∈ (l.put i).items ↔ j = i ∨ j ∈ l.items ∧ j.key ≠ i.key := by
  show j ∈ i :: (l.erase i.key).items ↔ _
  rw [List.mem_cons, mem_erase_iff]

theorem find?_eq_none_iff {l : RecencyList κ ν T} {k : κ} :
    l.find? k = none ↔ ∀ i ∈ l.items, i.key ≠ k := by
  simp [find?, List.find?_eq_none]

theorem erase_of_none {l : RecencyList κ ν T} {k : κ} (h : l.find? k = none) : l.erase k = l :=
  RecencyList.ext (List.filter_eq_self.mpr fun i hi =>
    decide_eq_true (find?_eq_none_iff.mp h i hi))

/-- an item that is missing behind `put` and `keep` did not fit together with the new item and
all the items before it -/
theorem dropped_of_put {size : κ → ν → ℕ} {cap : ℕ} {l : RecencyList κ ν T} {i j : Item κ ν T}
    {pre post : List (Item κ ν T)} (hl : l.items = pre ++ i :: post)
    (hgone : ∀ x ∈ (keep size cap (l.put j)).items, x.key ≠ i.key) :
    i.key = j.key ∧ cap < size j.key j.value ∨
    i.key ≠ j.key ∧ cap < size j.key j.value
      + total size (pre.filter fun x => decide (x.key ≠ j.key)) + size i.key i.value := by
  have hput : (l.put j).items = j :: l.items.filter fun x => decide (x.key ≠ j.key) := rfl
  by_cases hk : i.key = j.key
  · refine .inl ⟨hk, Nat.lt_of_not_le fun hle => ?_⟩
    have hp : [j] <+: (l.put j).items := by
      rw [hput]
      exact List.prefix_append [j] _
    have hkeep := keep_greatest hp (by simpa [total] using hle)
    exact hgone j (hkeep.subset (List.mem_singleton_self j)) hk.symm
  · refine .inr ⟨hk, Nat.lt_of_not_le fun hle => ?_⟩
    have hp : j :: (pre.filter (fun x => decide (x.key ≠ j.key)) ++ [i]) <+: (l.put j).items := by
      refine ⟨post.filter fun x => decide (x.key ≠ j.key), ?_⟩
      rw [hput, hl, List.filter_append, List.filter_cons_of_pos (by simpa using hk)]
      simp
    have hfit : total size (j :: (pre.filter (fun x => decide (x.key ≠ j.key)) ++ [i])) ≤ cap := by
      refine le_trans (le_of_eq ?_) hle
      simp only [total, List.map_cons, List.map_append, List.map_nil, List.sum_cons,
        List.sum_append, List.sum_nil]
      omega
    exact hgone i ((keep_greatest hp hfit).subset (by simp)) rfl

end

/-! ## expiry -/

section
variable [LinearOrder T]

/-- the items that are not expired at the time -/
def live (now : T) (l : RecencyList κ ν T) : RecencyList κ ν T :=
  l.part (l.items.filter fun i => decide (i.Live now)) List.filter_sublist

theorem live_live {now later : T} (h : now ≤ later) (l : RecencyList κ ν T) :
    live later (live now l) = live later l := by
  refine RecencyList.ext ?_
  show (l.items.filter _).filter _ = l.items.filter _
  rw [List.filter_filter]
  refine List.filter_congr fun i _ => ?_
  rw [Bool.and_eq_left_iff_imp, decide_eq_true_eq, decide_eq_true_eq]
  exact (WithTop.coe_le_coe.mpr h).trans_lt

/-! ## lists that agree on what is live -/

/-- from the time on nobody who looks at live items can tell the lists apart -/
def SameLive (now : T) (l l' : RecencyList κ ν T) : Prop := live now l = live now l'

variable {now later : T} {l l' : RecencyList κ ν T}

theorem SameLive.mono (h : SameLive now l l') (hle : now ≤ later) : SameLive later l l' := by
  unfold SameLive at h ⊢
  rw [← live_live hle l, h, live_live hle l']

theorem sameLive_live (now : T) (l : RecencyList κ ν T) : SameLive now (live now l) l :=
  live_live (le_refl now) l

theorem SameLive.mem {i : Item κ ν T} (h : SameLive now l l') (hi : i ∈ (live now l').items) :
    i ∈ l.items := by
  rw [← h] at hi
  exact (List.mem_filter.mp hi).1

/-! ## the operations -/

variable [DecidableEq κ]

theorem live_erase (now : T) (l : RecencyList κ ν T) (k : κ) :
    live now (l.erase k) = (live now l).erase k := by
  refine RecencyList.ext ?_
  show (l.items.filter _).filter _ = (l.items.filter _).filter _
  rw [List.filter_filter, List.filter_filter]
  exact List.filter_congr fun i _ => Bool.and_comm _ _

theorem live_put_of_live {now : T} {i : Item κ ν T} (hi : i.Live now)
    (l : RecencyList κ ν T) : live now (l.put i) = (live now l).put i := by
  refine RecencyList.ext ?_
  show (i :: (l.erase i.key).items).filter (fun i => decide (i.Live now))
    = i :: ((live now l).erase i.key).items
  rw [List.filter_cons_of_pos (by simpa using hi), ← live_erase]
  rfl

theorem live_put_of_expired {now : T} {i : Item κ ν T} (hi : ¬ i.Live now)
    (l : RecencyList κ ν T) : live now (l.put i) = (live now l).erase i.key := by
  refine RecencyList.ext ?_
  show (i :: (l.erase i.key).items).filter (fun i => decide (i.Live now))
    = ((live now l).erase i.key).items
  rw [List.filter_cons_of_neg (by simpa using hi), ← live_erase]
  rfl

theorem find?_live (now : T) (l : RecencyList κ ν T) (k : κ) : (live now l).find? k
    = (l.find? k).filter fun i => decide (i.Live now) := by
  ext i
  rw [find?_eq_some_iff, Option.filter_eq_some_iff, find?_eq_some_iff]
  show i ∈ l.items.filter _ ∧ i.key = k ↔ _
  rw [List.mem_filter]
  exact and_right_comm

theorem SameLive.find? (h : SameLive now l l') (k : κ) :
    (l.find? k).filter (fun i => decide (i.Live now))
      = (l'.find? k).filter fun i => decide (i.Live now) := by
  rw [← find?_live, ← find?_live, h]

theorem SameLive.erase (h : SameLive now l l') (k : κ) :
    SameLive now (l.erase k) (l'.erase k) := by
  unfold SameLive at h ⊢
  rw [live_erase, live_erase, h]

theorem SameLive.put (h : SameLive now l l') (i : Item κ ν T) :
    SameLive now (l.put i) (l'.put i) := by
  unfold SameLive at h ⊢
  by_cases hi : i.Live now
  · rw [live_put_of_live hi, live_put_of_live hi, h]
  · rw [live_put_of_expired hi, live_put_of_expired hi, h]

/-- an item that is not live may be dropped -/
theorem sameLive_erase {k : κ} (h : (live now l).find? k = none) : SameLive now (l.erase k) l := by
  unfold SameLive
  rw [live_erase, erase_of_none h]

end
end RecencyList
end Recency
