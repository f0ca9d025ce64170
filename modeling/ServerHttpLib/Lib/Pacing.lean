import ServerHttpLib.Lib.Frames

/-!
# One message for each read

A component reads an input segment by segment and takes at most one message behind each of them.
Of the messages `bs` it has then taken `paced bs rs` behind the reads `rs`: one more than before
the last read, but no more than are complete.

* `Messages.next_of_isPrefix`   what a reader finds in a part of the stream of the messages;
* `Takes.completeBy_eq`         how many of them are complete behind those that were taken;
* `le_paced_iff`                `n` messages are taken if and only if at every point there are as
                                many reads to come as messages that are not complete.
-/

set_option linter.unusedSectionVars false

namespace Frames
open Cutting

section
variable {α : Type*} [DecidableEq α] (sep : List α) (len : List α → ℕ)

/-- every element is one message: the bytes of its head end in the first `sep`, and its body has
the length that the head tells -/
def Messages (bs : List (List α × List α)) : Prop :=
  ∀ b ∈ bs, blockHead sep b.1 = some (b.1, []) ∧ len b.1 = b.2.length

/-- the number of messages that are complete in the first `n` bytes of the stream -/
def completeBy : List (List α × List α) → ℕ → ℕ
  | [], _ => 0
  | b :: bs, n =>
    if b.1.length + b.2.length ≤ n then completeBy bs (n - (b.1.length + b.2.length)) + 1 else 0

variable {sep len}

theorem Messages.head {b : List α × List α} {bs : List (List α × List α)}
    (hb : Messages sep len (b :: bs)) : blockNext sep len (b.1 ++ b.2) = some (b, []) := by
  obtain ⟨h1, h2⟩ := hb b List.mem_cons_self
  rw [blockNext_eq_some_iff, blockHead_append h1]
  exact ⟨by simp, h2⟩

theorem Messages.tail {b : List α × List α} {bs : List (List α × List α)}
    (hb : Messages sep len (b :: bs)) : Messages sep len bs :=
  fun b' h => hb b' (List.mem_cons_of_mem _ h)

theorem Messages.drop {bs : List (List α × List α)} (hb : Messages sep len bs) (d : ℕ) :
    Messages sep len (bs.drop d) :=
  fun b h => hb b (List.mem_of_mem_drop h)

theorem Messages.size_pos {bs : List (List α × List α)} (hsep : sep ≠ [])
    (hb : Messages sep len bs) {b : List α × List α} (h : b ∈ bs) :
    0 < b.1.length + b.2.length := by
  have h1 := blockHead_sep_le (hb b h).1
  have h2 := List.length_pos_iff.mpr hsep
  omega

theorem completeBy_le (bs : List (List α × List α)) (n : ℕ) : completeBy bs n ≤ bs.length := by
  induction bs generalizing n with
  | nil => exact le_refl 0
  | cons b bs ih =>
    unfold completeBy
    split
    · exact Nat.succ_le_succ (ih _)
    · exact Nat.zero_le _

theorem completeBy_mono (bs : List (List α × List α)) {m n : ℕ} (h : m ≤ n) :
    completeBy bs m ≤ completeBy bs n := by
  induction bs generalizing m n with
  | nil => exact le_refl 0
  | cons b bs ih =>
    unfold completeBy
    by_cases hm : b.1.length + b.2.length ≤ m
    · rw [if_pos hm, if_pos (hm.trans h)]
      exact Nat.succ_le_succ (ih (Nat.sub_le_sub_right h _))
    · rw [if_neg hm]
      exact Nat.zero_le _

theorem completeBy_zero {bs : List (List α × List α)} (hsep : sep ≠ [])
    (hb : Messages sep len bs) : completeBy bs 0 = 0 := by
  cases bs with
  | nil => rfl
  | cons b bs =>
    have := hb.size_pos hsep List.mem_cons_self
    rw [completeBy, if_neg (by omega)]

theorem completeBy_append (as bs : List (List α × List α)) (n : ℕ) :
    completeBy (as ++ bs) ((joined as).length + n) = as.length + completeBy bs n := by
  induction as with
  | nil => simp [joined_nil]
  | cons a as ih =>
    rw [List.cons_append, completeBy, joined_cons, List.length_append, List.length_append,
      if_pos (by omega), List.length_cons,
      show a.1.length + a.2.length + (joined as).length + n - (a.1.length + a.2.length)
        = (joined as).length + n by omega, ih]
    omega

theorem completeBy_joined (bs : List (List α × List α)) :
    completeBy bs (joined bs).length = bs.length := by
  have h := completeBy_append bs [] 0
  rw [List.append_nil, Nat.add_zero] at h
  exact h

/-! ## a reader on a part of the stream -/

/-- the first message is found as soon as it is complete, and nothing before -/
theorem Messages.next_of_isPrefix {bs : List (List α × List α)} (hsep : sep ≠ [])
    (hb : Messages sep len bs) {s : List α} (hs : s <+: joined bs) :
    (∃ b bs' r, bs = b :: bs' ∧ blockNext sep len s = some (b, r) ∧ r <+: joined bs' ∧
      0 < completeBy bs s.length) ∨
    (blockNext sep len s = none ∧ completeBy bs s.length = 0) := by
  cases bs with
  | nil =>
    right
    have hnil : s = [] := List.prefix_nil.mp hs
    rw [hnil]
    exact ⟨blockNext_none_of_head sep len (by rw [blockHead, cut_nil hsep]; rfl), rfl⟩
  | cons b bs =>
    rw [joined_cons] at hs
    by_cases hle : (b.1 ++ b.2).length ≤ s.length
    · left
      obtain ⟨r, rfl⟩ : b.1 ++ b.2 <+: s :=
        List.prefix_of_prefix_length_le ⟨joined bs, rfl⟩ hs hle
      have hn := (blockReader sep len hsep).stable r hb.head
      refine ⟨b, bs, r, rfl, hn, (List.prefix_append_right_inj _).mp hs, ?_⟩
      rw [List.length_append] at hle
      rw [completeBy, if_pos hle]
      exact Nat.succ_pos _
    · right
      have hp : s <+: b.1 ++ b.2 :=
        List.prefix_of_prefix_length_le hs ⟨joined bs, rfl⟩ (by omega)
      have hne : s ≠ b.1 ++ b.2 := fun e => hle (by rw [e])
      refine ⟨(blockReader sep len hsep).next_eq_none_of_isPrefix hb.head hp hne, ?_⟩
      rw [List.length_append] at hle
      rw [completeBy, if_neg hle]

/-- the heads that a reader meets are those of the messages -/
theorem IsHead.mem_of_isPrefix {bs : List (List α × List α)} (hsep : sep ≠ [])
    (hb : Messages sep len bs) {s h : List α} (hs : s <+: joined bs) (hh : IsHead sep len s h) :
    ∃ b ∈ bs, h = b.1 := by
  induction hh generalizing bs with
  | @here s h r hhd =>
    cases bs with
    | nil =>
      rw [List.prefix_nil.mp hs, blockHead, cut_nil hsep] at hhd
      exact absurd hhd (by simp)
    | cons b bs =>
      obtain ⟨t, ht⟩ := hs
      have h1 := blockHead_append hhd t
      have h2 := blockHead_append (hb b List.mem_cons_self).1 (b.2 ++ joined bs)
      rw [ht, joined_cons, List.append_assoc, h2, Option.some.injEq, Prod.mk.injEq] at h1
      exact ⟨b, List.mem_cons_self, h1.1.symm⟩
  | later hn _ ih =>
    rcases hb.next_of_isPrefix hsep hs with ⟨b, bs', r, rfl, hn', hr, -⟩ | ⟨hn', -⟩
    · rw [hn, Option.some.injEq, Prod.mk.injEq] at hn'
      obtain ⟨-, rfl⟩ := hn'
      obtain ⟨b', hmem, he⟩ := ih hb.tail hr
      exact ⟨b', List.mem_cons_of_mem _ hmem, he⟩
    · rw [hn] at hn'
      exact absurd hn' (by simp)

/-- what is taken from a part of the stream are the first messages -/
theorem Reader.Takes.isPrefix_of_messages {hsep : sep ≠ []} {bs ds : List (List α × List α)}
    {s r : List α} (hb : Messages sep len bs) (hs : s <+: joined bs)
    (ht : (blockReader sep len hsep).Takes s ds r) : ds <+: bs := by
  induction ht generalizing bs with
  | nil s => exact List.nil_prefix
  | cons h _ ih =>
    rcases hb.next_of_isPrefix hsep hs with ⟨b', bs', r', rfl, hn, hr, -⟩ | ⟨hn, -⟩
    · obtain ⟨rfl, rfl⟩ := Prod.mk.inj (Option.some.inj (h.symm.trans hn))
      exact List.cons_prefix_cons.mpr ⟨rfl, ih hb.tail hr⟩
    · exact absurd (h.symm.trans hn) (by simp)

theorem Reader.Takes.completeBy_eq {hsep : sep ≠ []} {bs : List (List α × List α)}
    {s r : List α} {d : ℕ} (hd : d ≤ bs.length) (hs : s <+: joined bs)
    (ht : (blockReader sep len hsep).Takes s (bs.take d) r) :
    r <+: joined (bs.drop d) ∧ completeBy bs s.length = d + completeBy (bs.drop d) r.length := by
  have hj : joined bs = joined (bs.take d) ++ joined (bs.drop d) := by
    rw [← joined_append, List.take_append_drop]
  rw [takes_joined ht] at hs ⊢
  rw [hj] at hs
  refine ⟨(List.prefix_append_right_inj _).mp hs, ?_⟩
  have h := completeBy_append (bs.take d) (bs.drop d) r.length
  rw [List.take_append_drop, List.length_take, Nat.min_eq_left hd] at h
  rw [List.length_append, h]

/-! ## the pace -/

/-- the number of messages taken behind more reads, `n` being the bytes read and `d` the messages
taken before them -/
def pacedFrom (bs : List (List α × List α)) : ℕ → ℕ → List (List α) → ℕ
  | _, d, [] => d
  | n, d, r :: rs => pacedFrom bs (n + r.length) (min (d + 1) (completeBy bs (n + r.length))) rs

/-- the number of messages taken, at most one behind each read -/
def paced (bs : List (List α × List α)) (rs : List (List α)) : ℕ := pacedFrom bs 0 0 rs

theorem pacedFrom_snoc (bs : List (List α × List α)) (n d : ℕ) (rs : List (List α)) (r : List α) :
    pacedFrom bs n d (rs ++ [r])
      = min (pacedFrom bs n d rs + 1) (completeBy bs (n + (rs ++ [r]).flatten.length)) := by
  induction rs generalizing n d with
  | nil => simp [pacedFrom]
  | cons r' rs ih =>
    rw [List.cons_append, pacedFrom, ih, pacedFrom, List.flatten_cons, List.length_append,
      Nat.add_assoc]

theorem paced_nil (bs : List (List α × List α)) : paced bs [] = 0 := rfl

theorem paced_snoc (bs : List (List α × List α)) (rs : List (List α)) (r : List α) :
    paced bs (rs ++ [r]) = min (paced bs rs + 1) (completeBy bs (rs ++ [r]).flatten.length) := by
  have h := pacedFrom_snoc bs 0 0 rs r
  rw [Nat.zero_add] at h
  exact h

/-- **The pace of one message a read**: `n` messages are taken if and only if behind every read
the reads to come are at least as many as the messages that are not complete yet. -/
theorem le_paced_iff {bs : List (List α × List α)} (h0 : completeBy bs 0 = 0) (n : ℕ)
    (rs : List (List α)) : n ≤ paced bs rs ↔
      ∀ j ≤ rs.length, n ≤ completeBy bs (rs.take j).flatten.length + (rs.length - j) := by
  induction rs using List.reverseRecOn generalizing n with
  | nil =>
    rw [paced_nil]
    constructor
    · intro h j _
      omega
    · intro h
      have h1 := h 0 (le_refl 0)
      rw [List.take_zero, List.flatten_nil, List.length_nil, h0] at h1
      exact h1
  | append_singleton rs r ih =>
    have hlen : (rs ++ [r]).length = rs.length + 1 := by simp
    have htake : ∀ j ≤ rs.length, (rs ++ [r]).take j = rs.take j := fun j hj =>
      List.take_append_of_le_length hj
    rw [paced_snoc, Nat.le_min, ← Nat.sub_le_iff_le_add, ih, hlen]
    constructor
    · rintro ⟨h1, h2⟩ j hj
      by_cases hj' : j ≤ rs.length
      · have h3 := h1 j hj'
        rw [htake j hj']
        omega
      · rw [show j = (rs ++ [r]).length by omega, List.take_length]
        omega
    · intro h
      refine ⟨fun j hj => ?_, ?_⟩
      · have h3 := h j (by omega)
        rw [htake j hj] at h3
        omega
      · have h3 := h (rs.length + 1) (le_refl _)
        rw [← hlen, List.take_length] at h3
        omega

end
end Frames
