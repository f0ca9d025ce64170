import ServerHttpLib.Lib.Cut

/-!
# Prefix-stable readers of frames

A reader looks at the front of a buffer and either takes one frame or asks for more input.  It is
stable: a frame that was found is found again when the buffer grows.  Then what a component that
takes frames as they complete has taken so far does not depend on how the input arrived:

* `Takes s bs r`               the frames `bs`, taken one after the other, leave `r` of `s`;
* `Takes.isPrefix_frames`      they are a prefix of what one pass over all the input yields;
* `next_eq_none_of_isPrefix`   a proper part of one frame holds no frame.

`blockReader sep len` is the reader of messages made of a head, which ends at the first `sep`, and
a body, whose length `len` computes from the head.
-/

set_option linter.unusedSectionVars false

namespace Frames
open Cutting

/-- a stable reader of frames `β` from lists over `α` -/
structure Reader (α β : Type*) where
  next : List α → Option (β × List α)
  stable : ∀ {s b r} (t : List α), next s = some (b, r) → next (s ++ t) = some (b, r ++ t)
  shrink : ∀ {s b r}, next s = some (b, r) → r.length < s.length

section
variable {α β : Type*}

/-- all frames of a list, in order -/
def Reader.frames (R : Reader α β) (s : List α) : List β :=
  match _h : R.next s with
  | none => []
  | some (b, r) => b :: R.frames r
termination_by s.length
decreasing_by exact R.shrink _h

variable (R : Reader α β)

theorem Reader.frames_some {s r : List α} {b : β} (h : R.next s = some (b, r)) :
    R.frames s = b :: R.frames r := by
  rw [Reader.frames]
  split
  · rename_i h'
    rw [h] at h'
    exact absurd h' (by simp)
  · rename_i b' r' h'
    rw [h, Option.some.injEq, Prod.mk.injEq] at h'
    rw [h'.1, h'.2]

/-- the frames `bs`, taken one after the other from `s`, leave `r` -/
inductive Reader.Takes : List α → List β → List α → Prop
  | nil (s : List α) : Takes s [] s
  | cons {s r r' : List α} {b : β} {bs : List β} (h : R.next s = some (b, r))
      (ht : Takes r bs r') : Takes s (b :: bs) r'

variable {R}

theorem Reader.Takes.append {s r : List α} {bs : List β} (h : R.Takes s bs r) (t : List α) :
    R.Takes (s ++ t) bs (r ++ t) := by
  induction h with
  | nil s => exact .nil _
  | cons h _ ih => exact .cons (R.stable t h) ih

theorem Reader.Takes.snoc {s r r' : List α} {bs : List β} {b : β} (h : R.Takes s bs r)
    (hn : R.next r = some (b, r')) : R.Takes s (bs ++ [b]) r' := by
  induction h with
  | nil s => exact .cons hn (.nil _)
  | cons h _ ih => exact .cons h (ih hn)

theorem Reader.Takes.frames_eq {s r : List α} {bs : List β} (h : R.Takes s bs r) :
    R.frames s = bs ++ R.frames r := by
  induction h with
  | nil s => rfl
  | cons h _ ih => rw [R.frames_some h, ih, List.cons_append]

/-- what was taken from the input so far is a prefix of the frames of all the input -/
theorem Reader.Takes.isPrefix_frames {s r : List α} {bs : List β} (h : R.Takes s bs r)
    (t : List α) : bs <+: R.frames (s ++ t) := by
  rw [(h.append t).frames_eq]
  exact List.prefix_append _ _

/-- a proper part of one frame holds no frame -/
theorem Reader.next_eq_none_of_isPrefix {s q : List α} {b : β} (h : R.next s = some (b, []))
    (hq : q <+: s) (hne : q ≠ s) : R.next q = none := by
  obtain ⟨t, rfl⟩ := hq
  cases hn : R.next q with
  | none => rfl
  | some p =>
    obtain ⟨b', r⟩ := p
    have hs := R.stable t hn
    rw [h, Option.some.injEq, Prod.mk.injEq] at hs
    have ht : t = [] := (List.append_eq_nil_iff.mp hs.2.symm).2
    exact absurd (by rw [ht, List.append_nil]) hne

end

/-! ## head and body -/

section
variable {α : Type*} [DecidableEq α] (sep : List α) (len : List α → ℕ)

/-- the head of a message, up to and with the first `sep`, and what follows it -/
def blockHead (s : List α) : Option (List α × List α) :=
  (cut sep s).map fun r => (r.1 ++ sep, r.2)

variable {sep} in
theorem blockHead_eq {s h r : List α} (hs : blockHead sep s = some (h, r)) : s = h ++ r := by
  obtain ⟨⟨a, b⟩, hc, he⟩ := Option.map_eq_some_iff.mp hs
  rw [Prod.mk.injEq] at he
  rw [← he.1, ← he.2, cut_eq hc]

variable {sep} in
theorem blockHead_append {s h r : List α} (hs : blockHead sep s = some (h, r)) (t : List α) :
    blockHead sep (s ++ t) = some (h, r ++ t) := by
  obtain ⟨⟨a, b⟩, hc, he⟩ := Option.map_eq_some_iff.mp hs
  rw [Prod.mk.injEq] at he
  simp only [blockHead, cut_append hc, Option.map_some, he.1, ← he.2]

variable {sep} in
theorem blockHead_length {s h r : List α} (hs : blockHead sep s = some (h, r)) :
    s.length = h.length + r.length := by
  rw [blockHead_eq hs, List.length_append]

variable {sep} in
theorem blockHead_sep_le {s h r : List α} (hs : blockHead sep s = some (h, r)) :
    sep.length ≤ h.length := by
  obtain ⟨⟨a, b⟩, _, he⟩ := Option.map_eq_some_iff.mp hs
  rw [Prod.mk.injEq] at he
  rw [← he.1, List.length_append]
  omega

/-- one message: a head and the body whose length the head tells -/
def blockNext (s : List α) : Option ((List α × List α) × List α) :=
  match blockHead sep s with
  | none => none
  | some (h, r) => if len h ≤ r.length then some ((h, r.take (len h)), r.drop (len h)) else none

theorem blockNext_eq_some_iff {s h b r : List α} : blockNext sep len s = some ((h, b), r) ↔
    blockHead sep s = some (h, b ++ r) ∧ len h = b.length := by
  unfold blockNext
  cases hb : blockHead sep s with
  | none => simp
  | some p =>
    obtain ⟨h', r'⟩ := p
    constructor
    · intro hs
      simp only [Option.ite_none_right_eq_some, Option.some.injEq, Prod.mk.injEq] at hs
      obtain ⟨hle, ⟨rfl, hb'⟩, hr'⟩ := hs
      rw [← hb', ← hr', List.take_append_drop, List.length_take, Nat.min_eq_left hle]
      exact ⟨rfl, rfl⟩
    · rintro ⟨he, hl⟩
      rw [Option.some.injEq, Prod.mk.injEq] at he
      obtain ⟨rfl, rfl⟩ := he
      simp only [hl, List.length_append, Nat.le_add_right, if_true, List.take_left, List.drop_left]

theorem blockNext_none_of_head {s : List α} (h : blockHead sep s = none) :
    blockNext sep len s = none := by
  unfold blockNext
  rw [h]

theorem blockNext_of_head {s h r : List α} (hs : blockHead sep s = some (h, r)) :
    blockNext sep len s
      = if len h ≤ r.length then some ((h, r.take (len h)), r.drop (len h)) else none := by
  unfold blockNext
  rw [hs]

/-- the reader of messages made of a head and a body -/
def blockReader (hsep : sep ≠ []) : Reader α (List α × List α) where
  next := blockNext sep len
  stable := by
    intro s b r t h
    obtain ⟨h₁, b₁⟩ := b
    rw [blockNext_eq_some_iff] at h ⊢
    exact ⟨by rw [blockHead_append h.1, List.append_assoc], h.2⟩
  shrink := by
    intro s b r h
    obtain ⟨h₁, b₁⟩ := b
    rw [blockNext_eq_some_iff] at h
    have h1 := blockHead_length h.1
    have h2 := blockHead_sep_le h.1
    have h3 := List.length_pos_iff.mpr hsep
    rw [List.length_append] at h1
    omega

/-- the bytes of a list of messages -/
def joined (bs : List (List α × List α)) : List α := bs.flatMap fun b => b.1 ++ b.2

theorem joined_nil : joined ([] : List (List α × List α)) = [] := rfl
theorem joined_cons (b : List α × List α) (bs : List (List α × List α)) :
    joined (b :: bs) = b.1 ++ b.2 ++ joined bs := rfl

theorem joined_append (as bs : List (List α × List α)) :
    joined (as ++ bs) = joined as ++ joined bs := by
  simp [joined, List.flatMap_append]

variable {sep len} in
/-- nothing is lost, repeated or reordered: the messages taken and the remainder are the input -/
theorem takes_joined {hsep : sep ≠ []} {s r : List α} {bs : List (List α × List α)}
    (h : (blockReader sep len hsep).Takes s bs r) : s = joined bs ++ r := by
  induction h with
  | nil s => rfl
  | cons h _ ih =>
    rename_i s r r' b bs _
    obtain ⟨h₁, b₁⟩ := b
    have hb := ((blockNext_eq_some_iff sep len).mp h).1
    rw [blockHead_eq hb, ih, joined_cons]
    simp only [List.append_assoc]

/-- the heads the reader comes across in `s`: those of its messages and the head behind the last
of them, if it is complete -/
inductive IsHead : List α → List α → Prop
  | here {s h r : List α} (hs : blockHead sep s = some (h, r)) : IsHead s h
  | later {s h₁ b₁ r h : List α} (hs : blockNext sep len s = some ((h₁, b₁), r))
      (hr : IsHead r h) : IsHead s h

variable {sep len}

theorem IsHead.append {s h : List α} (hs : IsHead sep len s h) (t : List α) :
    IsHead sep len (s ++ t) h := by
  induction hs with
  | here hs => exact .here (blockHead_append hs t)
  | @later s h₁ b₁ r h hs _ ih =>
    rw [blockNext_eq_some_iff] at hs
    have hs' : blockNext sep len (s ++ t) = some ((h₁, b₁), r ++ t) := by
      rw [blockNext_eq_some_iff]
      exact ⟨by rw [blockHead_append hs.1, List.append_assoc], hs.2⟩
    exact .later hs' ih

theorem IsHead.of_takes {hsep : sep ≠ []} {s r h : List α} {bs : List (List α × List α)}
    (ht : (blockReader sep len hsep).Takes s bs r) (hr : IsHead sep len r h) :
    IsHead sep len s h := by
  induction ht with
  | nil s => exact hr
  | cons hs _ ih =>
    rename_i b _ _
    obtain ⟨h₁, b₁⟩ := b
    exact .later hs (ih hr)

theorem IsHead.eq_of_single {s h b h' : List α} (hsep : sep ≠ [])
    (hs : blockNext sep len s = some ((h, b), [])) (hh : IsHead sep len s h') : h' = h := by
  have hs' := (blockNext_eq_some_iff sep len).mp hs
  cases hh with
  | here hh =>
    rw [hs'.1, Option.some.injEq, Prod.mk.injEq] at hh
    exact hh.1.symm
  | later hn hr =>
    rw [hs, Option.some.injEq, Prod.mk.injEq] at hn
    obtain ⟨-, rfl⟩ := hn
    have hnil : blockHead sep ([] : List α) = none := by rw [blockHead, cut_nil hsep]; rfl
    cases hr with
    | here hr => rw [hnil] at hr; exact absurd hr (by simp)
    | later hr _ => rw [blockNext_none_of_head sep len hnil] at hr; exact absurd hr (by simp)

end
end Frames
