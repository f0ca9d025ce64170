import Mathlib.Algebra.Group.ModEq
import Mathlib.Algebra.Order.Group.Basic
import Mathlib.Order.Bounds.Image

/-!
# Recurring instants

Instants that recur with a period `p`, and the first of them after a given one.

* `isLeast_of_modEq`    an instant within a period of `now` is the next of its kind;
* `isLeast_image`       the next instant on a coarser scale is the next on a finer one.
-/

namespace Recurrence

section
variable {α : Type*} [AddCommGroup α] [LinearOrder α] [IsOrderedAddMonoid α] {p now t : α}

/-- of two instants of one kind neither is less than a period after the other -/
theorem le_of_modEq {u : α} (h : u ≡ t [PMOD p]) (hp : 0 < p) (hlt : t < u + p) : t ≤ u := by
  obtain ⟨m, hm⟩ := AddCommGroup.modEq_iff_zsmul.mp h
  have hmp : m • p < (1 : ℤ) • p := by
    rw [hm, one_zsmul]
    exact sub_lt_iff_lt_add'.mpr hlt
  have hm1 : m < 0 + 1 := (zsmul_lt_zsmul_iff_left hp).mp hmp
  have h0 : m • p ≤ (0 : ℤ) • p := (zsmul_le_zsmul_iff_left hp).mpr (Int.lt_add_one_iff.mp hm1)
  rw [hm, zero_zsmul] at h0
  exact sub_nonpos.mp h0

theorem isLeast_of_modEq (hlt : now < t) (hle : t ≤ now + p) :
    IsLeast {u | now < u ∧ u ≡ t [PMOD p]} t := by
  have hp : 0 < p := pos_of_lt_add_right (hlt.trans_le hle)
  refine ⟨⟨hlt, AddCommGroup.modEq_rfl⟩, ?_⟩
  rintro u ⟨hu, hmod⟩
  exact le_of_modEq hmod hp (hle.trans_lt (add_lt_add_left hu p))

end

/-- `f` maps the coarse scale into the fine one, and the coarse instants after `m` are those whose
image is after `now` -/
theorem isLeast_image {α β : Type*} [Preorder α] [Preorder β] {f : α → β} (hf : Monotone f)
    {now : β} {m c : α} (hm : ∀ t, m < t ↔ now < f t) {P : α → Prop}
    (h : IsLeast {t | m < t ∧ P t} c) : IsLeast {x | now < x ∧ ∃ t, f t = x ∧ P t} (f c) := by
  have himage : {x | now < x ∧ ∃ t, f t = x ∧ P t} = f '' {t | m < t ∧ P t} := by
    ext x
    constructor
    · rintro ⟨hx, t, rfl, ht⟩
      exact ⟨t, ⟨(hm t).mpr hx, ht⟩, rfl⟩
    · rintro ⟨t, ⟨hmt, ht⟩, rfl⟩
      exact ⟨(hm t).mp hmt, t, rfl, ht⟩
  rw [himage]
  exact hf.map_isLeast h

end Recurrence
