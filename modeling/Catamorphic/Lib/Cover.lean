import Mathlib.Data.List.Basic

/-!
# Lists of grants and what they cover

A list covers what one of its grants covers. The meet of two lists keeps a grant that the second
list covers, and replaces another by the grants of the second list beneath it. It covers what a
grant of each list covers when one of the two covers the other; where any two grants over a common
one are so, the meet covers exactly what both lists cover.
-/

namespace Catamorphic.Cover

open List

variable {α : Type} (covers : α → α → Bool)

/-- The grants of both lists. -/
def meet (granted held : List α) : List α :=
  granted.flatMap fun grant =>
    if held.any fun other => covers other grant then [grant]
    else held.filter fun other => covers grant other

variable {covers} {granted held : List α}

theorem mem_meet {x : α} : x ∈ meet covers granted held ↔
    (∃ other ∈ held, covers other x = true) ∧ x ∈ granted ∨
      x ∈ held ∧ ∃ grant ∈ granted, covers grant x = true ∧
        ∀ other ∈ held, covers other grant ≠ true := by
  rw [meet, mem_flatMap]
  constructor
  · rintro ⟨grant, hgrant, hx⟩
    split at hx
    · rename_i hheld
      obtain rfl := mem_singleton.mp hx
      exact .inl ⟨any_eq_true.mp hheld, hgrant⟩
    · rename_i hheld
      obtain ⟨hmem, hcovers⟩ := mem_filter.mp hx
      exact .inr ⟨hmem, grant, hgrant, hcovers, fun other hother hcover =>
        hheld (any_eq_true.mpr ⟨other, hother, hcover⟩)⟩
  · rintro (⟨hheld, hx⟩ | ⟨hx, grant, hgrant, hcovers, hnone⟩)
    · refine ⟨x, hx, ?_⟩
      rw [if_pos (any_eq_true.mpr hheld)]
      exact mem_singleton_self x
    · refine ⟨grant, hgrant, ?_⟩
      rw [if_neg fun hany => ?_]
      · exact mem_filter.mpr ⟨hx, hcovers⟩
      · obtain ⟨other, hother, hcover⟩ := any_eq_true.mp hany
        exact hnone other hother hcover

/-- **The meet covers what two comparable grants, one of each list, both cover.** -/
theorem covers_meet (htrans : ∀ x y z, covers x y = true → covers y z = true → covers x z = true)
    {p : α} : (∃ x ∈ meet covers granted held, covers x p = true) ↔
      ∃ grant ∈ granted, ∃ other ∈ held, covers grant p = true ∧ covers other p = true ∧
        (covers other grant = true ∨ covers grant other = true) := by
  constructor
  · rintro ⟨x, hx, hp⟩
    rcases mem_meet.mp hx with ⟨⟨other, hother, hcover⟩, hgrant⟩
      | ⟨hother, grant, hgrant, hcover, -⟩
    · exact ⟨x, hgrant, other, hother, hp, htrans other x p hcover hp, .inl hcover⟩
    · exact ⟨grant, hgrant, x, hother, htrans grant x p hcover hp, hp, .inr hcover⟩
  · rintro ⟨grant, hgrant, other, hother, hp, hp', hcomparable⟩
    by_cases hheld : ∃ other' ∈ held, covers other' grant = true
    · exact ⟨grant, mem_meet.mpr (.inl ⟨hheld, hgrant⟩), hp⟩
    · have hnone : ∀ other' ∈ held, covers other' grant ≠ true :=
        fun other' hother' hcover => hheld ⟨other', hother', hcover⟩
      have hbelow := hcomparable.resolve_left (hnone other hother)
      exact ⟨other, mem_meet.mpr (.inr ⟨hother, grant, hgrant, hbelow, hnone⟩), hp'⟩

end Catamorphic.Cover
