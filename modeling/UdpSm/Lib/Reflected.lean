import Mathlib.Algebra.Order.Monoid.Unbundled.Basic
import Mathlib.Algebra.BigOperators.Group.List.Basic
import Mathlib.Algebra.Order.Group.Defs
import Mathlib.Data.List.Infix
import Mathlib.Order.Bounds.Basic

/-! A walk held at zero: a step that would lead below zero ends there. -/
namespace UdpSm.Lib
universe u
variable {α : Type u} [AddCommGroup α] [LinearOrder α] {x : α} {ds s : List α}

def reflected (x : α) (ds : List α) : α := ds.foldl (fun y d => max 0 (y + d)) x

theorem reflected_snoc (x : α) (ds : List α) (d : α) :
    reflected x (ds ++ [d]) = max 0 (reflected x ds + d) := by
  rw [reflected, List.foldl_append]
  rfl

theorem reflected_nonneg (hx : 0 ≤ x) (ds : List α) : 0 ≤ reflected x ds := by
  induction ds using List.reverseRecOn with
  | nil => exact hx
  | append_singleton ds d ih =>
    rw [reflected_snoc]
    exact le_max_left _ _

theorem reflected_attained (x : α) (ds : List α) :
    reflected x ds = x + ds.sum ∨ ∃ s, s <:+ ds ∧ reflected x ds = s.sum := by
  induction ds using List.reverseRecOn with
  | nil => exact .inl (add_zero x).symm
  | append_singleton ds d ih =>
    rw [reflected_snoc]
    cases max_choice 0 (reflected x ds + d) with
    | inl hzero => exact .inr ⟨[], List.nil_suffix, hzero⟩
    | inr hsum =>
      rw [hsum, List.sum_append, List.sum_singleton]
      cases ih with
      | inl hfree => exact .inl (by rw [hfree, add_assoc])
      | inr hheld =>
        obtain ⟨s, hs, hheld⟩ := hheld
        refine .inr ⟨s ++ [d], List.suffix_concat_iff.mpr (.inr ⟨s, rfl, hs⟩), ?_⟩
        rw [hheld, List.sum_append, List.sum_singleton]

variable [IsOrderedAddMonoid α]

theorem suffix_le_reflected (hx : 0 ≤ x) (h : s <:+ ds) : s.sum ≤ reflected x ds := by
  induction ds using List.reverseRecOn generalizing s with
  | nil =>
    rw [List.suffix_nil.mp h]
    exact hx
  | append_singleton ds d ih =>
    rw [reflected_snoc]
    obtain rfl | ⟨t, rfl, ht⟩ := List.suffix_concat_iff.mp h
    · exact le_max_left _ _
    · rw [List.sum_append, List.sum_singleton]
      exact (add_le_add_left (ih ht) d).trans (le_max_right _ _)

/-- A walk that starts at zero stands at the greatest sum of its last steps. -/
theorem isGreatest_reflected (ds : List α) :
    IsGreatest {v | ∃ s, s <:+ ds ∧ s.sum = v} (reflected 0 ds) := by
  refine ⟨?_, ?_⟩
  · cases reflected_attained 0 ds with
    | inl hfree => exact ⟨ds, List.suffix_refl ds, by rw [hfree, zero_add]⟩
    | inr hheld =>
      obtain ⟨s, hs, hheld⟩ := hheld
      exact ⟨s, hs, hheld.symm⟩
  · rintro v ⟨s, hs, rfl⟩
    exact suffix_le_reflected le_rfl hs

end UdpSm.Lib
