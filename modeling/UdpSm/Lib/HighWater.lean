import Mathlib.Order.Defs.LinearOrder
import Mathlib.Order.Lattice
import Mathlib.Data.List.Basic

/-! High-water marks: the largest value that a quantity had over a history, from a base on. -/
namespace UdpSm.Lib
universe u v
variable {α : Type u} {β : Type v} [LinearOrder β] {b : β} {f g : α → β} {l : List α}

def peak (b : β) (f : α → β) (l : List α) : β := (l.map f).foldr max b

@[simp] theorem peak_nil : peak b f [] = b := rfl
@[simp] theorem peak_cons (x : α) : peak b f (x :: l) = max (f x) (peak b f l) := rfl

theorem base_le_peak : b ≤ peak b f l := by
  induction l with
  | nil => exact le_rfl
  | cons x l ih => exact ih.trans (le_max_right _ _)

theorem le_peak {x : α} (hx : x ∈ l) : f x ≤ peak b f l := by
  induction l with
  | nil => simp at hx
  | cons y l ih =>
    obtain rfl | hx := List.mem_cons.mp hx
    · exact le_max_left _ _
    · exact (ih hx).trans (le_max_right _ _)

theorem peak_attained : peak b f l = b ∨ ∃ x ∈ l, f x = peak b f l := by
  induction l with
  | nil => exact .inl rfl
  | cons y l ih =>
    rw [peak_cons]
    obtain hle | hle := le_total (f y) (peak b f l)
    · rw [max_eq_right hle]
      exact ih.imp_right fun ⟨x, hx, heq⟩ => ⟨x, List.mem_cons_of_mem y hx, heq⟩
    · exact .inr ⟨y, List.mem_cons_self, (max_eq_left hle).symm⟩

theorem peak_le_peak (h : ∀ x ∈ l, g x ≤ f x) : peak b g l ≤ peak b f l := by
  obtain hbase | ⟨x, hx, heq⟩ := peak_attained (b := b) (f := g) (l := l)
  · rw [hbase]
    exact base_le_peak
  · rw [← heq]
    exact (h x hx).trans (le_peak hx)

/-- A quantity that falls short of another now and then has the same mark, if and only if wherever it
fell short there is a value as high of which it did not. -/
theorem peak_eq_iff (hle : ∀ x ∈ l, g x ≤ f x) (hbase : ∀ x ∈ l, b < f x) :
    peak b g l = peak b f l ↔ ∀ x ∈ l, g x < f x → ∃ y ∈ l, g y = f y ∧ f x ≤ f y := by
  constructor
  · intro heq x hx _
    have hmark : f x ≤ peak b g l := heq ▸ le_peak hx
    obtain hb | ⟨y, hy, hattained⟩ := peak_attained (b := b) (f := g) (l := l)
    · exact absurd (hb ▸ hmark) (hbase x hx).not_ge
    · have hfy : f y ≤ g y := by
        rw [hattained, heq]
        exact le_peak hy
      have hsame := le_antisymm (hle y hy) hfy
      exact ⟨y, hy, hsame, by rwa [← hsame, hattained]⟩
  · intro h
    refine le_antisymm (peak_le_peak hle) ?_
    obtain hb | ⟨x, hx, hattained⟩ := peak_attained (b := b) (f := f) (l := l)
    · rw [hb]
      exact base_le_peak
    · obtain hlt | hsame := (hle x hx).lt_or_eq
      · obtain ⟨y, hy, hsame, hxy⟩ := h x hx hlt
        rw [← hattained]
        exact hxy.trans (hsame ▸ le_peak hy)
      · rw [← hattained, ← hsame]
        exact le_peak hx

end UdpSm.Lib
