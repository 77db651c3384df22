import Mathlib.Data.List.Sort
import Mathlib.Order.Defs.LinearOrder

/-! `qsort` of the C library as a parameter, what a comparator must be for it to sort, and order
statistics. -/
namespace UdpSm.Lib
universe u
variable {α : Type u}

structure OrdersOn (compar : α → α → Int) (xs : List α) : Prop where
  swap : ∀ x ∈ xs, ∀ y ∈ xs, (compar x y < 0 ↔ 0 < compar y x)
  trans : ∀ x ∈ xs, ∀ y ∈ xs, ∀ z ∈ xs, compar x y ≤ 0 → compar y z ≤ 0 → compar x z ≤ 0

/-- A `qsort` works in place: it leaves an array of the same length. -/
structure Qsort (α : Type u) where
  sort : (α → α → Int) → List α → List α
  length_sort : ∀ compar xs, (sort compar xs).length = xs.length

/-- What is documented: nothing for a comparator that contradicts itself on the elements. -/
def Qsort.Sorts (q : Qsort α) : Prop :=
  ∀ compar xs, OrdersOn compar xs →
    (q.sort compar xs).Perm xs ∧ (q.sort compar xs).Pairwise fun x y => compar x y ≤ 0

/-! A sort by a relation that is an order on the elements only. -/
section SortOn
variable (le : α → α → Prop) [DecidableRel le] {xs : List α}

def sortOn (xs : List α) : List α :=
  (xs.attach.mergeSort fun x y => decide (le x.1 y.1)).map Subtype.val

theorem sortOn_perm : (sortOn le xs).Perm xs := by
  have h := (List.mergeSort_perm xs.attach fun x y => decide (le x.1 y.1)).map Subtype.val
  rwa [List.attach_map_subtype_val] at h

theorem sortOn_pairwise (htotal : ∀ x ∈ xs, ∀ y ∈ xs, le x y ∨ le y x)
    (htrans : ∀ x ∈ xs, ∀ y ∈ xs, ∀ z ∈ xs, le x y → le y z → le x z) :
    (sortOn le xs).Pairwise le := by
  have htrans' : ∀ x y z : {x // x ∈ xs}, decide (le x.1 y.1) → decide (le y.1 z.1) →
      decide (le x.1 z.1) := by
    intro x y z hxy hyz
    simp only [decide_eq_true_eq] at hxy hyz ⊢
    exact htrans x x.2 y y.2 z z.2 hxy hyz
  have htotal' : ∀ x y : {x // x ∈ xs}, decide (le x.1 y.1) || decide (le y.1 x.1) := by
    intro x y
    simp only [Bool.or_eq_true, decide_eq_true_eq]
    exact htotal x x.2 y y.2
  have hsorted := List.pairwise_mergeSort htrans' htotal' xs.attach
  exact List.pairwise_map.mpr (hsorted.imp fun h => of_decide_eq_true h)

end SortOn

def mergeQsort : Qsort α where
  sort compar xs := sortOn (fun x y => compar x y ≤ 0) xs
  length_sort _ _ := (sortOn_perm _).length_eq

theorem mergeQsort_sorts : (mergeQsort : Qsort α).Sorts := by
  intro compar xs h
  simp only [mergeQsort]
  refine ⟨sortOn_perm _, sortOn_pairwise _ ?_ h.trans⟩
  intro x hx y hy
  have hswap := h.swap x hx y hy
  omega

section Order
variable [LinearOrder α] {compar : α → α → Int} {xs ys : List α}

/-- The comparator knows which of two different elements is the smaller one. -/
def AgreesOn (compar : α → α → Int) (xs : List α) : Prop :=
  ∀ x ∈ xs, ∀ y ∈ xs, x < y → compar x y < 0 ∧ 0 < compar y x

theorem AgreesOn.le_iff (h : AgreesOn compar xs) (hself : ∀ x, compar x x = 0) {x y : α}
    (hx : x ∈ xs) (hy : y ∈ xs) : compar x y ≤ 0 ↔ x ≤ y := by
  obtain hlt | rfl | hgt := lt_trichotomy x y
  · exact iff_of_true (h x hx y hy hlt).1.le hlt.le
  · exact iff_of_true (hself x).le le_rfl
  · exact iff_of_false (h y hy x hx hgt).2.not_ge hgt.not_ge

theorem AgreesOn.ordersOn (h : AgreesOn compar xs) (hself : ∀ x, compar x x = 0) :
    OrdersOn compar xs where
  swap x hx y hy := by
    obtain hlt | rfl | hgt := lt_trichotomy x y
    · exact iff_of_true (h x hx y hy hlt).1 (h x hx y hy hlt).2
    · simp [hself]
    · exact iff_of_false (h y hy x hx hgt).2.not_gt (h y hy x hx hgt).1.not_gt
  trans x hx y hy z hz hxy hyz := by
    rw [h.le_iff hself hx hy] at hxy
    rw [h.le_iff hself hy hz] at hyz
    exact (h.le_iff hself hx hz).mpr (hxy.trans hyz)

/-- The order of a `qsort` that leaves ties the wrong way round. -/
def TiesBack (compar : α → α → Int) (x y : α) : Prop :=
  compar x y < 0 ∨ (compar x y = 0 ∧ y ≤ x)

theorem tiesBack_total (h : OrdersOn compar xs) :
    ∀ x ∈ xs, ∀ y ∈ xs, TiesBack compar x y ∨ TiesBack compar y x := by
  intro x hx y hy
  have hxy := h.swap x hx y hy
  have hyx := h.swap y hy x hx
  have hle := le_total y x
  unfold TiesBack
  by_cases hlt : compar x y < 0
  · exact .inl (.inl hlt)
  · by_cases hgt : compar y x < 0
    · exact .inr (.inl hgt)
    · exact hle.imp (fun hle => .inr ⟨by omega, hle⟩) fun hle => .inr ⟨by omega, hle⟩

theorem TiesBack.le {x y : α} (h : TiesBack compar x y) : compar x y ≤ 0 := by
  obtain hlt | ⟨htie, -⟩ := h
  · exact hlt.le
  · exact htie.le

theorem tiesBack_trans (h : OrdersOn compar xs) : ∀ x ∈ xs, ∀ y ∈ xs, ∀ z ∈ xs,
    TiesBack compar x y → TiesBack compar y z → TiesBack compar x z := by
  intro x hx y hy z hz hxy hyz
  obtain hlt | htie := (h.trans x hx y hy z hz hxy.le hyz.le).lt_or_eq
  · exact .inl hlt
  · -- a tie of the two ends is a tie of all three
    have hswap := h.swap x hx z hz
    have hzx : compar z x ≤ 0 := by omega
    have hyx := h.trans y hy z hz x hx hyz.le hzx
    have hzy := h.trans z hz x hx y hy hzx hxy.le
    have hswap' := h.swap x hx y hy
    have hswap'' := h.swap y hy z hz
    have hback : y ≤ x := (hxy.resolve_left (by omega)).2
    have hback' : z ≤ y := (hyz.resolve_left (by omega)).2
    exact .inr ⟨htie, hback'.trans hback⟩

open Classical in
noncomputable def contrary : Qsort α where
  sort compar xs := if OrdersOn compar xs then sortOn (TiesBack compar) xs else sortOn (· ≥ ·) xs
  length_sort _ _ := by
    split_ifs
    · exact (sortOn_perm _).length_eq
    · exact (sortOn_perm _).length_eq

theorem contrary_sorts : (contrary : Qsort α).Sorts := by
  classical
  intro compar xs h
  simp only [contrary, if_pos h]
  refine ⟨sortOn_perm _, (sortOn_pairwise _ (tiesBack_total h) (tiesBack_trans h)).imp ?_⟩
  exact fun hback => hback.le

theorem rel_of_lt {R : α → α → Prop} (hsorted : xs.Pairwise (· ≤ ·)) (hrel : xs.Pairwise R) {x y : α}
    (hx : x ∈ xs) (hy : y ∈ xs) (hlt : x < y) : R x y := by
  obtain ⟨i, hi, rfl⟩ := List.getElem_of_mem hx
  obtain ⟨j, hj, rfl⟩ := List.getElem_of_mem hy
  have hij : i < j := by
    by_contra hge
    obtain hji | rfl := (Nat.le_of_not_lt hge).lt_or_eq
    · exact absurd (List.pairwise_iff_getElem.mp hsorted j i hj hi hji) hlt.not_ge
    · exact lt_irrefl _ hlt
  exact List.pairwise_iff_getElem.mp hrel i j hi hj hij

/-- Every `qsort` leaves the elements in their own order exactly if the comparator agrees with that
order on all pairs of them. -/
theorem Qsort.sorted_iff (hself : ∀ x, compar x x = 0) :
    (∀ q : Qsort α, q.Sorts → (q.sort compar xs).Perm xs ∧ (q.sort compar xs).Pairwise (· ≤ ·)) ↔
      AgreesOn compar xs := by
  classical
  constructor
  · intro h x hx y hy hlt
    obtain ⟨hperm, hsorted⟩ := h contrary contrary_sorts
    have hx' := hperm.mem_iff.mpr hx
    have hy' := hperm.mem_iff.mpr hy
    by_cases ho : OrdersOn compar xs
    · simp only [contrary, if_pos ho] at hx' hy' hsorted
      have hback := rel_of_lt hsorted (sortOn_pairwise _ (tiesBack_total ho) (tiesBack_trans ho))
        hx' hy' hlt
      have hless : compar x y < 0 := hback.resolve_right fun htie => absurd htie.2 hlt.not_ge
      exact ⟨hless, (ho.swap x hx y hy).mp hless⟩
    · simp only [contrary, if_neg ho] at hx' hy' hsorted
      have hback := rel_of_lt hsorted (sortOn_pairwise (· ≥ ·) (fun x _ y _ => le_total y x)
        fun x _ y _ z _ hxy hyz => le_trans hyz hxy) hx' hy' hlt
      exact absurd hback hlt.not_ge
  · intro h q hq
    obtain ⟨hperm, hsorted⟩ := hq compar xs (h.ordersOn hself)
    refine ⟨hperm, List.Pairwise.imp_of_mem ?_ hsorted⟩
    intro x y hx hy hle
    exact (h.le_iff hself (hperm.mem_iff.mp hx) (hperm.mem_iff.mp hy)).mp hle

theorem Qsort.Sorts.not_sorted {q : Qsort α} (hq : q.Sorts) (h : OrdersOn compar xs) {x y : α}
    (hx : x ∈ xs) (hy : y ∈ xs) (hlt : x < y) (hwrong : compar y x < 0) :
    ¬(q.sort compar xs).Pairwise (· ≤ ·) := by
  intro hsorted
  obtain ⟨hperm, hpairs⟩ := hq compar xs h
  have hle := rel_of_lt hsorted hpairs (hperm.mem_iff.mpr hx) (hperm.mem_iff.mpr hy) hlt
  have hswap := (h.swap y hy x hx).mp hwrong
  omega

/-! Order statistics. -/

def IsOrderStatistic (xs : List α) (k : Nat) (v : α) : Prop :=
  xs.countP (· < v) < k ∧ k ≤ xs.countP (· ≤ v)

theorem IsOrderStatistic.perm {k : Nat} {v : α} (h : IsOrderStatistic ys k v) (hperm : ys.Perm xs) :
    IsOrderStatistic xs k v := by
  rw [IsOrderStatistic, ← hperm.countP_eq, ← hperm.countP_eq]
  exact h

theorem getElem_le_getElem (h : ys.Pairwise (· ≤ ·)) {i j : Nat} (hij : i ≤ j) (hj : j < ys.length) :
    ys[i] ≤ ys[j] := by
  obtain hlt | rfl := hij.lt_or_eq
  · exact List.pairwise_iff_getElem.mp h i j (by omega) hj hlt
  · exact le_rfl

theorem isOrderStatistic_getElem (h : ys.Pairwise (· ≤ ·)) {i : Nat} (hi : i < ys.length) :
    IsOrderStatistic ys (i + 1) ys[i] := by
  have hsplit : ∀ k, ∀ p : α → Bool, ys.countP p = (ys.take k).countP p + (ys.drop k).countP p := by
    intro k p
    rw [← List.countP_append, List.take_append_drop]
  constructor
  · have hnone : (ys.drop i).countP (fun x => decide (x < ys[i])) = 0 := by
      refine List.countP_eq_zero.mpr fun x hx => ?_
      obtain ⟨j, hj, rfl⟩ := List.getElem_of_mem hx
      rw [List.length_drop] at hj
      rw [List.getElem_drop, decide_eq_true_eq, not_lt]
      exact getElem_le_getElem h (Nat.le_add_right i j) (by omega)
    have hle := List.countP_le_length (p := fun x => decide (x < ys[i])) (l := ys.take i)
    rw [List.length_take] at hle
    rw [hsplit i, hnone]
    omega
  · have hall : (ys.take (i + 1)).countP (fun x => decide (x ≤ ys[i])) = (ys.take (i + 1)).length := by
      refine List.countP_eq_length.mpr fun x hx => ?_
      obtain ⟨j, hj, rfl⟩ := List.getElem_of_mem hx
      rw [List.length_take] at hj
      rw [List.getElem_take, decide_eq_true_eq]
      exact getElem_le_getElem h (by omega) hi
    rw [hsplit (i + 1), hall, List.length_take]
    omega

end Order
end UdpSm.Lib
