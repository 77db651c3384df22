import Mathlib.Data.List.Basic

/-! Cell memories of a fixed size. A transfer through `loadAt` or `storeAt` is
checked against the size, so a run that returns a value has stayed inside. -/
namespace UdpSm.Lib
universe u
variable {α : Type u}

structure Memory (α : Type u) where
  size : Nat
  cell : Nat → α

namespace Memory

def load (m : Memory α) (a n : Nat) : List α :=
  (List.range n).map fun i => m.cell (a + i)

def store (m : Memory α) (a : Nat) (xs : List α) : Memory α :=
  { m with cell := fun j => if a ≤ j then (xs[j - a]?).getD (m.cell j) else m.cell j }

def loadAt (m : Memory α) (i : Int) (n : Nat) : Option (List α) :=
  if 0 ≤ i ∧ i + n ≤ m.size then some (m.load i.toNat n) else none

def storeAt (m : Memory α) (i : Int) (xs : List α) : Option (Memory α) :=
  if 0 ≤ i ∧ i + xs.length ≤ m.size then some (m.store i.toNat xs) else none

@[simp] theorem load_length (m : Memory α) (a n : Nat) : (m.load a n).length = n := by
  simp [load]

@[simp] theorem store_size (m : Memory α) (a : Nat) (xs : List α) :
    (m.store a xs).size = m.size := rfl

theorem load_getElem (m : Memory α) (a n i : Nat) (h : i < (m.load a n).length) :
    (m.load a n)[i] = m.cell (a + i) := by
  simp [load]

theorem load_eq_iff (m : Memory α) (a : Nat) (xs : List α) :
    m.load a xs.length = xs ↔ ∀ i, (h : i < xs.length) → m.cell (a + i) = xs[i] := by
  constructor
  · intro h i hi
    have hg := load_getElem m a xs.length i (by simpa using hi)
    simpa [h] using hg.symm
  · intro h
    apply List.ext_getElem (by simp)
    intro i h1 h2
    rw [load_getElem, h i h2]

theorem load_congr {m m' : Memory α} {a n : Nat}
    (h : ∀ j, a ≤ j → j < a + n → m'.cell j = m.cell j) : m'.load a n = m.load a n := by
  apply List.map_congr_left
  intro i hi
  have hin : i < n := List.mem_range.mp hi
  exact h _ (by omega) (by omega)

theorem load_add (m : Memory α) (a n k : Nat) :
    m.load a (n + k) = m.load a n ++ m.load (a + n) k := by
  simp only [load, List.range_add, List.map_append, List.map_map]
  congr 1
  apply List.map_congr_left
  intro i _
  simp [Nat.add_assoc]

theorem load_append_eq {m : Memory α} {a : Nat} {xs ys : List α}
    (h : m.load a (xs ++ ys).length = xs ++ ys) :
    m.load a xs.length = xs ∧ m.load (a + xs.length) ys.length = ys := by
  rw [List.length_append, load_add] at h
  exact List.append_inj h (load_length m a xs.length)

theorem cell_store_inside (m : Memory α) (a : Nat) (xs : List α) (i : Nat)
    (h : i < xs.length) : (m.store a xs).cell (a + i) = xs[i] := by
  simp [store, h]

theorem cell_store_outside (m : Memory α) (a : Nat) (xs : List α) (j : Nat)
    (h : j < a ∨ a + xs.length ≤ j) : (m.store a xs).cell j = m.cell j := by
  simp only [store]
  split_ifs with ha
  · rw [List.getElem?_eq_none (by omega), Option.getD_none]
  · rfl

theorem load_store_self (m : Memory α) (a : Nat) (xs : List α) :
    (m.store a xs).load a xs.length = xs := by
  rw [load_eq_iff]
  intro i hi
  exact cell_store_inside m a xs i hi

theorem load_store_disjoint (m : Memory α) (a n b : Nat) (xs : List α)
    (h : a + n ≤ b ∨ b + xs.length ≤ a) : (m.store b xs).load a n = m.load a n := by
  apply load_congr
  intro j h1 h2
  exact cell_store_outside m b xs j (by omega)

theorem store_append (m : Memory α) (a : Nat) (xs ys : List α) :
    (m.store a xs).store (a + xs.length) ys = m.store a (xs ++ ys) := by
  have hc : ((m.store a xs).store (a + xs.length) ys).cell = (m.store a (xs ++ ys)).cell := by
    funext j
    simp only [store]
    by_cases h1 : a + xs.length ≤ j
    · have hx : xs[j - a]? = none := List.getElem?_eq_none (by omega)
      rw [if_pos h1, if_pos (by omega), if_pos (by omega), List.getElem?_append_right (by omega),
        hx, Option.getD_none, Nat.sub_add_eq]
    · by_cases h2 : a ≤ j
      · rw [if_neg h1, if_pos h2, if_pos h2, List.getElem?_append_left (by omega)]
      · rw [if_neg h1, if_neg h2, if_neg h2]
  simpa [store] using hc

theorem store_nil (m : Memory α) (a : Nat) : m.store a [] = m := by
  simp [store]

theorem loadAt_natCast (m : Memory α) (a n : Nat) (h : a + n ≤ m.size) :
    m.loadAt (a : Int) n = some (m.load a n) := by
  rw [loadAt, if_pos (by omega), Int.toNat_natCast]

theorem storeAt_natCast (m : Memory α) (a : Nat) (xs : List α) (h : a + xs.length ≤ m.size) :
    m.storeAt (a : Int) xs = some (m.store a xs) := by
  rw [storeAt, if_pos (by omega), Int.toNat_natCast]

theorem storeAt_eq (m : Memory α) (i : Nat) (xs : List α) :
    m.storeAt (i : Int) xs = if i + xs.length ≤ m.size then some (m.store i xs) else none := by
  by_cases h : i + xs.length ≤ m.size
  · rw [if_pos h, storeAt_natCast m i xs h]
  · rw [if_neg h, storeAt, if_neg (by omega)]

theorem storeAt_some {m m' : Memory α} {i : Int} {xs : List α} (h : m.storeAt i xs = some m') :
    0 ≤ i ∧ i + xs.length ≤ m.size ∧ m' = m.store i.toNat xs := by
  rw [storeAt] at h
  split_ifs at h with hin
  exact ⟨hin.1, hin.2, (Option.some.inj h).symm⟩

/-- One store of a program: `bytes` from `address` on. -/
structure Store (α : Type u) where
  address : Nat
  bytes : List α

def apply (m : Memory α) (s : Store α) : Memory α := m.store s.address s.bytes

def applyAll (m : Memory α) (ss : List (Store α)) : Memory α := ss.foldl apply m

@[simp] theorem applyAll_nil (m : Memory α) : m.applyAll [] = m := rfl

@[simp] theorem applyAll_cons (m : Memory α) (s : Store α) (ss : List (Store α)) :
    m.applyAll (s :: ss) = (m.apply s).applyAll ss := rfl

theorem applyAll_append (m : Memory α) (ss ts : List (Store α)) :
    m.applyAll (ss ++ ts) = (m.applyAll ss).applyAll ts := by
  simp [applyAll]

def sequential (a : Nat) : List (List α) → List (Store α)
  | [] => []
  | xs :: parts => ⟨a, xs⟩ :: sequential (a + xs.length) parts

theorem applyAll_sequential (m : Memory α) (a : Nat) (parts : List (List α)) :
    m.applyAll (sequential a parts) = m.store a parts.flatten := by
  induction parts generalizing m a with
  | nil => rw [sequential, applyAll_nil, List.flatten_nil, store_nil]
  | cons xs parts ih =>
    rw [sequential, applyAll_cons, ih, apply, store_append, List.flatten_cons]

end Memory
end UdpSm.Lib
