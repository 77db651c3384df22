import Mathlib.Data.List.Nodup
import Mathlib.Logic.Function.Basic

/-! A pool of free items, linked through the items themselves. -/
namespace UdpSm.Lib
universe u

/-- Links, head and count of an intrusive list. -/
structure FreeList (ι : Type u) where
  next : ι → Option ι
  head : Option ι
  count : Int

namespace FreeList
variable {ι : Type u} {f : FreeList ι} {next : ι → Option ι} {p : Option ι} {l : List ι} {i : ι}

def Linked (next : ι → Option ι) : Option ι → List ι → Prop
  | p, [] => p = none
  | p, i :: l => p = some i ∧ Linked next (next i) l

/-- The list holds these items, each once, and counts them. -/
structure Lists (f : FreeList ι) (l : List ι) : Prop where
  linked : Linked f.next f.head l
  nodup : l.Nodup
  count : f.count = l.length

def push [DecidableEq ι] (f : FreeList ι) (i : ι) : FreeList ι :=
  ⟨Function.update f.next i f.head, some i, f.count + 1⟩

def pop (f : FreeList ι) : Option (ι × FreeList ι) :=
  f.head.map fun i => (i, { f with head := f.next i, count := f.count - 1 })

theorem Linked.update [DecidableEq ι] (h : Linked next p l) (hi : i ∉ l) (q : Option ι) :
    Linked (Function.update next i q) p l := by
  induction l generalizing p with
  | nil => exact h
  | cons j l ih =>
    have hj : j ≠ i := fun hj => hi (by simp [hj])
    refine ⟨h.1, ?_⟩
    rw [Function.update_of_ne hj]
    exact ih h.2 fun hl => hi (List.mem_cons_of_mem j hl)

theorem lists_nil (h : f.head = none) (hcount : f.count = 0) : f.Lists [] :=
  ⟨h, List.nodup_nil, hcount⟩

theorem Lists.push [DecidableEq ι] (h : f.Lists l) (hi : i ∉ l) : (f.push i).Lists (i :: l) := by
  refine ⟨⟨rfl, ?_⟩, List.nodup_cons.mpr ⟨hi, h.nodup⟩, ?_⟩
  · change Linked (Function.update f.next i f.head) (Function.update f.next i f.head i) l
    rw [Function.update_self]
    exact h.linked.update hi f.head
  · change f.count + 1 = ((i :: l).length : Int)
    rw [h.count, List.length_cons]
    rfl

theorem Lists.pop (h : f.Lists (i :: l)) :
    f.pop = some (i, { f with head := f.next i, count := f.count - 1 }) ∧
      ({ f with head := f.next i, count := f.count - 1 } : FreeList ι).Lists l := by
  refine ⟨?_, h.linked.2, (List.nodup_cons.mp h.nodup).2, ?_⟩
  · rw [FreeList.pop, h.linked.1]
    rfl
  · change f.count - 1 = (l.length : Int)
    rw [h.count, List.length_cons]
    omega

end FreeList
end UdpSm.Lib
