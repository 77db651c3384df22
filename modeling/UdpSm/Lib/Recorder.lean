import Mathlib.Data.List.Perm.Basic

/-! A recorder with room for a number of values. It may put them in another order. -/
namespace UdpSm.Lib
universe u
variable {α : Type u}

inductive Entry (α : Type u) where
  | value (a : α)
  | empty
  | shuffle

def Entry.after (vs : List α) : Entry α → List α
  | .value a => vs ++ [a]
  | .empty => []
  | .shuffle => vs

def sinceEmpty (es : List (Entry α)) : List α := es.foldl Entry.after []

theorem sinceEmpty_append (es fs : List (Entry α)) :
    sinceEmpty (es ++ fs) = fs.foldl Entry.after (sinceEmpty es) := List.foldl_append

/-- The contents of a recorder with room for `n` values, before and after an entry. -/
inductive Records (n : Nat) (vs : List α) : Entry α → List α → Prop where
  | room {a : α} (h : vs.length < n) : Records n vs (.value a) (vs ++ [a])
  | full {a : α} (h : n ≤ vs.length) : Records n vs (.value a) vs
  | empty : Records n vs .empty []
  | shuffle {ws : List α} (h : ws.Perm vs) : Records n vs .shuffle ws

variable {n : Nat} {vs ws us : List α} {e : Entry α}

/-- It holds the first `n` of the values, and keeps to that. -/
theorem Records.perm_take (hstep : Records n vs e ws) (h : vs.Perm (us.take n)) :
    ws.Perm ((e.after us).take n) := by
  have hlength := h.length_eq
  rw [List.length_take] at hlength
  cases hstep with
  | @room a hroom =>
    have hall : us.take n = us := List.take_of_length_le (by omega)
    have hmore : (us ++ [a]).take n = us ++ [a] := List.take_of_length_le (by simp; omega)
    rw [hall] at h
    rw [Entry.after, hmore]
    exact h.append_right [a]
  | @full a hfull =>
    rw [Entry.after, List.take_append_of_le_length (by omega)]
    exact h
  | empty => exact (List.take_nil).symm ▸ List.Perm.refl []
  | shuffle hperm => exact hperm.trans h

end UdpSm.Lib
