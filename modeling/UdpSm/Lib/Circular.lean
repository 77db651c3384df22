import UdpSm.Lib.Memory
import Mathlib.Tactic.SplitIfs
import Mathlib.Algebra.Order.Ring.Nat

/-! Logs laid out over a circular region of `n` cells at address `base`. Positions are
absolute, so order and distance are those of the naturals and only a memory access is
reduced modulo `n`. No block straddles the end of the region: `place` skips the tail. -/
namespace UdpSm.Lib
universe u
variable {α : Type u}

/-- First position from `w` on where `d` cells fit before the end of the region. -/
def place (n w d : Nat) : Nat := if w % n + d ≤ n then w else w + (n - w % n)

def advance (n w d : Nat) : Nat := place n w d + d

def advanceAll (n w : Nat) (ds : List Nat) : Nat := ds.foldl (advance n) w

theorem le_place (n w d : Nat) : w ≤ place n w d := by
  unfold place
  split_ifs <;> omega

theorem le_advance (n w d : Nat) : w + d ≤ advance n w d :=
  Nat.add_le_add_right (le_place n w d) d

theorem skip_mod (n w : Nat) (hn : 0 < n) : (w + (n - w % n)) % n = 0 := by
  have hm := Nat.mod_lt w hn
  have he := Nat.div_add_mod w n
  have hw : w + (n - w % n) = n * (w / n + 1) := by
    rw [Nat.mul_add, Nat.mul_one]
    omega
  rw [hw, Nat.mul_mod_right]

theorem place_fits (n w d : Nat) (hn : 0 < n) (hd : d ≤ n) : place n w d % n + d ≤ n := by
  unfold place
  split_ifs with h
  · exact h
  · rw [skip_mod n w hn]
    omega

theorem place_mod (n w d : Nat) (hn : 0 < n) :
    place n w d % n = if w % n + d ≤ n then w % n else 0 := by
  unfold place
  split_ifs
  · rfl
  · exact skip_mod n w hn

/-- A block that fits moves the offset by its size, and wraps only by ending at the end. -/
theorem add_mod_fits (n w d : Nat) (hn : 0 < n) (h : w % n + d ≤ n) :
    (w + d) % n = if w % n + d = n then 0 else w % n + d := by
  rw [Nat.add_mod]
  split_ifs with he
  · by_cases hd : d = n
    · have h0 : w % n = 0 := by omega
      simp [hd, h0]
    · have hlt : d < n := by omega
      rw [Nat.mod_eq_of_lt hlt, he, Nat.mod_self]
  · have hm := Nat.mod_lt w hn
    have hlt : d < n := by omega
    rw [Nat.mod_eq_of_lt hlt, Nat.mod_eq_of_lt (by omega)]

theorem place_dvd {a n w d : Nat} (hn : a ∣ n) (hw : a ∣ w) : a ∣ place n w d := by
  unfold place
  split_ifs
  · exact hw
  · exact Nat.dvd_add hw (Nat.dvd_sub hn ((Nat.dvd_mod_iff hn).mpr hw))

@[simp] theorem advanceAll_nil (n w : Nat) : advanceAll n w [] = w := rfl

@[simp] theorem advanceAll_cons (n w d : Nat) (ds : List Nat) :
    advanceAll n w (d :: ds) = advanceAll n (advance n w d) ds := rfl

theorem advanceAll_append (n w : Nat) (ds es : List Nat) :
    advanceAll n w (ds ++ es) = advanceAll n (advanceAll n w ds) es := by
  simp [advanceAll]

theorem add_sum_le_advanceAll (n w : Nat) (ds : List Nat) : w + ds.sum ≤ advanceAll n w ds := by
  induction ds generalizing w with
  | nil => simp
  | cons d ds ih =>
    have ha := le_advance n w d
    have hi := ih (advance n w d)
    rw [List.sum_cons, advanceAll_cons]
    omega

theorem le_advanceAll (n w : Nat) (ds : List Nat) : w ≤ advanceAll n w ds :=
  Nat.le_trans (Nat.le_add_right w ds.sum) (add_sum_le_advanceAll n w ds)

theorem advance_le (n w d : Nat) : advance n w d ≤ w + 2 * d := by
  unfold advance place
  split_ifs <;> omega

theorem advanceAll_le (n w : Nat) (ds : List Nat) : advanceAll n w ds ≤ w + 2 * ds.sum := by
  induction ds generalizing w with
  | nil => simp
  | cons d ds ih =>
    have ha := advance_le n w d
    have hi := ih (advance n w d)
    rw [List.sum_cons, advanceAll_cons]
    omega

theorem advanceAll_of_fits {n w : Nat} {ds : List Nat} (hd : ∀ d ∈ ds, 0 < d)
    (h : w + ds.sum ≤ n) : advanceAll n w ds = w + ds.sum := by
  induction ds generalizing w with
  | nil => rfl
  | cons d ds ih =>
    have hpos := hd d (by simp)
    rw [List.sum_cons] at h ⊢
    have hadv : advance n w d = w + d := by
      rw [advance, place, if_pos (by rw [Nat.mod_eq_of_lt (by omega)]; omega)]
    rw [advanceAll_cons, hadv, ih (fun e he => hd e (List.mem_cons_of_mem d he)) (by omega)]
    omega

theorem advance_mul_add (n k w d : Nat) : advance n (n * k + w) d = n * k + advance n w d := by
  unfold advance place
  rw [Nat.mul_add_mod]
  split_ifs <;> omega

theorem advanceAll_mul_add (n k w : Nat) (ds : List Nat) :
    advanceAll n (n * k + w) ds = n * k + advanceAll n w ds := by
  induction ds generalizing w with
  | nil => rfl
  | cons d ds ih => rw [advanceAll_cons, advance_mul_add, ih, advanceAll_cons]

theorem advanceAll_dvd {a n w : Nat} {ds : List Nat} (hn : a ∣ n) (hw : a ∣ w)
    (hd : ∀ d ∈ ds, a ∣ d) : a ∣ advanceAll n w ds := by
  induction ds generalizing w with
  | nil => exact hw
  | cons d ds ih =>
    have ha : a ∣ advance n w d := Nat.dvd_add (place_dvd hn hw) (hd d (by simp))
    exact ih ha fun e he => hd e (List.mem_cons_of_mem d he)

/-- The image a block was written with, at an absolute position. -/
structure Chunk (α : Type u) where
  start : Nat
  body : List α

namespace Chunk

def stop (c : Chunk α) : Nat := c.start + c.body.length

def Fits (n : Nat) (c : Chunk α) : Prop := c.start % n + c.body.length ≤ n

def Stored (base n : Nat) (m : Memory α) (c : Chunk α) : Prop :=
  m.load (base + c.start % n) c.body.length = c.body

/-- Two blocks less than one revolution apart occupy disjoint offsets. -/
theorem offsets_disjoint {n s t k l : Nat} (hn : 0 < n)
    (h1 : s + k ≤ t) (h2 : t + l ≤ s + n) : s % n + k ≤ t % n ∨ t % n + l ≤ s % n := by
  have es := Nat.div_add_mod s n
  have et := Nat.div_add_mod t n
  have ms := Nat.mod_lt s hn
  have mt := Nat.mod_lt t hn
  obtain h | h | h := Nat.lt_trichotomy (t / n) (s / n + 1)
  · have hq : t / n ≤ s / n := by omega
    have := Nat.mul_le_mul_left n hq
    omega
  · rw [h, Nat.mul_add] at et
    omega
  · have hq : n * (s / n + 2) ≤ n * (t / n) := Nat.mul_le_mul_left n h
    rw [Nat.mul_add] at hq
    omega

/-- Filling a block ahead of `c` and inside the revolution that starts at `c` keeps `c`. -/
theorem Stored.store {base n : Nat} {m : Memory α} {c d : Chunk α} (hn : 0 < n)
    (h1 : c.stop ≤ d.start) (h2 : d.stop ≤ c.start + n) (h : c.Stored base n m) :
    c.Stored base n (m.store (base + d.start % n) d.body) := by
  have ho := offsets_disjoint hn h1 h2
  unfold Stored at h ⊢
  rw [Memory.load_store_disjoint m _ _ _ _ (by omega)]
  exact h

theorem stored_store_self (base n : Nat) (m : Memory α) (c : Chunk α) :
    c.Stored base n (m.store (base + c.start % n) c.body) :=
  Memory.load_store_self m _ _

def storeAll (base n : Nat) (m : Memory α) (cs : List (Chunk α)) : Memory α :=
  cs.foldl (fun m c => m.store (base + c.start % n) c.body) m

@[simp] theorem storeAll_size (base n : Nat) (m : Memory α) (cs : List (Chunk α)) :
    (storeAll base n m cs).size = m.size := by
  induction cs generalizing m with
  | nil => rfl
  | cons c cs ih => exact ih _

@[simp] theorem storeAll_cons (base n : Nat) (m : Memory α) (c : Chunk α) (cs : List (Chunk α)) :
    storeAll base n m (c :: cs) = storeAll base n (m.store (base + c.start % n) c.body) cs := rfl

theorem Stored.storeAll {base n : Nat} {m : Memory α} {c : Chunk α} {cs : List (Chunk α)}
    (hn : 0 < n) (hcs : ∀ d ∈ cs, c.stop ≤ d.start ∧ d.stop ≤ c.start + n)
    (h : c.Stored base n m) : c.Stored base n (storeAll base n m cs) := by
  induction cs generalizing m with
  | nil => exact h
  | cons d cs ih =>
    obtain ⟨h1, h2⟩ := hcs d (by simp)
    exact ih (fun e he => hcs e (List.mem_cons_of_mem d he)) (h.store hn h1 h2)

theorem stored_storeAll {base n : Nat} {m : Memory α} {cs : List (Chunk α)} (hn : 0 < n)
    (hcs : cs.Pairwise fun c d => c.stop ≤ d.start ∧ d.stop ≤ c.start + n) :
    ∀ c ∈ cs, c.Stored base n (storeAll base n m cs) := by
  induction cs generalizing m with
  | nil => simp
  | cons d cs ih =>
    obtain ⟨hd, hcs⟩ := List.pairwise_cons.mp hcs
    intro c hc
    obtain rfl | hc := List.mem_cons.mp hc
    · rw [storeAll_cons]
      exact (stored_store_self base n m c).storeAll hn hd
    · exact ih hcs c hc

def Agree (base n : Nat) (m m' : Memory α) : Prop :=
  ∀ i, i < n → m'.cell (base + i) = m.cell (base + i)

theorem Stored.agree {base n : Nat} {m m' : Memory α} {c : Chunk α} (hc : c.Fits n)
    (ha : Agree base n m m') (h : c.Stored base n m) : c.Stored base n m' := by
  unfold Fits at hc
  unfold Stored at h ⊢
  rw [← h, Memory.load_length]
  apply Memory.load_congr
  intro j h1 h2
  have hcell := ha (j - base) (by omega)
  have hback : base + (j - base) = j := by omega
  rwa [hback] at hcell

theorem agree_store_below (base n : Nat) (m : Memory α) (a : Nat) (xs : List α)
    (h : a + xs.length ≤ base) : Agree base n m (m.store a xs) := fun i _ =>
  Memory.cell_store_outside m a xs (base + i) (by omega)

end Chunk
end UdpSm.Lib
