import Mathlib.Tactic.Ring
import Mathlib.Data.List.Basic

/-! Little- and big-endian byte images of natural numbers. -/
namespace UdpSm.Lib

def leBytes : Nat → Nat → List UInt8
  | 0, _ => []
  | k+1, v => UInt8.ofNat v :: leBytes k (v / 256)

def ofLe : List UInt8 → Nat
  | [] => 0
  | b :: bs => b.toNat + 256 * ofLe bs

def beBytes (k v : Nat) : List UInt8 := (leBytes k v).reverse
def ofBe (bs : List UInt8) : Nat := ofLe bs.reverse

@[simp] theorem leBytes_length (k v : Nat) : (leBytes k v).length = k := by
  induction k generalizing v with
  | zero => rfl
  | succ k ih => simp [leBytes, ih]

@[simp] theorem beBytes_length (k v : Nat) : (beBytes k v).length = k := by
  simp [beBytes]

theorem ofLe_leBytes (k v : Nat) : ofLe (leBytes k v) = v % 256 ^ k := by
  induction k generalizing v with
  | zero => simp [leBytes, ofLe, Nat.mod_one]
  | succ k ih =>
    have hb : (UInt8.ofNat v).toNat = v % 256 := by simp
    rw [leBytes, ofLe, ih, hb, pow_succ', Nat.mod_mul]

theorem ofLe_lt (bs : List UInt8) : ofLe bs < 256 ^ bs.length := by
  induction bs with
  | nil => simp [ofLe]
  | cons b bs ih =>
    have hb : b.toNat < 256 := b.toNat_lt
    simp only [ofLe, List.length_cons, pow_succ']
    omega

theorem leBytes_ofLe (bs : List UInt8) : leBytes bs.length (ofLe bs) = bs := by
  induction bs with
  | nil => rfl
  | cons b bs ih =>
    have hb : b.toNat < 256 := b.toNat_lt
    have hd : (b.toNat + 256 * ofLe bs) / 256 = ofLe bs := by omega
    have hm : UInt8.ofNat (b.toNat + 256 * ofLe bs) = b := by
      apply UInt8.toNat_inj.mp
      simp only [UInt8.toNat_ofNat']
      omega
    simp only [ofLe, List.length_cons, leBytes, hd, hm, ih]

theorem ofBe_beBytes (k v : Nat) : ofBe (beBytes k v) = v % 256 ^ k := by
  rw [ofBe, beBytes, List.reverse_reverse, ofLe_leBytes]

theorem ofBe_beBytes_of_lt {k v : Nat} (h : v < 256 ^ k) : ofBe (beBytes k v) = v := by
  rw [ofBe_beBytes, Nat.mod_eq_of_lt h]

theorem ofLe_append (as bs : List UInt8) :
    ofLe (as ++ bs) = ofLe as + 256 ^ as.length * ofLe bs := by
  induction as with
  | nil => simp [ofLe]
  | cons a as ih =>
    simp only [List.cons_append, ofLe, ih, List.length_cons, pow_succ']
    ring

theorem ofBe_append (as bs : List UInt8) :
    ofBe (as ++ bs) = ofBe as * 256 ^ bs.length + ofBe bs := by
  rw [ofBe, List.reverse_append, ofLe_append, List.length_reverse, ofBe, ofBe]
  ring

theorem ofBe_lt (bs : List UInt8) : ofBe bs < 256 ^ bs.length := by
  simpa [ofBe] using ofLe_lt bs.reverse

theorem leBytes_add (j k v : Nat) :
    leBytes (j + k) v = leBytes j v ++ leBytes k (v / 256 ^ j) := by
  induction j generalizing v with
  | zero => simp [leBytes]
  | succ j ih =>
    rw [Nat.add_right_comm j 1 k, leBytes, leBytes, ih, List.cons_append,
      Nat.div_div_eq_div_mul, pow_succ']

theorem leBytes_mod (k v : Nat) : leBytes k (v % 256 ^ k) = leBytes k v := by
  rw [← ofLe_leBytes]
  simpa using leBytes_ofLe (leBytes k v)

/-! The bytes of a number, reversed. -/

theorem swap_lt (k v : Nat) : ofBe (leBytes k v) < 256 ^ k := by
  simpa using ofBe_lt (leBytes k v)

theorem leBytes_swap (k v : Nat) : leBytes k (ofBe (leBytes k v)) = beBytes k v := by
  have h := leBytes_ofLe (leBytes k v).reverse
  rwa [List.length_reverse, leBytes_length] at h

theorem swap_swap {k v : Nat} (h : v < 256 ^ k) : ofBe (leBytes k (ofBe (leBytes k v))) = v := by
  rw [leBytes_swap, ofBe_beBytes_of_lt h]

theorem swap_succ (k v : Nat) :
    ofBe (leBytes (k+1) v) = v % 256 * 256 ^ k + ofBe (leBytes k (v / 256)) := by
  have hbyte : ofBe [UInt8.ofNat v] = v % 256 := by simp [ofBe, ofLe]
  rw [leBytes, ← List.singleton_append, ofBe_append, hbyte, leBytes_length]

end UdpSm.Lib
