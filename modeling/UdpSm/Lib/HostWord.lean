import UdpSm.Lib.Endian
import UdpSm.Lib.Memory

/-! Words of `n` bytes in a memory of bytes, as a little-endian host loads and stores them. -/
namespace UdpSm.Lib

theorem toNat_lt_pow {n : Nat} (v : BitVec (8 * n)) : v.toNat < 256 ^ n := by
  have h := v.isLt
  rwa [pow_mul] at h

namespace Memory
variable {n k p q : Nat} {m m' : Memory UInt8}

def loadWord (m : Memory UInt8) (n p : Nat) : Option (BitVec (8 * n)) :=
  (m.loadAt p n).map fun bytes => BitVec.ofNat (8 * n) (ofLe bytes)

def storeWord (m : Memory UInt8) (n p : Nat) (v : BitVec (8 * n)) : Option (Memory UInt8) :=
  m.storeAt p (leBytes n v.toNat)

theorem storeWord_inside (h : p + n ≤ m.size) (v : BitVec (8 * n)) :
    m.storeWord n p v = some (m.store p (leBytes n v.toNat)) :=
  storeAt_natCast m p _ (by rwa [leBytes_length])

theorem loadWord_inside (h : p + n ≤ m.size) : m.loadWord n p = some (BitVec.ofNat (8 * n) (ofLe (m.load p n))) := by
  rw [loadWord, loadAt_natCast m p n h]
  rfl

theorem storeWord_some {v : BitVec (8 * n)} (h : m.storeWord n p v = some m') :
    p + n ≤ m.size ∧ m' = m.store p (leBytes n v.toNat) := by
  obtain ⟨-, hin, hm⟩ := storeAt_some h
  rw [leBytes_length] at hin
  exact ⟨by omega, by rwa [Int.toNat_natCast] at hm⟩

theorem loadWord_storeWord {v : BitVec (8 * n)} (h : m.storeWord n p v = some m') :
    m'.loadWord n p = some v := by
  obtain ⟨hin, rfl⟩ := storeWord_some h
  have hload := load_store_self m p (leBytes n v.toNat)
  rw [leBytes_length] at hload
  rw [loadWord_inside (m := m.store p _) hin, hload, ofLe_leBytes, Nat.mod_eq_of_lt (toNat_lt_pow v), BitVec.ofNat_toNat,
    BitVec.setWidth_eq]

theorem loadWord_beside {v : BitVec (8 * n)} (h : m.storeWord n p v = some m')
    (hbeside : q + k ≤ p ∨ p + n ≤ q) : m'.loadWord k q = m.loadWord k q := by
  obtain ⟨hin, rfl⟩ := storeWord_some h
  have hload : (m.store p (leBytes n v.toNat)).load q k = m.load q k :=
    load_store_disjoint m q k p _ (by rwa [leBytes_length])
  unfold loadWord loadAt
  rw [store_size, Int.toNat_natCast, hload]

end Memory
end UdpSm.Lib
