import UdpSm.Lib.Endian
import Mathlib.Tactic.NormNum

/-! Machine integers, buffers and byte order: conversions to `int`, the byte-swapping library
calls on a little-endian host, and `ntoh64`/`hton64` of `utils.cpp`. -/
namespace UdpSm
open Lib

/-- Conversion to a 32-bit `int` (two's complement). -/
@[irreducible]
def int32 (x : Int) : Int := (BitVec.ofInt 32 x).toInt

theorem int32_of_range {x : Int} (h1 : -2147483648 ≤ x) (h2 : x < 2147483648) : int32 x = x := by
  unfold int32
  rw [BitVec.toInt_ofInt]
  exact Int.bmod_eq_of_le (by omega) (by omega)

theorem int32_natCast {n : Nat} (h : n < 2147483648) : int32 n = n :=
  int32_of_range (by omega) (by omega)

theorem uint32_ofInt_natCast {n : Nat} (h : n < 2 ^ 32) : (UInt32.ofInt n).toNat = n := by
  rw [UInt32.ofInt, UInt32.toNat_ofNat']
  omega

theorem uint32_ofInt_int32 (x : Int) : UInt32.ofInt (int32 x) = UInt32.ofInt x := by
  unfold int32 UInt32.ofInt
  rw [BitVec.toInt_ofInt]
  exact congrArg (fun i : Int => UInt32.ofNat i.toNat) Int.bmod_emod

theorem uint64_ofInt_natCast {n : Nat} (h : n < 2 ^ 64) : (UInt64.ofInt n).toNat = n := by
  rw [UInt64.ofInt, UInt64.toNat_ofNat']
  omega

def overwrite (data : List UInt8) (buffer : Nat → UInt8) : Nat → UInt8 :=
  fun i => (data[i]?).getD (buffer i)

def htons (v : UInt16) : UInt16 := UInt16.ofNat (ofBe (leBytes 2 v.toNat))
def ntohs (v : UInt16) : UInt16 := UInt16.ofNat (ofBe (leBytes 2 v.toNat))
def htonl (v : UInt32) : UInt32 := UInt32.ofNat (ofBe (leBytes 4 v.toNat))
def ntohl (v : UInt32) : UInt32 := UInt32.ofNat (ofBe (leBytes 4 v.toNat))

def ntoh64 (v : UInt64) : UInt64 :=
  let a := ntohl ((0xffffffff : UInt64) &&& (v >>> 32)).toUInt32
  let b := ntohl ((0xffffffff : UInt64) &&& v).toUInt32
  let c := b.toUInt64
  ((c <<< 32) &&& 0xffffffff00000000) ||| (a.toUInt64 &&& 0x00000000ffffffff)

def hton64 (v : UInt64) : UInt64 :=
  let a := ntohl ((0xffffffff : UInt64) &&& (v >>> 32)).toUInt32
  let b := ntohl ((0xffffffff : UInt64) &&& v).toUInt32
  let c := b.toUInt64
  ((c <<< 32) &&& 0xffffffff00000000) ||| (a.toUInt64 &&& 0x00000000ffffffff)

theorem htons_toNat (v : UInt16) : (htons v).toNat = ofBe (leBytes 2 v.toNat) := by
  rw [htons, UInt16.toNat_ofNat', Nat.mod_eq_of_lt (by simpa using swap_lt 2 v.toNat)]

theorem ntohs_ofLe {bs : List UInt8} (h : bs.length = 2) :
    (ntohs (UInt16.ofNat (ofLe bs))).toNat = ofBe bs := by
  have hlt := ofLe_lt bs
  rw [h] at hlt
  have hbytes := leBytes_ofLe bs
  rw [h] at hbytes
  have hswap := htons_toNat (UInt16.ofNat (ofLe bs))
  rwa [UInt16.toNat_ofNat', Nat.mod_eq_of_lt (by norm_num at hlt ⊢; exact hlt), hbytes] at hswap

theorem ntohl_toNat (v : UInt32) : (ntohl v).toNat = ofBe (leBytes 4 v.toNat) := by
  rw [ntohl, UInt32.toNat_ofNat', Nat.mod_eq_of_lt (by simpa using swap_lt 4 v.toNat)]

theorem low_mask (v : UInt64) : (0xffffffff &&& v).toUInt32.toNat = v.toNat % 2 ^ 32 := by
  have h := Nat.and_two_pow_sub_one_eq_mod v.toNat 32
  rw [UInt64.toNat_toUInt32, UInt64.toNat_and, Nat.and_comm]
  change (v.toNat &&& 2 ^ 32 - 1) % 2 ^ 32 = _
  rw [h, Nat.mod_mod]

theorem join_halves (a b : UInt32) :
    (((b.toUInt64 <<< 32) &&& 0xffffffff00000000) ||| (a.toUInt64 &&& 0x00000000ffffffff)).toNat =
      b.toNat * 2 ^ 32 + a.toNat := by
  have ha := a.toNat_lt
  have hb := b.toNat_lt
  have hlow : (a.toUInt64 &&& 0x00000000ffffffff).toNat = a.toNat := by
    rw [UInt64.toNat_and, UInt32.toNat_toUInt64]
    change a.toNat &&& 2 ^ 32 - 1 = _
    rw [Nat.and_two_pow_sub_one_eq_mod, Nat.mod_eq_of_lt ha]
  have hhigh : ((b.toUInt64 <<< 32) &&& 0xffffffff00000000).toNat = b.toNat <<< 32 := by
    rw [UInt64.toNat_and, UInt64.toNat_shiftLeft, UInt32.toNat_toUInt64]
    change b.toNat <<< 32 % 2 ^ 64 &&& (2 ^ 32 - 1) <<< 32 = _
    rw [Nat.mod_eq_of_lt (by rw [Nat.shiftLeft_eq]; omega), ← Nat.shiftLeft_and_distrib,
      Nat.and_two_pow_sub_one_eq_mod, Nat.mod_eq_of_lt hb]
  rw [UInt64.toNat_or, hlow, hhigh, ← Nat.shiftLeft_add_eq_or_of_lt ha, Nat.shiftLeft_eq]

/-- Two 32-bit halves, swapped one by one and exchanged, are the whole word reversed. -/
theorem hton64_toNat (v : UInt64) : (hton64 v).toNat = ofBe (leBytes 8 v.toNat) := by
  have hv := v.toNat_lt
  have hhi : (v >>> 32).toNat % 2 ^ 32 = v.toNat / 2 ^ 32 := by
    rw [UInt64.toNat_shiftRight]
    change v.toNat >>> 32 % 2 ^ 32 = _
    rw [Nat.shiftRight_eq_div_pow]
    omega
  have hlo : leBytes 4 (v.toNat % 2 ^ 32) = leBytes 4 v.toNat := leBytes_mod 4 v.toNat
  have hparts : leBytes 8 v.toNat = leBytes 4 v.toNat ++ leBytes 4 (v.toNat / 256 ^ 4) :=
    leBytes_add 4 4 v.toNat
  rw [hton64, join_halves, ntohl_toNat, ntohl_toNat, low_mask, low_mask, hhi, hlo, hparts, ofBe_append,
    leBytes_length]
  norm_num

theorem leBytes_htons (v : UInt16) : leBytes 2 (htons v).toNat = beBytes 2 v.toNat := by
  rw [htons_toNat, leBytes_swap]

theorem leBytes_hton64 (v : UInt64) : leBytes 8 (hton64 v).toNat = beBytes 8 v.toNat := by
  rw [hton64_toNat, leBytes_swap]

end UdpSm
