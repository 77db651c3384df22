import UdpSm.InserterImplementation
import UdpSm.Lib.HostWord
import UdpSm.Lib.Transition

/-! The fields of the control block, through the templates over an integral type and through
`hton64` and `htonl` with the atomics. -/
namespace UdpSm.InserterByteOrder
open Lib Memory
open InserterImplementation hiding reverseBytesLoop reverseBytes hostToNetwork writeMemory

/-- What the templates are instantiated with. -/
structure IntegralType where
  sizeof : Nat
  signed : Bool

namespace IntegralType

abbrev Value (T : IntegralType) : Type := BitVec (8 * T.sizeof)

abbrev uint64 : IntegralType := ⟨8, false⟩
abbrev uint32 : IntegralType := ⟨4, false⟩
abbrev int32 : IntegralType := ⟨4, true⟩

/-- `value >>= 8`, which keeps the sign of a signed type. -/
def shiftByte (T : IntegralType) (value : T.Value) : T.Value :=
  if T.signed then value.sshiftRight 8 else value >>> 8

end IntegralType

def reverseBytesLoop (T : IntegralType) : Nat → T.Value → T.Value → T.Value
  | 0, _, result => result
  | n+1, value, result =>
    reverseBytesLoop T n (T.shiftByte value) (result ||| (value &&& 0xff) <<< (n * 8))

def reverseBytes (T : IntegralType) (value : T.Value) : T.Value := reverseBytesLoop T T.sizeof value 0

def hostToNetwork (T : IntegralType) (value : T.Value) : T.Value := reverseBytes T value
def networkToHost (T : IntegralType) (value : T.Value) : T.Value := reverseBytes T value

/-- `SharedMemoryBufferPtr` is `none` for a null pointer. -/
def readMemory (T : IntegralType) (sharedMemoryBufferPtr : Option (Memory UInt8))
    (numberOfOffsetBytes : Nat) : Option T.Value :=
  match sharedMemoryBufferPtr with
  | some m => (m.loadWord T.sizeof numberOfOffsetBytes).map (networkToHost T)
  | none => some 0

def writeMemory (T : IntegralType) (sharedMemoryBufferPtr : Option (Memory UInt8))
    (numberOfOffsetBytes : Nat) (value : T.Value) : Option (Option (Memory UInt8)) :=
  match sharedMemoryBufferPtr with
  | some m => (m.storeWord T.sizeof numberOfOffsetBytes (hostToNetwork T value)).map some
  | none => some none

/-! The loop puts the bytes in the other order, whatever is shifted in at the top. -/

section Reverse
variable {T : IntegralType} {n w : Nat}

theorem shiftByte_mod (value : T.Value) (h : n + 1 ≤ T.sizeof) :
    (T.shiftByte value).toNat % 256 ^ n = value.toNat / 256 % 256 ^ n := by
  have hpow : (256 : Nat) ^ n = 2 ^ (8 * n) := (pow_mul 2 8 n).symm
  have hlow : (T.shiftByte value).setWidth (8 * n) = (value >>> 8).setWidth (8 * n) := by
    unfold IntegralType.shiftByte
    split_ifs
    · apply BitVec.eq_of_getLsbD_eq
      intro i hi
      have hin : 8 + i < 8 * T.sizeof := by omega
      have hout : ¬8 * T.sizeof ≤ i := by omega
      simp [BitVec.getLsbD_sshiftRight, hin, hout]
    · rfl
  have hnat := congrArg BitVec.toNat hlow
  rwa [BitVec.toNat_setWidth, BitVec.toNat_setWidth, BitVec.toNat_ushiftRight,
    Nat.shiftRight_eq_div_pow, ← hpow] at hnat

theorem place_toNat (value : T.Value) (h : n + 1 ≤ T.sizeof) :
    ((value &&& 0xff) <<< (n * 8)).toNat = (value.toNat &&& 0xff) <<< (n * 8) := by
  have hpow : 2 ^ (8 * T.sizeof) = 256 ^ T.sizeof := pow_mul 2 8 T.sizeof
  have hfits : (256 : Nat) ^ (n+1) ≤ 256 ^ T.sizeof := Nat.pow_le_pow_right (by omega) h
  have hone : (256 : Nat) ≤ 256 ^ T.sizeof := by
    simpa using Nat.pow_le_pow_right (n := 256) (by omega) (show 1 ≤ T.sizeof by omega)
  have hmask : ((0xff : T.Value)).toNat = 255 := by
    change (BitVec.ofNat _ 255).toNat = 255
    rw [BitVec.toNat_ofNat, hpow, Nat.mod_eq_of_lt (by omega)]
  have hbyte : value.toNat &&& 0xff < 256 := Nat.and_lt_two_pow (n := 8) _ (by omega)
  have hlt : (value.toNat &&& 0xff) <<< (n * 8) < 256 ^ T.sizeof := by
    rw [Nat.shiftLeft_eq, Nat.mul_comm n 8, pow_mul]
    rw [pow_succ'] at hfits
    exact (Nat.mul_lt_mul_of_pos_right hbyte (by positivity)).trans_le hfits
  rw [BitVec.toNat_shiftLeft, BitVec.toNat_and, hmask, hpow, Nat.mod_eq_of_lt hlt]

/-- The loop on a word is the loop on numbers: only the bytes still to come matter. -/
theorem reverseBytesLoop_toNat (value result : T.Value) (h : n ≤ T.sizeof)
    (hw : w % 256 ^ n = value.toNat % 256 ^ n) :
    (reverseBytesLoop T n value result).toNat =
      InserterImplementation.reverseBytesLoop n w result.toNat := by
  induction n generalizing value result w with
  | zero => rfl
  | succ n ih =>
    rw [pow_succ', Nat.mod_mul, Nat.mod_mul] at hw
    have hlow : value.toNat &&& 0xff = w &&& 0xff := by
      change value.toNat &&& 2 ^ 8 - 1 = w &&& 2 ^ 8 - 1
      rw [Nat.and_two_pow_sub_one_eq_mod, Nat.and_two_pow_sub_one_eq_mod]
      omega
    have hrest : (w >>> 8) % 256 ^ n = (T.shiftByte value).toNat % 256 ^ n := by
      have hshift : w >>> 8 = w / 256 := Nat.shiftRight_eq_div_pow w 8
      rw [shiftByte_mod value h, hshift]
      omega
    rw [reverseBytesLoop, ih _ _ (by omega) hrest, BitVec.toNat_or, place_toNat value h, hlow,
      InserterImplementation.reverseBytesLoop]

theorem numberLoop_eq {result : Nat} (h : 256 ^ n ∣ result) :
    InserterImplementation.reverseBytesLoop n w result = result + ofBe (leBytes n w) := by
  induction n generalizing w result with
  | zero => rfl
  | succ n ih =>
    obtain ⟨c, rfl⟩ := h
    have hbyte : w &&& 0xff = w % 256 := Nat.and_two_pow_sub_one_eq_mod w 8
    have hplace : (256 : Nat) ^ (n+1) * c ||| (w % 256) <<< (n * 8) =
        256 ^ (n+1) * c + w % 256 * 256 ^ n := by
      have hpow : (256 : Nat) ^ (n+1) = 2 ^ (8 * (n+1)) := (pow_mul 2 8 (n+1)).symm
      have hpow' : (256 : Nat) ^ n = 2 ^ (n * 8) := by
        rw [Nat.mul_comm]
        exact (pow_mul 2 8 n).symm
      have hlt : (w % 256) <<< (n * 8) < 2 ^ (8 * (n+1)) := by
        rw [Nat.shiftLeft_eq, ← hpow, pow_succ', ← hpow']
        exact Nat.mul_lt_mul_of_pos_right (Nat.mod_lt _ (by omega)) (by positivity)
      rw [hpow, Nat.mul_comm, ← Nat.shiftLeft_eq c, ← Nat.shiftLeft_add_eq_or_of_lt hlt,
        Nat.shiftLeft_eq (w % 256), hpow']
    have hdvd : 256 ^ n ∣ 256 ^ (n+1) * c + w % 256 * 256 ^ n :=
      Nat.dvd_add (Dvd.dvd.mul_right (pow_dvd_pow 256 (by omega)) c) (Nat.dvd_mul_left _ _)
    rw [InserterImplementation.reverseBytesLoop, hbyte, hplace, ih hdvd, swap_succ,
      Nat.shiftRight_eq_div_pow, Nat.add_assoc]

/-- `ReverseBytes` is the full byte reversal, for signed types too. -/
theorem reverseBytes_toNat (value : T.Value) :
    (reverseBytes T value).toNat = ofBe (leBytes T.sizeof value.toNat) := by
  have hloop := reverseBytesLoop_toNat (w := value.toNat) value 0 le_rfl rfl
  have hzero : (0 : T.Value).toNat = 0 := BitVec.toNat_zero
  rw [hzero, numberLoop_eq (Nat.dvd_zero _), Nat.zero_add] at hloop
  exact hloop

theorem reverseBytes_reverseBytes (value : T.Value) :
    reverseBytes T (reverseBytes T value) = value := by
  apply BitVec.eq_of_toNat_eq
  rw [reverseBytes_toNat, reverseBytes_toNat, swap_swap (toNat_lt_pow value)]

end Reverse

/-! The templates and the functions of `utils.cpp`. -/

def reverseBytesUint64 (v : UInt64) : UInt64 := ⟨reverseBytes .uint64 v.toBitVec⟩
def reverseBytesUint32 (v : UInt32) : UInt32 := ⟨reverseBytes .uint32 v.toBitVec⟩
def reverseBytesInt32 (v : Int32) : Int32 := ⟨⟨reverseBytes .int32 v.toBitVec⟩⟩

theorem hton64_toBitVec (v : UInt64) : (hton64 v).toBitVec = reverseBytes .uint64 v.toBitVec := by
  apply BitVec.eq_of_toNat_eq
  rw [reverseBytes_toNat]
  exact hton64_toNat v

theorem htonl_toBitVec (v : UInt32) (signed : Bool) :
    (htonl v).toBitVec = reverseBytes ⟨4, signed⟩ v.toBitVec := by
  apply BitVec.eq_of_toNat_eq
  rw [reverseBytes_toNat]
  exact ntohl_toNat v

theorem reverseBytesUint64_eq (v : UInt64) : reverseBytesUint64 v = hton64 v := by
  apply UInt64.toBitVec_inj.mp
  exact (hton64_toBitVec v).symm

theorem hton64_hton64 (v : UInt64) : hton64 (hton64 v) = v := by
  apply UInt64.toBitVec_inj.mp
  rw [hton64_toBitVec, hton64_toBitVec, reverseBytes_reverseBytes]

theorem htonl_htonl (v : UInt32) : htonl (htonl v) = v := by
  apply UInt32.toBitVec_inj.mp
  rw [htonl_toBitVec _ false, htonl_toBitVec _ false, reverseBytes_reverseBytes]

/-! The fields. -/

/-- A field of `sizeof` bytes, with the signedness of the type it is written as; all are read as
unsigned. -/
structure Field (sizeof : Nat) where
  position : Nat
  signed : Bool
  inside : position + sizeof ≤ sharedMemoryDataPosition

section Field
variable {n : Nat}

def Field.write (f : Field n) (sharedMemoryBufferPtr : Option (Memory UInt8)) (v : BitVec (8 * n)) :
    Option (Option (Memory UInt8)) :=
  writeMemory ⟨n, f.signed⟩ sharedMemoryBufferPtr f.position v

def Field.read (f : Field n) (sharedMemoryBufferPtr : Option (Memory UInt8)) :
    Option (BitVec (8 * n)) :=
  readMemory ⟨n, false⟩ sharedMemoryBufferPtr f.position

def fileVersion : Field 4 := ⟨fileVersionPosition, true, by decide⟩
def layoutFlags : Field 4 := ⟨layoutFlagsPosition, true, by decide⟩
def pageSize : Field 4 := ⟨pageSizePosition, false, by decide⟩
def lineSize : Field 4 := ⟨lineSizePosition, false, by decide⟩
def dataSize : Field 4 := ⟨dataSizePosition, false, by decide⟩
def dataOffset : Field 8 := ⟨dataOffsetPosition, false, by decide⟩
def writerHeartbeatTime : Field 8 := ⟨writerHeartbeatTimePosition, false, by decide⟩
def writerSessionId : Field 8 := ⟨writerSessionIdPosition, false, by decide⟩
def writerMaxSequence : Field 8 := ⟨writerMaxSequencePosition, false, by decide⟩
def writerFlags : Field 4 := ⟨writerFlagsPosition, false, by decide⟩
def commitSequence : Field 8 := ⟨commitSequencePosition, false, by decide⟩
def reserveSequence : Field 8 := ⟨reserveSequencePosition, false, by decide⟩

def writeWriterSessionId (sharedMemoryBufferPtr : Option (Memory UInt8)) (v : UInt64) :
    Option (Option (Memory UInt8)) :=
  writerSessionId.write sharedMemoryBufferPtr (ntoh64 v).toBitVec

def readWriterSessionId (sharedMemoryBufferPtr : Option (Memory UInt8)) : Option UInt64 :=
  (writerSessionId.read sharedMemoryBufferPtr).map fun v => hton64 ⟨v⟩

/-! The atomics, which lie on the fields. -/

def storeUint64 (m : Memory UInt8) (f : Field 8) (v : UInt64) : Option (Memory UInt8) :=
  m.storeWord 8 f.position v.toBitVec

def loadUint64 (m : Memory UInt8) (f : Field 8) : Option UInt64 :=
  (m.loadWord 8 f.position).map fun v => ⟨v⟩

def storeUint32 (m : Memory UInt8) (f : Field 4) (v : UInt32) : Option (Memory UInt8) :=
  m.storeWord 4 f.position v.toBitVec

def loadUint32 (m : Memory UInt8) (f : Field 4) : Option UInt32 :=
  (m.loadWord 4 f.position).map fun v => ⟨v⟩

structure Mapped where
  memory : Memory UInt8
  inside : sharedMemoryDataPosition ≤ memory.size

instance : Inhabited Mapped := ⟨⟨⟨sharedMemoryAllocationSize, fun _ => 0⟩, by decide⟩⟩

theorem Mapped.storeWord (b : Mapped) (f : Field n) (v : BitVec (8 * n)) :
    ∃ m, b.memory.storeWord n f.position v = some m :=
  ⟨_, storeWord_inside (f.inside.trans b.inside) v⟩

theorem Field.write_eq (f : Field n) (m : Memory UInt8) (v : BitVec (8 * n)) :
    f.write (some m) v =
      (m.storeWord n f.position (reverseBytes ⟨n, f.signed⟩ v)).map some := rfl

theorem reverseBytes_signed (v : BitVec (8 * n)) (s t : Bool) :
    reverseBytes ⟨n, s⟩ v = reverseBytes ⟨n, t⟩ v := by
  apply BitVec.eq_of_toNat_eq
  rw [reverseBytes_toNat, reverseBytes_toNat]

theorem readMemory_storeWord {p : Nat} {m m' : Memory UInt8} {v : BitVec (8 * n)} (signed : Bool)
    (h : m.storeWord n p (reverseBytes ⟨n, signed⟩ v) = some m') :
    readMemory ⟨n, false⟩ (some m') p = some v := by
  change (m'.loadWord n p).map (reverseBytes ⟨n, false⟩) = some v
  rw [loadWord_storeWord h, Option.map_some, reverseBytes_signed v signed false]
  exact congrArg some (reverseBytes_reverseBytes (T := ⟨n, false⟩) v)

end Field

section Paths
variable (b : Mapped)

theorem storeUint64_read (f : Field 8) (v : UInt64) :
    ∃ m, storeUint64 b.memory f (hton64 v) = some m ∧ f.read (some m) = some v.toBitVec := by
  obtain ⟨m, hm⟩ := b.storeWord f (hton64 v).toBitVec
  have hswapped : b.memory.storeWord 8 f.position (reverseBytes .uint64 v.toBitVec) = some m := by
    rwa [← hton64_toBitVec]
  exact ⟨m, hm, readMemory_storeWord false hswapped⟩

theorem storeUint32_read (f : Field 4) (v : UInt32) :
    ∃ m, storeUint32 b.memory f (htonl v) = some m ∧ f.read (some m) = some v.toBitVec := by
  obtain ⟨m, hm⟩ := b.storeWord f (htonl v).toBitVec
  have hswapped : b.memory.storeWord 4 f.position (reverseBytes .uint32 v.toBitVec) = some m := by
    rwa [← htonl_toBitVec]
  exact ⟨m, hm, readMemory_storeWord false hswapped⟩

theorem write_loadUint64 (f : Field 8) (v : UInt64) :
    ∃ m, f.write (some b.memory) v.toBitVec = some (some m) ∧
      (loadUint64 m f).map ntoh64 = some v := by
  obtain ⟨m, hm⟩ := b.storeWord f (hton64 v).toBitVec
  have hload := loadWord_storeWord hm
  rw [hton64_toBitVec, reverseBytes_signed _ false f.signed] at hm
  refine ⟨m, by rw [f.write_eq, hm, Option.map_some], ?_⟩
  rw [loadUint64, hload]
  exact congrArg some (hton64_hton64 v)

theorem write_loadUint32 (f : Field 4) (v : UInt32) :
    ∃ m, f.write (some b.memory) v.toBitVec = some (some m) ∧
      (loadUint32 m f).map ntohl = some v := by
  obtain ⟨m, hm⟩ := b.storeWord f (htonl v).toBitVec
  have hload := loadWord_storeWord hm
  rw [htonl_toBitVec v f.signed] at hm
  refine ⟨m, by rw [f.write_eq, hm, Option.map_some], ?_⟩
  rw [loadUint32, hload]
  exact congrArg some (htonl_htonl v)

/-- The two conversions of the session id cancel, so that the field holds it in host order, as the
atomic stores it. -/
theorem writerSessionId_paths (v : UInt64) :
    ∃ m, writeWriterSessionId (some b.memory) v = some (some m) ∧
      storeUint64 b.memory writerSessionId v = some m ∧
      readWriterSessionId (some m) = some v ∧ loadUint64 m writerSessionId = some v := by
  obtain ⟨m, hm⟩ := b.storeWord writerSessionId v.toBitVec
  have hload := loadWord_storeWord hm
  have htwice : reverseBytes .uint64 (ntoh64 v).toBitVec = v.toBitVec := by
    rw [← hton64_toBitVec]
    exact congrArg UInt64.toBitVec (hton64_hton64 v)
  refine ⟨m, ?_, hm, ?_, ?_⟩
  · change (b.memory.storeWord 8 writerSessionId.position (reverseBytes .uint64 (ntoh64 v).toBitVec)).map
      some = some (some m)
    rw [htwice, hm, Option.map_some]
  · have hread : writerSessionId.read (some m) = some (hton64 v).toBitVec := by
      change (m.loadWord 8 writerSessionId.position).map (reverseBytes .uint64) = _
      rw [hload, Option.map_some, hton64_toBitVec]
    rw [readWriterSessionId, hread]
    exact congrArg some (hton64_hton64 v)
  · rw [loadUint64, hload]
    rfl

/-- The byte-order paths agree, on every value and every field of the control block. -/
theorem byte_orders_agree :
    (∀ v : UInt64, ntoh64 v = hton64 v ∧ reverseBytesUint64 v = hton64 v ∧
      leBytes 8 (hton64 v).toNat = (leBytes 8 v.toNat).reverse ∧ hton64 (hton64 v) = v ∧
      ntoh64 (ntoh64 v) = v ∧ reverseBytesUint64 (reverseBytesUint64 v) = v) ∧
    (∀ v : UInt32, reverseBytesUint32 v = htonl v) ∧
    (∀ v : Int32, (reverseBytesInt32 v).toUInt32 = htonl v.toUInt32) ∧
    (∀ (f : Field 8) (v : UInt64),
      (∃ m, storeUint64 b.memory f (hton64 v) = some m ∧ f.read (some m) = some v.toBitVec) ∧
      ∃ m, f.write (some b.memory) v.toBitVec = some (some m) ∧
        (loadUint64 m f).map ntoh64 = some v) ∧
    (∀ (f : Field 4) (v : UInt32),
      (∃ m, storeUint32 b.memory f (htonl v) = some m ∧ f.read (some m) = some v.toBitVec) ∧
      ∃ m, f.write (some b.memory) v.toBitVec = some (some m) ∧
        (loadUint32 m f).map ntohl = some v) ∧
    ∀ v : UInt64, ∃ m, writeWriterSessionId (some b.memory) v = some (some m) ∧
      storeUint64 b.memory writerSessionId v = some m ∧
      readWriterSessionId (some m) = some v ∧ loadUint64 m writerSessionId = some v := by
  refine ⟨fun v => ⟨rfl, reverseBytesUint64_eq v, leBytes_hton64 v, hton64_hton64 v, hton64_hton64 v, ?_⟩,
    fun v => ?_, fun v => ?_, fun f v => ⟨storeUint64_read b f v, write_loadUint64 b f v⟩,
    fun f v => ⟨storeUint32_read b f v, write_loadUint32 b f v⟩, writerSessionId_paths b⟩
  · rw [reverseBytesUint64_eq, reverseBytesUint64_eq, hton64_hton64]
  · apply UInt32.toBitVec_inj.mp
    exact (htonl_toBitVec v false).symm
  · apply UInt32.toBitVec_inj.mp
    exact (htonl_toBitVec v.toUInt32 true).symm

end Paths

/-! Stores to the other fields. -/

inductive FieldStore where
  | uint64 (f : Field 8) (v : UInt64)
  | uint32 (f : Field 4) (v : UInt32)
  | template (n : Nat) (f : Field n) (v : BitVec (8 * n))

def FieldStore.perform (m : Memory UInt8) : FieldStore → Option (Memory UInt8)
  | .uint64 f v => storeUint64 m f (hton64 v)
  | .uint32 f v => storeUint32 m f (htonl v)
  | .template _ f v => (f.write (some m) v).join

def FieldStore.store : FieldStore → Store UInt8
  | .uint64 f v => ⟨f.position, leBytes 8 (hton64 v).toNat⟩
  | .uint32 f v => ⟨f.position, leBytes 4 (htonl v).toNat⟩
  | .template n f v => InserterImplementation.writeMemory n f.position v.toNat

def FieldStore.size : FieldStore → Nat
  | .uint64 _ _ => 8
  | .uint32 _ _ => 4
  | .template n _ _ => n

def FieldStore.position : FieldStore → Nat
  | .uint64 f _ => f.position
  | .uint32 f _ => f.position
  | .template _ f _ => f.position

def FieldStore.value : (s : FieldStore) → BitVec (8 * s.size)
  | .uint64 _ v => v.toBitVec
  | .uint32 _ v => v.toBitVec
  | .template _ _ v => v

def FieldStore.extent (s : FieldStore) : Nat × Nat := (s.position, s.size)

def Beside (x y : Nat × Nat) : Prop := x.1 + x.2 ≤ y.1 ∨ y.1 + y.2 ≤ x.1

instance : DecidableRel Beside := fun _ _ => inferInstanceAs (Decidable (_ ∨ _))

def FieldStore.ReadBack (m : Memory UInt8) (s : FieldStore) : Prop :=
  readMemory ⟨s.size, false⟩ (some m) s.position = some s.value

def FieldStore.Last (s : FieldStore) (ss : List FieldStore) : Prop :=
  ∃ before after, ss = before ++ s :: after ∧ ∀ t ∈ after, Beside s.extent t.extent

section Run
variable {m m' : Memory UInt8}

theorem FieldStore.perform_word (s : FieldStore) :
    s.perform m = m.storeWord s.size s.position (reverseBytes ⟨s.size, false⟩ s.value) := by
  cases s with
  | uint64 f v => exact congrArg (m.storeWord 8 f.position) (hton64_toBitVec v)
  | uint32 f v => exact congrArg (m.storeWord 4 f.position) (htonl_toBitVec v false)
  | template n f v =>
    have hjoin : ∀ x : Option (Memory UInt8), (x.map some).join = x := by
      rintro (_ | _) <;> rfl
    rw [perform, f.write_eq, reverseBytes_signed v f.signed false]
    exact hjoin _

theorem FieldStore.readBack_self {s : FieldStore} (h : s.perform m = some m') : s.ReadBack m' := by
  rw [s.perform_word] at h
  exact readMemory_storeWord false h

theorem FieldStore.readBack_beside {s t : FieldStore} (hs : s.ReadBack m)
    (h : t.perform m = some m') (hbeside : Beside s.extent t.extent) : s.ReadBack m' := by
  rw [t.perform_word] at h
  have hload := loadWord_beside h hbeside
  exact (congrArg (Option.map (networkToHost ⟨s.size, false⟩)) hload).trans hs

theorem FieldStore.last_snoc {s e : FieldStore} {ss : List FieldStore} (h : s.Last (ss ++ [e])) :
    s = e ∨ (s.Last ss ∧ Beside s.extent e.extent) := by
  obtain ⟨before, after, heq, hafter⟩ := h
  obtain rfl | ⟨rest, t, rfl⟩ := List.eq_nil_or_concat after
  · exact .inl (List.cons.inj (List.append_inj_right' heq rfl)).1.symm
  · rw [List.concat_eq_append] at heq hafter
    rw [← List.cons_append, ← List.append_assoc] at heq
    obtain ⟨hss, he⟩ := List.append_inj' heq rfl
    obtain rfl := (List.cons.inj he).1
    exact .inr ⟨⟨before, rest, hss, fun t ht => hafter t (List.mem_append_left _ ht)⟩,
      hafter e (by simp)⟩

/-- In every run of stores, by either path and to any fields: a field is read as the last value that
was stored to it. -/
theorem read_back_run {ss : List FieldStore}
    (hrun : Run (fun m s m' => s.perform m = some m') m ss m') :
    ∀ s : FieldStore, s.Last ss → s.ReadBack m' := by
  refine Run.invariant (fun ss m => ∀ s : FieldStore, s.Last ss → s.ReadBack m) ?_ ?_ hrun
  · rintro s ⟨before, after, heq, -⟩
    simp at heq
  · intro ss m e m' ih hstep s hlast
    obtain rfl | ⟨hlast, hbeside⟩ := FieldStore.last_snoc hlast
    · exact FieldStore.readBack_self hstep
    · exact FieldStore.readBack_beside (ih s hlast) hstep hbeside

theorem FieldStore.perform_eq (s : FieldStore) (h : sharedMemoryDataPosition ≤ m.size) :
    s.perform m = some (m.apply s.store) := by
  cases s with
  | uint64 g v => exact storeWord_inside (g.inside.trans h) _
  | uint32 g v => exact storeWord_inside (g.inside.trans h) _
  | template k g v =>
    have hword : (reverseBytes ⟨k, g.signed⟩ v).toNat =
        InserterImplementation.hostToNetwork k v.toNat :=
      reverseBytesLoop_toNat (T := ⟨k, g.signed⟩) v 0 le_rfl rfl
    rw [perform, g.write_eq, storeWord_inside (g.inside.trans h), hword]
    rfl

theorem run_stores (ss : List FieldStore) (h : sharedMemoryDataPosition ≤ m.size) :
    Run (fun m s m' => s.perform m = some m') m ss (m.applyAll (ss.map FieldStore.store)) := by
  refine Run.of_foldlM (f := FieldStore.perform) (fun _ _ _ hs => hs) ?_
  induction ss generalizing m with
  | nil => rfl
  | cons s ss ih =>
    rw [List.foldlM_cons, s.perform_eq h, Option.bind_eq_bind, Option.bind_some,
      ih (m := m.apply s.store) h]
    rfl

end Run

/-! `Initialize`. -/

def initializeFields (c : CommonData) (s : Inserter) : List FieldStore :=
  [.template 4 fileVersion 1,
    .template 4 layoutFlags 0,
    .template 4 pageSize (BitVec.ofNat 32 blockPageSize),
    .template 4 lineSize (BitVec.ofNat 32 cacheLineSize),
    .template 4 dataSize (BitVec.ofNat 32 sharedMemoryTotalDataSize),
    .template 8 dataOffset (BitVec.ofNat 64 blockPageSize),
    .template 8 writerSessionId (ntoh64 c.commonValueSessionId).toBitVec,
    .template 8 writerMaxSequence s.maxSequenceValue.toBitVec,
    .template 8 commitSequence 0,
    .template 8 reserveSequence 0,
    .template 4 writerFlags 0]

def fileMarker : Store UInt8 := ⟨fileMarkerPosition, [95, 67, 66, 95]⟩

theorem initializeStores_eq (c : CommonData) (s : Inserter) :
    initializeStores c s = fileMarker :: (initializeFields c s).map FieldStore.store := rfl

theorem fields_beside (c : CommonData) (s : Inserter) (heartbeat : BitVec 64) :
    ((.template 8 writerHeartbeatTime heartbeat :: initializeFields c s).map
      FieldStore.extent).Pairwise Beside := by
  have hextents : (.template 8 writerHeartbeatTime heartbeat :: initializeFields c s).map
      FieldStore.extent = [(64, 8), (4, 4), (8, 4), (12, 4), (16, 4), (20, 4), (24, 8), (72, 8),
        (80, 8), (128, 8), (192, 8), (88, 4)] := rfl
  rw [hextents]
  decide

/-- After `Initialize` every field is read as what it wrote. -/
theorem initialize_readBack (b : Mapped) (c : CommonData) (s : Inserter) :
    ∀ st ∈ initializeFields c s, st.ReadBack (b.memory.applyAll (initializeStores c s)) := by
  intro st hst
  obtain ⟨before, after, heq⟩ := List.append_of_mem hst
  have hbeside := (List.pairwise_cons.mp (fields_beside c s 0)).2
  rw [heq, List.map_append, List.map_cons] at hbeside
  have hafter := (List.pairwise_cons.mp (List.pairwise_append.mp hbeside).2.1).1
  have hrun := run_stores (m := b.memory.apply fileMarker) (initializeFields c s) b.inside
  rw [initializeStores_eq, applyAll_cons]
  exact read_back_run hrun st
    ⟨before, after, heq, fun t ht => hafter _ (List.mem_map_of_mem ht)⟩

end UdpSm.InserterByteOrder
