import UdpSm.CommonData
import UdpSm.Utils
import UdpSm.Lib.Memory

/-! `RingFIFOBuffer.cpp`: a byte ring of length-prefixed frames padded to 64 bytes. Every access
to `ptr` is checked, so `none` means an index of the storage outside `[0, size)`. -/
namespace UdpSm.RingFIFOBuffer
open Lib

/-- `__builtin_clzl`; its value at 0, which C leaves undefined, is of no use here. -/
def builtinClzl (x : UInt64) : Nat := 63 - Nat.log2 x.toNat

def nextpow2 (i : UInt64) : UInt64 := (1 : UInt64) <<< UInt64.ofNat (1 + (63 - builtinClzl (i - 1)))

def next64aligned (x : UInt64) : UInt64 :=
  let mask : UInt64 := ~~~0x3f
  (x + 63) &&& mask

/-- `Snap_t`, which is also the leading part of `ringbuffer_t`. -/
structure Snap where
  bufferSize : Int
  writeIndex : Int
  commitIndex : Int
  readIndex : Int
  numberOfStoredBytes : Int
  framesStored : Int
  maxFrames : Int
  maxBytes : Int
  minCapacity : Int
  numberOfProcessedFrames : UInt64
deriving Inhabited

structure Ringbuffer extends Snap where
  slipCounter : Int
  ptr : Memory UInt8

structure Ring where
  ringbufsnap : Snap
  ringbuf : Ringbuffer

def ringInitialize (bufferSizeBytes : UInt64) : Int × Ringbuffer :=
  let p : Ringbuffer :=
    { bufferSize := 0, writeIndex := 0, commitIndex := 0, readIndex := 0, numberOfStoredBytes := 0,
      framesStored := 0, maxFrames := 0, maxBytes := 0, minCapacity := 0,
      numberOfProcessedFrames := 0, slipCounter := 0, ptr := ⟨0, fun _ => 0⟩ }
  if bufferSizeBytes = 0 then (0, p)
  else
    let p2size := nextpow2 bufferSizeBytes
    let bufferSize := int32 p2size.toNat
    let resultingCapacity := UInt64.ofInt bufferSize
    (if bufferSizeBytes > resultingCapacity then -1 else 0,
      { p with bufferSize := bufferSize, minCapacity := bufferSize, ptr := ⟨p2size.toNat, fun _ => 0⟩ })

def snap (r : Ring) : Ring := { r with ringbufsnap := r.ringbuf.toSnap }

def discard (r : Ring) : Ring := { r with ringbuf := { r.ringbuf with toSnap := r.ringbufsnap } }

def hasRoom (p : Ringbuffer) (decrement : Int) : Prop :=
  let firstRunMaxLength := int32 (p.bufferSize - p.writeIndex)
  let capacity := int32 (p.bufferSize - p.numberOfStoredBytes)
  (decrement ≤ firstRunMaxLength ∧ decrement ≤ capacity) ∨
    (firstRunMaxLength < decrement ∧ int32 (decrement + firstRunMaxLength) ≤ capacity)

instance (p : Ringbuffer) (decrement : Int) : Decidable (hasRoom p decrement) :=
  inferInstanceAs (Decidable (_ ∨ _))

/-- `data` is the memory from the pointer on, `none` a null pointer. -/
def write (p : Ringbuffer) (data : Option (Nat → UInt8)) (length : UInt32) :
    Option (Int × Ringbuffer) :=
  match data with
  | none => some (0, p)
  | some data =>
    let firstRunMaxLength := int32 (p.bufferSize - p.writeIndex)
    let decrement := int32 (next64aligned (length + 4).toUInt64).toNat
    if length = 0 ∨ ¬hasRoom p decrement then some (0, p)
    else do
      let capacity := int32 (int32 (p.bufferSize - p.numberOfStoredBytes) - decrement)
      let frames := int32 (p.framesStored + 1)
      -- indicate the jump to the start of the array
      let (ptr, start, bytes) ← if firstRunMaxLength < decrement then do
          let ptr ← p.ptr.storeAt p.writeIndex [0, 0, 0, 0]
          some (ptr, 0, int32 (p.numberOfStoredBytes + int32 (decrement + firstRunMaxLength)))
        else some (p.ptr, p.writeIndex, int32 (p.numberOfStoredBytes + decrement))
      let ptr ← ptr.storeAt start (leBytes 4 length.toNat)
      let ptr ← ptr.storeAt (int32 (start + 4)) ((List.range length.toNat).map data)
      let writeIndex :=
        int32 (next64aligned (UInt32.ofInt (int32 (start + 4)) + length).toUInt64).toNat
      some (int32 length.toNat,
        { p with
          writeIndex := if int32 (p.bufferSize - 4) ≤ writeIndex then 0 else writeIndex
          numberOfStoredBytes := bytes
          framesStored := frames
          maxFrames := if frames ≤ p.maxFrames then p.maxFrames else frames
          maxBytes := if bytes ≤ p.maxBytes then p.maxBytes else bytes
          minCapacity := if p.minCapacity ≤ capacity then p.minCapacity else capacity
          numberOfProcessedFrames := p.numberOfProcessedFrames + 1
          ptr := ptr })

/-- The frame `read` is about to take: its length, the index it starts at, and the byte counter
without it. A zero length word is the jump to the start of the array. -/
def readHeader (p : Ringbuffer) : Option (UInt32 × Int × Int) :=
  let readIndex := int32 (next64aligned (UInt64.ofInt p.readIndex)).toNat
  match p.ptr.loadAt readIndex 4 with
  | none => none
  | some word =>
    if ofLe word = 0 then
      match p.ptr.loadAt 0 4 with
      | none => none
      | some word => some (UInt32.ofNat (ofLe word), 0,
          int32 (p.numberOfStoredBytes - int32 (p.bufferSize - readIndex)))
    else
      let ulen := UInt32.ofNat (ofLe word)
      some (ulen, readIndex,
        int32 (p.numberOfStoredBytes - (next64aligned (ulen + 4).toUInt64).toNat))

def read (p : Ringbuffer) : Option (Int × List UInt8 × Ringbuffer) :=
  if p.framesStored ≤ 0 then some (0, [], p)
  else
    match readHeader p with
    | none => none
    | some (ulen, readIndex, bytes) =>
      let frames := int32 (p.framesStored - 1)
      -- leftover bytes in the end must be skipped
      let bytes := if bytes ≠ 0 ∧ frames = 0 then 0 else bytes
      match p.ptr.loadAt (int32 (readIndex + 4)) ulen.toNat with
      | none => none
      | some data =>
        let readIndex :=
          int32 (next64aligned (UInt32.ofInt (int32 (readIndex + 4)) + ulen).toUInt64).toNat
        some (int32 ulen.toNat, data,
          { p with
            readIndex := if int32 (p.bufferSize - 4) ≤ readIndex then 0 else readIndex
            numberOfStoredBytes := bytes
            framesStored := frames })

def getCapacity (p : Ringbuffer) : Int × Ringbuffer :=
  let capacity := int32 (p.bufferSize - p.numberOfStoredBytes)
  (capacity, if capacity < 16384 then { p with slipCounter := int32 (p.slipCounter + 1) } else p)

/-- `do CurrentlySentBytes = Write(..); while (CurrentlySentBytes == 0)`, cut after `fuel` turns. -/
def writeLoop (fuel : Nat) (p : Ringbuffer) (data : Nat → UInt8) (length : UInt32) :
    Except Halt Ringbuffer :=
  match fuel with
  | 0 => .error .spins
  | fuel+1 =>
    match write p (some data) length with
    | none => .error .outOfBounds
    | some (rv, p') => if rv = 0 then writeLoop fuel p' data length else .ok p'

/-- The same loop without the cut: a rejected write changes nothing and is never accepted later. -/
def writeUntilAccepted (p : Ringbuffer) (data : Nat → UInt8) (length : UInt32) :
    Except Halt Ringbuffer :=
  match write p (some data) length with
  | none => .error .outOfBounds
  | some (rv, p') => if rv = 0 then .error .spins else .ok p'

example : (ringInitialize ringBufferSize).2.bufferSize = 2097152 := by decide +kernel

end UdpSm.RingFIFOBuffer
