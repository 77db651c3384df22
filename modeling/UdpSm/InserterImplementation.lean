import UdpSm.RingFIFOBuffer

/-! `InserterImplementation.cpp`: the writer of the shared memory file. A method returns the new
object and its stores to the file, one by one and in program order. -/
namespace UdpSm.InserterImplementation
open Lib Memory

/-! Positions in the file (`InserterSharedMemoryFormatDefinitions.h`). -/

def blockPageSize : Nat := 2 * 1024 * 1024
def numberOfDataPages : Nat := 512
def totalNumberOfDataCacheLines : Nat := blockPageSize * numberOfDataPages / cacheLineSize
def alignCacheLine (n : Nat) : Nat := (n + cacheLineSize - 1) / cacheLineSize * cacheLineSize

def fileMarkerPosition : Nat := 0
def fileVersionPosition : Nat := fileMarkerPosition + 4
def layoutFlagsPosition : Nat := fileVersionPosition + 4
def pageSizePosition : Nat := layoutFlagsPosition + 4
def lineSizePosition : Nat := pageSizePosition + 4
def dataSizePosition : Nat := lineSizePosition + 4
def dataOffsetPosition : Nat := dataSizePosition + 4
def writerHeartbeatTimePosition : Nat := alignCacheLine (dataOffsetPosition + 4)
def writerSessionIdPosition : Nat := writerHeartbeatTimePosition + 8
def writerMaxSequencePosition : Nat := writerSessionIdPosition + 8
def writerFlagsPosition : Nat := writerMaxSequencePosition + 8
def commitSequencePosition : Nat := alignCacheLine (writerFlagsPosition + 4)
def reserveSequencePosition : Nat := alignCacheLine (commitSequencePosition + 8)
def sharedMemoryDataPosition : Nat :=
  (reserveSequencePosition + 8 + blockPageSize - 1) / blockPageSize * blockPageSize
def sharedMemoryTotalDataSize : Nat := blockPageSize * numberOfDataPages
def sharedMemoryAllocationSize : Nat := blockPageSize * (1 + numberOfDataPages)

def writerFlagsConnected : UInt32 := 0x01
def writerFlagsInSession : UInt32 := 0x02
def writerFlagsShutdown : UInt32 := 0x04

/-- `ReverseBytes` of an integer of `size` bytes, from `value` into `result`. -/
def reverseBytesLoop : Nat → Nat → Nat → Nat
  | 0, _, result => result
  | i+1, value, result => reverseBytesLoop i (value >>> 8) (result ||| (value &&& 0xff) <<< (i * 8))

def reverseBytes (size value : Nat) : Nat := reverseBytesLoop size value 0

def hostToNetwork (size value : Nat) : Nat := reverseBytes size value

def writeMemory (size position value : Nat) : Store UInt8 :=
  ⟨position, leBytes size (hostToNetwork size value)⟩

structure Inserter where
  commitSequenceValue : UInt64
  reserveSequenceValue : UInt64
  maxSequenceValue : UInt64
  writerFlags : UInt32
  writerFlagsPrevious : UInt32
  framingMetaDataMessageSequenceNumber : UInt64
  framingMetaDataTotalNumberOfMessageBytes : UInt16
  framingMetaDataTotalLines : UInt16
  currentCacheLine : UInt64
  cacheLinesRemaining : UInt64
  numberOfInsertedFramesSinceProgramStart : UInt64
  secondsSinceProgramStart : UInt64
  millisecondsSinceEpoch : UInt64
  receivedDataPtr : Nat → UInt8
  receivedDataBuffer : Nat → UInt8
deriving Inhabited

/-! `Initialize`, with the file opened. -/

def initialized (s : Inserter) : Inserter :=
  { s with
    writerFlags := 0
    writerFlagsPrevious := 0
    commitSequenceValue := 0
    reserveSequenceValue := 0
    numberOfInsertedFramesSinceProgramStart := 0
    secondsSinceProgramStart := 0
    framingMetaDataMessageSequenceNumber := 0
    receivedDataPtr := overwrite (List.replicate dataBufferSize 0) s.receivedDataPtr }

def initializeStores (c : CommonData) (s : Inserter) : List (Store UInt8) :=
  [⟨fileMarkerPosition, [95, 67, 66, 95]⟩, -- "_CB_"
    writeMemory 4 fileVersionPosition 1,
    writeMemory 4 layoutFlagsPosition 0,
    writeMemory 4 pageSizePosition blockPageSize,
    writeMemory 4 lineSizePosition cacheLineSize,
    writeMemory 4 dataSizePosition sharedMemoryTotalDataSize,
    writeMemory 8 dataOffsetPosition blockPageSize,
    writeMemory 8 writerSessionIdPosition (ntoh64 c.commonValueSessionId).toNat,
    writeMemory 8 writerMaxSequencePosition s.maxSequenceValue.toNat,
    writeMemory 8 commitSequencePosition 0,
    writeMemory 8 reserveSequencePosition 0,
    writeMemory 4 writerFlagsPosition 0]

/-! `HandleSharedMemoryFrames`. -/

def storeReserveSequence (v : UInt64) : Store UInt8 :=
  ⟨reserveSequencePosition, leBytes 8 (hton64 v).toNat⟩

def storeCommitSequence (v : UInt64) : Store UInt8 :=
  ⟨commitSequencePosition, leBytes 8 (hton64 v).toNat⟩

def storeHtons (address : Nat) (v : UInt16) : Store UInt8 := ⟨address, leBytes 2 (htons v).toNat⟩

def cacheLineAddress (line : UInt64) : Nat :=
  sharedMemoryDataPosition + line.toNat * cacheLineSize

def storeBytes (address : Nat) (bytes : List UInt8) : List (Store UInt8) :=
  sequential address (bytes.map fun b => [b])

/-- The line arithmetic before the first store. -/
def frameMessage (c : CommonData) (s : Inserter) : Inserter :=
  let currentCacheLine := s.commitSequenceValue % UInt64.ofNat totalNumberOfDataCacheLines
  { s with
    numberOfInsertedFramesSinceProgramStart := s.numberOfInsertedFramesSinceProgramStart + 1
    framingMetaDataMessageSequenceNumber := c.commonValueSequenceNumber
    currentCacheLine := currentCacheLine
    cacheLinesRemaining := UInt64.ofNat totalNumberOfDataCacheLines - currentCacheLine
    framingMetaDataTotalLines :=
      ((s.framingMetaDataTotalNumberOfMessageBytes.toUInt64 + 2 + 2 + 8 + 64 - 1) / 64).toUInt16 }

/-- The skip section over the remaining lines. -/
def skipRemainingLines (s : Inserter) : Inserter × List (Store UInt8) :=
  let reserve := s.reserveSequenceValue + s.cacheLinesRemaining
  let commit := s.commitSequenceValue + s.cacheLinesRemaining
  let address := cacheLineAddress s.currentCacheLine
  ({ s with reserveSequenceValue := reserve, commitSequenceValue := commit, currentCacheLine := 0 },
    [storeReserveSequence reserve, storeHtons address s.cacheLinesRemaining.toUInt16] ++
      storeBytes (address + 2) (List.replicate 10 0) ++ [storeCommitSequence commit])

def appendMessage (s : Inserter) : Inserter × List (Store UInt8) :=
  let reserve := s.reserveSequenceValue + s.framingMetaDataTotalLines.toUInt64
  let commit := s.commitSequenceValue + s.framingMetaDataTotalLines.toUInt64
  let address := cacheLineAddress s.currentCacheLine
  let bytes := s.framingMetaDataTotalNumberOfMessageBytes
  ({ s with
      reserveSequenceValue := reserve
      commitSequenceValue := commit
      maxSequenceValue := s.framingMetaDataMessageSequenceNumber },
    [storeReserveSequence reserve, storeHtons address s.framingMetaDataTotalLines,
      storeHtons (address + 2) bytes,
      ⟨address + 4, leBytes 8 (hton64 s.framingMetaDataMessageSequenceNumber).toNat⟩] ++
      storeBytes (address + 12) ((List.range bytes.toNat).map s.receivedDataBuffer) ++
      [storeCommitSequence commit])

def handleSharedMemoryFrames (c : CommonData) (s : Inserter) : Inserter × List (Store UInt8) :=
  if s.framingMetaDataTotalNumberOfMessageBytes > 0 then
    let s := frameMessage c s
    if s.framingMetaDataTotalLines.toUInt64 > s.cacheLinesRemaining then
      let (s, skipStores) := skipRemainingLines s
      let (s, stores) := appendMessage s
      (s, skipStores ++ stores)
    else appendMessage s
  else (s, [])

/-! `Iterate` and the control block. -/

def updateWriterFlags (c : CommonData) (s : Inserter) : Inserter × List (Store UInt8) :=
  let writerFlags := writerFlagsConnected |||
    (if c.commonFlagShutdownReceived then writerFlagsShutdown else writerFlagsInSession)
  if s.writerFlagsPrevious ≠ writerFlags then
    ({ s with writerFlags := writerFlags, writerFlagsPrevious := writerFlags },
      [⟨writerFlagsPosition, leBytes 4 (htonl writerFlags).toNat⟩,
        -- the session id goes out as it came in, without a swap
        ⟨writerSessionIdPosition, leBytes 8 c.commonValueSessionId.toNat⟩])
  else ({ s with writerFlags := writerFlags }, [])

def writeTimestampToSharedMemory (c : CommonData) (now : UInt64) (s : Inserter) :
    Inserter × List (Store UInt8) :=
  if c.applicationRunFlag ∧ now - s.millisecondsSinceEpoch ≥ 1000 then
    ({ s with
        millisecondsSinceEpoch := now
        secondsSinceProgramStart := s.secondsSinceProgramStart + 1 },
      [writeMemory 8 writerHeartbeatTimePosition now.toNat,
        ⟨writerMaxSequencePosition, leBytes 8 (hton64 s.maxSequenceValue).toNat⟩])
  else (s, [])

/-- The message that `Read` left in `ReceivedDataPtr`, without its size field; with the timing flag
set a trailing time stamp is dropped. `ReceivedDataBuffer` is not read while the count is 0. -/
def acceptMessage (c : CommonData) (numberOfPayloadBytes : UInt32) (s : Inserter) : Inserter :=
  if numberOfPayloadBytes > 2 then
    let length := ntohs (UInt16.ofNat (ofLe [s.receivedDataPtr 0, s.receivedDataPtr 1]))
    let numberOfPayloadBytes :=
      if c.flag flagGetTiming ∧ numberOfPayloadBytes.toNat = length.toNat + 8 + 2 then
        numberOfPayloadBytes - 8
      else numberOfPayloadBytes
    { s with
      receivedDataBuffer := fun i => s.receivedDataPtr (i + 2)
      framingMetaDataTotalNumberOfMessageBytes := (numberOfPayloadBytes - 2).toUInt16 }
  else { s with framingMetaDataTotalNumberOfMessageBytes := 0 }

def iterate (c : CommonData) (now : UInt64) (ring : RingFIFOBuffer.Ringbuffer) (s : Inserter) :
    Option (RingFIFOBuffer.Ringbuffer × Inserter × List (Store UInt8)) :=
  match RingFIFOBuffer.read ring with
  | none => none
  | some (rv, data, ring) =>
    let s := { s with receivedDataPtr := overwrite data s.receivedDataPtr }
    let s := acceptMessage c (UInt32.ofInt rv) s
    let (s, flagStores) := updateWriterFlags c s
    let (s, frameStores) := handleSharedMemoryFrames c s
    let (s, timeStores) := writeTimestampToSharedMemory c now s
    some (ring, s, flagStores ++ frameStores ++ timeStores)

example : sharedMemoryDataPosition = blockPageSize ∧ totalNumberOfDataCacheLines = 2 ^ 24 := by decide

end UdpSm.InserterImplementation
