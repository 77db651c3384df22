import UdpSm.Lib.Endian

/-! Build constants, configuration flags and the data shared by the pipeline stages
(`defines.h`, `flags.h`, `CommonData.h`). -/
namespace UdpSm

def cacheLineSize : Nat := 64
def dataBufferSize : Nat := 16384
def ringBufferSize : UInt64 := 128 * 16384

def flagVerbose : UInt32 := (1 : UInt32) <<< 0
def flagShowParser : UInt32 := (1 : UInt32) <<< 1
def flagShowPublisher : UInt32 := (1 : UInt32) <<< 2
def flagShowData : UInt32 := (1 : UInt32) <<< 3
def flagDontFilterSouceId : UInt32 := (1 : UInt32) <<< 4
def flagShowHeartbeat : UInt32 := (1 : UInt32) <<< 5
def flagShowDecDump : UInt32 := (1 : UInt32) <<< 6
def flagShowHexDump : UInt32 := (1 : UInt32) <<< 7
def flagShowTiming : UInt32 := (1 : UInt32) <<< 8
def flagGetTiming : UInt32 := (1 : UInt32) <<< 9

/-- The `int` flags that are only ever 0 or 1 are booleans here. -/
structure CommonData where
  applicationRunFlag : Bool
  configurationFlags : UInt32
  configThreshold : Int
  commonFlagConnected : Bool
  commonFlagShutdownReceived : Bool
  commonFlagSessionIdReceived : Bool
  commonValueSessionId : UInt64
  commonValueSequenceNumber : UInt64
  totalNumberOfParsedFrames : UInt64
  totalNumberOfReceivedMessages : UInt64
  totalNumberOfRejectedMessages : UInt64
deriving Inhabited

def CommonData.flag (c : CommonData) (mask : UInt32) : Bool :=
  c.configurationFlags &&& mask != 0

theorem CommonData.flag_of_none {c : CommonData} (h : c.configurationFlags = 0) (mask : UInt32) :
    c.flag mask = false := by
  rw [CommonData.flag, h, UInt32.zero_and]
  rfl

/-- Why a call does not return: an access outside its buffer, or a retry loop that never ends. -/
inductive Halt where
  | outOfBounds
  | spins
deriving DecidableEq, Repr

end UdpSm
