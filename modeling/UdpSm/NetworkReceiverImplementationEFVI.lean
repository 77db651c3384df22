import UdpSm.RingFIFOBuffer

/-! `NetworkReceiverImplementationEFVI.cpp`: from the RX events of the interface to the frames of
ring buffer 0. An event brings along what its packet buffer holds; the pool that `PktBufFree` and
`RefillRxRing` keep these buffers in has no influence on the frames and is left out here. -/
namespace UdpSm.NetworkReceiverImplementationEFVI
open Lib RingFIFOBuffer

def maxPktFrags : Nat := 7
def jumboSize : Nat := 9000
def udpHeaderLen : UInt32 := 42

/-- `jumbo_t`; a store behind the end of one of its arrays is out of bounds. -/
structure Jumbo where
  inPkt : Bool
  bufIds : Memory UInt32
  fragDataLen : Memory UInt32
  nFrags : UInt32
  payloadBytes : UInt32
  data : Memory UInt8

structure Receiver where
  initialized : Bool
  rxPrefixLen : UInt32
  num : UInt32
  jumbo : Jumbo

structure RxEvent where
  rqId : UInt32
  sop : Bool
  cont : Bool
  bytes : UInt32
  rxPtr : Nat → UInt8
  tscTimeStamp : UInt64

inductive EfEvent where
  | rx (ev : RxEvent)
  | rxDiscard (rqId : UInt32)
  | other

structure Context where
  common : CommonData
  receiver : Receiver
  ring0 : Ringbuffer

/-- The constructor; what it leaves unset is as in `j`. -/
def constructed (j : Jumbo) : Jumbo := { j with inPkt := false, nFrags := 0, payloadBytes := 0 }

/-- The fragment of an event goes behind those of its packet; `bytes` counts the packet so far. -/
def storeFragment (r : Receiver) (ev : RxEvent) : Option Jumbo :=
  let j := r.jumbo
  let bytes := ev.bytes - r.rxPrefixLen
  if ev.sop then do
    let length := bytes - udpHeaderLen
    let bufIds ← j.bufIds.storeAt 0 [ev.rqId]
    let fragDataLen ← j.fragDataLen.storeAt 0 [length]
    let data ← j.data.storeAt 0
      ((List.range length.toNat).map fun i => ev.rxPtr (i + udpHeaderLen.toNat))
    some
      { inPkt := true
        bufIds := bufIds
        fragDataLen := fragDataLen
        nFrags := 0
        payloadBytes := length
        data := data }
  else do
    let nFrags := j.nFrags + 1
    let length := bytes - udpHeaderLen - j.payloadBytes
    let bufIds ← j.bufIds.storeAt nFrags.toNat [ev.rqId]
    let fragDataLen ← j.fragDataLen.storeAt nFrags.toNat [length]
    let data ← j.data.storeAt j.payloadBytes.toNat ((List.range length.toNat).map ev.rxPtr)
    some
      { j with
        bufIds := bufIds
        fragDataLen := fragDataLen
        nFrags := nFrags
        payloadBytes := j.payloadBytes + length
        data := data }

/-- With the timing flag set the time stamp goes behind the payload; the number is what `Write`
is asked for. -/
def appendTimestamp (timing : Bool) (j : Jumbo) (tscTimeStamp : UInt64) : Option (Jumbo × UInt32) :=
  if timing then do
    let data ← j.data.storeAt j.payloadBytes.toNat (leBytes 8 tscTimeStamp.toNat)
    some ({ j with data := data }, j.payloadBytes + 8)
  else some (j, j.payloadBytes)

def handleRxEventAccept (x : Context) (ev : RxEvent) : Except Halt (Int × Context) :=
  if ev.rqId < x.receiver.num then
    -- a start inside a packet, or a continuation outside one
    if ev.sop = x.receiver.jumbo.inPkt then .ok (-1, x)
    else
      match storeFragment x.receiver ev with
      | none => .error .outOfBounds
      | some j =>
        if ev.cont then .ok (0, { x with receiver.jumbo := j })
        else
          match appendTimestamp (x.common.flag flagGetTiming) j ev.tscTimeStamp with
          | none => .error .outOfBounds
          | some (j, length) =>
            match writeUntilAccepted x.ring0 j.data.cell length with
            | .error h => .error h
            | .ok ring0 => .ok (0, { x with
                common.totalNumberOfReceivedMessages := x.common.totalNumberOfReceivedMessages + 1
                receiver.jumbo := { j with inPkt := false }
                ring0 := ring0 })
  else .ok (-1, x)

/-- The buffer of an unknown id is a null pointer, and used without a check. -/
def handleRxEventDiscard (x : Context) (rqId : UInt32) : Except Halt (Int × Context) :=
  if rqId < x.receiver.num then .ok (0, x) else .error .outOfBounds

def handleEvent (x : Context) : EfEvent → Except Halt (Int × Context)
  | .rx ev => handleRxEventAccept x ev
  | .rxDiscard rqId => handleRxEventDiscard x rqId
  | .other => .ok (-1, x)

def handleEvents (x : Context) : List EfEvent → Except Halt (Int × Context)
  | [] => .ok (0, x)
  | e :: es =>
    match handleEvent x e with
    | .error h => .error h
    | .ok (rv, x) => if rv = 0 then handleEvents x es else .ok (rv, x)

def finishEvents (r : Int × Context) : Context :=
  if r.1 ≠ 0 then { r.2 with common.applicationRunFlag := false } else r.2

def iterate (x : Context) (events : List EfEvent) : Except Halt Context :=
  if x.receiver.initialized then
    let (capacity, ring0) := getCapacity x.ring0
    let x := { x with ring0 := ring0 }
    if capacity ≥ 16384 then (handleEvents x events).map finishEvents else .ok x
  else .ok x

end UdpSm.NetworkReceiverImplementationEFVI
