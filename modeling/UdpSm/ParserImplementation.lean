import UdpSm.RingFIFOBuffer

/-! `ParserImplementation.cpp`: from the frames of ring buffer 0 to the messages of ring buffer 1.
The parser runs with its constructor succeeded, so `Initialized` is 1. -/
namespace UdpSm.ParserImplementation
open Lib RingFIFOBuffer

/-! Fields of `FrameHeaderS_t` and `MessageHeaderS_t`, at their offsets in a receive buffer. -/

def loadUInt16 (f : Nat → UInt8) (o : Nat) : UInt16 := UInt16.ofNat (ofLe [f o, f (o + 1)])

def loadUInt64 (f : Nat → UInt8) (o : Nat) : UInt64 :=
  UInt64.ofNat (ofLe ((List.range 8).map fun i => f (o + i)))

def messageType (f : Nat → UInt8) : UInt8 := f 0
def messageHeaderLength (f : Nat → UInt8) : UInt8 := f 1
def sessionIdVal (f : Nat → UInt8) : UInt64 := loadUInt64 f 2
def sequenceNumber (f : Nat → UInt8) : UInt64 := loadUInt64 f 10
def messageCount (f : Nat → UInt8) : UInt16 := loadUInt16 f 18

def messageLength (f : Nat → UInt8) (o : Nat) : UInt16 := loadUInt16 f o
def headerLength (f : Nat → UInt8) (o : Nat) : UInt8 := f (o + 2)
def headerVersion (f : Nat → UInt8) (o : Nat) : UInt8 := f (o + 3)

def parserMessageShutdown : UInt8 := 1

inductive ParserStateEnum where
  | startup
  | session
  | shutdown
deriving DecidableEq, Repr, Inhabited

structure ParserState where
  sessionIdVal : UInt64
  sessionIdPrevious : UInt64
  state : ParserStateEnum
deriving DecidableEq, Inhabited

structure Parser where
  parserStateInstance : ParserState
  discardFrame : UInt8
  payloadBytesReceived : UInt64
  parserReceivedDataPtr : Nat → UInt8
deriving Inhabited

structure Context where
  common : CommonData
  parser : Parser
  ring0 : Ringbuffer
  ring1 : Ring

/-- The constructor, which clears the receive buffer; what it leaves unset is as in `p`. -/
def constructed (c : CommonData) (p : Parser) (ring0 : Ringbuffer) (ring1 : Ring) : Context :=
  { common := { c with
      commonValueSequenceNumber := 0
      totalNumberOfParsedFrames := 0
      totalNumberOfRejectedMessages := 0 }
    parser := { p with
      parserStateInstance := ⟨0, 0, .startup⟩
      parserReceivedDataPtr := overwrite (List.replicate dataBufferSize 0) p.parserReceivedDataPtr }
    ring0 := ring0
    ring1 := ring1 }

abbrev Access := Nat × Nat

/-! `UpdateParserState`. The `default` branch has no state to be taken in. -/

def updateParserState (x : Context) : Context :=
  let f := x.parser.parserReceivedDataPtr
  let p := x.parser.parserStateInstance
  match p.state with
  | .startup =>
    if messageType f ≠ parserMessageShutdown then
      { x with
        parser.parserStateInstance := ⟨sessionIdVal f, p.sessionIdVal, .session⟩
        common.commonFlagShutdownReceived := false
        common.commonValueSessionId := sessionIdVal f
        common.commonFlagSessionIdReceived := true }
    else x
  | .session =>
    if sessionIdVal f ≠ p.sessionIdVal then
      if !x.common.flag flagDontFilterSouceId then
        { x with parser.discardFrame := x.parser.discardFrame ||| 0x20 }
      else x
    else if messageType f = parserMessageShutdown then
      { x with parser.parserStateInstance := { p with state := .shutdown } }
    else x
  | .shutdown =>
    -- all stored messages written to shared memory
    if x.ring1.ringbuf.numberOfStoredBytes = 0 ∨ x.ring1.ringbuf.framesStored = 0 then
      { x with
        parser.parserStateInstance := ⟨0, 0, .startup⟩
        common.commonFlagShutdownReceived := true
        common.commonFlagSessionIdReceived := false }
    else x

/-! The loop over the messages of a frame. -/

structure LoopState where
  discardFrame : UInt8
  /-- `MessageHeaderPtr`, as an offset from the start of the frame. -/
  messageHeader : Nat
  messageBytesExpected : UInt64
  ringbuf : Ringbuffer

def messageLengthBytes (f : Nat → UInt8) (o : Nat) : UInt32 :=
  2 + (ntohs (messageLength f o)).toUInt32

/-- The three checks of a message header; `PayloadBytesProcessed` is 0 throughout. -/
def checkMessage (f : Nat → UInt8) (payloadBytesReceived : UInt64) (o : Nat) (discard : UInt8) :
    UInt8 :=
  let length := messageLengthBytes f o
  let discard :=
    if int32 length.toNat < 2 + (headerLength f o).toNat ∨
        (length + 20).toUInt64 + 0 > payloadBytesReceived then discard ||| 0x04 else discard
  let discard := if ¬(headerLength f o = 32 ∨ headerLength f o = 28) then discard ||| 0x08 else discard
  if headerVersion f o ≠ 1 then discard ||| 0x10 else discard

/-- The header fields that the checks and `ParserPrintMessage` look at. -/
def inspect (c : CommonData) (f : Nat → UInt8) (messageCounter : UInt16) (o : Nat) : List Access :=
  [(o, 2), (o + 2, 1), (o + 3, 1)] ++
    if c.flag flagShowParser ∧ (messageCounter.toNat : Int) > c.configThreshold then
      [(o + 4, 2), (o + 6, 4), (o + 10, 8), (o + 18, 8)] ++
        if headerLength f o = 32 then [(o + 26, 8)] else []
    else []

/-- The bytes handed to `Write`: with the timing flag set the last message of a frame takes the
time stamp behind it along. -/
def handedLength (c : CommonData) (f : Nat → UInt8) (discard : UInt8) (last : Bool) (o : Nat) :
    UInt32 :=
  if discard = 0 ∧ c.flag flagGetTiming ∧ last then messageLengthBytes f o + 8
  else messageLengthBytes f o

def messageStep (c : CommonData) (f : Nat → UInt8)
    (payloadBytesReceived messageBytesReceived : UInt64) (messageCounter : UInt16) (last : Bool)
    (s : LoopState) : List Access × Except Halt LoopState :=
  let o := s.messageHeader
  let length := messageLengthBytes f o
  let expected := s.messageBytesExpected + length.toUInt64
  let discard := checkMessage f payloadBytesReceived o s.discardFrame
  let handed := handedLength c f discard last o
  (inspect c f messageCounter o ++ [(o, handed.toNat)],
    match writeUntilAccepted s.ringbuf (fun i => f (o + i)) handed with
    | .error h => .error h
    | .ok ringbuf =>
      if last then .ok
        { discardFrame := if expected ≠ messageBytesReceived then discard ||| 0x20 else discard
          messageHeader := o
          messageBytesExpected := expected
          ringbuf := ringbuf }
      else .ok
        { discardFrame := discard
          messageHeader := o + length.toNat
          messageBytesExpected := expected
          ringbuf := ringbuf })

def messageLoop (c : CommonData) (f : Nat → UInt8)
    (payloadBytesReceived messageBytesReceived : UInt64) (messageCounter : UInt16) :
    Nat → LoopState → List Access × Except Halt LoopState
  | 0, s => ([], .ok s)
  | remaining+1, s =>
    if s.discardFrame ≠ 0 then ([], .ok s)
    else
      let step := messageStep c f payloadBytesReceived messageBytesReceived messageCounter
        (remaining = 0) s
      match step.2 with
      | .error h => (step.1, .error h)
      | .ok s =>
        let rest := messageLoop c f payloadBytesReceived messageBytesReceived messageCounter
          remaining s
        (step.1 ++ rest.1, rest.2)

/-! `IterateInternal`. -/

/-- From `Snap` to `Discard` or the new sequence number. -/
def processMessages (x : Context) : List Access × Except Halt Context :=
  let f := x.parser.parserReceivedDataPtr
  let messageBytesReceived :=
    x.parser.payloadBytesReceived - (messageHeaderLength f).toUInt64 - 2
  let messageCounter := ntohs (messageCount f)
  if messageCounter > 0 then
    let ring1 := snap x.ring1
    let loop := messageLoop x.common f x.parser.payloadBytesReceived messageBytesReceived
      messageCounter messageCounter.toNat
      { discardFrame := x.parser.discardFrame
        messageHeader := 20
        messageBytesExpected := 0
        ringbuf := ring1.ringbuf }
    (loop.1, match loop.2 with
      | .error h => .error h
      | .ok s =>
        let ring1 := { ring1 with ringbuf := s.ringbuf }
        if s.discardFrame ≠ 0 then
          .ok { x with parser.discardFrame := s.discardFrame, ring1 := discard ring1 }
        else .ok
          { x with
            parser.discardFrame := s.discardFrame
            ring1 := ring1
            common.commonValueSequenceNumber := ntoh64 (sequenceNumber f) })
  else ([], .ok x)

def processFrame (x : Context) : List Access × Except Halt Context :=
  let f := x.parser.parserReceivedDataPtr
  let discard : UInt8 := if messageHeaderLength f ≠ 18 then 0x01 else 0
  let discard := if ntohs (messageCount f) ≤ 0 then discard ||| 0x02 else discard
  let x := { x with
    common.totalNumberOfParsedFrames := x.common.totalNumberOfParsedFrames + 1
    parser.discardFrame := discard }
  if discard = 0 then
    let x := updateParserState x
    if x.parser.discardFrame = 0 then processMessages x else ([], .ok x)
  else ([], .ok x)

/-- It always returns 0. The list is the accesses made to message headers and by `Write`. -/
def iterateInternal (x : Context) : List Access × Except Halt Context :=
  let x := { x with parser.discardFrame := 0 }
  if x.common.applicationRunFlag ∧ x.common.commonFlagConnected then
    match read x.ring0 with
    | none => ([], .error .outOfBounds)
    | some (rv, data, ring0) =>
      let received := UInt64.ofInt rv
      let received :=
        if x.common.flag flagGetTiming ∧ received ≥ 18 + 8 then received - 8 else received
      let x := { x with
        ring0 := ring0
        parser.payloadBytesReceived := received
        parser.parserReceivedDataPtr := overwrite data x.parser.parserReceivedDataPtr }
      if received > 0 then
        -- frame must have at least one payloadless message
        if received ≥ 36 then processFrame x
        else if received = 18 then
          ([], .ok { x with
            common.totalNumberOfParsedFrames := x.common.totalNumberOfParsedFrames + 1 })
        else ([], .ok { x with
          common.totalNumberOfRejectedMessages := x.common.totalNumberOfRejectedMessages + 1 })
      else ([], .ok x)
  else ([], .ok x)

def iterate (x : Context) : List Access × Except Halt Context :=
  let (capacity, ringbuf) := getCapacity x.ring1.ringbuf
  let x := { x with ring1.ringbuf := ringbuf }
  if capacity ≥ 16384 then iterateInternal x else ([], .ok x)

end UdpSm.ParserImplementation
