import UdpSm.InserterTurn
import UdpSm.KeyboardReadInput
import UdpSm.ParserSession
import UdpSm.ReceiverPackets

/-! Receiver, parser and inserter over their two ring buffers, one call after another. -/
namespace UdpSm.Pipeline
open Lib RingFIFOBuffer InserterImplementation
open ParserImplementation hiding iterate Context constructed
open NetworkReceiverImplementationEFVI (Jumbo Receiver EfEvent Packet Sized jumboSize maxPktFrags)

/-- The program without the counter of the main loop. -/
structure System where
  context : ParserImplementation.Context
  receiver : Receiver
  inserter : Inserter
  file : Memory UInt8

def System.common (s : System) : CommonData := s.context.common

def System.frames (s : System) : List (List UInt8) := contents s.context.ring0

def System.messages (s : System) : List (List UInt8) := contents s.context.ring1.ringbuf

def System.received (s : System) : NetworkReceiverImplementationEFVI.Context :=
  ⟨s.context.common, s.receiver, s.context.ring0⟩

/-- A call that the main loop makes, with what it finds outside the program: the events polled,
the time in milliseconds, the key waiting. -/
inductive Action where
  | receive (events : List EfEvent)
  | parse
  | insert (now : UInt64)
  | writeTimestamp (now : UInt64)
  | readKeyboardInput (key : Option Char)

def perform (s : System) : Action → Except Halt System
  | .receive events =>
    (NetworkReceiverImplementationEFVI.iterate s.received events).map fun x =>
      { s with
        context.common := x.common
        context.ring0 := x.ring0
        receiver := x.receiver }
  | .parse => (ParserImplementation.iterate s.context).2.map fun x => { s with context := x }
  | .insert now =>
    match InserterImplementation.iterate s.common now s.context.ring1.ringbuf s.inserter with
    | none => .error .outOfBounds
    | some (ring, inserter, stores) => .ok
      { s with
        context.ring1.ringbuf := ring
        inserter := inserter
        file := s.file.applyAll stores }
  | .writeTimestamp now => .ok
      { s with
        inserter := (writeTimestampToSharedMemory s.common now s.inserter).1
        file := s.file.applyAll (writeTimestampToSharedMemory s.common now s.inserter).2 }
  | .readKeyboardInput key => .ok
      { s with context.common := KeyboardReadInput.readKeyboardInput s.common key }

structure Call where
  before : System
  action : Action

def Step (s : System) (c : Call) (s' : System) : Prop :=
  c.before = s ∧ perform s c.action = .ok s'

def performAll (s : System) : List Action → Except Halt (System × List Call)
  | [] => .ok (s, [])
  | a :: as =>
    match perform s a with
    | .error h => .error h
    | .ok s' => (performAll s' as).map fun r => (r.1, ⟨s, a⟩ :: r.2)

/-! What can be seen of a call. -/

def Call.packets (c : Call) : List Packet :=
  match c.action with
  | .receive events => NetworkReceiverImplementationEFVI.polled c.before.received events
  | _ => []

def Call.taken (c : Call) : List (List UInt8) :=
  match c.action with
  | .parse => (takenFrame c.before.context).toList
  | _ => []

def Call.accepted (c : Call) : List (List UInt8) :=
  match c.action with
  | .parse =>
    match (ParserImplementation.iterate c.before.context).2 with
    | .error _ => []
    | .ok x =>
      if x.parser.discardFrame = 0 ∧ 36 ≤ x.parser.payloadBytesReceived then
        (takenFrame c.before.context).toList
      else []
  | _ => []

/-- The record that the inserter writes for the message it takes. -/
def Call.published (c : Call) : List Append :=
  match c.action with
  | .insert _ => c.before.messages.head?.toList.map fun m => appendFor c.before.common m c.before.inserter
  | _ => []

def received (cs : List Call) : List Packet := cs.flatMap Call.packets
def taken (cs : List Call) : List (List UInt8) := cs.flatMap Call.taken
def accepted (cs : List Call) : List (List UInt8) := cs.flatMap Call.accepted
def published (cs : List Call) : List Append := cs.flatMap Call.published

/-! The program after `Initialize`. -/

/-- What the constructors leave unset. -/
structure Unset where
  parser : Parser
  ringbufsnap : Snap
  rxPrefixLen : UInt32
  bufIds : Nat → UInt32
  fragDataLen : Nat → UInt32
  data : Nat → UInt8
  inserter : Inserter
  file : Memory UInt8

def initial (u : Unset) : System :=
  { context := ParserImplementation.constructed connected u.parser (ringInitialize ringBufferSize).2
      ⟨u.ringbufsnap, (ringInitialize ringBufferSize).2⟩
    receiver :=
      { initialized := true
        rxPrefixLen := u.rxPrefixLen
        num := (1 : UInt32) <<< 15
        jumbo := NetworkReceiverImplementationEFVI.constructed
          { inPkt := true
            bufIds := ⟨maxPktFrags, u.bufIds⟩
            fragDataLen := ⟨maxPktFrags, u.fragDataLen⟩
            nFrags := 0
            payloadBytes := 0
            data := ⟨jumboSize, u.data⟩ } }
    inserter :=
      { initialized u.inserter with
        writerFlags := (writerFlagsShutdown ||| writerFlagsConnected) &&& ~~~writerFlagsInSession }
    file := u.file.applyAll (initializeStores connected u.inserter) }

def blank : Unset :=
  { parser := default
    ringbufsnap := default
    rxPrefixLen := 0
    bufIds := fun _ => 0
    fragDataLen := fun _ => 0
    data := fun _ => 0
    inserter := default
    file := ⟨sharedMemoryAllocationSize, fun _ => 0⟩ }

end UdpSm.Pipeline
