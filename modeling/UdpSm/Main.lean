import UdpSm.InserterLifetime
import UdpSm.ReceiverResources
import UdpSm.UDPJubmoFrameReceiverImplementation

/-! `main.cpp`: the process, with `Initialize`, the main loop and `Uninitialize` taken apart into the
operations between which a SIGINT can arrive. -/
namespace UdpSm.Main
open Lib RingFIFOBuffer InserterImplementation
open Pipeline (System Action Unset)
open NetworkReceiverImplementationEFVI (Receiver Lifecycle InitializeCall UninitializeCall orCode
  pktPoolSize maxPktFrags jumboSize)
open InserterLifetime (OpenCalls Lifetime emptied)
open UDPJubmoFrameReceiverImplementation (StreamStatusEnum Turn)

inductive Object where
  | arguments
  | logger
  | processor
  | tsc
  | percentile
  | ringBuffer0
  | ringBuffer1
  | commonData
  | networkReceiver
  | parser
  | inserter
  | keyboard
deriving DecidableEq, Repr

inductive Op where
  | new (o : Object)
  | stickThisThreadToProcessorCore
  | installHandler
  | initializeReceiver
  | initializeInserter
  | finishInitialize
  | testReturnValue
  | iterate
  | call (a : Action)
  | parseIfRunning
  | testRunFlag
  | clearReturnValue
  | uninitializeInserter
  | uninitializeReceiver
  /-- A null pointer is passed over. -/
  | delete (o : Object)
  | keepReturnValue

def initializeOps : List Op :=
  [.new .arguments, .new .logger, .new .processor, .stickThisThreadToProcessorCore, .new .tsc,
    .new .percentile, .new .ringBuffer0, .new .ringBuffer1, .new .commonData, .installHandler,
    .new .networkReceiver, .initializeReceiver, .new .parser, .new .inserter, .initializeInserter,
    .new .keyboard, .finishInitialize]

def uninitializeOps : List Op :=
  [.clearReturnValue, .uninitializeInserter, .delete .inserter, .delete .parser,
    .uninitializeReceiver, .delete .networkReceiver, .delete .ringBuffer0, .delete .ringBuffer1,
    .delete .commonData, .delete .keyboard, .delete .percentile, .delete .tsc, .delete .processor,
    .delete .arguments, .delete .logger]

/-- After the loop; the destructor calls `Uninitialize` once more. -/
def finishOps : List Op := uninitializeOps ++ .keepReturnValue :: uninitializeOps

def mainOps : List Op := initializeOps ++ .testReturnValue :: finishOps

/-- What the process finds outside it: the memory it is given, and what the calls return. -/
structure Environment where
  unset : Unset
  lifecycle : Lifecycle
  schedSetaffinity : Int
  mlockall : Int
  initializeCall : InitializeCall
  openCalls : OpenCalls
  uninitializeCall : UninitializeCall

structure Process where
  todo : List Op
  live : List Object
  returnValue : Int
  retVal : Int
  /-- The handler is installed, and `RunFlagSignal` points into the common data. -/
  handler : Bool
  streamState : StreamStatusEnum
  context : ParserImplementation.Context
  receiver : Receiver
  lifecycle : Lifecycle
  lifetime : Lifetime

def Process.common (p : Process) : CommonData := p.context.common

def Process.system (p : Process) : System :=
  ⟨p.context, p.receiver, p.lifetime.inserter, p.lifetime.mapping.file.getD (emptied 0)⟩

def Process.withSystem (p : Process) (s : System) : Process :=
  { p with
    context := s.context
    receiver := s.receiver
    lifetime.inserter := s.inserter
    lifetime.mapping.file := p.lifetime.mapping.file.map fun _ => s.file }

def Process.withRunFlag (p : Process) (b : Bool) : Process :=
  { p with context.common.applicationRunFlag := b }

def Process.store (p : Process) (sts : List (Memory.Store UInt8)) : Process :=
  { p with lifetime.mapping.file := p.lifetime.mapping.file.map fun m => m.applyAll sts }

/-! `Initialize`. -/

/-- The constructor; the parameters that it copies are not looked at any more. -/
def commonData : CommonData :=
  { applicationRunFlag := false
    configurationFlags := 0
    configThreshold := 0
    commonFlagConnected := false
    commonFlagShutdownReceived := false
    commonFlagSessionIdReceived := false
    commonValueSessionId := 0
    commonValueSequenceNumber := 0
    totalNumberOfParsedFrames := 0
    totalNumberOfReceivedMessages := 0
    totalNumberOfRejectedMessages := 0 }

def construct (p : Process) : Object → Process
  | .ringBuffer0 =>
    { p with
      returnValue := orCode p.returnValue (ringInitialize ringBufferSize).1
      context.ring0 := (ringInitialize ringBufferSize).2 }
  | .ringBuffer1 =>
    { p with
      returnValue := orCode p.returnValue (ringInitialize ringBufferSize).1
      context.ring1.ringbuf := (ringInitialize ringBufferSize).2 }
  | .commonData => { p with context.common := commonData }
  | .networkReceiver =>
    { p with
      receiver.jumbo := NetworkReceiverImplementationEFVI.constructed p.receiver.jumbo
      lifecycle := p.lifecycle.constructed }
  | .parser =>
    let x := p.context
    { p with context := ParserImplementation.constructed x.common x.parser x.ring0 x.ring1 }
  | .inserter => { p with lifetime := InserterLifetime.constructed p.lifetime.inserter }
  | _ => p

def stickThisThreadToProcessorCore (e : Environment) : Int :=
  if e.schedSetaffinity = -1 then -1 else if e.mlockall < 0 then -1 else e.schedSetaffinity

def receiverCall (e : Environment) : InitializeCall := { e.initializeCall with commonData := true }

def initializeReceiver (e : Environment) (p : Process) : Process :=
  let r := NetworkReceiverImplementationEFVI.initializeReceiver (receiverCall e) p.lifecycle
  { p with
    returnValue := orCode p.returnValue r.1
    lifecycle := r.2
    receiver :=
      { p.receiver with
        initialized := r.2.initialized
        -- `InitVi` succeeds where it allocates the interface, and `InitPktsMemory` comes next
        rxPrefixLen := if r.2.efViIsAllocated then e.unset.rxPrefixLen else p.receiver.rxPrefixLen
        num := if r.2.efViIsAllocated then pktPoolSize else p.receiver.num }
    context.common.commonFlagConnected :=
      if (receiverCall e).argumentsOk then r.2.initialized else p.common.commonFlagConnected }

def initializeInserter (e : Environment) (p : Process) : Process :=
  let r := InserterLifetime.initializeInserter e.openCalls (some p.common) true p.lifetime
  { p with
    returnValue := orCode p.returnValue r.1
    context.common := r.2.1.getD p.common
    lifetime := r.2.2.1 }.store r.2.2.2

def finishInitialize (p : Process) : Process :=
  if p.returnValue ≠ 0 then p.withRunFlag false
  else { p with lifetime.inserter.writerFlags :=
          (writerFlagsShutdown ||| writerFlagsConnected) &&& ~~~writerFlagsInSession }

/-! The main loop. -/

def iterate (t : Turn) (p : Process) : Process :=
  match p.streamState with
  | .waitForSession =>
    if p.returnValue = 0 then
      if p.common.applicationRunFlag ∧
          ¬(p.common.commonFlagConnected ∧ p.common.commonFlagSessionIdReceived) then
        { p with todo := [.call (.readKeyboardInput t.key), .call (.writeTimestamp t.now),
            .call (.receive t.events), .parseIfRunning, .testRunFlag] ++ p.todo }
      else { p with streamState := .transitToSession, todo := .testRunFlag :: p.todo }
    else { p with todo := .testRunFlag :: p.todo }
  | .transitToSession =>
    if p.common.applicationRunFlag ∧ p.common.commonFlagConnected then
      { p with streamState := .inSession, todo := .testRunFlag :: p.todo }
    else { p with todo := .testRunFlag :: p.todo }
  | .inSession =>
    if p.returnValue = 0 then
      if p.common.applicationRunFlag ∧ p.common.commonFlagConnected then
        { p with todo := [.call (.insert t.now), .call (.receive t.events), .call .parse,
            .call (.readKeyboardInput t.key), .testRunFlag] ++ p.todo }
      else { p with todo := .testRunFlag :: p.todo }
    else { p with todo := .testRunFlag :: p.todo }

/-! `Uninitialize`. -/

def uninitializeInserter (p : Process) : Option Process :=
  if .inserter ∈ p.live then
    (InserterLifetime.uninitializeInserter p.lifetime).map fun r =>
      { p with returnValue := r.1, lifetime := r.2.1 }.store r.2.2
  else some p

def uninitializeReceiver (e : Environment) (p : Process) : Process :=
  if .networkReceiver ∈ p.live then
    let r := NetworkReceiverImplementationEFVI.uninitializeReceiver e.uninitializeCall p.lifecycle
    { p with
      returnValue := orCode p.returnValue r.1
      lifecycle := r.2
      receiver.initialized := r.2.initialized
      context.common.commonFlagConnected := p.common.commonFlagConnected &&
        !(p.lifecycle.initialized && p.lifecycle.commonDataPtr) }
  else p

/-! The process. -/

/-- The objects whose members are used. `Uninitialize` looks at its pointers first. -/
def Op.needs : Op → List Object
  | .new .logger => [.arguments]
  | .new .ringBuffer0 => [.logger]
  | .new .ringBuffer1 => [.logger]
  | .new .commonData => [.arguments]
  | .new .parser => [.commonData, .logger]
  | .stickThisThreadToProcessorCore => [.processor, .arguments, .logger]
  | .installHandler => [.commonData]
  | .initializeReceiver => [.networkReceiver, .arguments, .commonData, .logger]
  | .initializeInserter => [.inserter, .commonData, .logger]
  | .finishInitialize => [.commonData, .inserter, .logger]
  | .iterate => [.commonData, .inserter, .logger]
  | .call (.receive _) => [.networkReceiver, .commonData, .ringBuffer0, .tsc, .logger]
  | .call .parse => [.parser, .commonData, .ringBuffer0, .ringBuffer1, .logger]
  | .call (.insert _) => [.inserter, .commonData, .ringBuffer1, .tsc, .percentile, .logger]
  | .call (.writeTimestamp _) => [.inserter, .commonData, .logger]
  | .call (.readKeyboardInput _) =>
    [.keyboard, .commonData, .inserter, .percentile, .ringBuffer0, .ringBuffer1, .logger]
  | .parseIfRunning => [.commonData]
  | .testRunFlag => [.commonData]
  | _ => []

/-- What an object that is deleted or uninitialized uses besides: the receiver takes back the flag of
the connection, the inserter prints its counters, and the messages go to the logger. -/
def Object.uses : Object → List Object
  | .networkReceiver => [.commonData]
  | .inserter => [.commonData, .logger]
  | .ringBuffer0 => [.logger]
  | .ringBuffer1 => [.logger]
  | _ => []

def perform (e : Environment) (t : Turn) (p : Process) : Op → Option Process
  | .new o => some { construct p o with live := o :: p.live }
  | .stickThisThreadToProcessorCore =>
    some { p with returnValue := orCode p.returnValue (stickThisThreadToProcessorCore e) }
  | .installHandler => some { p with handler := true }
  | .initializeReceiver => some (initializeReceiver e p)
  | .initializeInserter => some (initializeInserter e p)
  | .finishInitialize => some (finishInitialize p)
  | .testReturnValue =>
    some { p with
      retVal := p.returnValue
      todo := if p.returnValue = 0 then .iterate :: p.todo else p.todo }
  | .iterate => some (iterate t p)
  | .call a => (Pipeline.perform p.system a).toOption.map p.withSystem
  | .parseIfRunning =>
    some (if p.common.applicationRunFlag then { p with todo := .call .parse :: p.todo } else p)
  | .testRunFlag =>
    some (if p.common.applicationRunFlag then { p with todo := .iterate :: p.todo } else p)
  | .clearReturnValue => some { p with returnValue := 0 }
  | .uninitializeInserter =>
    if .inserter ∈ p.live → Object.inserter.uses ⊆ p.live then uninitializeInserter p else none
  | .uninitializeReceiver =>
    if .networkReceiver ∈ p.live → Object.networkReceiver.uses ⊆ p.live then
      some (uninitializeReceiver e p)
    else none
  | .delete o =>
    if o ∈ p.live → o.uses ⊆ p.live then some { p with live := p.live.erase o } else none
  | .keepReturnValue => some { p with retVal := p.returnValue }

/-- The next operation; there is none where it would use an object that is not there, or a call
that does not return. -/
def advance (e : Environment) (t : Turn) (p : Process) : Option Process :=
  match p.todo with
  | [] => none
  | o :: rest => if o.needs ⊆ p.live then perform e t { p with todo := rest } o else none

/-- `signal_handler`, which stores through `RunFlagSignal` whatever has become of the data. -/
def signalHandler (p : Process) : Option Process :=
  if .commonData ∈ p.live then some (p.withRunFlag false) else none

/-- Until the handler is installed, a SIGINT ends the process by itself. -/
inductive Label where
  | op (o : Op) (t : Turn)
  | sigint

inductive Step (e : Environment) (p : Process) : Label → Process → Prop where
  | op {o : Op} {t : Turn} {p' : Process} (hhead : p.todo.head? = some o)
      (hok : advance e t p = some p') : Step e p (.op o t) p'
  | sigint {p' : Process} (hhandler : p.handler = true) (hok : signalHandler p = some p') :
      Step e p .sigint p'

/-- The process when `main` is entered. What the constructors overwrite is of no account. -/
def enter (e : Environment) : Process :=
  { todo := mainOps
    live := []
    returnValue := 0
    retVal := -1
    handler := false
    streamState := .waitForSession
    context :=
      { common := commonData
        parser := e.unset.parser
        ring0 := (ringInitialize 0).2
        ring1 := ⟨e.unset.ringbufsnap, (ringInitialize 0).2⟩ }
    receiver :=
      { initialized := false
        rxPrefixLen := 0
        num := 0
        jumbo :=
          { inPkt := false
            bufIds := ⟨maxPktFrags, e.unset.bufIds⟩
            fragDataLen := ⟨maxPktFrags, e.unset.fragDataLen⟩
            nFrags := 0
            payloadBytes := 0
            data := ⟨jumboSize, e.unset.data⟩ } }
    lifecycle := e.lifecycle
    lifetime := ⟨e.unset.inserter, false, false, false, ⟨none, false⟩⟩ }

end UdpSm.Main
