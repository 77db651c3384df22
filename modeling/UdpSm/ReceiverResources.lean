import UdpSm.Lib.Transition
import UdpSm.ReceiverPool

/-! What `Initialize` and `Uninitialize` of the receiver acquire and release. -/
namespace UdpSm.NetworkReceiverImplementationEFVI
open Lib

inductive Resource where
  | driver
  | pd
  | vi
  | memory
deriving DecidableEq, Repr

/-- What was acquired, in order, and the positions of what was released. The block of
`posix_memalign`, which nothing frees, and the socket are not on it. -/
structure Ledger where
  acquired : List Resource
  released : List Nat

structure Lifecycle where
  initialized : Bool
  efViDriverIsOpen : Bool
  efPdIsAllocated : Bool
  efViIsAllocated : Bool
  efMemIsAllocated : Bool
  dh : Int
  commonDataPtr : Bool
  returnValue : Int
  /-- The acquisition that a member (`dh`, `pd`, `vi`, `memreg`) stands for. -/
  member : Resource → Nat
  ledger : Ledger

def Lifecycle.constructed (s : Lifecycle) : Lifecycle :=
  { s with
    efViDriverIsOpen := false
    efPdIsAllocated := false
    efViIsAllocated := false
    efMemIsAllocated := false
    commonDataPtr := false
    ledger := ⟨[], []⟩ }

def acquire (r : Resource) (s : Lifecycle) : Lifecycle :=
  { s with
    member := Function.update s.member r s.ledger.acquired.length
    ledger.acquired := s.ledger.acquired ++ [r] }

def release (r : Resource) (s : Lifecycle) : Lifecycle :=
  { s with ledger.released := s.ledger.released ++ [s.member r] }

/-! The socket (`NetInterface.cpp`), by what its calls return. -/

structure SocketCalls where
  socket : Int
  reuse : Int
  bind : Int
  membership : Int

def socketInitializeIPv4Receiver (c : SocketCalls) : Int :=
  if c.socket < 0 then -2
  else if c.reuse < 0 then -3
  else if c.bind ≠ 0 then -4
  else if c.membership < 0 then -5
  else 0

/-! `Initialize`. -/

def ifnamsiz : Nat := 16
def inetAddrstrlen : Nat := 16

structure InitializeCall where
  commonData : Bool
  networkInterfaceName : Option (List UInt8)
  ipv4MulticastAddress : Option (List UInt8)
  driverOpen : Int
  dh : Int
  pdAlloc : Int
  viAlloc : Int
  posixMemalign : Int
  memregAlloc : Int
  filterSpec : Int
  filterAdd : Int
  socket : SocketCalls
  resource : VirtualInterfaceResource

def openDriver (c : InitializeCall) (s : Lifecycle) : Int × Lifecycle :=
  if s.efViDriverIsOpen then (0, s)
  else if c.driverOpen = 0 then (0, { acquire .driver s with dh := c.dh, efViDriverIsOpen := true })
  else (c.driverOpen, { s with efViDriverIsOpen := true })

def allocVi (c : InitializeCall) (s : Lifecycle) : Int × Lifecycle :=
  if s.efPdIsAllocated ∧ ¬s.efViIsAllocated then
    if c.viAlloc = 0 then (0, { acquire .vi s with efViIsAllocated := true }) else (c.viAlloc, s)
  else (0, s)

def allocPd (c : InitializeCall) (r : Int × Lifecycle) : Int × Lifecycle :=
  if r.2.efViDriverIsOpen ∧ ¬r.2.efPdIsAllocated then
    if c.pdAlloc = 0 then allocVi c { acquire .pd r.2 with efPdIsAllocated := true }
    else (c.pdAlloc, r.2)
  else r

def initVi (c : InitializeCall) (s : Lifecycle) : Int × Lifecycle :=
  let r := allocPd c (openDriver c s)
  if r.2.efViIsAllocated then r else (-1, r.2)

/-- `InitPktsMemory`. What `ef_memreg_alloc` returns is not looked at. -/
def initMemory (c : InitializeCall) (s : Lifecycle) : Int × Lifecycle :=
  let r := initPktsMemory s.efViIsAllocated s.efMemIsAllocated c.posixMemalign c.resource
  let registers := r.2.1 ∧ ¬s.efMemIsAllocated ∧ c.memregAlloc = 0
  (r.1, { (if registers then acquire .memory s else s) with efMemIsAllocated := r.2.1 })

def addFilter (c : InitializeCall) : Int := if c.filterSpec = 0 then c.filterAdd else c.filterSpec

def connectReceiver (c : InitializeCall) (s : Lifecycle) : Int × Lifecycle :=
  let r := initVi c s
  if r.1 = 0 then
    let r := initMemory c r.2
    if r.1 = 0 then
      if addFilter c = 0 then
        let returnValue := socketInitializeIPv4Receiver c.socket
        (returnValue,
          { r.2 with
            returnValue := returnValue
            initialized := r.2.initialized || (c.commonData && returnValue = 0) })
      else (addFilter c, r.2)
    else r
  else r

def argumentOk (argument : Option (List UInt8)) (size : Nat) : Bool :=
  argument.any fun bytes => bytes.length ≤ size

def InitializeCall.argumentsOk (c : InitializeCall) : Bool :=
  argumentOk c.networkInterfaceName ifnamsiz && argumentOk c.ipv4MulticastAddress inetAddrstrlen

def initializeReceiver (c : InitializeCall) (s : Lifecycle) : Int × Lifecycle :=
  let s := { s with initialized := false, commonDataPtr := c.commonData }
  if c.argumentsOk then
    let r := connectReceiver c s
    (if c.commonData then r.1 else -1, r.2)
  else (-1, s)

/-! `Uninitialize`. -/

structure UninitializeCall where
  memregFree : Int
  viFree : Int
  pdFree : Int
  driverClose : Int

def orCode (a b : Int) : Int := (Int32.ofInt a ||| Int32.ofInt b).toInt

def releaseMemory (u : UninitializeCall) (s : Lifecycle) : Int × Lifecycle :=
  if s.efMemIsAllocated then (u.memregFree, { release .memory s with efMemIsAllocated := false })
  else (0, s)

def releaseVi (u : UninitializeCall) (r : Int × Lifecycle) : Int × Lifecycle :=
  if r.2.efViIsAllocated then
    (orCode r.1 u.viFree, { release .vi r.2 with efViIsAllocated := false })
  else r

def releasePd (u : UninitializeCall) (r : Int × Lifecycle) : Int × Lifecycle :=
  if r.2.efPdIsAllocated then
    (orCode r.1 u.pdFree, { release .pd r.2 with efPdIsAllocated := false })
  else r

def releaseDriver (u : UninitializeCall) (r : Int × Lifecycle) : Int × Lifecycle :=
  if r.2.efViDriverIsOpen then
    (orCode r.1 u.driverClose, { release .driver r.2 with dh := 0, efViDriverIsOpen := false })
  else r

def releaseAll (u : UninitializeCall) (s : Lifecycle) : Int × Lifecycle :=
  releaseDriver u (releasePd u (releaseVi u (releaseMemory u s)))

/-- `SocketUninitialize` returns 0. -/
def uninitializeReceiver (u : UninitializeCall) (s : Lifecycle) : Int × Lifecycle :=
  if s.initialized then
    let r := if s.dh ≠ 0 then releaseAll u s else (0, s)
    (if s.commonDataPtr then r.1 else orCode r.1 (-1),
      { r.2 with initialized := false, commonDataPtr := false, returnValue := 0 })
  else (0, { s with returnValue := 0 })

/-! Calls one after another. -/

inductive LifecycleAction where
  | open (c : InitializeCall)
  | close (u : UninitializeCall)

def LifecycleAction.perform (s : Lifecycle) : LifecycleAction → Lifecycle
  | .open c => (initializeReceiver c s).2
  | .close u => (uninitializeReceiver u s).2

structure LifecycleCall where
  before : Lifecycle
  action : LifecycleAction

def LifecycleStep (s : Lifecycle) (c : LifecycleCall) (s' : Lifecycle) : Prop :=
  c.before = s ∧ c.action.perform s = s'

structure InitializeCall.Succeeds (c : InitializeCall) : Prop where
  driverOpen : c.driverOpen = 0
  dh : c.dh ≠ 0
  pdAlloc : c.pdAlloc = 0
  viAlloc : c.viAlloc = 0
  posixMemalign : c.posixMemalign = 0
  memregAlloc : c.memregAlloc = 0
  filter : addFilter c = 0
  socket : socketInitializeIPv4Receiver c.socket = 0

structure InitializeCall.Complete (c : InitializeCall) : Prop extends c.Succeeds where
  arguments : c.argumentsOk = true
  commonData : c.commonData = true

structure Lifecycle.Idle (s : Lifecycle) : Prop where
  driver : s.efViDriverIsOpen = false
  pd : s.efPdIsAllocated = false
  vi : s.efViIsAllocated = false
  memory : s.efMemIsAllocated = false

/-- An `Initialize` is called with nothing held, and either its arguments are turned down or it
completes. -/
def LifecycleCall.Orderly (c : LifecycleCall) : Prop :=
  ∀ i, c.action = .open i → c.before.Idle ∧ (i.argumentsOk = false ∨ i.Complete)

section Memory
variable {v : VirtualInterfaceResource}

theorem configBuffers_rv {n : Nat} (remaining : Nat) (hn : n + remaining = v.receiver.num.toNat) :
    ∃ v', configBuffers remaining (UInt32.ofNat n) (0, v) = (0, v') := by
  induction remaining generalizing n v with
  | zero => exact ⟨v, rfl⟩
  | succ remaining ih =>
    obtain ⟨m, hconfig, -, -⟩ := configBuffer_ok (v := v) (n := n) (by omega)
    have hnext : UInt32.ofNat n + 1 = UInt32.ofNat (n + 1) := (UInt32.ofNat_add n 1).symm
    rw [configBuffers, if_pos rfl, hconfig, hnext]
    exact ih (v := { v with pktMem := m }) (by rw [← hn]; omega)

theorem initPktsMemory_rv (posixMemalign : Int) (h : posixMemalign = 0) :
    (initPktsMemory true false posixMemalign v).1 = 0 ∧
      (initPktsMemory true false posixMemalign v).2.1 = true := by
  obtain ⟨v', hloop⟩ := configBuffers_rv
    (v := { v with receiver.num := pktPoolSize, pktMem.mem := fun _ => ⟨0, none⟩ }) (n := 0)
    pktPoolSize.toNat (Nat.zero_add _)
  have hzero : UInt32.ofNat 0 = 0 := rfl
  simp only [hzero] at hloop
  simp only [initPktsMemory]
  rw [if_pos (by simp), if_pos h, hloop]
  exact ⟨rfl, rfl⟩

theorem initPktsMemory_again (efViIsAllocated : Bool) (posixMemalign : Int) :
    (initPktsMemory efViIsAllocated true posixMemalign v).1 = -1 ∧
      (initPktsMemory efViIsAllocated true posixMemalign v).2.1 = true := by
  simp only [initPktsMemory]
  rw [if_neg (by simp)]
  exact ⟨rfl, rfl⟩

end Memory

section Step
variable {s : Lifecycle} {c : InitializeCall}

structure Lifecycle.Full (s : Lifecycle) : Prop where
  initialized : s.initialized = true
  driver : s.efViDriverIsOpen = true
  pd : s.efPdIsAllocated = true
  vi : s.efViIsAllocated = true
  memory : s.efMemIsAllocated = true
  dh : s.dh ≠ 0

def opened (c : InitializeCall) (s : Lifecycle) : Lifecycle :=
  { initialized := c.commonData
    efViDriverIsOpen := true
    efPdIsAllocated := true
    efViIsAllocated := true
    efMemIsAllocated := true
    dh := c.dh
    commonDataPtr := c.commonData
    returnValue := 0
    member := (acquire .memory (acquire .vi (acquire .pd (acquire .driver s)))).member
    ledger := ⟨s.ledger.acquired ++ [.driver, .pd, .vi, .memory], s.ledger.released⟩ }

theorem initMemory_ok (hvi : s.efViIsAllocated = true) (hmem : s.efMemIsAllocated = false)
    (hc : c.Succeeds) : initMemory c s = (0, { acquire .memory s with efMemIsAllocated := true }) := by
  obtain ⟨hrv, hflag⟩ := initPktsMemory_rv (v := c.resource) c.posixMemalign hc.posixMemalign
  rw [initMemory, hvi, hmem, hrv, hflag]
  rw [if_pos (by simp [hc.memregAlloc])]

def withVi (c : InitializeCall) (s : Lifecycle) : Lifecycle :=
  { acquire .vi (acquire .pd (acquire .driver s)) with
    efViDriverIsOpen := true
    efPdIsAllocated := true
    efViIsAllocated := true
    dh := c.dh }

theorem initVi_ok (hs : s.Idle) (hc : c.Succeeds) : initVi c s = (0, withVi c s) := by
  simp [initVi, allocPd, allocVi, openDriver, acquire, withVi, hs.driver, hs.pd, hs.vi,
    hc.driverOpen, hc.pdAlloc, hc.viAlloc]

theorem connectReceiver_ok (hs : s.Idle) (hinit : s.initialized = false)
    (hdata : s.commonDataPtr = c.commonData) (hc : c.Succeeds) :
    connectReceiver c s = (0, opened c s) := by
  have hmem : (withVi c s).efMemIsAllocated = false := hs.memory
  simp only [connectReceiver, initVi_ok hs hc, if_true]
  rw [initMemory_ok rfl hmem hc]
  simp [opened, withVi, acquire, hc.filter, hc.socket, hinit, hdata]

theorem initializeReceiver_ok (hs : s.Idle) (hargs : c.argumentsOk = true) (hc : c.Succeeds) :
    initializeReceiver c s = (if c.commonData then 0 else -1, opened c s) := by
  have hidle : Lifecycle.Idle { s with initialized := false, commonDataPtr := c.commonData } :=
    ⟨hs.driver, hs.pd, hs.vi, hs.memory⟩
  simp only [initializeReceiver, connectReceiver_ok hidle rfl rfl hc]
  rw [if_pos hargs]
  rfl

theorem initializeReceiver_complete (hs : s.Idle) (hc : c.Complete) :
    initializeReceiver c s = (0, opened c s) := by
  rw [initializeReceiver_ok hs hc.arguments hc.toSucceeds, if_pos hc.commonData]

theorem initializeReceiver_again (hdriver : s.efViDriverIsOpen = true) (hpd : s.efPdIsAllocated = true)
    (hvi : s.efViIsAllocated = true) (hmem : s.efMemIsAllocated = true) (c : InitializeCall) :
    (initializeReceiver c s).1 = -1 := by
  have hconnect : ∀ t : Lifecycle, t.efViDriverIsOpen = true → t.efPdIsAllocated = true →
      t.efViIsAllocated = true → t.efMemIsAllocated = true → (connectReceiver c t).1 = -1 := by
    intro t htdriver htpd htvi htmem
    have hinit : initVi c t = (0, t) := by simp [initVi, allocPd, openDriver, htdriver, htpd, htvi]
    obtain ⟨hrv, -⟩ := initPktsMemory_again (v := c.resource) t.efViIsAllocated c.posixMemalign
    have hmemory : (initMemory c t).1 = -1 := by
      rw [initMemory, htmem]
      exact hrv
    simp only [connectReceiver, hinit, hmemory]
    rw [if_pos trivial, if_neg (by decide)]
    exact hmemory
  simp only [initializeReceiver]
  split_ifs
  · exact hconnect _ hdriver hpd hvi hmem
  · rfl
  · rfl

theorem initializeReceiver_rejected (hc : c.argumentsOk = false) : initializeReceiver c s =
    (-1, { s with initialized := false, commonDataPtr := c.commonData }) := by
  rw [initializeReceiver, if_neg (by simp [hc])]

theorem uninitializeReceiver_idle (hs : s.Idle) (u : UninitializeCall) :
    (uninitializeReceiver u s).2.Idle ∧ (uninitializeReceiver u s).2.ledger = s.ledger := by
  have hall : releaseAll u s = (0, s) := by
    simp [releaseAll, releaseDriver, releasePd, releaseVi, releaseMemory, hs.driver, hs.pd, hs.vi,
      hs.memory]
  unfold uninitializeReceiver
  rw [hall]
  split_ifs <;> exact ⟨⟨hs.driver, hs.pd, hs.vi, hs.memory⟩, rfl⟩

theorem uninitializeReceiver_full (hs : s.Full) (u : UninitializeCall) :
    (uninitializeReceiver u s).2.Idle ∧ (uninitializeReceiver u s).2.ledger =
      ⟨s.ledger.acquired,
        s.ledger.released ++ [s.member .memory, s.member .vi, s.member .pd, s.member .driver]⟩ := by
  have hall : (releaseAll u s).2 =
      { s with
        efViDriverIsOpen := false
        efPdIsAllocated := false
        efViIsAllocated := false
        efMemIsAllocated := false
        dh := 0
        ledger := ⟨s.ledger.acquired,
          s.ledger.released ++ [s.member .memory, s.member .vi, s.member .pd, s.member .driver]⟩ } := by
    simp [releaseAll, releaseDriver, releasePd, releaseVi, releaseMemory, release, hs.driver, hs.pd,
      hs.vi, hs.memory]
  rw [uninitializeReceiver, if_pos hs.initialized, if_pos hs.dh]
  simp only [hall]
  exact ⟨⟨rfl, rfl, rfl, rfl⟩, trivial⟩

/-- Nothing is held and all was released, or the four members hold what was not. -/
inductive Lifecycle.Sound (s : Lifecycle) : Prop where
  | idle (hs : s.Idle) (hledger : s.ledger.released.Perm (List.range s.ledger.acquired.length))
  | full (hs : s.Full) (hledger : (s.ledger.released ++
      [s.member .memory, s.member .vi, s.member .pd, s.member .driver]).Perm
        (List.range s.ledger.acquired.length))

theorem Lifecycle.Sound.opened (hc : c.Complete)
    (hledger : s.ledger.released.Perm (List.range s.ledger.acquired.length)) :
    (NetworkReceiverImplementationEFVI.opened c s).Sound := by
  refine .full ⟨hc.commonData, rfl, rfl, rfl, rfl, hc.dh⟩ ?_
  let n := s.ledger.acquired.length
  have hmembers : (NetworkReceiverImplementationEFVI.opened c s).ledger.released ++
      [(NetworkReceiverImplementationEFVI.opened c s).member .memory,
        (NetworkReceiverImplementationEFVI.opened c s).member .vi,
        (NetworkReceiverImplementationEFVI.opened c s).member .pd,
        (NetworkReceiverImplementationEFVI.opened c s).member .driver] =
      s.ledger.released ++ [n + 3, n + 2, n + 1, n] := by
    simp [NetworkReceiverImplementationEFVI.opened, acquire, n]
  have hlength : (NetworkReceiverImplementationEFVI.opened c s).ledger.acquired.length = n + 4 := by
    simp [NetworkReceiverImplementationEFVI.opened, n]
  have hrange : List.range (n + 4) = List.range n ++ [n, n + 1, n + 2, n + 3] := by
    simp [List.range_succ]
  rw [hmembers, hlength, hrange]
  exact hledger.append (List.reverse_perm [n, n + 1, n + 2, n + 3])

theorem Lifecycle.Sound.step {d : LifecycleCall} {s' : Lifecycle} (h : s.Sound) (hd : d.Orderly)
    (hstep : LifecycleStep s d s') : s'.Sound := by
  obtain ⟨before, action⟩ := d
  obtain ⟨rfl, rfl⟩ := hstep
  cases action with
  | «open» i =>
    obtain ⟨hidle, hi⟩ := hd i rfl
    cases h with
    | idle _ hledger =>
      change (initializeReceiver i before).2.Sound
      cases hi with
      | inl hrejected =>
        rw [initializeReceiver_rejected hrejected]
        exact .idle ⟨hidle.driver, hidle.pd, hidle.vi, hidle.memory⟩ hledger
      | inr hcomplete =>
        rw [initializeReceiver_complete hidle hcomplete]
        exact .opened hcomplete hledger
    | full hs _ => exact absurd hidle.driver (by rw [hs.driver]; decide)
  | close u =>
    change (uninitializeReceiver u before).2.Sound
    cases h with
    | idle hs hledger =>
      obtain ⟨hidle, hkept⟩ := uninitializeReceiver_idle hs u
      exact .idle hidle (by rw [hkept]; exact hledger)
    | full hs hledger =>
      obtain ⟨hidle, hreleased⟩ := uninitializeReceiver_full hs u
      exact .idle hidle (by rw [hreleased]; exact hledger)

end Step

section Run
variable {unset s : Lifecycle} {cs : List LifecycleCall} {c : LifecycleCall}

theorem sound_run (h : Run LifecycleStep unset.constructed cs s) (hcs : ∀ d ∈ cs, d.Orderly) :
    s.Sound := by
  refine Run.invariant (fun cs s => (∀ d ∈ cs, d.Orderly) → s.Sound)
    (fun _ => .idle ⟨rfl, rfl, rfl, rfl⟩ (List.Perm.refl [])) ?_ h hcs
  intro cs s d s' hinv hstep hall
  exact (hinv fun e he => hall e (List.mem_append_left _ he)).step (hall d (by simp)) hstep

/-- In every run whose `Initialize` calls are orderly: after `Uninitialize` everything acquired has
been released, each once, and `Initialize` succeeds again. -/
theorem released_once (h : Run LifecycleStep unset.constructed cs s) (hcs : ∀ d ∈ cs, d.Orderly)
    (u : UninitializeCall) :
    (uninitializeReceiver u s).2.ledger.released.Perm
      (List.range (uninitializeReceiver u s).2.ledger.acquired.length) ∧
    ∀ i : InitializeCall, i.Complete →
      (initializeReceiver i (uninitializeReceiver u s).2).1 = 0 := by
  cases sound_run h hcs with
  | idle hs hledger =>
    obtain ⟨hidle, hkept⟩ := uninitializeReceiver_idle hs u
    rw [hkept]
    refine ⟨hledger, fun i hi => ?_⟩
    rw [initializeReceiver_complete hidle hi]
  | full hs hledger =>
    obtain ⟨hidle, hreleased⟩ := uninitializeReceiver_full hs u
    rw [hreleased]
    refine ⟨hledger, fun i hi => ?_⟩
    rw [initializeReceiver_complete hidle hi]

def succeeding (commonData : Bool) : InitializeCall :=
  { commonData := commonData
    networkInterfaceName := some [101, 116, 104, 48] -- "eth0"
    ipv4MulticastAddress := some [50, 51, 57, 46, 50, 46, 51, 46, 49] -- "239.2.3.1"
    driverOpen := 0
    dh := 3
    pdAlloc := 0
    viAlloc := 0
    posixMemalign := 0
    memregAlloc := 0
    filterSpec := 0
    filterAdd := 0
    socket := ⟨4, 0, 0, 0⟩
    resource := zeroed blankReceiver 512 }

theorem step_open {i : InitializeCall} {rv : Int} {s' : Lifecycle}
    (h : initializeReceiver i s = (rv, s')) : LifecycleStep s ⟨s, .open i⟩ s' :=
  ⟨rfl, congrArg Prod.snd h⟩

theorem step_close (u : UninitializeCall) (s : Lifecycle) :
    LifecycleStep s ⟨s, .close u⟩ (uninitializeReceiver u s).2 := ⟨rfl, rfl⟩

def allFreed : UninitializeCall := ⟨0, 0, 0, 0⟩

def blankLifecycle : Lifecycle :=
  ⟨false, false, false, false, false, 0, false, 0, fun _ => 0, ⟨[], []⟩⟩

theorem succeeds_succeeding (commonData : Bool) : (succeeding commonData).Succeeds :=
  ⟨rfl, by simp [succeeding], rfl, rfl, rfl, rfl, rfl, rfl⟩

theorem complete_succeeding : (succeeding true).Complete :=
  ⟨succeeds_succeeding true, by decide, rfl⟩

theorem released_once_two_rounds : ∃ cs s, Run LifecycleStep blankLifecycle.constructed cs s ∧
    s.ledger.acquired.length = 8 ∧ (uninitializeReceiver allFreed s).2.ledger.released.Perm
      (List.range (uninitializeReceiver allFreed s).2.ledger.acquired.length) ∧
    (initializeReceiver (succeeding true) (uninitializeReceiver allFreed s).2).1 = 0 := by
  have hc := complete_succeeding
  have hidle : blankLifecycle.constructed.Idle := ⟨rfl, rfl, rfl, rfl⟩
  have hfull : (opened (succeeding true) blankLifecycle.constructed).Full :=
    ⟨rfl, rfl, rfl, rfl, rfl, hc.dh⟩
  obtain ⟨hclosed, -⟩ := uninitializeReceiver_full hfull allFreed
  have hopen := step_open (initializeReceiver_complete hidle hc)
  have hclose := step_close allFreed (opened (succeeding true) blankLifecycle.constructed)
  have hreopen := step_open (initializeReceiver_complete hclosed hc)
  have hrun := ((Run.single hopen).append (Run.single hclose)).append (Run.single hreopen)
  have hcs := released_once hrun (by
    intro d hd i hi
    simp only [List.cons_append, List.nil_append, List.mem_cons, List.not_mem_nil, or_false] at hd
    obtain rfl | rfl | rfl := hd
    · cases hi
      exact ⟨hidle, .inr hc⟩
    · cases hi
    · cases hi
      exact ⟨hclosed, .inr hc⟩) allFreed
  exact ⟨_, _, hrun, rfl, hcs.1, hcs.2 _ hc⟩

/-- Without common data everything is acquired and nothing released, and the next `Initialize`
fails. -/
theorem null_common_data_leaks : ∃ cs s, Run LifecycleStep blankLifecycle.constructed cs s ∧
    s.ledger = ⟨[.driver, .pd, .vi, .memory], []⟩ ∧
    (uninitializeReceiver allFreed s).2.ledger = ⟨[.driver, .pd, .vi, .memory], []⟩ ∧
    (succeeding true).Complete ∧
    (initializeReceiver (succeeding true) (uninitializeReceiver allFreed s).2).1 = -1 := by
  have hidle : blankLifecycle.constructed.Idle := ⟨rfl, rfl, rfl, rfl⟩
  have hopen := step_open (initializeReceiver_ok hidle (by decide) (succeeds_succeeding false))
  have hrun := Run.single hopen
  exact ⟨_, _, hrun, rfl, rfl, complete_succeeding,
    initializeReceiver_again rfl rfl rfl rfl (succeeding true)⟩

end Run

end UdpSm.NetworkReceiverImplementationEFVI
