import UdpSm.Main

/-! The process up to the first turn of the main loop. -/
namespace UdpSm.Main
open Lib RingFIFOBuffer InserterImplementation
open Pipeline (System Unset initial)
open NetworkReceiverImplementationEFVI (Lifecycle InitializeCall orCode pktPoolSize initVi allocPd
  allocVi openDriver acquire initMemory initPktsMemory initPktsMemory_rv connectReceiver addFilter
  SocketCalls socketInitializeIPv4Receiver)
open InserterLifetime (OpenCalls Mapping emptied openSharedMemoryFile)
open UDPJubmoFrameReceiverImplementation (StreamStatusEnum Turn Program start)

def quiet : Turn := ⟨[], 0, none⟩

/-! Operations that follow one another whatever happens. -/

def Op.straight : Op → Bool
  | .testReturnValue => false
  | .iterate => false
  | .call _ => false
  | .parseIfRunning => false
  | .testRunFlag => false
  | _ => true

/-- The process without its run flag and without what it has still to do. -/
def Process.core (p : Process) : Process := { p.withRunFlag false with todo := [] }

/-- The process, but for the run flag, after operations that no signal has a say in. -/
def performed (e : Environment) (ops : List Op) (q : Process) : Process :=
  ops.foldl (fun p o => ((perform e quiet p o).getD p).core) q.core

def liveStep (live : List Object) : Op → List Object
  | .new o => o :: live
  | .delete o => live.erase o
  | _ => live

/-- `finished` has been performed since `q`, and `left` and `rest` are next. -/
structure Straight (e : Environment) (q : Process) (finished left rest : List Op) (p : Process) :
    Prop where
  straight : ∀ o ∈ finished ++ left, o.straight = true
  todo : p.todo = left ++ rest
  live : p.live = finished.foldl liveStep q.live
  core : p.core = performed e finished q

section Straight
variable {e : Environment} {t : Turn} {p p' q : Process} {o : Op} {finished left rest : List Op}

theorem performed_snoc (e : Environment) (ops : List Op) (o : Op) (q : Process) :
    performed e (ops ++ [o]) q =
      ((perform e quiet (performed e ops q) o).getD (performed e ops q)).core := by
  rw [performed, List.foldl_append]
  rfl

theorem finishInitialize_core (p : Process) :
    (finishInitialize p).core = (finishInitialize p.core).core ∧
      (finishInitialize p).todo = p.todo := by
  have hsame : p.core.returnValue = p.returnValue := rfl
  unfold finishInitialize
  rw [hsame]
  split_ifs
  · exact ⟨rfl, rfl⟩
  · exact ⟨rfl, rfl⟩

theorem initializeInserter_core (e : Environment) (p : Process) :
    (initializeInserter e p).core = (initializeInserter e p.core).core := by
  have hopen (c : CommonData) : InserterLifetime.opening e.openCalls (some c) true =
      openSharedMemoryFile e.openCalls := by
    funext m
    exact if_pos ⟨rfl, rfl⟩
  have hmapping : p.core.lifetime = p.lifetime := rfl
  simp only [initializeInserter, InserterLifetime.initializeInserter, hopen, hmapping]
  split_ifs
  · rfl
  · rfl

/-- What such an operation does depends on the run flag in nothing but the run flag. -/
theorem perform_core (ho : o.straight = true) (h : perform e t p o = some p') :
    ∃ q, perform e quiet p.core o = some q ∧ p'.core = q.core ∧ p'.todo = p.todo := by
  cases o with
  | new o =>
    obtain rfl := Option.some.inj h
    cases o <;> exact ⟨_, rfl, rfl, rfl⟩
  | stickThisThreadToProcessorCore =>
    obtain rfl := Option.some.inj h
    exact ⟨_, rfl, rfl, rfl⟩
  | installHandler =>
    obtain rfl := Option.some.inj h
    exact ⟨_, rfl, rfl, rfl⟩
  | initializeReceiver =>
    obtain rfl := Option.some.inj h
    exact ⟨_, rfl, rfl, rfl⟩
  | initializeInserter =>
    obtain rfl := Option.some.inj h
    exact ⟨_, rfl, initializeInserter_core e p, rfl⟩
  | finishInitialize =>
    obtain rfl := Option.some.inj h
    obtain ⟨hcore, htodo⟩ := finishInitialize_core p
    exact ⟨_, rfl, hcore, htodo⟩
  | clearReturnValue =>
    obtain rfl := Option.some.inj h
    exact ⟨_, rfl, rfl, rfl⟩
  | uninitializeInserter =>
    have hlive : p.core.live = p.live := rfl
    simp only [perform, uninitializeInserter, hlive] at h ⊢
    split_ifs at h ⊢ with huses hin
    · have hlifetime : p.core.lifetime = p.lifetime := rfl
      obtain ⟨r, hr, rfl⟩ := Option.map_eq_some_iff.mp h
      rw [hlifetime, hr]
      exact ⟨_, rfl, rfl, rfl⟩
    · obtain rfl := Option.some.inj h
      exact ⟨_, rfl, rfl, rfl⟩
  | uninitializeReceiver =>
    have hlive : p.core.live = p.live := rfl
    simp only [perform, uninitializeReceiver, hlive] at h ⊢
    split_ifs at h ⊢
    · obtain rfl := Option.some.inj h
      exact ⟨_, rfl, rfl, rfl⟩
    · obtain rfl := Option.some.inj h
      exact ⟨_, rfl, rfl, rfl⟩
  | delete o =>
    have hlive : p.core.live = p.live := rfl
    simp only [perform, hlive] at h ⊢
    split_ifs at h ⊢
    obtain rfl := Option.some.inj h
    exact ⟨_, rfl, rfl, rfl⟩
  | keepReturnValue =>
    obtain rfl := Option.some.inj h
    exact ⟨_, rfl, rfl, rfl⟩
  | testReturnValue => cases ho
  | iterate => cases ho
  | call => cases ho
  | parseIfRunning => cases ho
  | testRunFlag => cases ho

theorem advance_some (h : advance e t p = some p') : ∃ o rest, p.todo = o :: rest ∧
    o.needs ⊆ p.live ∧ perform e t { p with todo := rest } o = some p' := by
  unfold advance at h
  cases htodo : p.todo with
  | nil => simp [htodo] at h
  | cons o rest =>
    simp only [htodo] at h
    split_ifs at h with hneeds
    exact ⟨o, rest, rfl, hneeds, h⟩

theorem Step.head (h : Step e p (.op o t) p') : ∃ rest, p.todo = o :: rest ∧
    o.needs ⊆ p.live ∧ perform e t { p with todo := rest } o = some p' := by
  cases h with
  | op hhead hok =>
    obtain ⟨o', rest, htodo, hneeds, hperform⟩ := advance_some hok
    obtain rfl : o' = o := by simpa [htodo] using hhead
    exact ⟨rest, htodo, hneeds, hperform⟩

theorem Step.signalled (h : Step e p .sigint p') : p.handler = true ∧ .commonData ∈ p.live ∧
    p' = p.withRunFlag false := by
  cases h with
  | sigint hhandler hok =>
    unfold signalHandler at hok
    split_ifs at hok with hlive
    exact ⟨hhandler, hlive, (Option.some.inj hok).symm⟩

theorem Straight.sigint (h : Straight e q finished left rest p) :
    Straight e q finished left rest (p.withRunFlag false) :=
  ⟨h.straight, h.todo, h.live, h.core⟩

theorem perform_live (ho : o.straight = true) (h : perform e t p o = some p') :
    p'.live = liveStep p.live o := by
  cases o with
  | finishInitialize =>
    obtain rfl := Option.some.inj h
    unfold finishInitialize
    split_ifs
    · rfl
    · rfl
  | uninitializeInserter =>
    simp only [perform, uninitializeInserter] at h
    split_ifs at h
    · obtain ⟨r, -, rfl⟩ := Option.map_eq_some_iff.mp h
      rfl
    · obtain rfl := Option.some.inj h
      rfl
  | uninitializeReceiver =>
    simp only [perform, uninitializeReceiver] at h
    split_ifs at h
    · obtain rfl := Option.some.inj h
      rfl
    · obtain rfl := Option.some.inj h
      rfl
  | delete o =>
    simp only [perform] at h
    split_ifs at h
    obtain rfl := Option.some.inj h
    rfl
  | testReturnValue => cases ho
  | iterate => cases ho
  | call => cases ho
  | parseIfRunning => cases ho
  | testRunFlag => cases ho
  | _ =>
    obtain rfl := Option.some.inj h
    rfl

theorem Straight.op {ops : List Op} (h : Straight e q finished (o :: left) rest p)
    (htodo : p.todo = o :: ops) (hok : perform e t { p with todo := ops } o = some p') :
    Straight e q (finished ++ [o]) left rest p' := by
  have hstraight : o.straight = true := h.straight o (by simp)
  obtain ⟨r, hr, hcore, hsame⟩ := perform_core hstraight hok
  have hops : ops = left ++ rest := by
    have hleft := h.todo
    rw [htodo, List.cons_append] at hleft
    exact (List.cons.inj hleft).2
  refine ⟨?_, hsame.trans hops, ?_, ?_⟩
  · intro o' ho'
    exact h.straight o' (by simpa using ho')
  · rw [perform_live hstraight hok, List.foldl_append, ← h.live]
    rfl
  · rw [performed_snoc, ← h.core]
    change perform e quiet p.core o = some r at hr
    rw [hr]
    exact hcore

end Straight

section Ready
variable {e : Environment}

/-- What the network receiver's `Initialize` returns, and what it then holds. -/
def received (e : Environment) : Int × Lifecycle :=
  NetworkReceiverImplementationEFVI.initializeReceiver (receiverCall e) e.lifecycle.constructed

def openedFile (e : Environment) : Int × Mapping := openSharedMemoryFile e.openCalls ⟨none, false⟩

structure Environment.Succeeds (e : Environment) : Prop where
  pinned : stickThisThreadToProcessorCore e = 0
  received : (received e).1 = 0
  opened : (openedFile e).1 = 0

/-- The process at the end of `Initialize`, but for the run flag. -/
def ready (e : Environment) : Process := performed e initializeOps (enter e)

def unfinished (e : Environment) : Process := performed e initializeOps.dropLast (enter e)

def allObjects : List Object :=
  [.keyboard, .inserter, .parser, .networkReceiver, .commonData, .ringBuffer1, .ringBuffer0,
    .percentile, .tsc, .processor, .logger, .arguments]

theorem ready_eq (e : Environment) : ready e = (finishInitialize (unfinished e)).core := rfl

theorem finishInitialize_kept (p : Process) : (finishInitialize p).core.returnValue = p.returnValue ∧
    (finishInitialize p).core.live = p.live := by
  unfold finishInitialize
  split_ifs
  · exact ⟨rfl, rfl⟩
  · exact ⟨rfl, rfl⟩

theorem finishInitialize_zero {p : Process} (h : p.returnValue = 0) : (finishInitialize p).core =
    { p.core with lifetime.inserter.writerFlags :=
        (writerFlagsShutdown ||| writerFlagsConnected) &&& ~~~writerFlagsInSession } := by
  rw [finishInitialize, if_neg (not_not.mpr h)]
  rfl

theorem ready_live (e : Environment) : (ready e).live = allObjects :=
  (finishInitialize_kept (unfinished e)).2.trans rfl

/-! What `Initialize` returns. -/

theorem ring_initialized : (ringInitialize ringBufferSize).1 = 0 := by decide +kernel

def IsInt (v : Int) : Prop := -2147483648 ≤ v ∧ v < 2147483648

/-- What the calls return are values of type `int`. -/
structure Environment.Ints (e : Environment) : Prop where
  schedSetaffinity : IsInt e.schedSetaffinity
  driverOpen : IsInt e.initializeCall.driverOpen
  pdAlloc : IsInt e.initializeCall.pdAlloc
  viAlloc : IsInt e.initializeCall.viAlloc
  posixMemalign : IsInt e.initializeCall.posixMemalign
  filterSpec : IsInt e.initializeCall.filterSpec
  filterAdd : IsInt e.initializeCall.filterAdd
  ftruncate : IsInt e.openCalls.ftruncate

theorem ofInt_eq_zero {v : Int} (h : IsInt v) : Int32.ofInt v = 0 ↔ v = 0 := by
  constructor
  · intro hzero
    have hvalue : (Int32.ofInt v).toInt = v := Int32.toInt_ofInt_of_le h.1 h.2
    rw [← hvalue, hzero]
    rfl
  · rintro rfl
    rfl

theorem ofInt_orCode (a b : Int) :
    Int32.ofInt (orCode a b) = Int32.ofInt a ||| Int32.ofInt b := Int32.ofInt_toInt _

theorem orCode_eq_zero (a b : Int) :
    orCode a b = 0 ↔ Int32.ofInt a = 0 ∧ Int32.ofInt b = 0 := by
  rw [orCode, ← Int32.or_eq_zero_iff]
  constructor
  · intro h
    exact Int32.toInt_inj.mp h
  · intro h
    rw [h]
    rfl

theorem isInt_small {v : Int} (h : -8 ≤ v) (h' : v ≤ 8) : IsInt v := by
  unfold IsInt
  omega

theorem stick_isInt (h : e.Ints) : IsInt (stickThisThreadToProcessorCore e) := by
  unfold stickThisThreadToProcessorCore
  split_ifs
  · exact isInt_small (by decide) (by decide)
  · exact isInt_small (by decide) (by decide)
  · exact h.schedSetaffinity

theorem openedFile_isInt (h : e.Ints) : IsInt (openedFile e).1 := by
  unfold openedFile openSharedMemoryFile
  split_ifs
  · exact isInt_small (v := -2) (by decide) (by decide)
  · exact h.ftruncate
  · exact isInt_small (v := 0) (by decide) (by decide)
  · exact isInt_small (v := -3) (by decide) (by decide)
  · exact isInt_small (v := -1) (by decide) (by decide)

theorem initVi_idle {c : InitializeCall} {s : Lifecycle} (hs : s.Idle) :
    (initVi c s).2.efMemIsAllocated = false ∧ (initVi c s).2.initialized = s.initialized ∧
      (initVi c s).1 = if (initVi c s).2.efViIsAllocated then 0 else -1 := by
  by_cases hpd : c.pdAlloc = 0
  · by_cases hvi : c.viAlloc = 0
    · by_cases hdriver : c.driverOpen = 0
      · simp [initVi, allocPd, allocVi, openDriver, acquire, hs.driver, hs.pd, hs.vi, hs.memory, hpd,
          hvi, hdriver]
      · simp [initVi, allocPd, allocVi, openDriver, acquire, hs.driver, hs.pd, hs.vi, hs.memory, hpd,
          hvi, hdriver]
    · by_cases hdriver : c.driverOpen = 0
      · simp [initVi, allocPd, allocVi, openDriver, acquire, hs.driver, hs.pd, hs.vi, hs.memory, hpd,
          hvi, hdriver]
      · simp [initVi, allocPd, allocVi, openDriver, acquire, hs.driver, hs.pd, hs.vi, hs.memory, hpd,
          hvi, hdriver]
  · by_cases hdriver : c.driverOpen = 0
    · simp [initVi, allocPd, openDriver, acquire, hs.driver, hs.pd, hs.vi, hs.memory, hpd, hdriver]
    · simp [initVi, allocPd, openDriver, hs.driver, hs.pd, hs.vi, hs.memory, hpd, hdriver]

theorem initMemory_fresh {c : InitializeCall} {s : Lifecycle} (hvi : s.efViIsAllocated = true)
    (hmem : s.efMemIsAllocated = false) : (initMemory c s).1 = c.posixMemalign ∧
      (initMemory c s).2.efViIsAllocated = true ∧
      (initMemory c s).2.initialized = s.initialized := by
  have hrv : (initPktsMemory true false c.posixMemalign c.resource).1 = c.posixMemalign := by
    by_cases hzero : c.posixMemalign = 0
    · rw [(initPktsMemory_rv c.posixMemalign hzero).1, hzero]
    · simp [initPktsMemory, hzero]
  refine ⟨?_, ?_, ?_⟩
  · simp only [initMemory, hvi, hmem, hrv]
  · simp only [initMemory]
    split_ifs
    · exact hvi
    · exact hvi
  · simp only [initMemory]
    split_ifs
    · rfl
    · rfl

theorem socketInitializeIPv4Receiver_code (c : SocketCalls) :
    socketInitializeIPv4Receiver c ∈ [0, -2, -3, -4, -5] := by
  unfold socketInitializeIPv4Receiver
  split_ifs <;> decide

structure Listening (s : Lifecycle) : Prop where
  initialized : s.initialized = true
  vi : s.efViIsAllocated = true

theorem connectReceiver_outcome {c : InitializeCall} {s : Lifecycle} (hs : s.Idle)
    (hc : c.commonData = true) (hfresh : s.initialized = false) :
    ((connectReceiver c s).1 = 0 ∧ Listening (connectReceiver c s).2) ∨
    ((connectReceiver c s).2.initialized = false ∧ (connectReceiver c s).1 ≠ 0 ∧
      ((connectReceiver c s).1 ∈ [-1, -2, -3, -4, -5, c.posixMemalign, addFilter c])) := by
  obtain ⟨hmem, hkept, hrv⟩ := initVi_idle (c := c) hs
  unfold connectReceiver
  cases hvi : (initVi c s).2.efViIsAllocated with
  | false =>
    have hfailed : (initVi c s).1 = -1 := by simpa [hvi] using hrv
    simp only [hfailed]
    rw [if_neg (by decide)]
    exact .inr ⟨hkept.trans hfresh, by simp [hfailed], by simp [hfailed]⟩
  | true =>
    have hok : (initVi c s).1 = 0 := by simpa [hvi] using hrv
    obtain ⟨hmemory, hvi', hkept'⟩ := initMemory_fresh (c := c) hvi hmem
    simp only [hok, hmemory, if_true]
    by_cases hzero : c.posixMemalign = 0
    · rw [if_pos hzero]
      by_cases hfilter : addFilter c = 0
      · rw [if_pos hfilter]
        by_cases hsocket : socketInitializeIPv4Receiver c.socket = 0
        · exact .inl ⟨hsocket, by simp [hc, hsocket], hvi'⟩
        · refine .inr ⟨by simp [hc, hsocket, hkept', hkept, hfresh], hsocket, ?_⟩
          have hcode := socketInitializeIPv4Receiver_code c.socket
          simp only [List.mem_cons, List.not_mem_nil, or_false, hsocket, false_or] at hcode
          simp only [List.mem_cons, List.not_mem_nil, or_false]
          tauto
      · rw [if_neg hfilter]
        exact .inr ⟨hkept'.trans (hkept.trans hfresh), hfilter, by simp⟩
    · rw [if_neg hzero]
      exact .inr ⟨hkept'.trans (hkept.trans hfresh), by rwa [hmemory], by simp [hmemory]⟩

def fresh (e : Environment) : Lifecycle :=
  { e.lifecycle.constructed with initialized := false, commonDataPtr := true }

theorem received_eq (e : Environment) : received e =
    if (receiverCall e).argumentsOk then connectReceiver (receiverCall e) (fresh e)
    else (-1, fresh e) := by
  simp only [received, NetworkReceiverImplementationEFVI.initializeReceiver]
  have hdata : (receiverCall e).commonData = true := rfl
  rw [if_pos hdata]
  rfl

theorem received_outcome (e : Environment) :
    ((received e).1 = 0 ∧ Listening (received e).2 ∧ (receiverCall e).argumentsOk = true) ∨
    ((received e).2.initialized = false ∧ (received e).1 ≠ 0 ∧ (e.Ints → IsInt (received e).1)) := by
  rw [received_eq]
  split_ifs with hargs
  · have hidle : (fresh e).Idle := ⟨rfl, rfl, rfl, rfl⟩
    obtain ⟨hrv, hlistening⟩ | ⟨hoff, hrv, hcode⟩ :=
      connectReceiver_outcome (c := receiverCall e) hidle rfl rfl
    · exact .inl ⟨hrv, hlistening, hargs⟩
    · refine .inr ⟨hoff, hrv, fun hints => ?_⟩
      have hfilter : IsInt (addFilter (receiverCall e)) := by
        unfold addFilter
        split_ifs
        · exact hints.filterAdd
        · exact hints.filterSpec
      simp only [List.mem_cons, List.not_mem_nil, or_false] at hcode
      obtain h | h | h | h | h | h | h := hcode
      · exact isInt_small (by omega) (by omega)
      · exact isInt_small (by omega) (by omega)
      · exact isInt_small (by omega) (by omega)
      · exact isInt_small (by omega) (by omega)
      · exact isInt_small (by omega) (by omega)
      · exact h ▸ hints.posixMemalign
      · exact h ▸ hfilter
  · have hrv : (-1 : Int) ≠ 0 := by decide
    exact .inr ⟨rfl, hrv, fun _ => isInt_small (v := -1) (by decide) (by decide)⟩

theorem inserter_returns (o : OpenCalls) (c : CommonData) (s : InserterLifetime.Lifetime) :
    (InserterLifetime.initializeInserter o (some c) true s).1 =
      (openSharedMemoryFile o s.mapping).1 := by
  have hopen : InserterLifetime.opening o (some c) true s.mapping =
      openSharedMemoryFile o s.mapping := if_pos ⟨rfl, rfl⟩
  simp only [InserterLifetime.initializeInserter, hopen]
  split_ifs with hrv
  · exact hrv.symm
  · rfl

theorem orCode_zero {v : Int} (h : IsInt v) : orCode 0 v = v := by
  rw [orCode]
  change (0 ||| Int32.ofInt v).toInt = v
  rw [Int32.zero_or]
  exact Int32.toInt_ofInt_of_le h.1 h.2

theorem unfinished_returnValue (e : Environment) : ∃ c, (unfinished e).returnValue =
    orCode (orCode (orCode (orCode (orCode 0 (stickThisThreadToProcessorCore e))
      (ringInitialize ringBufferSize).1) (ringInitialize ringBufferSize).1) (received e).1)
      (InserterLifetime.initializeInserter e.openCalls (some c) true
        (InserterLifetime.constructed e.unset.inserter)).1 := ⟨_, rfl⟩

theorem ready_returnValue (h : e.Ints) : (ready e).returnValue = 0 ↔ e.Succeeds := by
  have hfinish : (ready e).returnValue = (unfinished e).returnValue :=
    (finishInitialize_kept (unfinished e)).1
  obtain ⟨c, hvalue⟩ := unfinished_returnValue e
  have hreceived : IsInt (received e).1 := by
    obtain ⟨hrv, -, -⟩ | ⟨-, -, hint⟩ := received_outcome e
    · rw [hrv]
      exact isInt_small (by decide) (by decide)
    · exact hint h
  have hopened : (InserterLifetime.initializeInserter e.openCalls (some c) true
      (InserterLifetime.constructed e.unset.inserter)).1 = (openedFile e).1 := inserter_returns _ c _
  rw [hfinish, hvalue, hopened, orCode_eq_zero, ofInt_orCode, Int32.or_eq_zero_iff, ofInt_orCode,
    Int32.or_eq_zero_iff, ofInt_orCode, Int32.or_eq_zero_iff, orCode_zero (stick_isInt h),
    ofInt_eq_zero (stick_isInt h), ofInt_eq_zero hreceived, ofInt_eq_zero (openedFile_isInt h),
    ring_initialized]
  constructor
  · rintro ⟨⟨⟨⟨hstick, -⟩, -⟩, hreceive⟩, hopen⟩
    exact ⟨hstick, hreceive, hopen⟩
  · intro hall
    exact ⟨⟨⟨⟨hall.pinned, rfl⟩, rfl⟩, hall.received⟩, hall.opened⟩

/-! Where every part succeeds, the loop starts in the state that the main loop is looked at from. -/

/-- The memory that is given to the process, with the shared memory file just made. -/
def Environment.started (e : Environment) : Unset :=
  { e.unset with file := emptied sharedMemoryAllocationSize }

theorem openSharedMemoryFile_zero {o : OpenCalls} {m : Mapping}
    (h : (openSharedMemoryFile o m).1 = 0) :
    (openSharedMemoryFile o m).2 = ⟨some (emptied sharedMemoryAllocationSize), true⟩ := by
  unfold openSharedMemoryFile at h ⊢
  split_ifs at h ⊢ with _ _ htruncate
  · cases h
  · exact absurd h htruncate
  · rfl
  · cases h
  · cases h

theorem initializeInserter_opened {p : Process}
    (h : (openSharedMemoryFile e.openCalls p.lifetime.mapping).1 = 0) : initializeInserter e p =
      { p with
        returnValue := orCode p.returnValue 0
        context.common :=
          { p.common with
            totalNumberOfReceivedMessages := 0
            totalNumberOfParsedFrames := 0
            totalNumberOfRejectedMessages := 0
            applicationRunFlag := true
            configurationFlags := 0 }
        lifetime :=
          { inserter := initialized p.lifetime.inserter
            commonDataPtr := true
            ringBufferPtr := true
            receivedDataPtr := true
            mapping := ⟨some ((emptied sharedMemoryAllocationSize).applyAll
              (initializeStores p.common p.lifetime.inserter)), true⟩ } } := by
  have hopen : InserterLifetime.opening e.openCalls (some p.common) true p.lifetime.mapping =
      openSharedMemoryFile e.openCalls p.lifetime.mapping := if_pos ⟨rfl, rfl⟩
  simp only [initializeInserter, InserterLifetime.initializeInserter, hopen, h, if_true,
    openSharedMemoryFile_zero h]
  rfl

def connecting (e : Environment) : Process := performed e (initializeOps.take 14) (enter e)

theorem unfinished_eq (e : Environment) : unfinished e =
    { (initializeInserter e (connecting e)).core with
      live := .keyboard :: (initializeInserter e (connecting e)).live } := by
  have hops : initializeOps.dropLast = initializeOps.take 14 ++ [.initializeInserter] ++
      [.new .keyboard] := rfl
  rw [unfinished, hops, performed_snoc, performed_snoc, connecting]
  generalize performed e (initializeOps.take 14) (enter e) = p
  rfl

theorem connecting_context (e : Environment) :
    (connecting e).context.common = { commonData with commonFlagConnected :=
      if (receiverCall e).argumentsOk then (received e).2.initialized else false } ∧
    (connecting e).context.parser = (initial e.started).context.parser ∧
    (connecting e).context.ring0 = (initial e.started).context.ring0 ∧
    (connecting e).context.ring1 = (initial e.started).context.ring1 := ⟨rfl, rfl, rfl, rfl⟩

theorem connecting_receiver (e : Environment) : (connecting e).receiver =
    { (initial e.started).receiver with
      initialized := (received e).2.initialized
      rxPrefixLen := if (received e).2.efViIsAllocated then e.unset.rxPrefixLen else 0
      num := if (received e).2.efViIsAllocated then pktPoolSize else 0 } := rfl

theorem connecting_lifetime (e : Environment) :
    (connecting e).lifetime = InserterLifetime.constructed e.unset.inserter := rfl

theorem connecting_system (h : e.Succeeds) :
    (connecting e).context.common = { commonData with commonFlagConnected := true } ∧
      (connecting e).receiver = (initial e.started).receiver := by
  obtain ⟨-, hlistening, hargs⟩ | ⟨-, hrv, -⟩ := received_outcome e
  · rw [(connecting_context e).1, connecting_receiver, if_pos hargs, hlistening.initialized,
      if_pos hlistening.vi, if_pos hlistening.vi]
    exact ⟨rfl, rfl⟩
  · exact absurd h.received hrv

structure Open (p : Process) : Prop where
  receivedDataPtr : p.lifetime.receivedDataPtr = true
  sharedMemoryBufferPtr : p.lifetime.mapping.sharedMemoryBufferPtr = true
  file : p.lifetime.mapping.file = some p.system.file

theorem ready_system (h : e.Succeeds) (hints : e.Ints) : Open (ready e) ∧
    (ready e).system =
      { initial e.started with context.common.applicationRunFlag := false } := by
  obtain ⟨-, hparser, hring0, hring1⟩ := connecting_context e
  obtain ⟨hcommon, hreceiver⟩ := connecting_system h
  have hzero : (unfinished e).returnValue = 0 := by
    rw [← (finishInitialize_kept (unfinished e)).1]
    exact (ready_returnValue hints).mpr h
  have hopened := initializeInserter_opened (p := connecting e) h.opened
  have hwriter := (ready_eq e).trans (finishInitialize_zero hzero)
  rw [hwriter, unfinished_eq, hopened]
  generalize hp : connecting e = p at hparser hring0 hring1 hcommon hreceiver
  obtain ⟨todo, live, returnValue, retVal, handler, streamState, ⟨common, parser, ring0, ring1⟩,
    receiver, lifecycle, lifetime⟩ := p
  obtain rfl : lifetime = _ := (congrArg Process.lifetime hp).symm.trans (connecting_lifetime e)
  obtain rfl : common = _ := hcommon
  obtain rfl : parser = _ := hparser
  obtain rfl : ring0 = _ := hring0
  obtain rfl : ring1 = _ := hring1
  obtain rfl : receiver = _ := hreceiver
  exact ⟨⟨rfl, rfl, rfl⟩, rfl⟩

theorem finishInitialize_pointers (p : Process) : (finishInitialize p).core.handler = p.handler ∧
    (finishInitialize p).core.streamState = p.streamState ∧
    (finishInitialize p).core.lifecycle = p.lifecycle ∧
    (finishInitialize p).core.lifetime.receivedDataPtr = p.lifetime.receivedDataPtr ∧
    (finishInitialize p).core.lifetime.mapping = p.lifetime.mapping := by
  unfold finishInitialize
  split_ifs
  · exact ⟨rfl, rfl, rfl, rfl, rfl⟩
  · exact ⟨rfl, rfl, rfl, rfl, rfl⟩

theorem connecting_other (e : Environment) : (connecting e).handler = true ∧
    (connecting e).streamState = .waitForSession ∧ (connecting e).lifecycle = (received e).2 :=
  ⟨rfl, rfl, rfl⟩

theorem ready_other (e : Environment) : (ready e).handler = true ∧
    (ready e).streamState = .waitForSession ∧ (ready e).lifecycle = (received e).2 := by
  obtain ⟨hhandler, hstate, hlifecycle, -, -⟩ := finishInitialize_pointers (unfinished e)
  rw [ready_eq, hhandler, hstate, hlifecycle, unfinished_eq]
  exact connecting_other e

theorem initializeInserter_failed {p : Process}
    (h : (openSharedMemoryFile e.openCalls p.lifetime.mapping).1 ≠ 0) :
    (initializeInserter e p).lifetime.receivedDataPtr = p.lifetime.receivedDataPtr := by
  have hopen : InserterLifetime.opening e.openCalls (some p.common) true p.lifetime.mapping =
      openSharedMemoryFile e.openCalls p.lifetime.mapping := if_pos ⟨rfl, rfl⟩
  simp only [initializeInserter, InserterLifetime.initializeInserter, hopen, if_neg h]
  rfl

/-- The inserter is open, or it has no buffer to be torn down. -/
theorem ready_pointers (e : Environment) : (openedFile e).1 = 0 ∧ Open (ready e) ∨
    (openedFile e).1 ≠ 0 ∧ (ready e).lifetime.receivedDataPtr = false := by
  obtain ⟨-, -, -, hreceived, hmapping⟩ := finishInitialize_pointers (unfinished e)
  by_cases h : (openedFile e).1 = 0
  · have hopened := initializeInserter_opened (p := connecting e) h
    have hlifetime : (unfinished e).lifetime = (initializeInserter e (connecting e)).lifetime := by
      rw [unfinished_eq]
      rfl
    rw [hlifetime, hopened] at hreceived hmapping
    refine .inl ⟨h, ⟨ready_eq e ▸ hreceived, ?_, ?_⟩⟩
    · rw [ready_eq, hmapping]
    · rw [Process.system, ready_eq, hmapping]
      rfl
  · refine .inr ⟨h, ?_⟩
    rw [ready_eq, hreceived, unfinished_eq]
    exact initializeInserter_failed h

end Ready

end UdpSm.Main
