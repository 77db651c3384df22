import UdpSm.Lib.Transition
import UdpSm.InserterTurn

/-! The inserter object from its constructor on, through any number of `Initialize` and
`Uninitialize` calls, and the Max Sequence field that it publishes. -/
namespace UdpSm.InserterLifetime
open Lib Memory RingFIFOBuffer InserterImplementation

/-! `OpenSharedMemoryFile`. -/

structure Accounts where
  getpwnam : Option UInt32
  getgrnam : Option UInt32
  chown : UInt32 → UInt32 → Int

/-- `DoChangeFileOwner`, with or without a user name. There is no result where it follows the null
pointer of a name that is not found. -/
def doChangeFileOwner (userName : Bool) (a : Accounts) : Option Int :=
  let uid := if userName then a.getpwnam else some (-1)
  let rv := if uid.isNone then -1 else 0
  let rv := if a.getgrnam.isNone then -2 else rv
  uid.bind fun uid => a.getgrnam.map fun gid => if a.chown uid gid = -1 then -3 else rv

theorem doChangeFileOwner_some {userName : Bool} {a : Accounts} {rv : Int} :
    doChangeFileOwner userName a = some rv ↔ ∃ uid gid,
      (if userName then a.getpwnam else some (-1)) = some uid ∧ a.getgrnam = some gid ∧
        rv = if a.chown uid gid = -1 then -3 else 0 := by
  unfold doChangeFileOwner
  cases (if userName then a.getpwnam else some (-1)) with
  | none => simp
  | some uid =>
    cases a.getgrnam with
    | none => simp
    | some gid => simp [eq_comm]

structure OpenCalls where
  opened : Bool
  sameFile : Bool
  changeFileOwner : Int
  ftruncate : Int
  mapped : Bool

structure Mapping where
  file : Option (Memory UInt8)
  sharedMemoryBufferPtr : Bool

def emptied (size : Nat) : Memory UInt8 := ⟨size, fun _ => 0⟩

/-- `O_TRUNC` on the file that is mapped, then of `size` bytes. -/
def Mapping.cut (o : OpenCalls) (size : Nat) (p : Mapping) : Mapping :=
  if o.sameFile then { p with file := p.file.map fun _ => emptied size } else p

def openSharedMemoryFile (o : OpenCalls) (p : Mapping) : Int × Mapping :=
  if o.opened then
    if o.changeFileOwner ≠ 0 then (-2, p.cut o 0)
    else if o.ftruncate ≠ 0 then (o.ftruncate, p.cut o 0)
    else if o.mapped then (0, ⟨some (emptied sharedMemoryAllocationSize), true⟩)
    else (-3, { p.cut o sharedMemoryAllocationSize with sharedMemoryBufferPtr := false })
  else (-1, p)

theorem openSharedMemoryFile_owner {a : Accounts} {o : OpenCalls} (p : Mapping)
    (howner : doChangeFileOwner false a = some o.changeFileOwner) (hcut : o.ftruncate ≠ -2) :
    (openSharedMemoryFile o p).1 = -2 ↔
      o.opened = true ∧ ∃ gid, a.getgrnam = some gid ∧ a.chown (-1) gid = -1 := by
  obtain ⟨uid, gid, huid, hgid, hcode⟩ := doChangeFileOwner_some.mp howner
  obtain rfl : -1 = uid := Option.some.inj huid
  unfold openSharedMemoryFile
  cases o.opened with
  | false => simp
  | true =>
    rw [if_pos rfl, hcode, hgid]
    by_cases hchown : a.chown (-1) gid = -1
    · simp [hchown]
    · split_ifs <;> simp_all

/-! The object. -/

structure Lifetime where
  inserter : Inserter
  commonDataPtr : Bool
  ringBufferPtr : Bool
  receivedDataPtr : Bool
  mapping : Mapping

/-- The constructor sets pointers only; every other member is as it lay in memory. -/
def constructed (s : Inserter) : Lifetime := ⟨s, false, false, false, ⟨none, false⟩⟩

/-- The return code and the mapping once `Initialize` has looked at its arguments. -/
def opening (o : OpenCalls) (c : Option CommonData) (ring : Bool) (p : Mapping) : Int × Mapping :=
  if c.isSome ∧ ring then openSharedMemoryFile o p else (-1, p)

def initializeInserter (o : OpenCalls) (c : Option CommonData) (ring : Bool) (s : Lifetime) :
    Int × Option CommonData × Lifetime × List (Store UInt8) :=
  let r := opening o c ring s.mapping
  let s' : Lifetime :=
    { s with
      inserter :=
        { s.inserter with
          writerFlags := 0
          writerFlagsPrevious := 0
          commitSequenceValue := 0
          reserveSequenceValue := 0
          framingMetaDataMessageSequenceNumber := 0 }
      commonDataPtr := c.isSome
      ringBufferPtr := ring
      mapping := r.2 }
  match c with
  | none => (r.1, none, s', [])
  | some c =>
    if r.1 = 0 then
      (0, some { c with
          totalNumberOfReceivedMessages := 0
          totalNumberOfParsedFrames := 0
          totalNumberOfRejectedMessages := 0
          applicationRunFlag := true
          configurationFlags := 0 },
        { s' with inserter := initialized s.inserter, receivedDataPtr := true },
        initializeStores c s.inserter)
    else (r.1, some { c with applicationRunFlag := false, configurationFlags := 0 }, s', [])

/-- `Uninitialize`. The file stays mapped. -/
def uninitializeInserter (s : Lifetime) : Option (Int × Lifetime × List (Store UInt8)) :=
  if s.receivedDataPtr then
    -- the positions are printed through `SharedMemoryBufferPtr`
    if s.mapping.sharedMemoryBufferPtr then
      some (0, { s with receivedDataPtr := false },
        [⟨writerFlagsPosition, leBytes 4 (htonl writerFlagsShutdown).toNat⟩])
    else none
  else some (-1, s, [])

/-! A history, store by store. -/

inductive Event where
  | store (st : Store UInt8)
  | committed (sequenceNumber : UInt64)

def recordOf (c : CommonData) (m : List UInt8) (s : Inserter) : List Event :=
  if (taken c m s).framingMetaDataTotalNumberOfMessageBytes > 0 then
    [.committed c.commonValueSequenceNumber]
  else []

def turnEvents (c : CommonData) (now : UInt64) (m : List UInt8) (s : Inserter) : List Event :=
  (flagged c m s).2.map .store ++ ((framed c m s).2.map .store ++
    (recordOf c m s ++ (timed c now m s).2.map .store))

/-- `Iterate`, `none` where it goes through a pointer that is null or unmapped. A null `TscPtr` acts
as the timing flag not set. -/
def iterateInserter (c : CommonData) (now : UInt64) (ring : Ringbuffer) (s : Lifetime) :
    Option (Lifetime × List Event) :=
  if s.commonDataPtr ∧ s.ringBufferPtr then
    match read ring with
    | none => none
    | some (_, m, _) =>
      if (m = [] ∨ s.receivedDataPtr) ∧ ((framed c m s.inserter).2 ++ (timed c now m s.inserter).2 = [] ∨
          s.mapping.sharedMemoryBufferPtr) then
        some ({ s with inserter := (timed c now m s.inserter).1 }, turnEvents c now m s.inserter)
      else none
  else none

def storeOf : Event → Option (Store UInt8)
  | .store st => some st
  | .committed _ => none

theorem filterMap_store (sts : List (Store UInt8)) :
    (sts.map Event.store).filterMap storeOf = sts := by
  rw [List.filterMap_map]
  exact List.filterMap_some

theorem turnEvents_stores (c : CommonData) (now : UInt64) (m : List UInt8) (s : Inserter) :
    (turnEvents c now m s).filterMap storeOf = turnStores c now m s := by
  have hrecord : (recordOf c m s).filterMap storeOf = [] := by
    unfold recordOf
    split_ifs
    · rfl
    · rfl
  rw [turnEvents, turnStores, List.filterMap_append, List.filterMap_append, List.filterMap_append,
    filterMap_store, filterMap_store, filterMap_store, hrecord, List.nil_append, List.append_assoc]

theorem iterate_some {c : CommonData} {now : UInt64} {ring : Ringbuffer} {s : Lifetime}
    {r : Lifetime × List Event} (h : iterateInserter c now ring s = some r) : ∃ rv m ring',
    read ring = some (rv, m, ring') ∧
      r = ({ s with inserter := (timed c now m s.inserter).1 }, turnEvents c now m s.inserter) := by
  unfold iterateInserter at h
  split_ifs at h
  cases hread : read ring with
  | none => simp [hread] at h
  | some taken =>
    simp only [hread] at h
    split_ifs at h
    exact ⟨taken.1, taken.2.1, taken.2.2, rfl, (Option.some.inj h).symm⟩

theorem iterateInserter_iterate {c : CommonData} {now : UInt64} {ring : Ringbuffer} {s : Lifetime}
    {r : Lifetime × List Event} (h : iterateInserter c now ring s = some r) : ∃ ring',
    iterate c now ring s.inserter = some (ring', r.1.inserter, r.2.filterMap storeOf) := by
  obtain ⟨rv, m, ring', hread, rfl⟩ := iterate_some h
  exact ⟨ring', by rw [iterate_of_read c now s.inserter hread, turnEvents_stores]⟩

inductive Call where
  | initializeInserter (o : OpenCalls) (c : Option CommonData) (ring : Bool)
  | iterateInserter (c : CommonData) (now : UInt64) (ring : Ringbuffer)
  | writeTimestamp (c : CommonData) (now : UInt64)
  | uninitializeInserter

/-- The object after a call, and what the call does to the file. Every call brings the data as
the other stages have left it. -/
def perform (s : Lifetime) : Call → Option (Lifetime × List Event)
  | .initializeInserter o c ring =>
    let r := initializeInserter o c ring s
    some (r.2.2.1, r.2.2.2.map .store)
  | .iterateInserter c now ring => iterateInserter c now ring s
  | .writeTimestamp c now =>
    let r := writeTimestampToSharedMemory c now s.inserter
    if s.commonDataPtr ∧ (r.2 = [] ∨ s.mapping.sharedMemoryBufferPtr) then
      some ({ s with inserter := r.1 }, r.2.map .store)
    else none
  | .uninitializeInserter =>
    (uninitializeInserter s).map fun r => (r.2.1, r.2.2.map .store)

structure History where
  lifetime : Lifetime
  pending : List Event
  /-- The sequence numbers committed since the last `Initialize` was entered. -/
  committed : List UInt64

inductive Label where
  | call (c : Call)
  | event

def Call.ledger (committed : List UInt64) : Call → List UInt64
  | .initializeInserter .. => []
  | _ => committed

def History.file (h : History) : Option (Memory UInt8) := h.lifetime.mapping.file

def History.withFile (h : History) (m : Memory UInt8) : History :=
  { h with lifetime := { h.lifetime with mapping := { h.lifetime.mapping with file := some m } } }

def History.advance (h : History) : Label → Option History
  | .call c =>
    match h.pending with
    | [] => (perform h.lifetime c).map fun r => ⟨r.1, r.2, c.ledger h.committed⟩
    | _ :: _ => none
  | .event =>
    match h.pending with
    | [] => none
    | .committed v :: rest => some { h with pending := rest, committed := h.committed ++ [v] }
    | .store st :: rest => h.file.bind fun m => (m.storeAt st.address st.bytes).map fun m =>
        { h with pending := rest }.withFile m

def start (s : Inserter) : History := ⟨constructed s, [], []⟩

def writerMaxSequenceField (m : Memory UInt8) : UInt64 :=
  UInt64.ofNat (ofBe (m.load writerMaxSequencePosition 8))

def Known (ledger : List UInt64) (v : UInt64) : Prop := v = 0 ∨ v ∈ ledger

def Honest (h : History) : Prop := ∀ m ∈ h.file, Known h.committed (writerMaxSequenceField m)

/-- An `Initialize` that leaves a control block finds nothing of an earlier lifetime: the member is
0, and the field if the block is an old one. -/
def Fresh (h : History) : Label → Prop
  | .call (.initializeInserter o c ring) => ∀ m ∈ (opening o c ring h.lifetime.mapping).2.file,
      h.lifetime.inserter.maxSequenceValue = 0 ∧ writerMaxSequenceField m = 0
  | _ => True

def FreshStep (h : History) (l : Label) (h' : History) : Prop := Fresh h l ∧ h.advance l = some h'

/-! What is known of the field. -/

theorem Known.mono {ledger more : List UInt64} {v : UInt64} (h : Known ledger v) :
    Known (ledger ++ more) v := h.imp_right fun hmem => List.mem_append_left more hmem

def Keeps (ledger : List UInt64) (st : Store UInt8) : Prop :=
  ∀ m : Memory UInt8, Known ledger (writerMaxSequenceField m) →
    Known ledger (writerMaxSequenceField (m.apply st))

def Sound : List UInt64 → List Event → Prop
  | _, [] => True
  | ledger, .store st :: events => Keeps ledger st ∧ Sound ledger events
  | ledger, .committed v :: events => Sound (ledger ++ [v]) events

def ledgerAfter : List UInt64 → List Event → List UInt64
  | ledger, [] => ledger
  | ledger, .store _ :: events => ledgerAfter ledger events
  | ledger, .committed v :: events => ledgerAfter (ledger ++ [v]) events

section Events
variable {ledger : List UInt64} {rest : List Event} {sts : List (Store UInt8)}

theorem ledgerAfter_stores (sts : List (Store UInt8)) (rest : List Event) :
    ledgerAfter ledger (sts.map .store ++ rest) = ledgerAfter ledger rest := by
  induction sts with
  | nil => rfl
  | cons st sts ih => exact ih

theorem sound_stores (h : ∀ st ∈ sts, Keeps ledger st) (hrest : Sound ledger rest) :
    Sound ledger (sts.map .store ++ rest) := by
  induction sts with
  | nil => exact hrest
  | cons st sts ih => exact ⟨h st (by simp), ih fun t ht => h t (List.mem_cons_of_mem st ht)⟩

theorem sound_all (h : ∀ st ∈ sts, Keeps ledger st) : Sound ledger (sts.map .store) := by
  have hall : Sound ledger (sts.map .store ++ []) := sound_stores h trivial
  rwa [List.append_nil] at hall

theorem ledgerAfter_all (sts : List (Store UInt8)) : ledgerAfter ledger (sts.map .store) = ledger := by
  have hall : ledgerAfter ledger (sts.map .store ++ []) = ledger := ledgerAfter_stores sts []
  rwa [List.append_nil] at hall

end Events

def Beside (st : Store UInt8) : Prop :=
  st.address + st.bytes.length ≤ writerMaxSequencePosition ∨
    writerMaxSequencePosition + 8 ≤ st.address

theorem Beside.field {st : Store UInt8} (h : Beside st) (m : Memory UInt8) :
    writerMaxSequenceField (m.apply st) = writerMaxSequenceField m := by
  have hload : (m.apply st).load writerMaxSequencePosition 8 = m.load writerMaxSequencePosition 8 :=
    load_store_disjoint m _ _ _ _ h.symm
  rw [writerMaxSequenceField, hload, writerMaxSequenceField]

theorem Beside.keeps {st : Store UInt8} (h : Beside st) (ledger : List UInt64) : Keeps ledger st := by
  intro m hm
  rwa [h.field m]

theorem beside_write {size position : Nat} {v : Nat} (h : position + size ≤ writerMaxSequencePosition ∨
    writerMaxSequencePosition + 8 ≤ position) : Beside (writeMemory size position v) := by
  rwa [Beside, writeMemory, leBytes_length]

theorem field_stored (m : Memory UInt8) (v : UInt64) : writerMaxSequenceField
    (m.store writerMaxSequencePosition (leBytes 8 (hton64 v).toNat)) = v := by
  rw [writerMaxSequenceField, load_position]
  exact UInt64.ofNat_toNat

theorem keeps_known {ledger : List UInt64} {v : UInt64} (h : Known ledger v) :
    Keeps ledger ⟨writerMaxSequencePosition, leBytes 8 (hton64 v).toNat⟩ := by
  intro m _
  rw [apply, field_stored]
  exact h

/-! The stores of each call. -/

theorem flagged_beside (c : CommonData) (m : List UInt8) (s : Inserter) :
    ∀ st ∈ (flagged c m s).2, Beside st := by
  intro st hst
  have hflag := flagged_stores c m s st hst
  simp only [flagStores, List.mem_cons, List.not_mem_nil, or_false] at hflag
  obtain rfl | rfl := hflag
  · exact .inr (by decide : writerMaxSequencePosition + 8 ≤ writerFlagsPosition)
  · refine .inl ?_
    rw [leBytes_length]
    exact (by decide : writerSessionIdPosition + 8 ≤ writerMaxSequencePosition)

theorem frames_beside (c : CommonData) (s : Inserter) :
    ∀ st ∈ (handleSharedMemoryFrames c s).2, Beside st := by
  intro st hst
  have hposition : writerMaxSequencePosition + 8 ≤ commitSequencePosition := by decide
  exact .inr (Nat.le_trans hposition (handleSharedMemoryFrames_address c s st hst))

theorem heartbeat_keeps {ledger : List UInt64} {s : Inserter} (h : Known ledger s.maxSequenceValue)
    (c : CommonData) (now : UInt64) :
    ∀ st ∈ (writeTimestampToSharedMemory c now s).2, Keeps ledger st := by
  unfold writeTimestampToSharedMemory
  split_ifs
  · intro st hst
    simp only [List.mem_cons, List.not_mem_nil, or_false] at hst
    obtain rfl | rfl := hst
    · exact (beside_write (.inl (by decide))).keeps ledger
    · exact keeps_known h
  · simp

theorem heartbeat_member (c : CommonData) (now : UInt64) (s : Inserter) :
    (writeTimestampToSharedMemory c now s).1.maxSequenceValue = s.maxSequenceValue :=
  writeTimestamp_kept Inserter.maxSequenceValue (fun _ _ _ => rfl) c now s

theorem frames_member (c : CommonData) (s : Inserter) :
    (handleSharedMemoryFrames c s).1.maxSequenceValue =
      if s.framingMetaDataTotalNumberOfMessageBytes > 0 then c.commonValueSequenceNumber
      else s.maxSequenceValue := by
  by_cases hpos : s.framingMetaDataTotalNumberOfMessageBytes > 0
  · simp only [handleSharedMemoryFrames, if_pos hpos]
    split_ifs
    · rfl
    · rfl
  · rw [if_neg hpos, handleSharedMemoryFrames, if_neg hpos]

theorem taken_member (c : CommonData) (m : List UInt8) (s : Inserter) :
    (taken c m s).maxSequenceValue = s.maxSequenceValue :=
  taken_kept Inserter.maxSequenceValue (fun _ _ _ _ => rfl) c m s

theorem framed_member {ledger : List UInt64} {s : Inserter} (h : Known ledger s.maxSequenceValue)
    (c : CommonData) (m : List UInt8) :
    Known (ledgerAfter ledger (recordOf c m s)) (framed c m s).1.maxSequenceValue := by
  rw [framed, frames_member, flagged_eq, recordOf]
  by_cases hpos : (taken c m s).framingMetaDataTotalNumberOfMessageBytes > 0
  · rw [if_pos hpos, if_pos hpos]
    exact .inr (List.mem_append_right ledger List.mem_cons_self)
  · rw [if_neg hpos, if_neg hpos]
    exact taken_member c m s ▸ h

theorem ledgerAfter_record (ledger : List UInt64) (c : CommonData) (m : List UInt8) (s : Inserter)
    (rest : List Event) :
    ledgerAfter ledger (recordOf c m s ++ rest) = ledgerAfter (ledgerAfter ledger (recordOf c m s)) rest := by
  unfold recordOf
  split_ifs
  · rfl
  · rfl

theorem sound_record {ledger : List UInt64} {c : CommonData} {m : List UInt8} {s : Inserter}
    {rest : List Event} (h : Sound (ledgerAfter ledger (recordOf c m s)) rest) :
    Sound ledger (recordOf c m s ++ rest) := by
  unfold recordOf at h ⊢
  split_ifs at h ⊢
  · exact h
  · exact h

/-- A turn keeps what is known of the field, and its record comes before its heartbeat. -/
theorem turn_sound {ledger : List UInt64} {s : Inserter} (h : Known ledger s.maxSequenceValue)
    (c : CommonData) (now : UInt64) (m : List UInt8) :
    Sound ledger (turnEvents c now m s) ∧
      Known (ledgerAfter ledger (turnEvents c now m s)) (timed c now m s).1.maxSequenceValue := by
  have hframed := framed_member h c m
  constructor
  · refine sound_stores (fun st hst => (flagged_beside c m s st hst).keeps ledger) ?_
    refine sound_stores (fun st hst => (frames_beside c _ st hst).keeps ledger) ?_
    exact sound_record (sound_all (heartbeat_keeps hframed c now))
  · rw [turnEvents, ledgerAfter_stores, ledgerAfter_stores, ledgerAfter_record, ledgerAfter_all, timed,
      heartbeat_member]
    exact hframed

/-- With the member at 0, `Initialize` leaves the field at 0 after each of its stores. -/
theorem initializeStores_keeps {s : Inserter} (h : s.maxSequenceValue = 0) (c : CommonData) :
    ∀ st ∈ initializeStores c s, Keeps [] st := by
  intro st hst
  simp only [initializeStores, List.mem_cons, List.not_mem_nil, or_false] at hst
  obtain rfl | rfl | rfl | rfl | rfl | rfl | rfl | rfl | rfl | rfl | rfl | rfl := hst
  · exact Beside.keeps (.inl (by decide)) []
  · exact (beside_write (.inl (by decide))).keeps []
  · exact (beside_write (.inl (by decide))).keeps []
  · exact (beside_write (.inl (by decide))).keeps []
  · exact (beside_write (.inl (by decide))).keeps []
  · exact (beside_write (.inl (by decide))).keeps []
  · exact (beside_write (.inl (by decide))).keeps []
  · exact (beside_write (.inl (by decide))).keeps []
  · have hzero : writeMemory 8 writerMaxSequencePosition (0 : UInt64).toNat =
        ⟨writerMaxSequencePosition, leBytes 8 (hton64 0).toNat⟩ := by rfl
    rw [h, hzero]
    exact keeps_known (.inl rfl)
  · exact (beside_write (.inr (by decide))).keeps []
  · exact (beside_write (.inr (by decide))).keeps []
  · exact (beside_write (.inr (by decide))).keeps []

/-! A run. -/

structure Published (h : History) (m : Memory UInt8) : Prop where
  field : Known h.committed (writerMaxSequenceField m)
  pending : Sound h.committed h.pending
  member : Known (ledgerAfter h.committed h.pending) h.lifetime.inserter.maxSequenceValue

section Step
variable {h h' : History}

theorem advance_call {c : Call} (hnext : h.advance (.call c) = some h') : h.pending = [] ∧
    ∃ r, perform h.lifetime c = some r ∧ h' = ⟨r.1, r.2, c.ledger h.committed⟩ := by
  rw [History.advance] at hnext
  cases hpending : h.pending with
  | nil =>
    simp only [hpending] at hnext
    obtain ⟨r, hr, rfl⟩ := Option.map_eq_some_iff.mp hnext
    exact ⟨rfl, r, hr, rfl⟩
  | cons e rest => simp [hpending] at hnext

theorem published_initialized {o : OpenCalls} {c : Option CommonData} {ring : Bool} {s : Lifetime}
    {m : Memory UInt8} (hmember : s.inserter.maxSequenceValue = 0)
    (hfield : writerMaxSequenceField m = 0) :
    Published ⟨(initializeInserter o c ring s).2.2.1,
      (initializeInserter o c ring s).2.2.2.map .store, []⟩ m := by
  refine ⟨.inl hfield, ?_, .inl ?_⟩
  · refine sound_all fun st hst => ?_
    unfold initializeInserter at hst
    cases c with
    | none => simp at hst
    | some c =>
      simp only [] at hst
      split_ifs at hst
      · exact initializeStores_keeps hmember c st hst
      · simp at hst
  · unfold initializeInserter
    cases c with
    | none => exact hmember
    | some c =>
      simp only []
      split_ifs
      · exact hmember
      · exact hmember

theorem initializeInserter_file (o : OpenCalls) (c : Option CommonData) (ring : Bool) (s : Lifetime) :
    (initializeInserter o c ring s).2.2.1.mapping = (opening o c ring s.mapping).2 := by
  unfold initializeInserter
  cases c with
  | none => rfl
  | some c =>
    simp only []
    split_ifs
    · rfl
    · rfl

theorem uninitialize_some {s : Lifetime} {r : Int × Lifetime × List (Store UInt8)}
    (h : uninitializeInserter s = some r) : r.2.1.inserter = s.inserter ∧
      r.2.1.mapping = s.mapping ∧ ∀ st ∈ r.2.2, Beside st := by
  have hflags : writerMaxSequencePosition + 8 ≤ writerFlagsPosition := by decide
  unfold uninitializeInserter at h
  split_ifs at h
  · obtain rfl := Option.some.inj h
    exact ⟨rfl, rfl, by simp [Beside, hflags]⟩
  · obtain rfl := Option.some.inj h
    exact ⟨rfl, rfl, by simp⟩

theorem published_call {c : Call} (hinv : ∀ m ∈ h.file, Published h m) (hfresh : Fresh h (.call c))
    (hnext : h.advance (.call c) = some h') : ∀ m ∈ h'.file, Published h' m := by
  obtain ⟨hpending, r, hr, rfl⟩ := advance_call hnext
  have hknown : ∀ m ∈ h.file, Known h.committed h.lifetime.inserter.maxSequenceValue := by
    intro m hm
    have hmember := (hinv m hm).member
    rwa [hpending] at hmember
  cases c with
  | initializeInserter o c ring =>
    obtain rfl := Option.some.inj hr
    intro m hm
    have hfile := hm
    rw [History.file, initializeInserter_file] at hfile
    obtain ⟨hmember, hfield⟩ := hfresh m hfile
    exact published_initialized hmember hfield
  | iterateInserter c now ring =>
    obtain ⟨rv, taken, ring', -, rfl⟩ := iterate_some hr
    intro m hm
    obtain ⟨hsound, hmember⟩ := turn_sound (hknown m hm) c now taken
    exact ⟨(hinv m hm).field, hsound, hmember⟩
  | writeTimestamp c now =>
    simp only [perform] at hr
    split_ifs at hr
    obtain rfl := Option.some.inj hr
    intro m hm
    refine ⟨(hinv m hm).field, sound_all (heartbeat_keeps (hknown m hm) c now), ?_⟩
    change Known (ledgerAfter h.committed _) (writeTimestampToSharedMemory c now _).1.maxSequenceValue
    rw [ledgerAfter_all, heartbeat_member]
    exact hknown m hm
  | uninitializeInserter =>
    obtain ⟨r', hr', rfl⟩ := Option.map_eq_some_iff.mp hr
    obtain ⟨hinserter, hmapping, hstores⟩ := uninitialize_some hr'
    intro m hm
    rw [History.file, hmapping] at hm
    refine ⟨(hinv m hm).field, sound_all fun st hst => (hstores st hst).keeps _, ?_⟩
    change Known (ledgerAfter h.committed _) r'.2.1.inserter.maxSequenceValue
    rw [ledgerAfter_all, hinserter]
    exact hknown m hm

theorem published_event (hinv : ∀ m ∈ h.file, Published h m) (hnext : h.advance .event = some h') :
    ∀ m ∈ h'.file, Published h' m := by
  rw [History.advance] at hnext
  cases hpending : h.pending with
  | nil => simp [hpending] at hnext
  | cons e rest =>
    cases e with
    | committed v =>
      simp only [hpending, Option.some.injEq] at hnext
      subst hnext
      intro m hm
      obtain ⟨hfield, hsound, hmember⟩ := hinv m hm
      rw [hpending] at hsound hmember
      exact ⟨hfield.mono, hsound, hmember⟩
    | store st =>
      simp only [hpending] at hnext
      obtain ⟨m, hm, hstore⟩ := Option.bind_eq_some_iff.mp hnext
      obtain ⟨m', hm', rfl⟩ := Option.map_eq_some_iff.mp hstore
      obtain ⟨hfield, hsound, hmember⟩ := hinv m hm
      rw [hpending] at hsound hmember
      obtain ⟨-, -, rfl⟩ := storeAt_some hm'
      intro m'' hm''
      obtain rfl := Option.some.inj hm''
      exact ⟨hsound.1 m hfield, hsound.2, hmember⟩

theorem published_step {l : Label} (hinv : ∀ m ∈ h.file, Published h m) (hnext : FreshStep h l h') :
    ∀ m ∈ h'.file, Published h' m := by
  cases l with
  | call c => exact published_call hinv hnext.1 hnext.2
  | event => exact published_event hinv hnext.2

end Step

theorem published_run {s : Inserter} {ls : List Label} {h : History}
    (hrun : Run FreshStep (start s) ls h) : ∀ m ∈ h.file, Published h m :=
  hrun.invariant (fun _ h => ∀ m ∈ h.file, Published h m) (by simp [start, constructed, History.file])
    fun _ _ _ _ hinv hnext => published_step hinv hnext

/-- Between any two stores of a history in which every `Initialize` finds the member at 0, the
field is 0 or the number of a record committed since. -/
theorem max_sequence_honest {s : Inserter} {ls : List Label} {h : History}
    (hrun : Run FreshStep (start s) ls h) : Honest h :=
  fun m hm => (published_run hrun m hm).field

instance (h : History) (l : Label) : Decidable (Fresh h l) :=
  match l with
  | .call (.initializeInserter ..) => inferInstanceAs (Decidable (∀ m ∈ Mapping.file _, _))
  | .call (.iterateInserter ..) => isTrue trivial
  | .call (.writeTimestamp ..) => isTrue trivial
  | .call .uninitializeInserter => isTrue trivial
  | .event => isTrue trivial

section Lifetimes

def reopened : OpenCalls := ⟨true, true, 0, 0, true⟩

def numbered (v : UInt64) : CommonData :=
  { (default : CommonData) with applicationRunFlag := true, commonValueSequenceNumber := v }

def oneMessage : Ringbuffer :=
  ((write (ringInitialize 256).2 (some fun _ => 1) 3).map Prod.snd).getD (ringInitialize 256).2

def initializeLabels (v : UInt64) : List Label :=
  .call (.initializeInserter reopened (some (numbered v)) true) :: List.replicate 12 .event

def recordLabels (v : UInt64) : List Label :=
  .call (.iterateInserter (numbered v) 5000 oneMessage) :: List.replicate 11 .event ++
    [.call .uninitializeInserter, .event]

theorem max_sequence_honest_lifetime : ∃ h,
    Run FreshStep (start default) (initializeLabels 5 ++ recordLabels 5) h ∧
    h.file.map writerMaxSequenceField = some 5 ∧ Honest h := by
  have hlook : ((initializeLabels 5 ++ recordLabels 5).foldlM
      (fun h l => if Fresh h l then h.advance l else none) (start default)).map
        (fun h => h.file.map writerMaxSequenceField) = some (some 5) := by
    decide +kernel
  obtain ⟨h, hfold, hfield⟩ := Option.map_eq_some_iff.mp hlook
  have hrun : Run FreshStep (start default) (initializeLabels 5 ++ recordLabels 5) h := by
    refine Run.of_foldlM (fun s l t hst => ?_) hfold
    split_ifs at hst with hfresh
    exact ⟨hfresh, hst⟩
  exact ⟨h, hrun, hfield, max_sequence_honest hrun⟩

/-- The second `Initialize` publishes the number of a record of the first lifetime. -/
theorem stale_after_reopening : ∃ h,
    Run (fun h l h' => h.advance l = some h') (start default)
      (initializeLabels 5 ++ recordLabels 5 ++ initializeLabels 6) h ∧
    h.pending = [] ∧ h.committed = [] ∧ h.file.map writerMaxSequenceField = some 5 ∧ ¬Honest h := by
  have hlook : ((initializeLabels 5 ++ recordLabels 5 ++ initializeLabels 6).foldlM
      History.advance (start default)).map (fun h => (h.pending.length, h.committed,
        h.file.map writerMaxSequenceField)) = some (0, [], some 5) := by
    decide +kernel
  obtain ⟨h, hfold, hvalues⟩ := Option.map_eq_some_iff.mp hlook
  simp only [Prod.mk.injEq] at hvalues
  obtain ⟨hpending, hcommitted, hfield⟩ := hvalues
  refine ⟨h, Run.of_foldlM (fun _ _ _ hst => hst) hfold, List.length_eq_zero_iff.mp hpending,
    hcommitted, hfield, fun hhonest => ?_⟩
  obtain ⟨m, hm, hfive⟩ := Option.map_eq_some_iff.mp hfield
  have hknown := hhonest m hm
  rw [hcommitted, hfive] at hknown
  exact absurd hknown (by simp [Known])

end Lifetimes

end UdpSm.InserterLifetime
