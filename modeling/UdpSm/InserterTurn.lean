import UdpSm.InserterLog
import UdpSm.RingQueue
import Mathlib.Data.List.Infix

/-! One turn of the inserter: the message it takes, and the fields of the control block. -/
namespace UdpSm.InserterImplementation
open Lib Memory RingFIFOBuffer

def flagsOf (c : CommonData) : UInt32 :=
  writerFlagsConnected ||| if c.commonFlagShutdownReceived then writerFlagsShutdown else writerFlagsInSession

def taken (c : CommonData) (m : List UInt8) (s : Inserter) : Inserter :=
  acceptMessage c (UInt32.ofInt (m.length : Int))
    { s with receivedDataPtr := overwrite m s.receivedDataPtr }

def flagged (c : CommonData) (m : List UInt8) (s : Inserter) : Inserter × List (Store UInt8) :=
  updateWriterFlags c (taken c m s)

def framed (c : CommonData) (m : List UInt8) (s : Inserter) : Inserter × List (Store UInt8) :=
  handleSharedMemoryFrames c (flagged c m s).1

def timed (c : CommonData) (now : UInt64) (m : List UInt8) (s : Inserter) :
    Inserter × List (Store UInt8) :=
  writeTimestampToSharedMemory c now (framed c m s).1

def turnStores (c : CommonData) (now : UInt64) (m : List UInt8) (s : Inserter) : List (Store UInt8) :=
  (flagged c m s).2 ++ (framed c m s).2 ++ (timed c now m s).2

def appendFor (c : CommonData) (m : List UInt8) (s : Inserter) : Append := appendOf c (taken c m s)

/-- The payload of a message with its length field: with the timing flag set, less a time stamp
behind it. -/
def payloadOf (timing : Bool) (m : List UInt8) : List UInt8 :=
  if timing ∧ m.length = ofBe (m.take 2) + 10 then (m.take (m.length - 8)).drop 2 else m.drop 2

section Read
variable {ring ring' : Ringbuffer} {rv : Int} {R : Nat} {m : List UInt8} {q : List (List UInt8)}
variable (c : CommonData) (now : UInt64) (s : Inserter)

theorem read_count (h : read ring = some (rv, m, ring')) :
    UInt32.ofInt rv = UInt32.ofInt (m.length : Int) := by
  unfold RingFIFOBuffer.read at h
  split_ifs at h
  · cases h
    rfl
  · cases hheader : readHeader ring with
    | none => simp [hheader] at h
    | some header =>
      obtain ⟨ulen, readIndex, bytes⟩ := header
      simp only [hheader] at h
      cases hdata : ring.ptr.loadAt (int32 (readIndex + 4)) ulen.toNat with
      | none => simp [hdata] at h
      | some data =>
        simp only [hdata, Option.some.injEq, Prod.mk.injEq] at h
        obtain ⟨rfl, rfl, -⟩ := h
        rw [loadAt] at hdata
        split_ifs at hdata
        obtain rfl := Option.some.inj hdata
        rw [load_length, uint32_ofInt_int32]

theorem iterate_of_read (h : read ring = some (rv, m, ring')) :
    iterate c now ring s = some (ring', (timed c now m s).1, turnStores c now m s) := by
  simp only [iterate, h, read_count h]
  rfl

theorem iterate_empty (h : Holds ring R []) :
    iterate c now ring s = some (ring, (timed c now [] s).1, turnStores c now [] s) :=
  iterate_of_read c now s h.read_empty

theorem iterate_cons (h : Holds ring R (m :: q)) : ∃ ring',
    iterate c now ring s = some (ring', (timed c now m s).1, turnStores c now m s) ∧
      ring'.ptr = ring.ptr ∧ Holds ring' (advance ring.ptr.size R (padded m.length)) q := by
  obtain ⟨ring', hread, hptr, h'⟩ := h.read_cons
  exact ⟨ring', iterate_of_read c now s hread, hptr, h'⟩

end Read

/-! What the record is made of. -/
section Message
variable {m : List UInt8} (c : CommonData) (s : Inserter)

theorem length_field (h : 2 ≤ m.length) (buffer : Nat → UInt8) :
    (ntohs (UInt16.ofNat (ofLe [overwrite m buffer 0, overwrite m buffer 1]))).toNat =
      ofBe (m.take 2) := by
  match m, h with
  | a :: b :: rest, _ => exact ntohs_ofLe rfl

theorem payloadOf_length (timing : Bool) (h : 11 ≤ m.length) :
    1 ≤ (payloadOf timing m).length ∧ (payloadOf timing m).length ≤ m.length - 2 := by
  unfold payloadOf
  split_ifs
  · rw [List.length_drop, List.length_take]
    omega
  · rw [List.length_drop]
    omega

theorem taken_bytes (h : 11 ≤ m.length) (hmax : m.length ≤ 65537) :
    (taken c m s).receivedDataBuffer = (fun i => overwrite m s.receivedDataPtr (i + 2)) ∧
    (taken c m s).framingMetaDataTotalNumberOfMessageBytes.toNat =
      (payloadOf (c.flag flagGetTiming) m).length := by
  have hlen : (UInt32.ofInt (m.length : Int)).toNat = m.length := uint32_ofInt_natCast (by omega)
  have htwo : UInt32.ofInt (m.length : Int) > 2 := by
    rw [gt_iff_lt, UInt32.lt_iff_toNat_lt, hlen]
    change 2 < m.length
    omega
  have hfield := length_field (m := m) (by omega) s.receivedDataPtr
  simp only [taken, acceptMessage, if_pos htwo, hlen, hfield]
  refine ⟨trivial, ?_⟩
  rw [UInt32.toNat_toUInt16]
  by_cases hstamp : c.flag flagGetTiming = true ∧ m.length = ofBe (m.take 2) + 8 + 2
  · have hsub : (UInt32.ofInt (m.length : Int) - 8 - 2).toNat = m.length - 10 := by
      rw [UInt32.toNat_sub_of_le, UInt32.toNat_sub_of_le, hlen]
      · change m.length - 8 - 2 = _
        omega
      · rw [UInt32.le_iff_toNat_le, hlen]
        change 8 ≤ m.length
        omega
      · rw [UInt32.le_iff_toNat_le, UInt32.toNat_sub_of_le, hlen]
        · change 2 ≤ m.length - 8
          omega
        · rw [UInt32.le_iff_toNat_le, hlen]
          change 8 ≤ m.length
          omega
    rw [if_pos hstamp, hsub, payloadOf, if_pos hstamp, List.length_drop, List.length_take]
    rw [Nat.mod_eq_of_lt (by omega)]
    omega
  · have hsub : (UInt32.ofInt (m.length : Int) - 2).toNat = m.length - 2 := by
      rw [UInt32.toNat_sub_of_le, hlen]
      · rfl
      · rw [UInt32.le_iff_toNat_le, hlen]
        change 2 ≤ m.length
        omega
    rw [if_neg hstamp, hsub, payloadOf, if_neg hstamp, List.length_drop]
    exact Nat.mod_eq_of_lt (by omega)

theorem appendFor_message (h : 11 ≤ m.length) (hmax : m.length ≤ 65537) :
    (appendFor c m s).message = payloadOf (c.flag flagGetTiming) m := by
  obtain ⟨hbuffer, hbytes⟩ := taken_bytes c s h hmax
  have hlength : (appendFor c m s).message.length = (payloadOf (c.flag flagGetTiming) m).length := by
    rw [← hbytes, Append.message, List.length_map, List.length_range]
    rfl
  have hlead : payloadOf (c.flag flagGetTiming) m <+: m.drop 2 := by
    unfold payloadOf
    split_ifs
    · exact List.IsPrefix.drop (List.take_prefix _ m) 2
    · exact List.prefix_refl _
  apply List.ext_getElem hlength
  intro i hi hi'
  have hbuf : (appendFor c m s).payload = fun i => overwrite m s.receivedDataPtr (i + 2) := hbuffer
  have hm : i + 2 < m.length := by
    have := hlead.length_le
    rw [List.length_drop] at this
    omega
  rw [hlead.getElem hi', List.getElem_drop]
  simp only [Append.message, List.getElem_map, List.getElem_range, hbuf, overwrite]
  rw [List.getElem?_eq_getElem hm, Option.getD_some]
  congr 1
  omega

theorem appendFor_bytes (h : 11 ≤ m.length) (hmax : m.length ≤ 65537) :
    1 ≤ (appendFor c m s).bytes.toNat :=
  (taken_bytes c s h hmax).2 ▸ (payloadOf_length _ h).1

end Message

theorem taken_kept {α : Type} (field : Inserter → α)
    (hfield : ∀ (s : Inserter) received buffer bytes, field { s with
      receivedDataPtr := received
      receivedDataBuffer := buffer
      framingMetaDataTotalNumberOfMessageBytes := bytes } = field s)
    (c : CommonData) (m : List UInt8) (s : Inserter) : field (taken c m s) = field s := by
  unfold taken acceptMessage
  split_ifs
  · exact hfield s _ _ _
  · exact hfield s _ s.receivedDataBuffer 0

theorem writeTimestamp_kept {α : Type} (field : Inserter → α)
    (hfield : ∀ (s : Inserter) now seconds, field { s with
      millisecondsSinceEpoch := now
      secondsSinceProgramStart := seconds } = field s)
    (c : CommonData) (now : UInt64) (s : Inserter) :
    field (writeTimestampToSharedMemory c now s).1 = field s := by
  unfold writeTimestampToSharedMemory
  split_ifs
  · exact hfield s _ _
  · rfl

/-! Which fields of the control block the stores of a turn reach. -/

def writerFlagsField (m : Memory UInt8) : UInt32 :=
  UInt32.ofNat (ofBe (m.load writerFlagsPosition 4))

/-- The session id field, which holds the bytes as they came in. -/
def writerSessionIdField (m : Memory UInt8) : UInt64 :=
  UInt64.ofNat (ofLe (m.load writerSessionIdPosition 8))

def Aside (st : Store UInt8) : Prop :=
  st.address + st.bytes.length ≤ writerSessionIdPosition ∨
    writerMaxSequencePosition ≤ st.address ∧
      st.address + st.bytes.length ≤ writerFlagsPosition ∨
    commitSequencePosition ≤ st.address

def Before (st : Store UInt8) : Prop := st.address + st.bytes.length ≤ commitSequencePosition

theorem applyAll_aside (m : Memory UInt8) {sts : List (Store UInt8)} (h : ∀ st ∈ sts, Aside st) :
    writerFlagsField (m.applyAll sts) = writerFlagsField m ∧
      writerSessionIdField (m.applyAll sts) = writerSessionIdField m := by
  induction sts generalizing m with
  | nil => exact ⟨rfl, rfl⟩
  | cons st sts ih =>
    obtain ⟨hflags, hsession⟩ := ih (m.apply st) fun t ht => h t (List.mem_cons_of_mem st ht)
    have hst := h st (by simp)
    have h1 : writerSessionIdPosition + 8 = writerMaxSequencePosition := by decide
    have h2 : writerMaxSequencePosition + 8 = writerFlagsPosition := by decide
    have h3 : writerFlagsPosition + 4 ≤ commitSequencePosition := by decide
    unfold Aside at hst
    rw [applyAll_cons, hflags, hsession]
    constructor
    · rw [writerFlagsField, apply, load_store_disjoint _ _ _ _ _ (by omega)]
      rfl
    · rw [writerSessionIdField, apply, load_store_disjoint _ _ _ _ _ (by omega)]
      rfl

theorem applyAll_before (m : Memory UInt8) {sts : List (Store UInt8)} (h : ∀ st ∈ sts, Before st)
    {i : Nat} (hi : commitSequencePosition ≤ i) : (m.applyAll sts).cell i = m.cell i := by
  induction sts generalizing m with
  | nil => rfl
  | cons st sts ih =>
    rw [applyAll_cons, ih (m.apply st) fun t ht => h t (List.mem_cons_of_mem st ht)]
    exact cell_store_outside _ _ _ _ (.inr (Nat.le_trans (h st (by simp)) hi))

theorem sequential_address {a : Nat} {parts : List (List UInt8)} :
    ∀ st ∈ sequential a parts, a ≤ st.address := by
  induction parts generalizing a with
  | nil => simp [sequential]
  | cons xs parts ih =>
    intro st hst
    cases hst with
    | head => exact Nat.le_refl a
    | tail _ hst => exact Nat.le_trans (Nat.le_add_right _ _) (ih st hst)

theorem commit_le_data (line : UInt64) : commitSequencePosition ≤ cacheLineAddress line :=
  Nat.le_trans (by decide : commitSequencePosition ≤ sharedMemoryDataPosition)
    (Nat.le_add_right _ _)

section Stores
variable (c : CommonData) (now : UInt64) (m : List UInt8) (s : Inserter)

theorem handleSharedMemoryFrames_address (s : Inserter) :
    ∀ st ∈ (handleSharedMemoryFrames c s).2, commitSequencePosition ≤ st.address := by
  have hpositions : commitSequencePosition ≤ reserveSequencePosition := by decide
  have happend : ∀ t : Inserter, ∀ st ∈ (appendMessage t).2, commitSequencePosition ≤ st.address := by
    intro t st hst
    have hline := commit_le_data t.currentCacheLine
    simp only [appendMessage, List.mem_append, List.mem_cons, List.not_mem_nil, or_false] at hst
    obtain ((rfl | rfl | rfl | rfl) | hst) | rfl := hst
    · exact hpositions
    · exact hline
    · exact Nat.le_trans hline (Nat.le_add_right _ _)
    · exact Nat.le_trans hline (Nat.le_add_right _ _)
    · exact Nat.le_trans (Nat.le_trans hline (Nat.le_add_right _ _)) (sequential_address st hst)
    · exact Nat.le_refl _
  have hskip : ∀ t : Inserter, ∀ st ∈ (skipRemainingLines t).2,
      commitSequencePosition ≤ st.address := by
    intro t st hst
    have hline := commit_le_data t.currentCacheLine
    simp only [skipRemainingLines, List.mem_append, List.mem_cons, List.not_mem_nil, or_false] at hst
    obtain ((rfl | rfl) | hst) | rfl := hst
    · exact hpositions
    · exact hline
    · exact Nat.le_trans (Nat.le_trans hline (Nat.le_add_right _ _)) (sequential_address st hst)
    · exact Nat.le_refl _
  by_cases hpos : s.framingMetaDataTotalNumberOfMessageBytes > 0
  · simp only [handleSharedMemoryFrames, if_pos hpos]
    by_cases hjump : (frameMessage c s).framingMetaDataTotalLines.toUInt64 >
        (frameMessage c s).cacheLinesRemaining
    · rw [if_pos hjump]
      intro st hst
      obtain hst | hst := List.mem_append.mp hst
      · exact hskip _ st hst
      · exact happend _ st hst
    · rw [if_neg hjump]
      exact happend _
  · simp [handleSharedMemoryFrames, hpos]

theorem aside_store {a : Nat} {bytes : List UInt8} (h : bytes.length = 8)
    (ha : a = writerHeartbeatTimePosition ∨ a = writerMaxSequencePosition) :
    Aside ⟨a, bytes⟩ ∧ Before ⟨a, bytes⟩ := by
  unfold Aside Before
  rw [h]
  obtain rfl | rfl := ha
  · exact ⟨.inl (by decide : writerHeartbeatTimePosition + 8 ≤ writerSessionIdPosition),
      (by decide : writerHeartbeatTimePosition + 8 ≤ commitSequencePosition)⟩
  · exact ⟨.inr (.inl ⟨Nat.le_refl _,
      (by decide : writerMaxSequencePosition + 8 ≤ writerFlagsPosition)⟩),
      (by decide : writerMaxSequencePosition + 8 ≤ commitSequencePosition)⟩

theorem writeTimestamp_stores (s : Inserter) :
    ∀ st ∈ (writeTimestampToSharedMemory c now s).2, Aside st ∧ Before st := by
  unfold writeTimestampToSharedMemory
  split_ifs
  · intro st hst
    simp only [List.mem_cons, List.not_mem_nil, or_false] at hst
    obtain rfl | rfl := hst
    · exact aside_store (leBytes_length _ _) (.inl rfl)
    · exact aside_store (leBytes_length _ _) (.inr rfl)
  · simp

def flagStores (c : CommonData) : List (Store UInt8) :=
  [⟨writerFlagsPosition, leBytes 4 (htonl (flagsOf c)).toNat⟩,
    ⟨writerSessionIdPosition, leBytes 8 c.commonValueSessionId.toNat⟩]

theorem updateWriterFlags_eq (s : Inserter) : updateWriterFlags c s =
    ({ s with writerFlags := flagsOf c, writerFlagsPrevious := flagsOf c },
      if s.writerFlagsPrevious ≠ flagsOf c then flagStores c else []) := by
  have hdef : updateWriterFlags c s = if s.writerFlagsPrevious ≠ flagsOf c then
      ({ s with writerFlags := flagsOf c, writerFlagsPrevious := flagsOf c }, flagStores c)
      else ({ s with writerFlags := flagsOf c }, []) := rfl
  rw [hdef]
  by_cases h : s.writerFlagsPrevious = flagsOf c
  · rw [if_neg fun hne => hne h, if_neg fun hne => hne h, ← h]
  · rw [if_pos h, if_pos h]

theorem flagged_eq : flagged c m s =
    ({ taken c m s with writerFlags := flagsOf c, writerFlagsPrevious := flagsOf c },
      if s.writerFlagsPrevious ≠ flagsOf c then flagStores c else []) := by
  have hprevious : (taken c m s).writerFlagsPrevious = s.writerFlagsPrevious :=
    taken_kept Inserter.writerFlagsPrevious (fun _ _ _ _ => rfl) c m s
  rw [flagged, updateWriterFlags_eq, hprevious]

theorem handleSharedMemoryFrames_kept {α : Type} (field : Inserter → α)
    (happend : ∀ t, field (appendMessage t).1 = field t)
    (hskip : ∀ t, field (skipRemainingLines t).1 = field t)
    (hframe : ∀ c t, field (frameMessage c t) = field t) (s : Inserter) :
    field (handleSharedMemoryFrames c s).1 = field s := by
  by_cases hpos : s.framingMetaDataTotalNumberOfMessageBytes > 0
  · simp only [handleSharedMemoryFrames, if_pos hpos]
    rw [← hframe c s]
    generalize frameMessage c s = t
    by_cases hjump : t.framingMetaDataTotalLines.toUInt64 > t.cacheLinesRemaining
    · rw [if_pos hjump, happend, hskip]
    · rw [if_neg hjump, happend]
  · simp [handleSharedMemoryFrames, hpos]

theorem handleSharedMemoryFrames_previous (s : Inserter) :
    (handleSharedMemoryFrames c s).1.writerFlagsPrevious = s.writerFlagsPrevious :=
  handleSharedMemoryFrames_kept c Inserter.writerFlagsPrevious (fun _ => rfl) (fun _ => rfl)
    (fun _ _ => rfl) s

theorem timed_previous : (timed c now m s).1.writerFlagsPrevious = flagsOf c := by
  have hframed : (framed c m s).1.writerFlagsPrevious = flagsOf c := by
    rw [framed, handleSharedMemoryFrames_previous, flagged_eq]
  rw [timed, writeTimestamp_kept Inserter.writerFlagsPrevious fun _ _ _ => rfl]
  exact hframed

theorem framed_nil : framed c [] s = ((flagged c [] s).1, []) := by
  have hnone : ¬(flagged c [] s).1.framingMetaDataTotalNumberOfMessageBytes > 0 := by
    rw [flagged_eq]
    exact UInt16.lt_irrefl 0
  rw [framed, handleSharedMemoryFrames, if_neg hnone]

theorem framed_empty : (framed c [] s).2 = [] := by rw [framed_nil]

theorem turnStores_aside :
    ∀ st ∈ (framed c m s).2 ++ (timed c now m s).2, Aside st := by
  intro st hst
  obtain hst | hst := List.mem_append.mp hst
  · exact .inr (.inr (handleSharedMemoryFrames_address c _ st hst))
  · exact (writeTimestamp_stores c now _ st hst).1

/-- The fields after each store of a turn. -/
theorem turnStores_take (file : Memory UInt8) (k : Nat) :
    (writerFlagsField (file.applyAll ((turnStores c now m s).take k)),
        writerSessionIdField (file.applyAll ((turnStores c now m s).take k))) =
      if s.writerFlagsPrevious = flagsOf c ∨ k = 0 then
        (writerFlagsField file, writerSessionIdField file)
      else if k = 1 then (flagsOf c, writerSessionIdField file)
      else (flagsOf c, c.commonValueSessionId) := by
  have haside := turnStores_aside c now m s
  have hflags : flagsOf c = writerFlagsField (file.apply
      ⟨writerFlagsPosition, leBytes 4 (htonl (flagsOf c)).toNat⟩) := by
    have hload := load_store_self file writerFlagsPosition (leBytes 4 (htonl (flagsOf c)).toNat)
    rw [leBytes_length] at hload
    rw [writerFlagsField, apply, hload]
    unfold flagsOf
    cases c.commonFlagShutdownReceived with
    | false => decide
    | true => decide
  have hold : writerSessionIdField (file.apply
      ⟨writerFlagsPosition, leBytes 4 (htonl (flagsOf c)).toNat⟩) = writerSessionIdField file := by
    rw [writerSessionIdField, apply, load_store_disjoint _ _ _ _ _
      (.inl (by decide : writerSessionIdPosition + 8 ≤ writerFlagsPosition))]
    rfl
  have hboth : writerFlagsField (file.applyAll (flagStores c)) = flagsOf c ∧
      writerSessionIdField (file.applyAll (flagStores c)) = c.commonValueSessionId := by
    have hlength : (leBytes 8 c.commonValueSessionId.toNat).length = 8 := leBytes_length _ _
    constructor
    · rw [hflags, flagStores, applyAll_cons, applyAll_cons, applyAll_nil, apply, writerFlagsField,
        load_store_disjoint _ _ _ _ _ (.inr (hlength.symm ▸
          (by decide : writerSessionIdPosition + 8 ≤ writerFlagsPosition)))]
      rfl
    · have hload := load_store_self
        (file.apply ⟨writerFlagsPosition, leBytes 4 (htonl (flagsOf c)).toNat⟩)
        writerSessionIdPosition (leBytes 8 c.commonValueSessionId.toNat)
      rw [hlength] at hload
      have hlt : c.commonValueSessionId.toNat < 256 ^ 8 := c.commonValueSessionId.toNat_lt
      rw [flagStores, applyAll_cons, applyAll_cons, applyAll_nil, apply, writerSessionIdField, hload,
        ofLe_leBytes, Nat.mod_eq_of_lt hlt]
      exact UInt64.ofNat_toNat
  rw [turnStores, flagged_eq, List.append_assoc]
  by_cases hsame : s.writerFlagsPrevious = flagsOf c
  · obtain ⟨h1, h2⟩ := applyAll_aside file fun st hst => haside st (List.mem_of_mem_take hst)
    simp only [hsame, ne_eq, not_true_eq_false, if_false, List.nil_append, true_or, if_true]
    rw [h1, h2]
  · simp only [hsame, ne_eq, not_false_eq_true, if_true, false_or]
    cases k with
    | zero => rfl
    | succ k =>
      cases k with
      | zero =>
        change (writerFlagsField (file.apply _), writerSessionIdField (file.apply _)) = _
        rw [← hflags, hold]
        rfl
      | succ k =>
        obtain ⟨h1, h2⟩ := applyAll_aside (file.applyAll (flagStores c))
          fun st hst => haside st (List.mem_of_mem_take (i := k) hst)
        have hsplit : (flagStores c ++ ((framed c m s).2 ++ (timed c now m s).2)).take (k + 2) =
            flagStores c ++ ((framed c m s).2 ++ (timed c now m s).2).take k := rfl
        rw [hsplit, applyAll_append, h1, h2, hboth.1, hboth.2]
        rfl

theorem turnStores_fields (file : Memory UInt8) :
    writerFlagsField (file.applyAll (turnStores c now m s)) =
      (if s.writerFlagsPrevious = flagsOf c then writerFlagsField file else flagsOf c) ∧
    writerSessionIdField (file.applyAll (turnStores c now m s)) =
      if s.writerFlagsPrevious = flagsOf c then writerSessionIdField file
      else c.commonValueSessionId := by
  have htake := turnStores_take c now m s file ((turnStores c now m s).length + 2)
  rw [List.take_of_length_le (by omega)] at htake
  by_cases hsame : s.writerFlagsPrevious = flagsOf c
  · rw [if_pos (.inl hsame)] at htake
    rw [if_pos hsame, if_pos hsame]
    exact Prod.mk.inj htake
  · rw [if_neg (by simp [hsame]), if_neg (by omega)] at htake
    rw [if_neg hsame, if_neg hsame]
    exact Prod.mk.inj htake

theorem flagsOf_inj {c d : CommonData} (h : flagsOf c = flagsOf d) :
    c.commonFlagShutdownReceived = d.commonFlagShutdownReceived := by
  unfold flagsOf at h
  cases hc : c.commonFlagShutdownReceived with
  | false =>
    cases hd : d.commonFlagShutdownReceived with
    | false => rfl
    | true =>
      rw [hc, hd] at h
      exact absurd h (by decide)
  | true =>
    cases hd : d.commonFlagShutdownReceived with
    | false =>
      rw [hc, hd] at h
      exact absurd h (by decide)
    | true => rfl

theorem flagsOf_ne_zero (c : CommonData) : flagsOf c ≠ 0 := by
  unfold flagsOf
  cases c.commonFlagShutdownReceived with
  | false => decide
  | true => decide

theorem flagged_stores : ∀ st ∈ (flagged c m s).2, st ∈ flagStores c := by
  intro st hst
  rw [flagged_eq] at hst
  simp only [] at hst
  split_ifs at hst
  · exact hst
  · simp at hst

theorem flagged_before : ∀ st ∈ (flagged c m s).2, Before st := by
  intro st hst
  have hflag := flagged_stores c m s st hst
  simp only [flagStores, List.mem_cons, List.not_mem_nil, or_false] at hflag
  obtain rfl | rfl := hflag
  · unfold Before
    rw [leBytes_length]
    exact (by decide : writerFlagsPosition + 4 ≤ commitSequencePosition)
  · unfold Before
    rw [leBytes_length]
    exact (by decide : writerSessionIdPosition + 8 ≤ commitSequencePosition)

theorem turnStores_empty : ∀ st ∈ turnStores c now [] s, Before st := by
  intro st hst
  rw [turnStores, framed_empty, List.append_nil] at hst
  obtain hst | hst := List.mem_append.mp hst
  · exact flagged_before c [] s st hst
  · exact (writeTimestamp_stores c now _ st hst).2

end Stores

end UdpSm.InserterImplementation
