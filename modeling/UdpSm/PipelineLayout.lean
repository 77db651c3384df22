import UdpSm.InserterByteOrder
import UdpSm.PipelineFields

/-! Where the stores of a run go: to the fields of the control block and to the data section. -/
namespace UdpSm.Lib.Memory
universe u
variable {α : Type u}

theorem applyAll_outside (m : Memory α) {sts : List (Store α)} {i : Nat}
    (h : ∀ st ∈ sts, i < st.address ∨ st.address + st.bytes.length ≤ i) :
    (m.applyAll sts).cell i = m.cell i := by
  induction sts generalizing m with
  | nil => rfl
  | cons st sts ih =>
    rw [applyAll_cons, ih (m.apply st) fun t ht => h t (List.mem_cons_of_mem st ht)]
    exact cell_store_outside _ _ _ _ (h st (by simp))

theorem applyAll_size (m : Memory α) (sts : List (Store α)) : (m.applyAll sts).size = m.size := by
  induction sts generalizing m with
  | nil => rfl
  | cons st sts ih => exact ih (m.apply st)

theorem sequential_inside {a n : Nat} {parts : List (List α)} (h : parts.flatten.length ≤ n) :
    ∀ st ∈ sequential a parts, a ≤ st.address ∧ st.address + st.bytes.length ≤ a + n := by
  induction parts generalizing a n with
  | nil => simp [sequential]
  | cons xs parts ih =>
    rw [List.flatten_cons, List.length_append] at h
    intro st hst
    cases hst with
    | head => exact ⟨Nat.le_refl a, by change a + xs.length ≤ a + n; omega⟩
    | tail _ hst =>
      obtain ⟨hlow, hhigh⟩ := ih (a := a + xs.length) (n := n - xs.length) (by omega) st hst
      exact ⟨by omega, by omega⟩

end UdpSm.Lib.Memory

namespace UdpSm.InserterImplementation
open Lib Memory

def controlFields : List (Nat × Nat) :=
  [(writerHeartbeatTimePosition, 8), (writerSessionIdPosition, 8), (writerMaxSequencePosition, 8),
    (writerFlagsPosition, 4), (commitSequencePosition, 8), (reserveSequencePosition, 8)]

/-- A store to one field of the control block, or inside the data section of the mapping. -/
def Placed (st : Store UInt8) : Prop :=
  (st.address, st.bytes.length) ∈ controlFields ∨
    sharedMemoryDataPosition ≤ st.address ∧ st.address + st.bytes.length ≤ sharedMemoryAllocationSize

def Covered (i : Nat) : Prop :=
  (∃ f ∈ controlFields, f.1 ≤ i ∧ i < f.1 + f.2) ∨
    sharedMemoryDataPosition ≤ i ∧ i < sharedMemoryAllocationSize

theorem Placed.outside {st : Store UInt8} (h : Placed st) {i : Nat} (hi : ¬Covered i) :
    i < st.address ∨ st.address + st.bytes.length ≤ i := by
  by_contra hinside
  obtain ⟨hlow, hhigh⟩ := not_or.mp hinside
  obtain hfield | ⟨hdata, hend⟩ := h
  · exact hi (.inl ⟨_, hfield, Nat.not_lt.mp hlow, Nat.not_le.mp hhigh⟩)
  · exact hi (.inr ⟨by omega, by omega⟩)

theorem Placed.inside {st : Store UInt8} (h : Placed st) :
    writerHeartbeatTimePosition ≤ st.address ∧
      st.address + st.bytes.length ≤ sharedMemoryAllocationSize := by
  obtain hfield | ⟨hdata, hend⟩ := h
  · have hall : ∀ f ∈ controlFields, writerHeartbeatTimePosition ≤ f.1 ∧
        f.1 + f.2 ≤ sharedMemoryAllocationSize := by decide
    exact hall _ hfield
  · exact ⟨Nat.le_trans (by decide) hdata, hend⟩

theorem not_covered_layout {i : Nat} (h : i < writerHeartbeatTimePosition) : ¬Covered i := by
  rintro (⟨f, hf, hlow, -⟩ | ⟨hdata, -⟩)
  · have hall : ∀ f ∈ controlFields, writerHeartbeatTimePosition ≤ f.1 := by decide
    exact absurd (Nat.le_trans (hall f hf) hlow) (Nat.not_le.mpr h)
  · have hbelow : writerHeartbeatTimePosition ≤ sharedMemoryDataPosition := by decide
    omega

theorem placed_line {line : UInt64} {lines k : Nat} {b : List UInt8}
    (hfit : line.toNat + lines ≤ totalNumberOfDataCacheLines)
    (hk : k + b.length ≤ cacheLineSize * lines) : Placed ⟨cacheLineAddress line + k, b⟩ := by
  have hend : sharedMemoryDataPosition + totalNumberOfDataCacheLines * cacheLineSize =
      sharedMemoryAllocationSize := by decide
  have hline := Nat.mul_le_mul_right cacheLineSize hfit
  rw [Nat.add_mul, Nat.mul_comm lines] at hline
  have haddress : cacheLineAddress line =
      sharedMemoryDataPosition + line.toNat * cacheLineSize := rfl
  refine .inr ⟨?_, ?_⟩
  · change sharedMemoryDataPosition ≤ cacheLineAddress line + k
    omega
  · change cacheLineAddress line + k + b.length ≤ sharedMemoryAllocationSize
    omega

section Stores
variable (c : CommonData) (now : UInt64) (m : List UInt8) (s : Inserter)

theorem placed_field {p n v : Nat} (h : (p, n) ∈ controlFields) : Placed ⟨p, leBytes n v⟩ := by
  refine .inl ?_
  rwa [leBytes_length]

theorem storeReserveSequence_placed (v : UInt64) : Placed (storeReserveSequence v) :=
  placed_field (by decide)

theorem storeCommitSequence_placed (v : UInt64) : Placed (storeCommitSequence v) :=
  placed_field (by decide)

theorem storeBytes_placed {line : UInt64} {lines k : Nat} {bytes : List UInt8}
    (hfit : line.toNat + lines ≤ totalNumberOfDataCacheLines)
    (hk : k + bytes.length ≤ cacheLineSize * lines) :
    ∀ st ∈ storeBytes (cacheLineAddress line + k) bytes, Placed st := by
  intro st hst
  have hlength : (bytes.map fun b => [b]).flatten.length ≤ bytes.length := by
    rw [← List.flatMap_def, List.flatMap_singleton']
  obtain ⟨hlow, hhigh⟩ := sequential_inside hlength st hst
  obtain ⟨a, xs⟩ := st
  obtain ⟨j, rfl⟩ := Nat.exists_eq_add_of_le hlow
  change cacheLineAddress line + k + j + xs.length ≤ _ at hhigh
  have hplaced := placed_line (k := k + j) (b := xs) hfit (by omega)
  rwa [← Nat.add_assoc] at hplaced

theorem appendMessage_placed {t : Inserter}
    (hlines : t.framingMetaDataTotalLines.toNat =
      linesOf t.framingMetaDataTotalNumberOfMessageBytes.toNat)
    (hfit : t.currentCacheLine.toNat + t.framingMetaDataTotalLines.toNat ≤
      totalNumberOfDataCacheLines) : ∀ st ∈ (appendMessage t).2, Placed st := by
  have hsize := (linesOf_bounds t.framingMetaDataTotalNumberOfMessageBytes.toNat).1
  rw [← hlines] at hsize
  intro st hst
  simp only [appendMessage, List.mem_append, List.mem_cons, List.not_mem_nil, or_false] at hst
  obtain ((rfl | rfl | rfl | rfl) | hst) | rfl := hst
  · exact storeReserveSequence_placed _
  · exact placed_line (k := 0) hfit (by rw [leBytes_length]; omega)
  · exact placed_line hfit (by rw [leBytes_length]; omega)
  · exact placed_line hfit (by rw [leBytes_length]; omega)
  · exact storeBytes_placed hfit (by rw [List.length_map, List.length_range]; exact hsize) st hst
  · exact storeCommitSequence_placed _

theorem skipRemainingLines_placed {t : Inserter} (hpos : 1 ≤ t.cacheLinesRemaining.toNat)
    (hfit : t.currentCacheLine.toNat + t.cacheLinesRemaining.toNat ≤ totalNumberOfDataCacheLines) :
    ∀ st ∈ (skipRemainingLines t).2, Placed st := by
  have hsize : 12 ≤ cacheLineSize * t.cacheLinesRemaining.toNat := by
    have hline : cacheLineSize = 64 := rfl
    rw [hline]
    omega
  have hheader := placed_line (k := 0)
    (b := leBytes 2 (htons t.cacheLinesRemaining.toUInt16).toNat) hfit
    (by rw [leBytes_length]; omega)
  intro st hst
  simp only [skipRemainingLines, List.mem_append, List.mem_cons, List.not_mem_nil, or_false] at hst
  obtain ((rfl | rfl) | hst) | rfl := hst
  · exact storeReserveSequence_placed _
  · exact hheader
  · exact storeBytes_placed hfit (by rw [List.length_replicate]; exact hsize) st hst
  · exact storeCommitSequence_placed _

/-- Whatever the object holds, the line arithmetic keeps the record inside the data section. -/
theorem handleSharedMemoryFrames_placed :
    ∀ st ∈ (handleSharedMemoryFrames c s).2, Placed st := by
  -- the lines depend on the commit position alone
  obtain ⟨hcur, hrem, hlines⟩ : (frameMessage c s).currentCacheLine.toNat =
        s.commitSequenceValue.toNat % totalNumberOfDataCacheLines ∧
      (frameMessage c s).cacheLinesRemaining.toNat = totalNumberOfDataCacheLines -
        s.commitSequenceValue.toNat % totalNumberOfDataCacheLines ∧
      (frameMessage c s).framingMetaDataTotalLines.toNat = linesOf
        (frameMessage c s).framingMetaDataTotalNumberOfMessageBytes.toNat :=
    frameMessage_lines c (s := { s with reserveSequenceValue := s.commitSequenceValue }) ⟨rfl, rfl⟩
  have hmod := Nat.mod_lt s.commitSequenceValue.toNat data_lines_pos
  by_cases hpos : s.framingMetaDataTotalNumberOfMessageBytes > 0
  · simp only [handleSharedMemoryFrames, if_pos hpos]
    by_cases hjump : (frameMessage c s).framingMetaDataTotalLines.toUInt64 >
        (frameMessage c s).cacheLinesRemaining
    · rw [if_pos hjump]
      have hsmall := (linesOf_bounds
        (frameMessage c s).framingMetaDataTotalNumberOfMessageBytes.toNat).2
      have hbytes := (frameMessage c s).framingMetaDataTotalNumberOfMessageBytes.toNat_lt
      have htotal : 1025 ≤ totalNumberOfDataCacheLines := by rw [data_lines]; decide
      intro st hst
      obtain hst | hst := List.mem_append.mp hst
      · exact skipRemainingLines_placed (by omega) (by omega) st hst
      · have hzero : (skipRemainingLines (frameMessage c s)).1.currentCacheLine.toNat = 0 := rfl
        have hsame : (skipRemainingLines (frameMessage c s)).1.framingMetaDataTotalLines =
          (frameMessage c s).framingMetaDataTotalLines := rfl
        refine appendMessage_placed (t := (skipRemainingLines (frameMessage c s)).1) hlines ?_ st hst
        rw [hzero, hsame]
        omega
    · rw [if_neg hjump]
      rw [gt_iff_lt, UInt64.lt_iff_toNat_lt, UInt16.toNat_toUInt64] at hjump
      exact appendMessage_placed hlines (by omega)
  · simp [handleSharedMemoryFrames, hpos]

theorem writeTimestampToSharedMemory_placed :
    ∀ st ∈ (writeTimestampToSharedMemory c now s).2, Placed st := by
  unfold writeTimestampToSharedMemory
  split_ifs
  · intro st hst
    simp only [List.mem_cons, List.not_mem_nil, or_false] at hst
    obtain rfl | rfl := hst
    · exact placed_field (by decide)
    · exact placed_field (by decide)
  · simp

theorem turnStores_placed : ∀ st ∈ turnStores c now m s, Placed st := by
  intro st hst
  simp only [turnStores, List.mem_append] at hst
  obtain (hst | hst) | hst := hst
  · have hflag := flagged_stores c m s st hst
    simp only [flagStores, List.mem_cons, List.not_mem_nil, or_false] at hflag
    obtain rfl | rfl := hflag
    · exact placed_field (by decide)
    · exact placed_field (by decide)
  · exact handleSharedMemoryFrames_placed c _ st hst
  · exact writeTimestampToSharedMemory_placed c now _ st hst

end Stores

end UdpSm.InserterImplementation

namespace UdpSm.InserterByteOrder
open Lib Memory
open InserterImplementation hiding reverseBytesLoop reverseBytes hostToNetwork writeMemory

def layoutFields : List FieldStore :=
  [.template 4 fileVersion 1,
    .template 4 layoutFlags 0,
    .template 4 pageSize (BitVec.ofNat 32 blockPageSize),
    .template 4 lineSize (BitVec.ofNat 32 cacheLineSize),
    .template 4 dataSize (BitVec.ofNat 32 sharedMemoryTotalDataSize),
    .template 8 dataOffset (BitVec.ofNat 64 blockPageSize)]

/-- The file has the marker, and its layout section is read as `Initialize` wrote it. -/
structure Laid (m : Memory UInt8) : Prop where
  fileMarker : m.load fileMarkerPosition 4 = [95, 67, 66, 95]
  fields : ∀ st ∈ layoutFields, st.ReadBack m

section Laid
variable {m m' : Memory UInt8}

theorem FieldStore.readBack_congr {st : FieldStore} (h : st.ReadBack m) (hsize : m'.size = m.size)
    (hcell : ∀ i, st.position ≤ i → i < st.position + st.size → m'.cell i = m.cell i) :
    st.ReadBack m' := by
  have hload : m'.load st.position st.size = m.load st.position st.size := load_congr hcell
  have hword : m'.loadWord st.size st.position = m.loadWord st.size st.position := by
    simp only [loadWord, loadAt, hsize, Int.toNat_natCast, hload]
  simp only [FieldStore.ReadBack, readMemory] at h ⊢
  rwa [hword]

theorem Laid.congr (h : Laid m) (hsize : m'.size = m.size)
    (hcell : ∀ i, i < writerHeartbeatTimePosition → m'.cell i = m.cell i) : Laid m' := by
  constructor
  · rw [← h.fileMarker]
    refine load_congr fun i _ hi => hcell i ?_
    exact Nat.lt_of_lt_of_le hi (by decide)
  · intro st hst
    have hall : ∀ st ∈ layoutFields, st.position + st.size ≤ writerHeartbeatTimePosition := by
      simp only [layoutFields, List.mem_cons, List.not_mem_nil, or_false]
      rintro st (rfl | rfl | rfl | rfl | rfl | rfl) <;> decide
    exact FieldStore.readBack_congr (h.fields st hst) hsize fun i _ hi =>
      hcell i (Nat.lt_of_lt_of_le hi (hall st hst))

theorem laid_start (c : CommonData) (s : Inserter)
    (hsize : m.size = sharedMemoryAllocationSize) : Laid (m.applyAll (initializeStores c s)) := by
  have hinside : sharedMemoryDataPosition ≤ m.size := by
    rw [hsize]
    decide
  constructor
  · have hbehind : ∀ p ∈ ((initializeFields c s).map FieldStore.store).map Store.address,
        fileMarkerPosition + 4 ≤ p := by
      have haddresses : ((initializeFields c s).map FieldStore.store).map Store.address =
        [4, 8, 12, 16, 20, 24, 72, 80, 128, 192, 88] := rfl
      rw [haddresses]
      decide
    have hmarker : (m.apply fileMarker).load fileMarkerPosition 4 = [95, 67, 66, 95] :=
      load_store_self m fileMarkerPosition [95, 67, 66, 95]
    rw [initializeStores_eq, applyAll_cons, ← hmarker]
    refine load_congr fun i _ hi => applyAll_outside _ fun st hst => .inl ?_
    exact Nat.lt_of_lt_of_le hi (hbehind _ (List.mem_map_of_mem hst))
  · intro st hst
    have hfirst : initializeFields c s = layoutFields ++ (initializeFields c s).drop 6 := rfl
    refine initialize_readBack ⟨m, hinside⟩ c s st ?_
    rw [hfirst]
    exact List.mem_append_left _ hst

end Laid

end UdpSm.InserterByteOrder

namespace UdpSm.Pipeline
open Lib Memory RingFIFOBuffer InserterImplementation InserterByteOrder
open ParserImplementation (connected oneMessageFrame)
open NetworkReceiverImplementationEFVI (packetEvent)

section File
variable {s s' : System} {a : Action}

theorem perform_file (hok : perform s a = .ok s') :
    s'.file = s.file.applyAll (Call.stores ⟨s, a⟩) := by
  cases a with
  | receive events =>
    obtain ⟨x, -, rfl⟩ := map_ok hok
    rfl
  | parse =>
    obtain ⟨x, -, rfl⟩ := map_ok hok
    rfl
  | insert now =>
    cases hiterate : InserterImplementation.iterate s.common now s.context.ring1.ringbuf s.inserter with
    | none => simp [perform, hiterate] at hok
    | some r =>
      simp only [perform, hiterate] at hok
      obtain rfl := Except.ok.inj hok
      simp only [Call.stores, hiterate]
  | writeTimestamp now =>
    obtain rfl := Except.ok.inj hok
    rfl
  | readKeyboardInput key =>
    obtain rfl := Except.ok.inj hok
    rfl

theorem stores_placed (c : Call) : ∀ st ∈ c.stores, Placed st := by
  obtain ⟨s, a⟩ := c
  cases a with
  | insert now =>
    cases hread : RingFIFOBuffer.read s.context.ring1.ringbuf with
    | none => simp [Call.stores, InserterImplementation.iterate, hread]
    | some r =>
      simp only [Call.stores, iterate_of_read s.common now s.inserter hread]
      exact turnStores_placed s.common now r.2.1 s.inserter
  | writeTimestamp now => exact writeTimestampToSharedMemory_placed s.common now s.inserter
  | receive | parse | readKeyboardInput => simp [Call.stores]

/-- A file that differs from that of `Initialize` at most where stores may go. -/
def Intact (u : Unset) (m : Memory UInt8) : Prop :=
  m.size = (initial u).file.size ∧ ∀ i, ¬Covered i → m.cell i = (initial u).file.cell i

theorem Intact.applyAll {u : Unset} {m : Memory UInt8} (h : Intact u m) {sts : List (Store UInt8)}
    (hplaced : ∀ st ∈ sts, Placed st) : Intact u (m.applyAll sts) := by
  refine ⟨(applyAll_size m sts).trans h.1, fun i hi => ?_⟩
  rw [applyAll_outside m fun st hst => (hplaced st hst).outside hi]
  exact h.2 i hi

theorem Intact.laid {u : Unset} {m : Memory UInt8} (h : Intact u m)
    (hsize : u.file.size = sharedMemoryAllocationSize) : Laid m :=
  (laid_start connected u.inserter hsize).congr h.1 fun i hi => h.2 i (not_covered_layout hi)

end File

section Run
variable {u : Unset} {cs : List Call} {s : System}

theorem intact_run (h : Run Step (initial u) cs s) :
    Intact u s.file ∧ ∀ c ∈ cs, Intact u c.before.file := by
  refine (run_invariant (fun cs s => Intact u s.file ∧ ∀ c ∈ cs, Intact u c.before.file) ?_ ?_ h).2
  · exact ⟨⟨rfl, fun i _ => rfl⟩, by simp⟩
  · rintro cs s c s' - ⟨hfile, hcs⟩ rfl hok -
    refine ⟨?_, fun d hd => ?_⟩
    · rw [perform_file hok]
      exact hfile.applyAll (stores_placed c)
    · obtain hd | hd := List.mem_append.mp hd
      · exact hcs d hd
      · rw [List.mem_singleton.mp hd]
        exact hfile

/-- Every store of every run goes to one field of the control block or into the data section of the
mapped file; so after every single store the layout section is read as `Initialize` wrote it, and
nothing between the fields has changed. -/
theorem file_layout (hsize : u.file.size = sharedMemoryAllocationSize)
    (h : Run Step (initial u) cs s) :
    (∀ c ∈ cs, ∀ st ∈ c.stores, Placed st) ∧ Laid s.file ∧
    ∀ c ∈ cs, ∀ k, Laid (c.fileAfter k) ∧
      ∀ i, ¬Covered i → (c.fileAfter k).cell i = (initial u).file.cell i := by
  obtain ⟨hfile, hcs⟩ := intact_run h
  refine ⟨fun c _ => stores_placed c, hfile.laid hsize, fun c hc k => ?_⟩
  have hafter : Intact u (c.fileAfter k) := (hcs c hc).applyAll fun st hst =>
    stores_placed c st (List.mem_of_mem_take hst)
  exact ⟨hafter.laid hsize, hafter.2⟩

theorem file_layout_one_message : ∃ cs s, Run Step (initial blank) cs s ∧
    (published cs).length = 1 ∧ dataOffset.read (some s.file) = some (BitVec.ofNat 64 2097152) := by
  obtain ⟨cs, s, hrun, hlook⟩ := exists_run (s := initial blank)
    [.receive [packetEvent oneMessageFrame], .parse, .insert 0]
    (fun r => (published r.2).length) (v := 1) (by decide +kernel)
  have hlaid := (file_layout (u := blank) rfl hrun).2.1
  exact ⟨cs, s, hrun, hlook, hlaid.fields (.template 8 dataOffset (BitVec.ofNat 64 blockPageSize))
    (by simp [layoutFields])⟩

end Run

end UdpSm.Pipeline
