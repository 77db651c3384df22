import UdpSm.InserterImplementation
import UdpSm.Lib.ReserveCommit

/-! The appends of the inserter, store by store, are a run of the reserve/commit protocol. -/
namespace UdpSm.InserterImplementation
open Lib Memory

/-! The records that a run publishes, with absolute line numbers. -/

/-- A call of `HandleSharedMemoryFrames`, as its caller prepares it. -/
structure Append where
  payload : Nat → UInt8
  bytes : UInt16
  sequenceNumber : UInt64

def Append.message (a : Append) : List UInt8 := (List.range a.bytes.toNat).map a.payload

/-- A skip section has no payload and sequence number 0. -/
structure Record where
  line : Nat
  lines : Nat
  sequenceNumber : Nat
  payload : List UInt8
deriving DecidableEq

namespace Record

def image (r : Record) : List UInt8 :=
  beBytes 2 r.lines ++ beBytes 2 r.payload.length ++ beBytes 8 r.sequenceNumber ++ r.payload

def stop (r : Record) : Nat := r.line + r.lines

def chunk (r : Record) : Chunk UInt8 := ⟨cacheLineSize * r.line, r.image⟩

theorem image_length (r : Record) : r.image.length = 12 + r.payload.length := by
  simp only [image, List.length_append, beBytes_length]

end Record

def linesOf (bytes : Nat) : Nat := (bytes + 75) / 64

def skipRecord (commit : Nat) : Record :=
  ⟨commit, totalNumberOfDataCacheLines - commit % totalNumberOfDataCacheLines, 0, []⟩

def messageRecord (line : Nat) (a : Append) : Record :=
  ⟨line, linesOf a.bytes.toNat, a.sequenceNumber.toNat, a.message⟩

def appended (commit : Nat) (a : Append) : List Record :=
  let message :=
    messageRecord (place totalNumberOfDataCacheLines commit (linesOf a.bytes.toNat)) a
  if commit % totalNumberOfDataCacheLines + linesOf a.bytes.toNat ≤ totalNumberOfDataCacheLines then
    [message]
  else [skipRecord commit, message]

def records : Nat → List Append → List Record
  | _, [] => []
  | commit, a :: as => appended commit a ++
      records (advance totalNumberOfDataCacheLines commit (linesOf a.bytes.toNat)) as

/-! The run itself. -/

def append (c : CommonData) (s : Inserter) (a : Append) : Inserter × List (Store UInt8) :=
  handleSharedMemoryFrames { c with commonValueSequenceNumber := a.sequenceNumber }
    { s with receivedDataBuffer := a.payload, framingMetaDataTotalNumberOfMessageBytes := a.bytes }

def appendAll (c : CommonData) (s : Inserter) : List Append → Inserter × List (Store UInt8)
  | [] => (s, [])
  | a :: as =>
    let r := append c s a
    let r' := appendAll c r.1 as
    (r'.1, r.2 ++ r'.2)

def commitSequence (m : Memory UInt8) : Nat := ofBe (m.load commitSequencePosition 8)
def reserveSequence (m : Memory UInt8) : Nat := ofBe (m.load reserveSequencePosition 8)

structure Tracked (l : Log UInt8) : Prop where
  reserve : l.reserve = cacheLineSize * reserveSequence l.mem
  commit : l.commit = cacheLineSize * commitSequence l.mem

abbrev InserterStep := Log.Wrote sharedMemoryDataPosition sharedMemoryTotalDataSize Tracked

theorem data_lines : totalNumberOfDataCacheLines = 16777216 := by decide
theorem data_lines_pos : 0 < totalNumberOfDataCacheLines := by decide
theorem data_position : sharedMemoryDataPosition = 2097152 := by decide
theorem data_size : sharedMemoryTotalDataSize = cacheLineSize * totalNumberOfDataCacheLines := by
  decide

theorem Tracked.agree {l : Log UInt8} (h : Tracked l) (m : Memory UInt8)
    (hm : ∀ i, i < sharedMemoryDataPosition → m.cell i = l.mem.cell i) :
    Tracked { l with mem := m } := by
  rw [data_position] at hm
  have hr : m.load reserveSequencePosition 8 = l.mem.load reserveSequencePosition 8 :=
    load_congr fun j _ hj => hm j (Nat.lt_trans hj (by decide))
  have hc : m.load commitSequencePosition 8 = l.mem.load commitSequencePosition 8 :=
    load_congr fun j _ hj => hm j (Nat.lt_trans hj (by decide))
  constructor
  · rw [h.reserve, reserveSequence, reserveSequence, hr]
  · rw [h.commit, commitSequence, commitSequence, hc]

theorem ofBe_hton64 (v : UInt64) : ofBe (leBytes 8 (hton64 v).toNat) = v.toNat := by
  rw [leBytes_hton64]
  exact ofBe_beBytes_of_lt v.toNat_lt

theorem load_position (m : Memory UInt8) (a : Nat) (v : UInt64) :
    ofBe ((m.store a (leBytes 8 (hton64 v).toNat)).load a 8) = v.toNat := by
  have h := load_store_self m a (leBytes 8 (hton64 v).toNat)
  rw [leBytes_length] at h
  rw [h, ofBe_hton64]

theorem load_other (m : Memory UInt8) {a b : Nat} (v : UInt64) (h : b + 8 ≤ a ∨ a + 8 ≤ b) :
    (m.store a (leBytes 8 (hton64 v).toNat)).load b 8 = m.load b 8 :=
  load_store_disjoint m b 8 a _ (by rwa [leBytes_length])

theorem control_below (m : Memory UInt8) {a : Nat} (v : UInt64)
    (h : a + 8 ≤ sharedMemoryDataPosition) :
    Chunk.Agree sharedMemoryDataPosition sharedMemoryTotalDataSize m
      (m.store a (leBytes 8 (hton64 v).toNat)) :=
  Chunk.agree_store_below _ _ m a _ (by rwa [leBytes_length])

/-! The three kinds of stores. -/

theorem announce {l : Log UInt8} (h : Tracked l) {v : UInt64}
    (hv : l.reserve ≤ cacheLineSize * v.toNat) :
    InserterStep l (storeReserveSequence v)
      { l with mem := l.mem.apply (storeReserveSequence v), reserve := cacheLineSize * v.toNat } := by
  have hbelow : reserveSequencePosition + 8 ≤ sharedMemoryDataPosition := by decide
  refine ⟨.announce _ _ (control_below _ v hbelow) hv, .inl ?_, rfl, ?_⟩
  · rw [storeReserveSequence, leBytes_length]
    exact hbelow
  constructor
  · exact congrArg (cacheLineSize * ·) (load_position l.mem _ v).symm
  · have hapart : commitSequencePosition + 8 ≤ reserveSequencePosition ∨
        reserveSequencePosition + 8 ≤ commitSequencePosition := by decide
    have hother := load_other l.mem v hapart
    change l.commit = cacheLineSize * ofBe _
    rw [h.commit, commitSequence, apply, storeReserveSequence, hother]

theorem publish {l : Log UInt8} (h : Tracked l) {v : UInt64} {d : Chunk UInt8}
    (hd : d.Fits sharedMemoryTotalDataSize) (hstart : l.commit ≤ d.start)
    (hstop : d.stop ≤ cacheLineSize * v.toNat) (hv : cacheLineSize * v.toNat ≤ l.reserve)
    (hstored : d.Stored sharedMemoryDataPosition sharedMemoryTotalDataSize l.mem) :
    InserterStep l (storeCommitSequence v)
      { l with
        mem := l.mem.apply (storeCommitSequence v)
        commit := cacheLineSize * v.toNat
        published := l.published ++ [d] } := by
  have hd0 : d.start ≤ d.stop := Nat.le_add_right _ _
  have hbelow : commitSequencePosition + 8 ≤ sharedMemoryDataPosition := by decide
  refine ⟨.publish _ _ [d] (control_below _ v hbelow) (by omega) hv ?_, .inl ?_, rfl, ?_⟩
  · intro e he
    rw [List.mem_singleton.mp he]
    exact ⟨hd, hstart, hstop, hstored⟩
  · rw [storeCommitSequence, leBytes_length]
    exact hbelow
  · constructor
    · have hapart : reserveSequencePosition + 8 ≤ commitSequencePosition ∨
          commitSequencePosition + 8 ≤ reserveSequencePosition := by decide
      have hother := load_other l.mem v hapart
      change l.reserve = cacheLineSize * ofBe _
      rw [h.reserve, reserveSequence, apply, storeCommitSequence, hother]
    · exact congrArg (cacheLineSize * ·) (load_position l.mem _ v).symm

/-- A record that fits the lines announced for it, written piece by piece and published. -/
theorem run_record {l : Log UInt8} (h : Tracked l) {r : Record} {v w : UInt64}
    {parts : List (List UInt8)} (hv : v.toNat = r.stop) (hw : w.toNat = r.stop)
    (hcommit : l.commit = cacheLineSize * r.line) (hreserve : l.reserve = cacheLineSize * r.line)
    (hfit : r.line % totalNumberOfDataCacheLines + r.lines ≤ totalNumberOfDataCacheLines)
    (hlines : r.image.length ≤ cacheLineSize * r.lines) (hparts : parts.flatten = r.image)
    (hne : ∀ xs ∈ parts, xs ≠ []) :
    ∃ m, Run InserterStep l ([storeReserveSequence v] ++
        sequential (sharedMemoryDataPosition +
          cacheLineSize * (r.line % totalNumberOfDataCacheLines)) parts ++ [storeCommitSequence w])
      ⟨m, cacheLineSize * r.stop, cacheLineSize * r.stop, l.published ++ [r.chunk]⟩ := by
  have hmod : cacheLineSize * r.line % sharedMemoryTotalDataSize =
      cacheLineSize * (r.line % totalNumberOfDataCacheLines) := by
    rw [data_size, Nat.mul_mod_mul_left]
  have hstop : cacheLineSize * r.stop = cacheLineSize * r.line + cacheLineSize * r.lines :=
    Nat.mul_add _ _ _
  have hroom : cacheLineSize * r.line % sharedMemoryTotalDataSize + r.image.length ≤
      sharedMemoryTotalDataSize := by
    rw [hmod, data_size]
    have := Nat.mul_le_mul_left cacheLineSize hfit
    rw [Nat.mul_add] at this
    omega
  have h1 := announce h (v := v) (by rw [hv, hreserve, hstop]; omega)
  rw [hv] at h1
  have h2 := Log.run_fills (p := cacheLineSize * r.line) (fun m hm => h1.holds.agree m hm) hne
    (by rw [hparts]; exact hroom) (Nat.le_of_eq hcommit)
    (by rw [hparts]; change _ ≤ cacheLineSize * r.stop; omega)
  have hstored : r.chunk.Stored sharedMemoryDataPosition sharedMemoryTotalDataSize
      ((l.mem.apply (storeReserveSequence v)).store
        (sharedMemoryDataPosition + cacheLineSize * r.line % sharedMemoryTotalDataSize) r.image) :=
    Chunk.stored_store_self _ _ _ r.chunk
  rw [hparts] at h2
  have h3 := publish (v := w) (d := r.chunk) (h1.holds.agree _ fun i hi =>
      cell_store_outside _ _ _ _ (by omega)) hroom (Nat.le_of_eq hcommit)
    (by rw [hw, hstop]; exact Nat.add_le_add_left hlines _) (by rw [hw]) hstored
  rw [hmod] at h2 h3
  rw [hw] at h3
  exact ⟨_, ((Run.single h1).append h2).append (Run.single h3)⟩

/-! One call. -/

def At (s : Inserter) (w : Nat) : Prop :=
  s.commitSequenceValue.toNat = w ∧ s.reserveSequenceValue.toNat = w

theorem linesOf_bounds (n : Nat) : 12 + n ≤ cacheLineSize * linesOf n ∧ linesOf n ≤ (n + 75) / 64 := by
  unfold linesOf cacheLineSize
  omega

theorem add_toNat {x y : UInt64} {a b : Nat} (hx : x.toNat = a) (hy : y.toNat = b)
    (h : a + b < 2 ^ 64) : (x + y).toNat = a + b := by
  rw [UInt64.toNat_add, hx, hy]
  exact Nat.mod_eq_of_lt h

theorem totalLines_toNat (bytes : UInt16) :
    ((bytes.toUInt64 + 2 + 2 + 8 + 64 - 1) / 64).toUInt16.toNat = linesOf bytes.toNat := by
  have hb := bytes.toNat_lt
  have hadd : (bytes.toUInt64 + 2 + 2 + 8 + 64).toNat = bytes.toNat + 2 + 2 + 8 + 64 := by
    have hx := bytes.toNat_toUInt64
    exact add_toNat (add_toNat (add_toNat (add_toNat hx rfl (by omega)) rfl (by omega)) rfl (by omega))
      rfl (by omega)
  have hsum : (bytes.toUInt64 + 2 + 2 + 8 + 64 - 1).toNat = bytes.toNat + 75 := by
    rw [UInt64.toNat_sub_of_le, hadd]
    · rfl
    · rw [UInt64.le_iff_toNat_le, hadd]
      exact Nat.le_add_left _ _
  rw [UInt64.toNat_toUInt16, UInt64.toNat_div, hsum]
  exact Nat.mod_eq_of_lt (by change (bytes.toNat + 75) / 64 < _; omega)

theorem frameMessage_lines (c : CommonData) {s : Inserter} {w : Nat} (h : At s w) :
    (frameMessage c s).currentCacheLine.toNat = w % totalNumberOfDataCacheLines ∧
    (frameMessage c s).cacheLinesRemaining.toNat =
      totalNumberOfDataCacheLines - w % totalNumberOfDataCacheLines ∧
    (frameMessage c s).framingMetaDataTotalLines.toNat =
      linesOf s.framingMetaDataTotalNumberOfMessageBytes.toNat := by
  have hN : (UInt64.ofNat totalNumberOfDataCacheLines).toNat = totalNumberOfDataCacheLines := by
    decide
  have hcur : (frameMessage c s).currentCacheLine.toNat = w % totalNumberOfDataCacheLines := by
    rw [frameMessage, UInt64.toNat_mod, hN, h.1]
  refine ⟨hcur, ?_, totalLines_toNat _⟩
  rw [← hcur]
  change (UInt64.ofNat totalNumberOfDataCacheLines - (frameMessage c s).currentCacheLine).toNat = _
  rw [UInt64.toNat_sub_of_le, hN]
  rw [UInt64.le_iff_toNat_le, hN, hcur]
  exact Nat.le_of_lt (Nat.mod_lt _ (by decide))

theorem flatten_singletons (xs : List UInt8) : (xs.map fun b => [b]).flatten = xs := by
  induction xs with
  | nil => rfl
  | cons b xs ih => rw [List.map_cons, List.flatten_cons, ih, List.singleton_append]

theorem pieces_ne_nil {heads : List (List UInt8)} (h : ∀ xs ∈ heads, xs ≠ []) (body : List UInt8) :
    ∀ xs ∈ heads ++ body.map fun b => [b], xs ≠ [] := by
  intro xs hxs
  obtain hxs | hxs := List.mem_append.mp hxs
  · exact h xs hxs
  · obtain ⟨b, -, rfl⟩ := List.mem_map.mp hxs
    exact List.cons_ne_nil b []

theorem beBytes_ne_nil (k v : Nat) : beBytes (k + 1) v ≠ [] :=
  List.ne_nil_of_length_eq_add_one (beBytes_length (k + 1) v)

theorem cacheLineAddress_eq {line : UInt64} {w : Nat}
    (h : line.toNat = w % totalNumberOfDataCacheLines) : cacheLineAddress line =
      sharedMemoryDataPosition + cacheLineSize * (w % totalNumberOfDataCacheLines) := by
  rw [cacheLineAddress, h, Nat.mul_comm]

def idle (m : Memory UInt8) (w : Nat) (published : List (Chunk UInt8)) : Log UInt8 :=
  ⟨m, cacheLineSize * w, cacheLineSize * w, published⟩

theorem skipRemainingLines_run {m : Memory UInt8} {w : Nat} {cs : List (Chunk UInt8)} {s : Inserter}
    (hl : Tracked (idle m w cs)) (h : At s w)
    (hcur : s.currentCacheLine.toNat = w % totalNumberOfDataCacheLines)
    (hrem : s.cacheLinesRemaining.toNat = (skipRecord w).lines)
    (hsmall : (skipRecord w).lines < 2 ^ 16) (hmax : (skipRecord w).stop < 2 ^ 64) :
    (∃ m', Run InserterStep (idle m w cs) (skipRemainingLines s).2
      (idle m' (skipRecord w).stop (cs ++ [(skipRecord w).chunk]))) ∧
    At (skipRemainingLines s).1 (skipRecord w).stop := by
  have hcommit := add_toNat h.1 hrem hmax
  have hreserve := add_toNat h.2 hrem hmax
  refine ⟨?_, hcommit, hreserve⟩
  have hhtons : leBytes 2 (htons s.cacheLinesRemaining.toUInt16).toNat =
      beBytes 2 (skipRecord w).lines := by
    rw [leBytes_htons, UInt64.toNat_toUInt16, hrem, Nat.mod_eq_of_lt hsmall]
  have himage : ([beBytes 2 (skipRecord w).lines] ++
      (List.replicate 10 0).map fun b => [b]).flatten = (skipRecord w).image := by
    rw [List.flatten_append, flatten_singletons]
    simp only [skipRecord, Record.image, List.flatten_cons, List.flatten_nil, List.append_assoc]
    rfl
  have hfit : w % totalNumberOfDataCacheLines + (skipRecord w).lines ≤
      totalNumberOfDataCacheLines := by
    have := Nat.mod_lt w data_lines_pos
    change _ + (_ - _) ≤ _
    omega
  have hlines : (skipRecord w).image.length ≤ cacheLineSize * (skipRecord w).lines := by
    have := Nat.mod_lt w data_lines_pos
    rw [Record.image_length]
    change 12 + 0 ≤ 64 * (_ - _)
    omega
  have hstores : (skipRemainingLines s).2 =
      [storeReserveSequence (s.reserveSequenceValue + s.cacheLinesRemaining)] ++
        sequential (sharedMemoryDataPosition +
          cacheLineSize * (w % totalNumberOfDataCacheLines))
          ([beBytes 2 (skipRecord w).lines] ++ (List.replicate 10 0).map fun b => [b]) ++
        [storeCommitSequence (s.commitSequenceValue + s.cacheLinesRemaining)] := by
    simp only [skipRemainingLines, storeHtons, storeBytes, hhtons, cacheLineAddress_eq hcur,
      List.cons_append, List.nil_append, sequential, beBytes_length]
  rw [hstores]
  exact run_record hl hreserve hcommit rfl rfl hfit hlines himage
    (pieces_ne_nil (by simpa using beBytes_ne_nil 1 _) _)

def recordParts (a : Append) : List (List UInt8) :=
  [beBytes 2 (linesOf a.bytes.toNat), beBytes 2 a.bytes.toNat, beBytes 8 a.sequenceNumber.toNat] ++
    a.message.map fun b => [b]

theorem message_length (a : Append) : a.message.length = a.bytes.toNat := by simp [Append.message]

theorem recordParts_image (w : Nat) (a : Append) :
    (recordParts a).flatten = (messageRecord w a).image := by
  rw [recordParts, List.flatten_append, flatten_singletons]
  simp only [messageRecord, Record.image, List.flatten_cons, List.flatten_nil, List.append_assoc,
    List.nil_append, message_length]

theorem image_lines (w : Nat) (a : Append) :
    (messageRecord w a).image.length ≤ cacheLineSize * (messageRecord w a).lines := by
  rw [Record.image_length]
  change 12 + a.message.length ≤ cacheLineSize * linesOf a.bytes.toNat
  rw [message_length]
  exact (linesOf_bounds a.bytes.toNat).1

theorem appendMessage_stores {s : Inserter} (a : Append)
    (hbytes : s.framingMetaDataTotalNumberOfMessageBytes = a.bytes)
    (hbuffer : s.receivedDataBuffer = a.payload)
    (hseq : s.framingMetaDataMessageSequenceNumber = a.sequenceNumber)
    (hlines : s.framingMetaDataTotalLines.toNat = linesOf a.bytes.toNat) :
    (appendMessage s).2 =
      [storeReserveSequence (s.reserveSequenceValue + s.framingMetaDataTotalLines.toUInt64)] ++
        sequential (cacheLineAddress s.currentCacheLine) (recordParts a) ++
        [storeCommitSequence (s.commitSequenceValue + s.framingMetaDataTotalLines.toUInt64)] := by
  simp only [appendMessage, storeHtons, storeBytes, leBytes_htons, leBytes_hton64, hlines, hbytes,
    hseq, hbuffer, recordParts, List.cons_append, List.nil_append, sequential, beBytes_length,
    Append.message, Nat.add_assoc, Nat.reduceAdd]

theorem appendMessage_run {m : Memory UInt8} {w : Nat} {cs : List (Chunk UInt8)} {s : Inserter}
    (hl : Tracked (idle m w cs)) (h : At s w)
    (hcur : s.currentCacheLine.toNat = w % totalNumberOfDataCacheLines)
    (a : Append) (hbytes : s.framingMetaDataTotalNumberOfMessageBytes = a.bytes)
    (hbuffer : s.receivedDataBuffer = a.payload)
    (hseq : s.framingMetaDataMessageSequenceNumber = a.sequenceNumber)
    (hlines : s.framingMetaDataTotalLines.toNat = linesOf a.bytes.toNat)
    (hfit : w % totalNumberOfDataCacheLines + linesOf a.bytes.toNat ≤ totalNumberOfDataCacheLines)
    (hmax : w + linesOf a.bytes.toNat < 2 ^ 64) :
    (∃ m', Run InserterStep (idle m w cs) (appendMessage s).2
      (idle m' (w + linesOf a.bytes.toNat) (cs ++ [(messageRecord w a).chunk]))) ∧
    At (appendMessage s).1 (w + linesOf a.bytes.toNat) := by
  have hlines' : s.framingMetaDataTotalLines.toUInt64.toNat = linesOf a.bytes.toNat := by
    rw [UInt16.toNat_toUInt64, hlines]
  have hcommit := add_toNat h.1 hlines' hmax
  have hreserve := add_toNat h.2 hlines' hmax
  refine ⟨?_, hcommit, hreserve⟩
  rw [appendMessage_stores a hbytes hbuffer hseq hlines, cacheLineAddress_eq hcur]
  exact run_record hl hreserve hcommit rfl rfl hfit (image_lines w a) (recordParts_image w a)
    (pieces_ne_nil (by simp [beBytes_ne_nil]) _)

def appendOf (c : CommonData) (s : Inserter) : Append :=
  ⟨s.receivedDataBuffer, s.framingMetaDataTotalNumberOfMessageBytes, c.commonValueSequenceNumber⟩

theorem handleSharedMemoryFrames_run {m : Memory UInt8} {w : Nat} {cs : List (Chunk UInt8)}
    {s : Inserter} (c : CommonData) (hl : Tracked (idle m w cs)) (h : At s w)
    (ha : 1 ≤ (appendOf c s).bytes.toNat)
    (hmax : advance totalNumberOfDataCacheLines w (linesOf (appendOf c s).bytes.toNat) < 2 ^ 64) :
    (∃ m', Run InserterStep (idle m w cs) (handleSharedMemoryFrames c s).2
      (idle m' (advance totalNumberOfDataCacheLines w (linesOf (appendOf c s).bytes.toNat))
        (cs ++ (appended w (appendOf c s)).map Record.chunk))) ∧
    At (handleSharedMemoryFrames c s).1
      (advance totalNumberOfDataCacheLines w (linesOf (appendOf c s).bytes.toNat)) := by
  have hpos : s.framingMetaDataTotalNumberOfMessageBytes > 0 := ha
  obtain ⟨hcur, hrem, hlines⟩ := frameMessage_lines c h
  have hsmall := (linesOf_bounds (appendOf c s).bytes.toNat).2
  have hb := (appendOf c s).bytes.toNat_lt
  have hmod := Nat.mod_lt w data_lines_pos
  have hframed : At (frameMessage c s) w := h
  change (frameMessage c s).framingMetaDataTotalLines.toNat =
    linesOf (appendOf c s).bytes.toNat at hlines
  simp only [handleSharedMemoryFrames, if_pos hpos]
  by_cases hfit : w % totalNumberOfDataCacheLines + linesOf (appendOf c s).bytes.toNat ≤
      totalNumberOfDataCacheLines
  · have hno : ¬(frameMessage c s).framingMetaDataTotalLines.toUInt64 >
        (frameMessage c s).cacheLinesRemaining := by
      rw [gt_iff_lt, UInt64.lt_iff_toNat_lt, UInt16.toNat_toUInt64, hlines, hrem]
      omega
    rw [if_neg hno]
    simp only [appended, advance, place, if_pos hfit] at hmax ⊢
    exact appendMessage_run hl hframed hcur (appendOf c s) rfl rfl rfl hlines hfit hmax
  · have hyes : (frameMessage c s).framingMetaDataTotalLines.toUInt64 >
        (frameMessage c s).cacheLinesRemaining := by
      rw [gt_iff_lt, UInt64.lt_iff_toNat_lt, UInt16.toNat_toUInt64, hlines, hrem]
      omega
    rw [if_pos hyes]
    simp only [appended, advance, place, if_neg hfit] at hmax ⊢
    have hskipmax : (skipRecord w).stop < 2 ^ 64 := Nat.lt_of_le_of_lt (Nat.le_add_right _ _) hmax
    obtain ⟨⟨m', hskip⟩, hat⟩ := skipRemainingLines_run hl hframed hcur hrem
      (by change _ - _ < _; omega) hskipmax
    have htracked := (Log.run_wrote hl hskip).1
    have hzero : (skipRecord w).stop % totalNumberOfDataCacheLines = 0 :=
      skip_mod totalNumberOfDataCacheLines w (by decide)
    obtain ⟨⟨m'', hrun⟩, hat'⟩ := appendMessage_run htracked hat (by rw [hzero]; rfl)
      (appendOf c s) rfl rfl rfl hlines (by rw [hzero, data_lines]; omega) hmax
    refine ⟨⟨m'', ?_⟩, hat'⟩
    have := hskip.append hrun
    rwa [List.append_assoc] at this

/-! A whole run. -/

def linesWritten (w : Nat) (as : List Append) : Nat :=
  advanceAll totalNumberOfDataCacheLines w (as.map fun a => linesOf a.bytes.toNat)

theorem appendAll_run {m : Memory UInt8} {w : Nat} {cs : List (Chunk UInt8)} {s : Inserter}
    (c : CommonData) {as : List Append} (hl : Tracked (idle m w cs)) (h : At s w)
    (has : ∀ a ∈ as, 1 ≤ a.bytes.toNat) (hmax : linesWritten w as < 2 ^ 64) :
    (∃ m', Run InserterStep (idle m w cs) (appendAll c s as).2
      (idle m' (linesWritten w as) (cs ++ (records w as).map Record.chunk))) ∧
    At (appendAll c s as).1 (linesWritten w as) := by
  induction as generalizing m w cs s with
  | nil => exact ⟨⟨m, by rw [records, List.map_nil, List.append_nil]; exact .nil⟩, h⟩
  | cons a as ih =>
    have hle : advance totalNumberOfDataCacheLines w (linesOf a.bytes.toNat) ≤
        linesWritten w (a :: as) := le_advanceAll _ _ _
    have h' : At { s with receivedDataBuffer := a.payload,
                          framingMetaDataTotalNumberOfMessageBytes := a.bytes } w := h
    obtain ⟨⟨m', hrun⟩, hat⟩ := handleSharedMemoryFrames_run
      { c with commonValueSequenceNumber := a.sequenceNumber } hl h'
      (has a (by simp)) (Nat.lt_of_le_of_lt hle hmax)
    have htracked := (Log.run_wrote hl hrun).1
    obtain ⟨⟨m'', hrest⟩, hat'⟩ := ih htracked hat (fun b hb => has b (List.mem_cons_of_mem a hb)) hmax
    refine ⟨⟨m'', ?_⟩, hat'⟩
    have hall := hrun.append hrest
    rw [List.append_assoc, ← List.map_append] at hall
    exact hall

theorem tracked_initialize (c : CommonData) (s : Inserter) (file : Memory UInt8) :
    Tracked (idle (file.applyAll (initializeStores c s)) 0 []) := by
  obtain ⟨m, hm⟩ : ∃ m : Memory UInt8, file.applyAll (initializeStores c s) =
      ((m.store commitSequencePosition (leBytes 8 0)).store reserveSequencePosition
        (leBytes 8 0)).store writerFlagsPosition (leBytes 4 0) := ⟨_, rfl⟩
  constructor
  · have hload : (file.applyAll (initializeStores c s)).load reserveSequencePosition 8 =
        leBytes 8 0 := by
      rw [hm, load_store_disjoint _ _ _ _ _ (by decide)]
      exact load_store_self _ _ _
    change 0 = cacheLineSize * ofBe _
    rw [idle, hload]
    rfl
  · have hload : (file.applyAll (initializeStores c s)).load commitSequencePosition 8 =
        leBytes 8 0 := by
      rw [hm, load_store_disjoint _ _ _ _ _ (by decide), load_store_disjoint _ _ _ _ _ (by decide)]
      exact load_store_self _ _ _
    change 0 = cacheLineSize * ofBe _
    rw [idle, hload]
    rfl

end UdpSm.InserterImplementation
