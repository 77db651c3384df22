import UdpSm.SharedMemoryReader

/-! Decoding the data section by its headers, from any record of the last revolution on. -/
namespace UdpSm.InserterImplementation
open Lib Memory

/-- The record whose header is at `line`, all fields big-endian. -/
def readRecord (m : Memory UInt8) (line : Nat) : Record :=
  let address := sharedMemoryDataPosition + cacheLineSize * (line % totalNumberOfDataCacheLines)
  ⟨line, ofBe (m.load address 2), ofBe (m.load (address + 4) 8),
    m.load (address + 12) (ofBe (m.load (address + 2) 2))⟩

/-- Walk from header to header until exactly `commit`; `fuel` bounds the number of headers. -/
def decode (m : Memory UInt8) (commit : Nat) : Nat → Nat → Option (List Record)
  | 0, _ => none
  | fuel+1, line =>
    if line = commit then some []
    else if commit < line then none
    else (decode m commit fuel (line + (readRecord m line).lines)).map (readRecord m line :: ·)

theorem readRecord_intact {m : Memory UInt8} {r : Record} (hv : r.Valid) (h : r.Intact m) :
    readRecord m r.line = r := by
  unfold Record.Intact Record.image at h
  obtain ⟨h, hpayload⟩ := load_append_eq h
  obtain ⟨h, hsequence⟩ := load_append_eq h
  obtain ⟨hlines, hbytes⟩ := load_append_eq h
  simp only [List.length_append, beBytes_length, Nat.reduceAdd, Record.address] at *
  have h1 := ofBe_beBytes_of_lt (hv.lines_lt.trans_eq (show 2 ^ 16 = 256 ^ 2 by norm_num))
  have h2 := ofBe_beBytes_of_lt (hv.bytes_lt.trans_eq (show 2 ^ 16 = 256 ^ 2 by norm_num))
  have h3 := ofBe_beBytes_of_lt (hv.sequenceNumber_lt.trans_eq (show 2 ^ 64 = 256 ^ 8 by norm_num))
  simp only [readRecord, hlines, hbytes, hsequence, h1, h2, h3, hpayload]

def Chained : Nat → List Record → Nat → Prop
  | w, [], e => w = e
  | w, r :: rs, e => r.line = w ∧ Chained r.stop rs e

theorem Chained.append {w v e : Nat} {xs ys : List Record} (hx : Chained w xs v)
    (hy : Chained v ys e) : Chained w (xs ++ ys) e := by
  induction xs generalizing w with
  | nil =>
    obtain rfl : w = v := hx
    exact hy
  | cons r xs ih => exact ⟨hx.1, ih hx.2⟩

theorem Chained.suffix {w e : Nat} {xs : List Record} {r : Record} {ys : List Record}
    (h : Chained w (xs ++ r :: ys) e) : Chained r.line (r :: ys) e := by
  induction xs generalizing w with
  | nil => exact ⟨rfl, h.2⟩
  | cons a xs ih => exact ih h.2

theorem Chained.le {w e : Nat} {rs : List Record} (h : Chained w rs e) : w ≤ e := by
  induction rs generalizing w with
  | nil => exact Nat.le_of_eq h
  | cons r rs ih => exact h.1 ▸ Nat.le_trans (Nat.le_add_right _ _) (ih h.2)

theorem Chained.bounds {w e : Nat} {rs : List Record} (h : Chained w rs e) :
    ∀ r ∈ rs, w ≤ r.line ∧ r.stop ≤ e := by
  induction rs generalizing w with
  | nil => simp
  | cons a rs ih =>
    intro r hr
    obtain rfl | hr := List.mem_cons.mp hr
    · exact ⟨Nat.le_of_eq h.1.symm, h.2.le⟩
    · have hle := ih h.2 r hr
      have ha := h.1
      unfold Record.stop at hle ⊢
      omega

theorem decode_chained {m : Memory UInt8} {commit : Nat} {rs : List Record} {w fuel : Nat}
    (h : Chained w rs commit) (hrs : ∀ r ∈ rs, r.Valid ∧ r.Intact m) (hfuel : rs.length < fuel) :
    decode m commit fuel w = some rs := by
  induction rs generalizing w fuel with
  | nil =>
    obtain ⟨fuel, rfl⟩ := Nat.exists_eq_add_of_lt hfuel
    obtain rfl : w = commit := h
    simp [decode]
  | cons r rs ih =>
    obtain ⟨fuel, rfl⟩ := Nat.exists_eq_add_of_lt hfuel
    obtain ⟨rfl, hrest⟩ := h
    obtain ⟨hvalid, hintact⟩ := hrs r (by simp)
    have hpos := hvalid.lines_pos
    have hle := hrest.le
    unfold Record.stop at hle
    have hrsfuel : rs.length < rs.length + 1 + fuel := by omega
    have hnext := ih hrest (fun a ha => hrs a (List.mem_cons_of_mem r ha)) hrsfuel
    rw [List.length_cons, decode, if_neg (by omega), if_neg (by omega),
      readRecord_intact hvalid hintact]
    change Option.map _ (decode m commit (rs.length + 1 + fuel) r.stop) = _
    rw [hnext]
    rfl

theorem appended_chained (w : Nat) (a : Append) :
    Chained w (appended w a) (advance totalNumberOfDataCacheLines w (linesOf a.bytes.toNat)) := by
  unfold appended advance place
  split_ifs with hfit
  · exact ⟨rfl, rfl⟩
  · exact ⟨rfl, rfl, rfl⟩

theorem records_chained (w : Nat) (as : List Append) :
    Chained w (records w as) (linesWritten w as) := by
  induction as generalizing w with
  | nil => rfl
  | cons a as ih => exact (appended_chained w a).append (ih _)

theorem records_messages {w : Nat} {as : List Append} (has : ∀ a ∈ as, 1 ≤ a.bytes.toNat) :
    ((records w as).filter fun r => r.payload ≠ []).map (fun r => (r.sequenceNumber, r.payload)) =
      as.map fun a => (a.sequenceNumber.toNat, a.message) := by
  induction as generalizing w with
  | nil => rfl
  | cons a as ih =>
    have hne : a.message ≠ [] := by
      have := has a (by simp)
      rw [Append.message, ne_eq, List.map_eq_nil_iff, List.range_eq_nil]
      omega
    have hhead : ((appended w a).filter fun r => r.payload ≠ []).map
        (fun r => (r.sequenceNumber, r.payload)) = [(a.sequenceNumber.toNat, a.message)] := by
      unfold appended
      split_ifs <;> simp [messageRecord, skipRecord, hne]
    rw [records, List.filter_append, List.map_append, hhead,
      ih fun b hb => has b (List.mem_cons_of_mem a hb)]
    rfl

/-- After a run the data section decodes, from any record of the last revolution on, to exactly
the records appended since, and no store ever left the data section on its way. -/
theorem decodable_log (c : CommonData) (s : Inserter) (file : Memory UInt8) {as : List Append}
    (has : ∀ a ∈ as, 1 ≤ a.bytes.toNat) (hmax : linesWritten 0 as < 2 ^ 64) :
    let stores := (appendAll c (initialized s) as).2
    let m := fileAfter c s file as stores.length
    (∀ st ∈ stores, st.address + st.bytes.length ≤ sharedMemoryDataPosition ∨
      (sharedMemoryDataPosition ≤ st.address ∧ st.address + st.bytes.length ≤
        sharedMemoryDataPosition + cacheLineSize * totalNumberOfDataCacheLines)) ∧
    ((records 0 as).filter fun r => r.payload ≠ []).map (fun r => (r.sequenceNumber, r.payload)) =
      as.map (fun a => (a.sequenceNumber.toNat, a.message)) ∧
    ∀ older r newer, records 0 as = older ++ r :: newer →
      commitSequence m ≤ r.line + totalNumberOfDataCacheLines →
      (∀ fuel, newer.length + 1 < fuel →
        decode m (commitSequence m) fuel r.line = some (r :: newer)) ∧
      ∀ d ∈ r :: newer, d.payload = [] →
        d.sequenceNumber = 0 ∧ d.stop % totalNumberOfDataCacheLines = 0 := by
  intro stores m
  have htracked := tracked_initialize c s file
  obtain ⟨⟨m', hrun⟩, -⟩ := appendAll_run c htracked (s := initialized s) ⟨rfl, rfl⟩ has hmax
  obtain ⟨f, hb, hsafe, hf, hend, hpub⟩ := protocol_states c s file has hmax
  obtain ⟨hcommit, hreserve⟩ := hend stores.length (Nat.le_refl _)
  have hk := hb.safe (by decide) hsafe stores.length
  have hm : commitSequence m = linesWritten 0 as := by
    rw [(hf _).1.commit, (hf _).2] at hcommit
    exact Nat.eq_of_mul_eq_mul_left (by decide) hcommit
  refine ⟨?_, records_messages has, ?_⟩
  · intro st hst
    rw [← data_size]
    exact (Log.run_wrote htracked hrun).2 st hst
  intro older r newer hsplit hwindow
  have hchain := records_chained 0 as
  rw [hsplit, ← hm] at hchain
  have hmem : ∀ d ∈ r :: newer, d ∈ records 0 as := by
    intro d hd
    rw [hsplit]
    exact List.mem_append_right older hd
  constructor
  · intro fuel hfuel
    refine decode_chained hchain.suffix (fun d hd => ?_) hfuel
    obtain ⟨hline, hstop⟩ := hchain.suffix.bounds d hd
    have hres : (f stores.length).reserve ≤ d.chunk.start + sharedMemoryTotalDataSize := by
      rw [hreserve, (hf _).1.commit, (hf _).2, data_size]
      change _ ≤ cacheLineSize * d.line + _
      rw [← Nat.mul_add]
      exact Nat.mul_le_mul_left _ (Nat.le_trans hwindow (Nat.add_le_add_right hline _))
    have hstored := hk.intact d.chunk (hpub _ d (hmem d hd) hstop) hres
    rw [(hf _).2, Record.stored_iff_intact] at hstored
    exact ⟨records_valid has d (hmem d hd), hstored⟩
  · intro d hd hnil
    exact (records_valid has d (hmem d hd)).skip hnil

theorem decodable_log_two_appends :
    let m := fileAfter default default ⟨sharedMemoryAllocationSize, fun _ => 0⟩ twoAppends 85
    decode m 3 3 0 = some [firstRecord, ⟨1, 2, 10, List.replicate 70 8⟩] ∧
    decode m 3 2 1 = some [⟨1, 2, 10, List.replicate 70 8⟩] := by
  intro m
  obtain ⟨-, -, hdecode⟩ := @decodable_log default default ⟨sharedMemoryAllocationSize, fun _ => 0⟩
    twoAppends (by decide) (by decide)
  have hrecords : records 0 twoAppends = [firstRecord, ⟨1, 2, 10, List.replicate 70 8⟩] := by
    decide +kernel
  have hstores : (appendAll default (initialized default) twoAppends).2.length = 85 := by decide +kernel
  have hcommit : commitSequence m = 3 := by decide +kernel
  rw [hstores] at hdecode
  change ∀ older r newer, _ → commitSequence m ≤ _ →
    (∀ fuel, _ → decode m (commitSequence m) fuel _ = _) ∧ _ at hdecode
  rw [hcommit] at hdecode
  exact ⟨(hdecode [] _ _ hrecords (by decide)).1 3 (by decide),
    (hdecode [firstRecord] _ [] hrecords (by decide)).1 2 (by decide)⟩

end UdpSm.InserterImplementation
