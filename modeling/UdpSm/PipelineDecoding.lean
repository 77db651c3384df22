import UdpSm.PipelineLog
import UdpSm.SharedMemoryDecoder

/-! What a reader decodes out of the file of a run. -/
namespace UdpSm.InserterImplementation
open Lib Memory

section Decode
variable {m m' : Memory UInt8} {c d : CommonData} {s t : Inserter} {as : List Append}

theorem load_congr {a n : Nat} (h : ∀ i, commitSequencePosition ≤ i → m.cell i = m'.cell i)
    (ha : commitSequencePosition ≤ a) : m.load a n = m'.load a n :=
  List.map_congr_left fun i _ => h (a + i) (Nat.le_trans ha (Nat.le_add_right a i))

/-- What a reader finds depends on the file from the Commit field on. -/
theorem decode_congr (h : ∀ i, commitSequencePosition ≤ i → m.cell i = m'.cell i) :
    commitSequence m = commitSequence m' ∧
      ∀ commit fuel line, decode m commit fuel line = decode m' commit fuel line := by
  have hbelow : commitSequencePosition ≤ sharedMemoryDataPosition := by decide
  have hrecord : ∀ line, readRecord m line = readRecord m' line := by
    intro line
    have hload : ∀ o n, m.load (sharedMemoryDataPosition +
        cacheLineSize * (line % totalNumberOfDataCacheLines) + o) n = m'.load (sharedMemoryDataPosition +
        cacheLineSize * (line % totalNumberOfDataCacheLines) + o) n := fun o n =>
      load_congr h (Nat.le_trans hbelow (by rw [Nat.add_assoc]; exact Nat.le_add_right _ _))
    have hzero := hload 0 2
    rw [Nat.add_zero] at hzero
    simp only [readRecord, hzero, hload]
  refine ⟨by rw [commitSequence, commitSequence, load_congr h (Nat.le_refl _)], fun commit fuel => ?_⟩
  induction fuel with
  | zero => exact fun _ => rfl
  | succ fuel ih =>
    intro line
    rw [decode, decode, hrecord, ih]

theorem appendAll_congr (hcommit : s.commitSequenceValue = t.commitSequenceValue)
    (hreserve : s.reserveSequenceValue = t.reserveSequenceValue) (as : List Append) :
    (appendAll c s as).2 = (appendAll d t as).2 := by
  induction as generalizing s t with
  | nil => rfl
  | cons a as ih =>
    have hsame : SameTurn { c with commonValueSequenceNumber := a.sequenceNumber }
        { d with commonValueSequenceNumber := a.sequenceNumber }
        { s with receivedDataBuffer := a.payload, framingMetaDataTotalNumberOfMessageBytes := a.bytes }
        { t with receivedDataBuffer := a.payload, framingMetaDataTotalNumberOfMessageBytes := a.bytes } :=
      ⟨rfl, hcommit, hreserve⟩
    obtain ⟨hstores, hcommit', hreserve'⟩ := hsame.frames
    simp only [appendAll]
    rw [ih (s := (append c s a).1) (t := (append d t a).1) hcommit' hreserve']
    exact congrArg (· ++ _) hstores

/-- A record of the last revolution is whole once its append is done. -/
theorem newest_intact (c : CommonData) (s : Inserter) (file : Memory UInt8)
    (has : ∀ a ∈ as, 1 ≤ a.bytes.toNat) (hmax : linesWritten 0 as < 2 ^ 64) (k : Nat)
    (hk : (appendAll c (initialized s) as).2.length ≤ k) :
    commitSequence (fileAfter c s file as k) = linesWritten 0 as ∧
      ∀ d ∈ records 0 as, linesWritten 0 as ≤ d.line + totalNumberOfDataCacheLines →
        d.Valid ∧ d.Intact (fileAfter c s file as k) := by
  obtain ⟨f, hb, hsafe, hf, hend, hpub⟩ := protocol_states c s file has hmax
  obtain ⟨hcommit, hreserve⟩ := hend k hk
  have hstate := hb.safe (by decide) hsafe k
  have hm : commitSequence (fileAfter c s file as k) = linesWritten 0 as := by
    rw [(hf k).1.commit, (hf k).2] at hcommit
    exact Nat.eq_of_mul_eq_mul_left (by decide) hcommit
  refine ⟨hm, fun d hd hwindow => ⟨records_valid has d hd, ?_⟩⟩
  have hstop := ((records_chained 0 as).bounds d hd).2
  rw [← hm] at hstop hwindow
  have hres : (f k).reserve ≤ d.chunk.start + sharedMemoryTotalDataSize := by
    rw [hreserve, (hf k).1.commit, (hf k).2, data_size]
    change _ ≤ cacheLineSize * d.line + _
    rw [← Nat.mul_add]
    exact Nat.mul_le_mul_left _ hwindow
  have hstored := hstate.intact d.chunk (hpub k d hd hstop) hres
  rwa [(hf k).2, Record.stored_iff_intact] at hstored

end Decode

end UdpSm.InserterImplementation

namespace UdpSm.Pipeline
open Lib Memory RingFIFOBuffer InserterImplementation
open ParserImplementation hiding iterate Context constructed

/-- The file shows what has been published: from any record of the last revolution on it decodes to
exactly the records since, and the records but the skip sections are the messages, in order. -/
structure Decodes (u : Unset) (cs : List Call) (s : System) : Prop extends Mirrors u cs s where
  messages : ((records 0 (published cs)).filter fun r => r.payload ≠ []).map
    (fun r => (r.sequenceNumber, r.payload)) =
      (published cs).map fun a => (a.sequenceNumber.toNat, a.message)
  decode : linesWritten 0 (published cs) < 2 ^ 64 →
    ∀ older r newer, records 0 (published cs) = older ++ r :: newer →
      commitSequence s.file ≤ r.line + totalNumberOfDataCacheLines →
      ∀ fuel, newer.length + 1 < fuel →
        InserterImplementation.decode s.file (commitSequence s.file) fuel r.line = some (r :: newer)

section Decodes
variable {u : Unset} {cs : List Call} {s : System}

theorem file_appended (h : Run Step (initial u) cs s) : ∀ i, commitSequencePosition ≤ i →
    s.file.cell i = (fileAfter connected u.inserter u.file (published cs)
      (appendAll connected (initialized u.inserter) (published cs)).2.length).cell i := by
  intro i hi
  have hstores : (replay u cs).2 = (appendAll connected (initialized u.inserter) (published cs)).2 :=
    appendAll_congr (s := (initial u).inserter) (t := initialized u.inserter) rfl rfl (published cs)
  rw [(mirrors h).file i hi, hstores, fileAfter, List.take_length]
  rfl

theorem published_bytes (h : Run Step (initial u) cs s) : ∀ a ∈ published cs, 1 ≤ a.bytes.toNat := by
  refine (run_invariant (fun cs _ => ∀ a ∈ published cs, 1 ≤ a.bytes.toNat) (by simp [published]) ?_ h).2
  intro cs s c s' hwell hinv hbefore _ _ a ha
  rw [published_snoc, List.mem_append] at ha
  obtain hold | hnew := ha
  · exact hinv a hold
  · obtain ⟨before, action⟩ := c
    obtain rfl : before = s := hbefore
    cases action with
    | insert now =>
      obtain ⟨m, hm, rfl⟩ := List.mem_map.mp hnew
      obtain ⟨hlong, hshort⟩ := hwell.messages m (List.mem_of_mem_head? (Option.mem_toList.mp hm))
      exact appendFor_bytes _ _ (by omega)
        (Nat.le_trans hshort (by decide : NetworkReceiverImplementationEFVI.jumboSize + 8 ≤ 65537))
    | _ => cases hnew

theorem decodes (h : Run Step (initial u) cs s) : Decodes u cs s where
  toMirrors := mirrors h
  messages := records_messages (published_bytes h)
  decode := by
    intro hmax older r newer hsplit hwindow fuel hfuel
    have hbytes := published_bytes h
    obtain ⟨hcommit, hdecode⟩ := decode_congr (file_appended h)
    obtain ⟨hlines, hintact⟩ := newest_intact connected u.inserter u.file hbytes hmax _ (Nat.le_refl _)
    rw [hcommit, hlines] at hwindow ⊢
    rw [hdecode]
    have hchain := records_chained 0 (published cs)
    rw [hsplit] at hchain
    refine decode_chained hchain.suffix (fun d hd => hintact d ?_ ?_) hfuel
    · rw [hsplit]
      exact List.mem_append_right older hd
    · exact Nat.le_trans hwindow (Nat.add_le_add_right (hchain.suffix.bounds d hd).1 _)

end Decodes

end UdpSm.Pipeline
