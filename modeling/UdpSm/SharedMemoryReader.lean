import UdpSm.InserterLog

/-! What a reader of the shared memory file can rely on: records inside the announced window are
never torn, and the data section between two calls decodes to what was appended. -/
namespace UdpSm.InserterImplementation
open Lib Memory

/-- The file after the first `k` stores of a run that starts with `Initialize`. -/
def fileAfter (c : CommonData) (s : Inserter) (file : Memory UInt8) (as : List Append) (k : Nat) :
    Memory UInt8 :=
  (file.applyAll (initializeStores c s)).applyAll ((appendAll c (initialized s) as).2.take k)

namespace Record

def address (r : Record) : Nat :=
  sharedMemoryDataPosition + cacheLineSize * (r.line % totalNumberOfDataCacheLines)

def Intact (m : Memory UInt8) (r : Record) : Prop := m.load r.address r.image.length = r.image

/-- What the header fields can hold, and where a skip section ends. -/
structure Valid (r : Record) : Prop where
  lines_pos : 1 ≤ r.lines
  lines_lt : r.lines < 2 ^ 16
  bytes_lt : r.payload.length < 2 ^ 16
  sequenceNumber_lt : r.sequenceNumber < 2 ^ 64
  skip : r.payload = [] → r.sequenceNumber = 0 ∧ r.stop % totalNumberOfDataCacheLines = 0

theorem chunk_address (r : Record) :
    sharedMemoryDataPosition + r.chunk.start % sharedMemoryTotalDataSize = r.address := by
  rw [chunk, data_size, Nat.mul_mod_mul_left, address]

theorem stored_iff_intact (m : Memory UInt8) (r : Record) :
    r.chunk.Stored sharedMemoryDataPosition sharedMemoryTotalDataSize m ↔ r.Intact m := by
  rw [Chunk.Stored, chunk_address]
  exact Iff.rfl

end Record

theorem skipRecord_valid {w n : Nat} (hn : n < 2 ^ 16)
    (hskip : totalNumberOfDataCacheLines < w % totalNumberOfDataCacheLines + linesOf n) :
    (skipRecord w).Valid := by
  have hw := Nat.mod_lt w data_lines_pos
  have hl := (linesOf_bounds n).2
  constructor
  · change 1 ≤ _ - _
    omega
  · change _ - _ < _
    omega
  · exact Nat.two_pow_pos 16
  · exact Nat.two_pow_pos 64
  · exact fun _ => ⟨rfl, skip_mod _ w (by decide)⟩

theorem messageRecord_valid (w : Nat) {a : Append} (ha : 1 ≤ a.bytes.toNat) :
    (messageRecord w a).Valid := by
  have hb := a.bytes.toNat_lt
  have hl := linesOf_bounds a.bytes.toNat
  have hlength : (messageRecord w a).payload.length = a.bytes.toNat := by
    simp [messageRecord, Append.message]
  constructor
  · change 1 ≤ linesOf a.bytes.toNat
    unfold linesOf
    omega
  · change linesOf a.bytes.toNat < _
    omega
  · omega
  · exact a.sequenceNumber.toNat_lt
  · intro hnil
    rw [hnil] at hlength
    simp only [List.length_nil] at hlength
    omega

theorem appended_valid {w : Nat} {a : Append} (ha : 1 ≤ a.bytes.toNat) :
    ∀ r ∈ appended w a, r.Valid := by
  intro r hr
  unfold appended at hr
  split_ifs at hr with hfit
  · rw [List.mem_singleton.mp hr]
    exact messageRecord_valid _ ha
  · obtain rfl | hr := List.mem_cons.mp hr
    · exact skipRecord_valid a.bytes.toNat_lt (by omega)
    · rw [List.mem_singleton.mp hr]
      exact messageRecord_valid _ ha

theorem records_valid {w : Nat} {as : List Append} (has : ∀ a ∈ as, 1 ≤ a.bytes.toNat) :
    ∀ r ∈ records w as, r.Valid := by
  induction as generalizing w with
  | nil => simp [records]
  | cons a as ih =>
    intro r hr
    obtain hr | hr := List.mem_append.mp hr
    · exact appended_valid (has a (by simp)) r hr
    · exact ih (fun b hb => has b (List.mem_cons_of_mem a hb)) r hr

section Run
variable (c : CommonData) (s : Inserter) (file : Memory UInt8) {as : List Append}

theorem protocol_states (has : ∀ a ∈ as, 1 ≤ a.bytes.toNat) (hmax : linesWritten 0 as < 2 ^ 64) :
    ∃ f : Nat → Log UInt8,
      Log.Behaviour sharedMemoryDataPosition sharedMemoryTotalDataSize f ∧
      Log.Safe sharedMemoryDataPosition sharedMemoryTotalDataSize (f 0) ∧
      (∀ k, Tracked (f k) ∧ (f k).mem = fileAfter c s file as k) ∧
      (∀ k, (appendAll c (initialized s) as).2.length ≤ k →
        (f k).commit = cacheLineSize * linesWritten 0 as ∧ (f k).reserve = (f k).commit) ∧
      ∀ k, ∀ r ∈ records 0 as, r.stop ≤ commitSequence (fileAfter c s file as k) →
        r.chunk ∈ (f k).published := by
  have htracked := tracked_initialize c s file
  obtain ⟨⟨m', hrun⟩, -⟩ := appendAll_run c htracked (s := initialized s) ⟨rfl, rfl⟩ has hmax
  obtain ⟨f, hb, h0, hend, hstates⟩ := Log.exists_behaviour htracked hrun
  have hf : ∀ k, Tracked (f k) ∧ (f k).mem = fileAfter c s file as k := hstates
  refine ⟨f, hb, ?_, hf, ?_, ?_⟩
  · rw [h0]
    exact ⟨Nat.le_refl _, by simp [idle], by simp [idle]⟩
  · intro k hk
    rw [hend k hk]
    exact ⟨rfl, rfl⟩
  · intro k r hr hstop
    have hlast : r.chunk ∈ (f (max k (appendAll c (initialized s) as).2.length)).published := by
      rw [hend _ (Nat.le_max_right _ _)]
      exact List.mem_map_of_mem hr
    obtain h | h := hb.later (Nat.le_max_left _ _) hlast
    · exact h
    · have hpos := (records_valid has r hr).lines_pos
      rw [(hf k).1.commit, (hf k).2] at h
      have hle : commitSequence (fileAfter c s file as k) ≤ r.line :=
        Nat.le_of_mul_le_mul_left h (by decide)
      unfold Record.stop at hstop
      omega

/-- After any number of single stores, commit has not passed reserve, and a published record
inside the window is whole; so a reader that copies a record it found published, at whatever
points, and then still finds it inside the window, has copied what was published. -/
theorem torn_read_safety (has : ∀ a ∈ as, 1 ≤ a.bytes.toNat) (hmax : linesWritten 0 as < 2 ^ 64) :
    (∀ k, commitSequence (fileAfter c s file as k) ≤ reserveSequence (fileAfter c s file as k) ∧
      ∀ r ∈ records 0 as, r.stop ≤ commitSequence (fileAfter c s file as k) →
        reserveSequence (fileAfter c s file as k) ≤ r.line + totalNumberOfDataCacheLines →
        r.Intact (fileAfter c s file as k)) ∧
    ∀ r ∈ records 0 as, ∀ i j, r.stop ≤ commitSequence (fileAfter c s file as i) →
      reserveSequence (fileAfter c s file as j) ≤ r.line + totalNumberOfDataCacheLines →
      ∀ tick : Nat → Nat, (∀ o, i ≤ tick o ∧ tick o ≤ j) → ∀ o, (ho : o < r.image.length) →
        (fileAfter c s file as (tick o)).cell (r.address + o) = r.image[o] := by
  obtain ⟨f, hb, hsafe, hf, -, hpub⟩ := protocol_states c s file has hmax
  have hsize : 0 < sharedMemoryTotalDataSize := by decide
  have hwindow : ∀ k, ∀ r : Record,
      reserveSequence (fileAfter c s file as k) ≤ r.line + totalNumberOfDataCacheLines →
      (f k).reserve ≤ r.chunk.start + sharedMemoryTotalDataSize := by
    intro k r hr
    rw [(hf k).1.reserve, (hf k).2, data_size]
    change _ ≤ cacheLineSize * r.line + _
    rw [← Nat.mul_add]
    exact Nat.mul_le_mul_left _ hr
  constructor
  · intro k
    have hk := hb.safe hsize hsafe k
    constructor
    · have horder := hk.order
      rw [(hf k).1.reserve, (hf k).1.commit, (hf k).2] at horder
      exact Nat.le_of_mul_le_mul_left horder (by decide)
    · intro r hr hstop hres
      have hstored := hk.intact r.chunk (hpub k r hr hstop) (hwindow k r hres)
      rwa [(hf k).2, Record.stored_iff_intact] at hstored
  · intro r hr i j hstop hres tick htick o ho
    have hread := hb.read hsize hsafe (hpub i r hr hstop) (hwindow j r hres) tick htick o ho
    rwa [(hf _).2, r.chunk_address] at hread

def twoAppends : List Append := [⟨fun _ => 7, 5, 9⟩, ⟨fun _ => 8, 70, 10⟩]

def firstRecord : Record := ⟨0, 1, 9, [7, 7, 7, 7, 7]⟩

/-- After the last store both records are whole, and the first one is copied right at whatever points
since it was published. -/
theorem torn_read_safety_two_appends :
    let file := fileAfter default default ⟨sharedMemoryAllocationSize, fun _ => 0⟩ twoAppends
    (∀ r ∈ records 0 twoAppends, r.Intact (file 85)) ∧
    ∀ tick : Nat → Nat, (∀ o, 10 ≤ tick o ∧ tick o ≤ 85) → ∀ o, (ho : o < firstRecord.image.length) →
      (file (tick o)).cell (firstRecord.address + o) = firstRecord.image[o] := by
  intro file
  obtain ⟨hstates, hreads⟩ := @torn_read_safety default default
    ⟨sharedMemoryAllocationSize, fun _ => 0⟩ twoAppends (by decide) (by decide)
  have hpublished : commitSequence (file 10) = 1 := by decide +kernel
  have hend : commitSequence (file 85) = 3 ∧ reserveSequence (file 85) = 3 := by decide +kernel
  have hrecords : ∀ r ∈ records 0 twoAppends, r.stop ≤ 3 ∧ 3 ≤ r.line + totalNumberOfDataCacheLines := by
    decide +kernel
  have hfirst : firstRecord ∈ records 0 twoAppends := by decide +kernel
  constructor
  · intro r hr
    obtain ⟨hstop, hwindow⟩ := hrecords r hr
    exact (hstates 85).2 r hr (hstop.trans_eq hend.1.symm) (hend.2.trans_le hwindow)
  · exact hreads firstRecord hfirst 10 85 (Nat.le_of_eq hpublished.symm)
      (hend.2.trans_le (hrecords firstRecord hfirst).2)

end Run

end UdpSm.InserterImplementation
