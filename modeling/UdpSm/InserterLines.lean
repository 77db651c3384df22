import UdpSm.InserterLog

/-! Where `HandleSharedMemoryFrames` says that it wrote, in the members that the inserter test
looks at, over any number of calls. The 64-bit counters may wrap. -/
namespace UdpSm.InserterLines
open Lib Memory InserterImplementation

/-- Both counters are at the line `w`, up to their wrap. -/
def Counted (s : Inserter) (w : Nat) : Prop :=
  s.commitSequenceValue = UInt64.ofNat w ∧ s.reserveSequenceValue = UInt64.ofNat w

def Fits (w : Nat) (a : Append) : Prop :=
  w % totalNumberOfDataCacheLines + linesOf a.bytes.toNat ≤ totalNumberOfDataCacheLines

instance (w : Nat) (a : Append) : Decidable (Fits w a) := inferInstanceAs (Decidable (_ ≤ _))

def Occupies (s : Inserter) (a : Append) (file : Memory UInt8) : Prop :=
  let record := messageRecord s.currentCacheLine.toNat a
  record.image.length ≤ cacheLineSize * s.framingMetaDataTotalLines.toNat ∧
    file.load (cacheLineAddress s.currentCacheLine) record.image.length = record.image

/-- What the test looks at after the last of `calls` calls, that of `a`. -/
structure LineLaw (calls : Nat) (a : Append) (r : Inserter × List (Store UInt8)) : Prop where
  positions : r.1.commitSequenceValue = r.1.reserveSequenceValue
  lines : r.1.currentCacheLine + r.1.cacheLinesRemaining = UInt64.ofNat totalNumberOfDataCacheLines
  inside : r.1.currentCacheLine.toNat + r.1.framingMetaDataTotalLines.toNat ≤
    totalNumberOfDataCacheLines
  occupied : ∀ file : Memory UInt8, Occupies r.1 a (file.applyAll r.2)
  inserted : r.1.numberOfInsertedFramesSinceProgramStart = UInt64.ofNat calls

/-! One call. -/

def prepared (c : CommonData) (s : Inserter) (a : Append) : Inserter :=
  frameMessage { c with commonValueSequenceNumber := a.sequenceNumber }
    { s with receivedDataBuffer := a.payload, framingMetaDataTotalNumberOfMessageBytes := a.bytes }

section Call
variable {s : Inserter} {w : Nat} {a : Append} (c : CommonData)

theorem data_lines_toNat :
    (UInt64.ofNat totalNumberOfDataCacheLines).toNat = totalNumberOfDataCacheLines := by decide

theorem lines_dvd : totalNumberOfDataCacheLines ∣ 2 ^ 64 := ⟨2 ^ 40, by rw [data_lines]; rfl⟩

/-- The number of lines divides 2^64, so a wrapped counter names the same line. -/
theorem Counted.prepared_lines (h : Counted s w) (a : Append) :
    (prepared c s a).currentCacheLine.toNat = w % totalNumberOfDataCacheLines ∧
    (prepared c s a).cacheLinesRemaining.toNat =
      totalNumberOfDataCacheLines - w % totalNumberOfDataCacheLines ∧
    (prepared c s a).framingMetaDataTotalLines.toNat = linesOf a.bytes.toNat := by
  have hcommit : s.commitSequenceValue.toNat = w % 2 ^ 64 := by rw [h.1, UInt64.toNat_ofNat']
  have hreserve : s.reserveSequenceValue.toNat = w % 2 ^ 64 := by rw [h.2, UInt64.toNat_ofNat']
  have hat : At { s with receivedDataBuffer := a.payload,
                         framingMetaDataTotalNumberOfMessageBytes := a.bytes } (w % 2 ^ 64) :=
    ⟨hcommit, hreserve⟩
  have hlines := frameMessage_lines { c with commonValueSequenceNumber := a.sequenceNumber } hat
  rwa [Nat.mod_mod_of_dvd w lines_dvd] at hlines

theorem Counted.jump_iff (h : Counted s w) (a : Append) :
    (prepared c s a).framingMetaDataTotalLines.toUInt64 >
      (prepared c s a).cacheLinesRemaining ↔ ¬Fits w a := by
  obtain ⟨-, hrem, hlines⟩ := h.prepared_lines c a
  have hmod := Nat.mod_lt w data_lines_pos
  rw [gt_iff_lt, UInt64.lt_iff_toNat_lt, UInt16.toNat_toUInt64, hlines, hrem, Fits]
  omega

theorem append_eq (ha : 1 ≤ a.bytes.toNat) : append c s a =
    if (prepared c s a).framingMetaDataTotalLines.toUInt64 > (prepared c s a).cacheLinesRemaining then
      ((appendMessage (skipRemainingLines (prepared c s a)).1).1,
        (skipRemainingLines (prepared c s a)).2 ++
          (appendMessage (skipRemainingLines (prepared c s a)).1).2)
    else appendMessage (prepared c s a) := by
  have hpos : a.bytes > 0 := ha
  simp only [append, handleSharedMemoryFrames, if_pos hpos]
  rfl

theorem Counted.append_fits (h : Counted s w) (ha : 1 ≤ a.bytes.toNat) (hfit : Fits w a) :
    append c s a = appendMessage (prepared c s a) := by
  rw [append_eq c ha, if_neg fun hjump => (h.jump_iff c a).mp hjump hfit]

theorem Counted.append_skips (h : Counted s w) (ha : 1 ≤ a.bytes.toNat) (hskip : ¬Fits w a) :
    append c s a = ((appendMessage (skipRemainingLines (prepared c s a)).1).1,
      (skipRemainingLines (prepared c s a)).2 ++
        (appendMessage (skipRemainingLines (prepared c s a)).1).2) := by
  rw [append_eq c ha, if_pos ((h.jump_iff c a).mpr hskip)]

theorem ofNat_add_toUInt64 {x y : UInt64} {m n : Nat} (hx : x = UInt64.ofNat m) (hy : y.toNat = n) :
    x + y = UInt64.ofNat (m + n) := by
  rw [hx, UInt64.ofNat_add, ← hy, UInt64.ofNat_toNat]

theorem Counted.after (h : Counted s w) (ha : 1 ≤ a.bytes.toNat) :
    Counted (append c s a).1 (advance totalNumberOfDataCacheLines w (linesOf a.bytes.toNat)) := by
  obtain ⟨-, hrem, hlines⟩ := h.prepared_lines c a
  have hlines' : (prepared c s a).framingMetaDataTotalLines.toUInt64.toNat = linesOf a.bytes.toNat := by
    rw [UInt16.toNat_toUInt64, hlines]
  by_cases hfit : Fits w a
  · have hplace : place totalNumberOfDataCacheLines w (linesOf a.bytes.toNat) = w := if_pos hfit
    rw [h.append_fits c ha hfit, advance, hplace]
    exact ⟨ofNat_add_toUInt64 h.1 hlines', ofNat_add_toUInt64 h.2 hlines'⟩
  · have hplace : place totalNumberOfDataCacheLines w (linesOf a.bytes.toNat) =
        w + (totalNumberOfDataCacheLines - w % totalNumberOfDataCacheLines) := if_neg hfit
    rw [h.append_skips c ha hfit, advance, hplace]
    exact ⟨ofNat_add_toUInt64 (ofNat_add_toUInt64 h.1 hrem) hlines',
      ofNat_add_toUInt64 (ofNat_add_toUInt64 h.2 hrem) hlines'⟩

theorem appendMessage_occupies {t : Inserter}
    (hbytes : t.framingMetaDataTotalNumberOfMessageBytes = a.bytes)
    (hbuffer : t.receivedDataBuffer = a.payload)
    (hseq : t.framingMetaDataMessageSequenceNumber = a.sequenceNumber)
    (hlines : t.framingMetaDataTotalLines.toNat = linesOf a.bytes.toNat) (file : Memory UInt8) :
    Occupies (appendMessage t).1 a (file.applyAll (appendMessage t).2) := by
  have himage := recordParts_image t.currentCacheLine.toNat a
  constructor
  · have hsize := image_lines t.currentCacheLine.toNat a
    change _ ≤ cacheLineSize * linesOf a.bytes.toNat at hsize
    rw [← hlines] at hsize
    exact hsize
  · have hbelow : commitSequencePosition + 8 ≤ cacheLineAddress t.currentCacheLine :=
      Nat.le_trans (by decide : commitSequencePosition + 8 ≤ sharedMemoryDataPosition)
        (Nat.le_add_right _ _)
    change Memory.load _ (cacheLineAddress t.currentCacheLine) _ = _
    rw [appendMessage_stores a hbytes hbuffer hseq hlines, applyAll_append, applyAll_append,
      applyAll_sequential, himage, applyAll_cons, applyAll_nil, apply,
      load_store_disjoint _ _ _ _ _ (.inr (by rwa [storeCommitSequence, leBytes_length]))]
    exact load_store_self _ _ _

theorem Counted.append_record (h : Counted s w) (ha : 1 ≤ a.bytes.toNat) :
    (append c s a).1.currentCacheLine.toNat + (append c s a).1.framingMetaDataTotalLines.toNat ≤
        totalNumberOfDataCacheLines ∧
      (∀ file : Memory UInt8, Occupies (append c s a).1 a (file.applyAll (append c s a).2)) ∧
      (append c s a).1.numberOfInsertedFramesSinceProgramStart =
        s.numberOfInsertedFramesSinceProgramStart + 1 := by
  obtain ⟨hcur, -, hlines⟩ := h.prepared_lines c a
  by_cases hfit : Fits w a
  · rw [h.append_fits c ha hfit]
    refine ⟨?_, appendMessage_occupies rfl rfl rfl hlines, rfl⟩
    change (prepared c s a).currentCacheLine.toNat + (prepared c s a).framingMetaDataTotalLines.toNat ≤ _
    rw [hcur, hlines]
    exact hfit
  · rw [h.append_skips c ha hfit]
    refine ⟨?_, fun file => ?_, rfl⟩
    · change 0 + (prepared c s a).framingMetaDataTotalLines.toNat ≤ _
      have hbytes := a.bytes.toNat_lt
      have hbound := (linesOf_bounds a.bytes.toNat).2
      rw [hlines, data_lines]
      omega
    · rw [applyAll_append]
      exact appendMessage_occupies (t := (skipRemainingLines (prepared c s a)).1) rfl rfl rfl hlines _

theorem Counted.append_lines (h : Counted s w) (ha : 1 ≤ a.bytes.toNat) :
    (append c s a).1.currentCacheLine + (append c s a).1.cacheLinesRemaining =
      UInt64.ofNat totalNumberOfDataCacheLines ↔ Fits w a := by
  obtain ⟨hcur, hrem, -⟩ := h.prepared_lines c a
  have hmod := Nat.mod_lt w data_lines_pos
  by_cases hfit : Fits w a
  · rw [h.append_fits c ha hfit]
    refine iff_of_true ?_ hfit
    change (prepared c s a).currentCacheLine + (prepared c s a).cacheLinesRemaining = _
    have hall : w % totalNumberOfDataCacheLines +
        (totalNumberOfDataCacheLines - w % totalNumberOfDataCacheLines) =
        totalNumberOfDataCacheLines := Nat.add_sub_cancel' hmod.le
    have hsmall : totalNumberOfDataCacheLines < 2 ^ 64 := by
      rw [data_lines]
      decide
    have hsum := add_toNat hcur hrem (hall.symm ▸ hsmall)
    rw [hall] at hsum
    exact UInt64.toNat_inj.mp (hsum.trans data_lines_toNat.symm)
  · rw [h.append_skips c ha hfit]
    refine iff_of_false (fun hsum => ?_) hfit
    change 0 + (prepared c s a).cacheLinesRemaining = _ at hsum
    have hremaining := congrArg UInt64.toNat hsum
    rw [UInt64.zero_add, hrem, data_lines_toNat] at hremaining
    -- the whole section is left only at its first line, where every record fits
    have hbytes := a.bytes.toNat_lt
    have hbound := (linesOf_bounds a.bytes.toNat).2
    rw [Fits, data_lines] at hfit
    rw [data_lines] at hremaining
    omega

theorem Counted.law_iff (h : Counted s w) (ha : 1 ≤ a.bytes.toNat) {calls : Nat}
    (hcalls : s.numberOfInsertedFramesSinceProgramStart = UInt64.ofNat calls) :
    LineLaw (calls + 1) a (append c s a) ↔ Fits w a := by
  obtain ⟨hinside, hoccupied, hinserted⟩ := h.append_record c ha
  obtain ⟨hcommit, hreserve⟩ := h.after c ha
  constructor
  · intro hlaw
    exact (h.append_lines c ha).mp hlaw.lines
  · intro hfit
    refine ⟨hcommit.trans hreserve.symm, (h.append_lines c ha).mpr hfit, hinside, hoccupied, ?_⟩
    rw [hinserted, hcalls, UInt64.ofNat_add]
    rfl

end Call

/-! All calls since `Initialize`. -/

section Run
variable {as : List Append} {s : Inserter} {w calls : Nat} (c : CommonData)

theorem counted_initialized (s : Inserter) : Counted (initialized s) 0 ∧
    (initialized s).numberOfInsertedFramesSinceProgramStart = UInt64.ofNat 0 := ⟨⟨rfl, rfl⟩, rfl⟩

theorem Counted.appendAll (h : Counted s w)
    (hcalls : s.numberOfInsertedFramesSinceProgramStart = UInt64.ofNat calls)
    (has : ∀ a ∈ as, 1 ≤ a.bytes.toNat) :
    Counted (appendAll c s as).1 (linesWritten w as) ∧
      (appendAll c s as).1.numberOfInsertedFramesSinceProgramStart =
        UInt64.ofNat (calls + as.length) := by
  induction as generalizing s w calls with
  | nil => exact ⟨h, hcalls⟩
  | cons a as ih =>
    have ha := has a (by simp)
    have hinserted := (h.append_record c ha).2.2
    have hcalls' : (append c s a).1.numberOfInsertedFramesSinceProgramStart =
        UInt64.ofNat (calls + 1) := by
      rw [hinserted, hcalls, UInt64.ofNat_add]
      rfl
    obtain ⟨hcounted, hnumber⟩ := ih (h.after c ha) hcalls' fun b hb => has b (List.mem_cons_of_mem a hb)
    refine ⟨hcounted, ?_⟩
    rw [List.length_cons, Nat.add_comm as.length, ← Nat.add_assoc]
    exact hnumber

/-- After every call of every run, what the test looks at holds exactly if that call did not have
to skip the end of the data section. -/
theorem line_law (as : List Append) {a : Append} (s : Inserter) (has : ∀ b ∈ as ++ [a], 1 ≤ b.bytes.toNat) :
    LineLaw (as.length + 1) a (append c (appendAll c (initialized s) as).1 a) ↔
      Fits (linesWritten 0 as) a := by
  obtain ⟨hcounted, hcalls⟩ := (counted_initialized s).1.appendAll c (counted_initialized s).2
    fun b hb => has b (List.mem_append_left _ hb)
  rw [Nat.zero_add] at hcalls
  exact hcounted.law_iff c (has a (by simp)) hcalls

/-- Payloads of 964 bytes, as in the test. -/
theorem line_law_test : LineLaw 2 ⟨fun _ => 1, 964, 1⟩ (append default
    (appendAll default (initialized default) [⟨fun _ => 0, 964, 0⟩]).1 ⟨fun _ => 1, 964, 1⟩) :=
  (line_law default [⟨fun _ => 0, 964, 0⟩] default (by decide)).mpr (by decide)

def longest : Append := ⟨fun _ => 0, 65535, 1⟩

theorem linesWritten_longest {n : Nat} (h : n * 1025 ≤ totalNumberOfDataCacheLines) :
    linesWritten 0 (List.replicate n longest) = n * 1025 := by
  have hlines : (List.replicate n longest).map (fun a => linesOf a.bytes.toNat) =
      List.replicate n 1025 := by
    rw [List.map_replicate]
    rfl
  have hsum : (List.replicate n 1025).sum = n * 1025 := List.sum_replicate_nat
  rw [linesWritten, hlines, advanceAll_of_fits, hsum, Nat.zero_add]
  · intro d hd
    rw [List.eq_of_mem_replicate hd]
    decide
  · rw [hsum, Nat.zero_add]
    exact h

theorem longest_bytes (n : Nat) : ∀ b ∈ List.replicate n longest, 1 ≤ b.bytes.toNat := by
  intro b hb
  rw [List.eq_of_mem_replicate hb]
  decide

theorem longest_skips {n : Nat} (hn : n * 1025 ≤ totalNumberOfDataCacheLines)
    (hskip : ¬Fits (n * 1025) longest) {r : Inserter × List (Store UInt8)}
    (hr : r = append c (appendAll c (initialized s) (List.replicate n longest)).1 longest) :
    r.1.currentCacheLine = 0 ∧ r.1.cacheLinesRemaining.toNat =
        totalNumberOfDataCacheLines - n * 1025 % totalNumberOfDataCacheLines ∧
      ¬LineLaw ((List.replicate n longest).length + 1) longest r := by
  have hbytes : 1 ≤ longest.bytes.toNat := by decide
  obtain ⟨hcounted, hcalls⟩ :=
    (counted_initialized s).1.appendAll c (counted_initialized s).2 (longest_bytes n)
  rw [Nat.zero_add] at hcalls
  rw [linesWritten_longest hn] at hcounted
  have hlaw := hcounted.law_iff c hbytes hcalls
  rw [← hr] at hlaw
  refine ⟨?_, ?_, fun h => hskip (hlaw.mp h)⟩
  · rw [hr, hcounted.append_skips c hbytes hskip]
    rfl
  · rw [hr, hcounted.append_skips c hbytes hskip]
    exact (hcounted.prepared_lines c longest).2.1

/-- The 16369th longest payload finds 16 lines. -/
theorem skip_breaks_the_sum : ∃ as : List Append, ∃ r : Inserter × List (Store UInt8),
    (∀ b ∈ as ++ [longest], 1 ≤ b.bytes.toNat) ∧
    r = append default (appendAll default (initialized default) as).1 longest ∧
    r.1.currentCacheLine = 0 ∧ r.1.cacheLinesRemaining.toNat = 16 ∧
    ¬LineLaw (as.length + 1) longest r := by
  have hn : 16368 * 1025 ≤ totalNumberOfDataCacheLines := by
    rw [data_lines]
    decide
  have hskip : ¬Fits (16368 * 1025) longest := by
    rw [Fits, data_lines]
    decide
  obtain ⟨hcurrent, hremaining, hlaw⟩ := longest_skips default hn hskip rfl (s := default)
  rw [data_lines] at hremaining
  have hbytes := longest_bytes (16368 + 1)
  rw [List.replicate_succ'] at hbytes
  exact ⟨_, _, hbytes, rfl, hcurrent, hremaining, hlaw⟩

end Run

end UdpSm.InserterLines
