import UdpSm.PipelineStep

/-! The shared memory file of a run, next to the log that its records alone would make. -/
namespace UdpSm.InserterImplementation
open Lib Memory

section Congr
variable {c d : CommonData} {s t : Inserter}

structure SameTurn (c d : CommonData) (s t : Inserter) : Prop where
  record : appendOf c s = appendOf d t
  commit : s.commitSequenceValue = t.commitSequenceValue
  reserve : s.reserveSequenceValue = t.reserveSequenceValue

theorem SameTurn.frames (h : SameTurn c d s t) :
    (handleSharedMemoryFrames c s).2 = (handleSharedMemoryFrames d t).2 ∧
    (handleSharedMemoryFrames c s).1.commitSequenceValue =
      (handleSharedMemoryFrames d t).1.commitSequenceValue ∧
    (handleSharedMemoryFrames c s).1.reserveSequenceValue =
      (handleSharedMemoryFrames d t).1.reserveSequenceValue := by
  obtain ⟨hbuffer, hbytes, hseq⟩ := Append.mk.inj h.record
  have hframe : frameMessage c s =
      { s with
        numberOfInsertedFramesSinceProgramStart := s.numberOfInsertedFramesSinceProgramStart + 1
        framingMetaDataMessageSequenceNumber := (frameMessage d t).framingMetaDataMessageSequenceNumber
        currentCacheLine := (frameMessage d t).currentCacheLine
        cacheLinesRemaining := (frameMessage d t).cacheLinesRemaining
        framingMetaDataTotalLines := (frameMessage d t).framingMetaDataTotalLines } := by
    simp only [frameMessage, h.commit, hbytes, hseq]
  have hcommit : (frameMessage d t).commitSequenceValue = t.commitSequenceValue := rfl
  have hreserve : (frameMessage d t).reserveSequenceValue = t.reserveSequenceValue := rfl
  have hsame : (frameMessage d t).receivedDataBuffer = t.receivedDataBuffer := rfl
  have htotal : (frameMessage d t).framingMetaDataTotalNumberOfMessageBytes =
      t.framingMetaDataTotalNumberOfMessageBytes := rfl
  by_cases hpos : t.framingMetaDataTotalNumberOfMessageBytes > 0
  · simp only [handleSharedMemoryFrames, hbytes, if_pos hpos, hframe]
    generalize frameMessage d t = v at *
    by_cases hjump : v.framingMetaDataTotalLines.toUInt64 > v.cacheLinesRemaining
    · simp only [if_pos hjump, skipRemainingLines, appendMessage, h.commit, h.reserve, hbuffer,
        hcommit, hreserve, hsame, htotal, and_self]
    · simp only [if_neg hjump, appendMessage, h.commit, h.reserve, hbuffer, hcommit, hreserve,
        hsame, htotal, and_self]
  · simp only [handleSharedMemoryFrames, hbytes, if_neg hpos, h.commit, h.reserve, and_self]

end Congr

theorem appendAll_append (c : CommonData) (s : Inserter) (as bs : List Append) :
    appendAll c s (as ++ bs) =
      ((appendAll c (appendAll c s as).1 bs).1,
        (appendAll c s as).2 ++ (appendAll c (appendAll c s as).1 bs).2) := by
  induction as generalizing s with
  | nil => rfl
  | cons a as ih => simp only [List.cons_append, appendAll, ih, List.append_assoc]

theorem applyAll_agree {m m' : Memory UInt8} {p : Nat} (h : ∀ i, p ≤ i → m.cell i = m'.cell i)
    (sts : List (Store UInt8)) : ∀ i, p ≤ i → (m.applyAll sts).cell i = (m'.applyAll sts).cell i := by
  induction sts generalizing m m' with
  | nil => exact h
  | cons st sts ih =>
    have hfirst : ∀ i, p ≤ i → (m.apply st).cell i = (m'.apply st).cell i := by
      intro i hi
      simp only [apply, store, h i hi]
    exact ih hfirst

end UdpSm.InserterImplementation

namespace UdpSm.Pipeline
open Lib Memory RingFIFOBuffer InserterImplementation
open ParserImplementation hiding iterate Context constructed

/-- The appends of the records published, one after another. -/
def replay (u : Unset) (cs : List Call) : Inserter × List (Store UInt8) :=
  appendAll connected (initial u).inserter (published cs)

/-- The file shows the log of the records published: positions and data section are as the appends
alone leave them. -/
structure Mirrors (u : Unset) (cs : List Call) (s : System) : Prop where
  commit : s.inserter.commitSequenceValue = (replay u cs).1.commitSequenceValue
  reserve : s.inserter.reserveSequenceValue = (replay u cs).1.reserveSequenceValue
  file : ∀ i, commitSequencePosition ≤ i →
    s.file.cell i = ((initial u).file.applyAll (replay u cs).2).cell i

section Mirrors
variable {u : Unset} {cs : List Call} {s s' : System} {c : Call}

theorem published_snoc (cs : List Call) (c : Call) : published (cs ++ [c]) =
    published cs ++ c.published := by
  simp [published]

theorem Mirrors.quiet (h : Mirrors u cs s) (hc : c.published = [])
    (hcommit : s'.inserter.commitSequenceValue = s.inserter.commitSequenceValue)
    (hreserve : s'.inserter.reserveSequenceValue = s.inserter.reserveSequenceValue)
    (hfile : ∀ i, commitSequencePosition ≤ i → s'.file.cell i = s.file.cell i) :
    Mirrors u (cs ++ [c]) s' := by
  have hreplay : replay u (cs ++ [c]) = replay u cs := by
    rw [replay, published_snoc, hc, List.append_nil]
    rfl
  exact ⟨by rw [hcommit, hreplay, h.commit], by rw [hreserve, hreplay, h.reserve],
    fun i hi => by rw [hfile i hi, hreplay, h.file i hi]⟩

theorem timed_counters (c : CommonData) (now : UInt64) (m : List UInt8) (s : Inserter) :
    (timed c now m s).1.commitSequenceValue = (framed c m s).1.commitSequenceValue ∧
    (timed c now m s).1.reserveSequenceValue = (framed c m s).1.reserveSequenceValue :=
  ⟨writeTimestamp_kept Inserter.commitSequenceValue (fun _ _ _ => rfl) c now _,
    writeTimestamp_kept Inserter.reserveSequenceValue (fun _ _ _ => rfl) c now _⟩

theorem taken_counters (c : CommonData) (m : List UInt8) (s : Inserter) :
    (InserterImplementation.taken c m s).commitSequenceValue = s.commitSequenceValue ∧
    (InserterImplementation.taken c m s).reserveSequenceValue = s.reserveSequenceValue :=
  ⟨taken_kept Inserter.commitSequenceValue (fun _ _ _ _ => rfl) c m s,
    taken_kept Inserter.reserveSequenceValue (fun _ _ _ _ => rfl) c m s⟩

theorem framed_append (c d : CommonData) (m : List UInt8) {s t : Inserter}
    (hcommit : s.commitSequenceValue = t.commitSequenceValue)
    (hreserve : s.reserveSequenceValue = t.reserveSequenceValue) :
    (framed c m s).2 = (append d t (appendFor c m s)).2 ∧
    (framed c m s).1.commitSequenceValue = (append d t (appendFor c m s)).1.commitSequenceValue ∧
    (framed c m s).1.reserveSequenceValue =
      (append d t (appendFor c m s)).1.reserveSequenceValue := by
  obtain ⟨h1, h2⟩ := taken_counters c m s
  have hflagged := flagged_eq c m s
  exact SameTurn.frames ⟨by rw [hflagged]; rfl, by rw [hflagged]; exact h1.trans hcommit,
    by rw [hflagged]; exact h2.trans hreserve⟩

theorem Mirrors.step (h : Mirrors u cs s) (hbefore : c.before = s) (hnext : Next s c.action s') :
    Mirrors u (cs ++ [c]) s' := by
  obtain ⟨before, action⟩ := c
  obtain rfl : before = s := hbefore
  cases hnext with
  | receive => exact h.quiet rfl rfl rfl fun _ _ => rfl
  | parse => exact h.quiet rfl rfl rfl fun _ _ => rfl
  | idle now hnone =>
    have hcounters := timed_counters before.common now [] before.inserter
    have hframed : (framed before.common [] before.inserter).1.commitSequenceValue =
        before.inserter.commitSequenceValue ∧
        (framed before.common [] before.inserter).1.reserveSequenceValue =
          before.inserter.reserveSequenceValue := by
      rw [framed_nil, flagged_eq]
      exact taken_counters before.common [] before.inserter
    exact h.quiet (by simp [Call.published, hnone]) (hcounters.1.trans hframed.1)
      (hcounters.2.trans hframed.2) fun i hi =>
      applyAll_before _ (turnStores_empty _ _ _) hi
  | insert now m ring hm =>
    obtain ⟨hstores, hcommit, hreserve⟩ := framed_append before.common connected m h.commit h.reserve
    have hcounters := timed_counters before.common now m before.inserter
    have hreplay : replay u (cs ++ [⟨before, .insert now⟩]) =
        ((append connected (replay u cs).1 (appendFor before.common m before.inserter)).1,
          (replay u cs).2 ++
            (append connected (replay u cs).1 (appendFor before.common m before.inserter)).2) := by
      have hone : Call.published ⟨before, .insert now⟩ =
          [appendFor before.common m before.inserter] := by simp [Call.published, hm]
      rw [replay, published_snoc, appendAll_append, hone]
      simp only [appendAll, List.append_nil]
      rfl
    refine ⟨by rw [hreplay]; exact hcounters.1.trans hcommit,
      by rw [hreplay]; exact hcounters.2.trans hreserve, fun i hi => ?_⟩
    have htimed : ∀ st ∈ (timed before.common now m before.inserter).2, Before st :=
      fun st hst => (writeTimestamp_stores _ _ _ st hst).2
    rw [hreplay, turnStores, applyAll_append, applyAll_append, applyAll_append, hstores,
      applyAll_before _ htimed hi]
    refine applyAll_agree (p := commitSequencePosition) (fun j hj => ?_) _ i hi
    rw [applyAll_before _ (flagged_before _ _ _) hj, h.file j hj]
  | writeTimestamp now =>
    have hcommit := writeTimestamp_kept Inserter.commitSequenceValue (fun _ _ _ => rfl) before.common
      now before.inserter
    have hreserve := writeTimestamp_kept Inserter.reserveSequenceValue (fun _ _ _ => rfl) before.common
      now before.inserter
    exact h.quiet rfl hcommit hreserve fun i hi =>
      applyAll_before _ (fun st hst => (writeTimestamp_stores _ _ _ st hst).2) hi
  | readKeyboardInput => exact h.quiet rfl rfl rfl fun _ _ => rfl

end Mirrors

theorem mirrors {u : Unset} {cs : List Call} {s : System} (h : Run Step (initial u) cs s) :
    Mirrors u cs s :=
  (run_invariant (Mirrors u) ⟨rfl, rfl, fun _ _ => rfl⟩
    (fun _ _ _ _ _ h hbefore _ hnext => h.step hbefore hnext) h).2

end UdpSm.Pipeline
