import UdpSm.PercentileOrder
import Mathlib.Data.List.Induction
import Mathlib.Order.Bounds.Basic

/-! `Tsc.cpp`: the cycle counter of the processor. Each reading of the counter is an argument. -/
namespace UdpSm

structure Tsc where
  tscOverheadCycles : UInt64
  tscStartCycles : UInt64
  tscEndCycles : UInt64
  tscTimeStamp : UInt64
  tscLatencyValue : UInt64
deriving Inhabited

namespace Tsc

def benchStart (cycles : UInt64) (t : Tsc) : Tsc :=
  { t with tscStartCycles := cycles, tscTimeStamp := cycles + t.tscOverheadCycles }

def benchEnd (cycles : UInt64) (t : Tsc) : Tsc := { t with tscEndCycles := cycles }

def setTimestamp (timestampValue : UInt64) (t : Tsc) : Tsc := { t with tscTimeStamp := timestampValue }

def getLatency (t : Tsc) : Tsc := { t with tscLatencyValue := t.tscEndCycles - t.tscTimeStamp }

def overheadTurn (s : Tsc × UInt64) (r : UInt64 × UInt64) : Tsc × UInt64 :=
  let t := (s.1.benchStart r.1).benchEnd r.2
  (t, if r.2 - r.1 < s.2 then r.2 - r.1 else s.2)

def measureTscOverhead (readings : List (UInt64 × UInt64)) (t : Tsc) : Tsc :=
  let s := readings.foldl overheadTurn (t, ~~~0)
  { s.1 with tscOverheadCycles := s.2 }

theorem overheadTurn_min (s : Tsc × UInt64) (r : UInt64 × UInt64) :
    (overheadTurn s r).2 = min (r.2 - r.1) s.2 := by
  change (if r.2 - r.1 < s.2 then r.2 - r.1 else s.2) = _
  split_ifs with hlt
  · exact (min_eq_left hlt.le).symm
  · exact (min_eq_right (not_lt.mp hlt)).symm

theorem overheadTurn_fold (readings : List (UInt64 × UInt64)) (s : Tsc × UInt64) :
    IsLeast {v | v = s.2 ∨ ∃ r ∈ readings, r.2 - r.1 = v} (readings.foldl overheadTurn s).2 := by
  induction readings using List.reverseRecOn with
  | nil =>
    have hnone : {v | v = s.2 ∨ ∃ r ∈ ([] : List (UInt64 × UInt64)), r.2 - r.1 = v} = {s.2} := by
      ext v
      simp
    rw [hnone]
    exact isLeast_singleton
  | append_singleton readings r ih =>
    have hone : {v | v = s.2 ∨ ∃ q ∈ readings ++ [r], q.2 - q.1 = v} =
        insert (r.2 - r.1) {v | v = s.2 ∨ ∃ q ∈ readings, q.2 - q.1 = v} := by
      ext v
      simp only [List.mem_append, List.mem_singleton, or_and_right, exists_or, exists_eq_left,
        Set.mem_ofPred_eq, Set.mem_insert_iff, ← or_assoc]
      rw [or_comm, or_assoc, eq_comm (a := v) (b := r.2 - r.1)]
    rw [hone, List.foldl_append, List.foldl_cons, List.foldl_nil, overheadTurn_min]
    exact ih.insert (r.2 - r.1)

/-- The overhead is the least distance between the two readings of a turn. -/
theorem measureTscOverhead_least (readings : List (UInt64 × UInt64)) (t : Tsc) :
    IsLeast {v | v = ~~~0 ∨ ∃ r ∈ readings, r.2 - r.1 = v}
      (t.measureTscOverhead readings).tscOverheadCycles :=
  overheadTurn_fold readings (t, ~~~0)

end Tsc
end UdpSm
