import UdpSm.RingArithmetic

/-! Reading a ring until it is empty, and writing to it again from wherever its indices have met. -/
namespace UdpSm.RingFIFOBuffer
open Lib

def reads : Nat → Ringbuffer → Option Ringbuffer
  | 0, p => some p
  | n+1, p =>
    match read p with
    | none => none
    | some (_, _, p') => reads n p'

section Drain
variable {p : Ringbuffer} {R : Nat} {q : List (List UInt8)}

theorem Holds.reads (h : Holds p R q) {n : Nat} (hn : n ≤ q.length) : ∃ u R',
    reads n p = some u ∧ u.ptr = p.ptr ∧ Holds u R' (q.drop n) := by
  induction n generalizing p R q with
  | zero => exact ⟨p, R, rfl, rfl, h⟩
  | succ n ih =>
    cases q with
    | nil => exact absurd hn (Nat.not_succ_le_zero n)
    | cons m q =>
      obtain ⟨p', hread, hptr, h'⟩ := h.read_cons
      rw [List.length_cons] at hn
      obtain ⟨u, R', hreads, hptr', hu⟩ := ih h' (by omega)
      refine ⟨u, R', ?_, hptr'.trans hptr, hu⟩
      rw [RingFIFOBuffer.reads, hread]
      exact hreads

theorem Holds.empty (h : Holds p R []) :
    p.framesStored = 0 ∧ p.numberOfStoredBytes = 0 ∧ p.readIndex = p.writeIndex := by
  have hend : queueEnd p.ptr.size R [] = R := rfl
  have hwrite := h.writeIndex
  rw [hend] at hwrite
  exact ⟨h.frames, h.idle rfl, h.readIndex.trans hwrite.symm⟩

/-- Half the ring is free at every position of it: a tail that is skipped is shorter than the
message. -/
theorem Holds.empty_accepts (h : Holds p R []) (data : Nat → UInt8) {length : UInt32}
    (hne : length ≠ 0) (hhalf : (padded length.toNat : Int) ≤ p.bufferSize / 2) : ∃ p',
    write p (some data) length = some ((length.toNat : Int), p') ∧
      Holds p' R [(List.range length.toNat).map data] := by
  have hsize := h.bufferSize
  have hupper := h.upper
  have hpad := (padded_bounds length.toNat).1
  have hpos : 1 ≤ length.toNat := Nat.one_le_iff_ne_zero.mpr fun h0 => hne (UInt32.toNat_inj.mp h0)
  have hend : queueEnd p.ptr.size R [] = R := rfl
  have hadvance := advance_le p.ptr.size R (padded length.toNat)
  have hidle := h.idle rfl
  obtain ⟨p', hwrite, -, -, h'⟩ := h.write_accept data length hpos (by omega)
    (by rw [hend, hidle]; omega)
  exact ⟨p', hwrite, h'⟩

/-- Draining takes as many reads as there are frames, leaves nothing behind and makes room for any
message of up to half the ring. -/
theorem drain_recovers {size : UInt64} {es : List Event}
    (h1 : 64 ≤ (ringInitialize size).2.bufferSize)
    (h2 : (ringInitialize size).2.bufferSize ≤ 2 ^ 29)
    (h : Run ShortStep (ringInitialize size).2 es p) :
    (∀ n : Nat, (n : Int) < p.framesStored → ∃ u, reads n p = some u ∧ u.framesStored ≠ 0) ∧
    ∃ u, reads p.framesStored.toNat p = some u ∧ u.framesStored = 0 ∧ u.numberOfStoredBytes = 0 ∧
      u.readIndex = u.writeIndex ∧ ∀ (data : Nat → UInt8) (length : UInt32), length ≠ 0 →
        (padded length.toNat : Int) ≤ (ringInitialize size).2.bufferSize / 2 →
        ∃ u', write u (some data) length = some ((length.toNat : Int), u') ∧
          contents u' = [(List.range length.toNat).map data] := by
  obtain ⟨hsize, R, q, hp⟩ := holds_of_run h1 h2 (h.mono fun _ _ _ hstep => hstep.2)
  have hframes := hp.frames
  refine ⟨?_, ?_⟩
  · intro n hn
    obtain ⟨u, R', hreads, -, hu⟩ := hp.reads (n := n) (by omega)
    have hleft := hu.frames
    rw [List.length_drop] at hleft
    exact ⟨u, hreads, by omega⟩
  · obtain ⟨u, R', hreads, hptr, hu⟩ := hp.reads (Nat.le_refl q.length)
    rw [List.drop_length] at hu
    obtain ⟨hnone, hbytes, hindex⟩ := hu.empty
    refine ⟨u, by rw [hframes, Int.toNat_natCast]; exact hreads, hnone, hbytes, hindex, ?_⟩
    intro data length hne hhalf
    have hsame : u.bufferSize = (ringInitialize size).2.bufferSize := by
      rw [hu.bufferSize, hptr, ← hp.bufferSize, hsize]
    obtain ⟨u', hwrite, hu'⟩ := hu.empty_accepts data hne (by rw [hsame]; exact hhalf)
    exact ⟨u', hwrite, hu'.contents_eq⟩

theorem drain_recovers_drifted : ∃ es p u u', Run ShortStep (ringInitialize 256).2 es p ∧
    p.framesStored = 1 ∧ p.numberOfStoredBytes = 192 ∧ reads 1 p = some u ∧
    u.numberOfStoredBytes = 0 ∧ u.readIndex = u.writeIndex ∧
    write u (some fun _ => 6) 124 = some (124, u') := by
  have hrun : (performAll (fun _ op => decide op.Short) (ringInitialize 256).2 driftingOps).map
      (fun r => (r.2.framesStored, r.2.numberOfStoredBytes)) = some (1, 192) := by decide +kernel
  obtain ⟨⟨es, p⟩, hr, hvalues⟩ := Option.map_eq_some_iff.mp hrun
  obtain ⟨hframes, hbytes⟩ := Prod.mk.inj hvalues
  have hsteps : Run ShortStep (ringInitialize 256).2 es p :=
    performAll_run (fun _ _ _ hop hperform => ⟨of_decide_eq_true hop, hperform⟩) hr
  obtain ⟨-, u, hreads, -, hnone, hindex, haccepts⟩ :=
    drain_recovers (by decide +kernel) (by decide +kernel) hsteps
  obtain ⟨u', hwrite, -⟩ := haccepts (fun _ => 6) 124 (by decide) (by decide +kernel)
  change p.framesStored = 1 at hframes
  rw [hframes] at hreads
  exact ⟨es, p, u, u', hsteps, hframes, hbytes, hreads, hnone, hindex, hwrite⟩

end Drain

end UdpSm.RingFIFOBuffer
