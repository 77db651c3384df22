import UdpSm.RingArithmetic
import UdpSm.Lib.HighWater

/-! The high-water marks `max_bytes` and `min_capacity`, over writes, reads and writes that are
taken back. -/
namespace UdpSm.RingFIFOBuffer
open Lib

structure Kept where
  before : Ringbuffer
  length : UInt32
  after : Ringbuffer

def Kept.Jumps (w : Kept) : Prop := firstRun w.before < padded w.length.toNat

instance (w : Kept) : Decidable w.Jumps := inferInstanceAs (Decidable (_ < _))

/-- The fill that the write brings about, told from the ring before it. -/
def Kept.level (w : Kept) : Int := w.before.numberOfStoredBytes + needed w.before w.length

def Kept.shortLevel (w : Kept) : Int := w.before.numberOfStoredBytes + padded w.length.toNat

def Kept.capacity (w : Kept) : Int := (getCapacity w.after).1

section Step
variable {p p' : Ringbuffer} {R : Nat} {q : List (List UInt8)}

theorem Holds.accepted (h : Holds p R q) {data : Nat → UInt8} {length : UInt32} {rv : Int}
    (hw : write p (some data) length = some (rv, p')) (hrv : rv ≠ 0) :
    length.toNat < 2 ^ 29 ∧ FitsFree p length ∧
      ¬(length = 0 ∨ ¬hasRoom p (int32 (next64aligned (length + 4).toUInt64).toNat)) := by
  have hlength : length.toNat < 2 ^ 29 := by
    by_contra hlong
    exact hrv (h.write_long (by omega) hw).1
  have hno : ¬(length = 0 ∨ ¬hasRoom p (int32 (next64aligned (length + 4).toUInt64).toNat)) := by
    intro hno
    simp only [write, if_pos hno] at hw
    exact hrv (Prod.mk.inj (Option.some.inj hw)).1.symm
  have hneeded : needed p length < 2 ^ 31 := by
    obtain ⟨hrun, hrun', -, -⟩ := h.runs
    obtain ⟨-, hpad, -⟩ := padded_bounds length.toNat
    unfold needed
    split_ifs <;> omega
  have htest := (h.test_iff length).mp (not_not.mp fun hroom => hno (.inr hroom))
  rw [if_pos hneeded] at htest
  exact ⟨hlength, htest, hno⟩

/-- What an accepted write does to the counters: `min_capacity` leaves out the tail. -/
theorem Holds.write_counters (h : Holds p R q) {data : Nat → UInt8} {length : UInt32} {rv : Int}
    (hw : write p (some data) length = some (rv, p')) (hrv : rv ≠ 0) :
    p'.numberOfStoredBytes = p.numberOfStoredBytes + needed p length ∧
    p'.maxBytes = max (p.numberOfStoredBytes + needed p length) p.maxBytes ∧
    p'.minCapacity =
      min p.minCapacity (p.bufferSize - (p.numberOfStoredBytes + padded length.toNat)) ∧
    p'.bufferSize = p.bufferSize := by
  obtain ⟨hlength, hfits, hno⟩ := h.accepted hw hrv
  obtain ⟨hrun, hrun', hfree, hfree'⟩ := h.runs
  obtain ⟨hfirst, hfreeint⟩ := h.int32_runs
  obtain ⟨-, hpad, -⟩ := padded_bounds length.toNat
  have hle := h.le_end.2
  have hbound := h.bound
  have hupper := h.upper
  have hdecrement := decrement_int length hlength
  have hcapacity : int32 (int32 (p.bufferSize - p.numberOfStoredBytes) - padded length.toNat) =
      p.bufferSize - (p.numberOfStoredBytes + padded length.toNat) := by
    rw [hfreeint, int32_of_range (by omega) (by omega), free]
    omega
  rw [hdecrement] at hno
  simp only [write, hdecrement, if_neg hno, hfirst, hcapacity] at hw
  by_cases hj : firstRun p < padded length.toNat
  · rw [FitsFree, needed, if_neg (by omega), free] at hfits
    have hbytes : int32 (p.numberOfStoredBytes + int32 (padded length.toNat + firstRun p)) =
        p.numberOfStoredBytes + needed p length := by
      rw [needed, if_neg (by omega), int32_of_range (x := (padded length.toNat : Int) + _) (by omega)
        (by omega), int32_of_range (by omega) (by omega)]
    simp only [if_pos hj, hbytes, Option.bind_eq_bind, Option.bind_some, Option.bind_eq_some_iff] at hw
    obtain ⟨_, -, _, -, _, -, hp⟩ := hw
    obtain ⟨-, rfl⟩ := Prod.mk.inj (Option.some.inj hp)
    exact ⟨rfl, rfl, rfl, rfl⟩
  · rw [FitsFree, needed, if_pos (by omega), free] at hfits
    have hbytes : int32 (p.numberOfStoredBytes + padded length.toNat) =
        p.numberOfStoredBytes + needed p length := by
      rw [needed, if_pos (by omega), int32_of_range (by omega) (by omega)]
    simp only [if_neg hj, hbytes, Option.bind_eq_bind, Option.bind_some, Option.bind_eq_some_iff] at hw
    obtain ⟨_, -, _, -, hp⟩ := hw
    obtain ⟨-, rfl⟩ := Prod.mk.inj (Option.some.inj hp)
    exact ⟨rfl, rfl, rfl, rfl⟩

theorem read_marks {rv : Int} {m : List UInt8} (h : read p = some (rv, m, p')) :
    p'.maxBytes = p.maxBytes ∧ p'.minCapacity = p.minCapacity ∧ p'.bufferSize = p.bufferSize := by
  unfold read at h
  split_ifs at h
  · obtain ⟨-, -, rfl⟩ := h
    exact ⟨rfl, rfl, rfl⟩
  · cases hheader : readHeader p with
    | none => simp [hheader] at h
    | some header =>
      obtain ⟨ulen, readIndex, bytes⟩ := header
      simp only [hheader] at h
      cases hdata : p.ptr.loadAt (int32 (readIndex + 4)) ulen.toNat with
      | none => simp [hdata] at h
      | some data =>
        simp only [hdata, Option.some.injEq, Prod.mk.injEq] at h
        obtain ⟨-, -, rfl⟩ := h
        exact ⟨rfl, rfl, rfl⟩

end Step

/-! Histories. -/

inductive Move where
  | write (data : Nat → UInt8) (length : UInt32)
  | read
  | snap
  | discard

/-- The object with the writes it retains, those it retained at the last `Snap`, and whether these
may still be gone back to: no message may have been read since. -/
structure History where
  ring : Ring
  kept : List Kept
  saved : List Kept
  tentative : Bool

def move (h : History) : Move → Option History
  | .write data length => (write h.ring.ringbuf (some data) length).map fun (rv, p) =>
      { h with
        ring := { h.ring with ringbuf := p }
        kept := if rv = 0 then h.kept else ⟨h.ring.ringbuf, length, p⟩ :: h.kept }
  | .read => (read h.ring.ringbuf).map fun (_, _, p) =>
      { h with ring := { h.ring with ringbuf := p }, tentative := false }
  | .snap => some { h with ring := snap h.ring, saved := h.kept, tentative := true }
  | .discard =>
    if h.tentative then some { h with ring := discard h.ring, kept := h.saved } else none

def MoveStep (h : History) (m : Move) (h' : History) : Prop := move h m = some h'

def opened (s : Snap) (size : UInt64) : History := ⟨⟨s, (ringInitialize size).2⟩, [], [], false⟩

structure Kept.Sound (B : Int) (w : Kept) : Prop where
  capacity : w.capacity = B - w.level
  short : w.shortLevel ≤ w.level
  jumps : w.shortLevel = w.level ↔ ¬w.Jumps
  positive : 0 < w.level

structure Marks (B : Int) (s : Snap) (ws : List Kept) : Prop where
  sound : ∀ w ∈ ws, w.Sound B
  highest : s.maxBytes = peak 0 Kept.level ws
  lowest : s.minCapacity = B - peak 0 Kept.shortLevel ws

section Marks
variable {B : Int} {s : Snap} {ws : List Kept} {p p' : Ringbuffer} {R : Nat} {q : List (List UInt8)}

theorem Holds.kept_sound (h : Holds p R q) {data : Nat → UInt8} {length : UInt32} {rv : Int}
    (hw : write p (some data) length = some (rv, p')) (hrv : rv ≠ 0) :
    Kept.Sound p.bufferSize ⟨p, length, p'⟩ := by
  obtain ⟨hbytes, -, -, hsize⟩ := h.write_counters hw hrv
  obtain ⟨hptr, new, h'⟩ := h.write_any hw
  obtain ⟨hrun, -, -, -⟩ := h.runs
  have hle := h.le_end.2
  have hpos := padded_pos length.toNat
  have hbytes' := h'.le_end.2
  have hbound := h'.bound
  have hupper := h'.upper
  have hsize' := h'.bufferSize
  constructor
  · change int32 (p'.bufferSize - p'.numberOfStoredBytes) =
      p.bufferSize - (p.numberOfStoredBytes + needed p length)
    rw [int32_of_range (by omega) (by omega), hsize, hbytes]
  · change p.numberOfStoredBytes + padded length.toNat ≤ p.numberOfStoredBytes + needed p length
    unfold needed
    split_ifs <;> omega
  · change p.numberOfStoredBytes + padded length.toNat = p.numberOfStoredBytes + needed p length ↔
      ¬firstRun p < padded length.toNat
    unfold needed
    split_ifs <;> omega
  · change 0 < p.numberOfStoredBytes + needed p length
    unfold needed
    split_ifs <;> omega

theorem Marks.write (hmarks : Marks p.bufferSize p.toSnap ws) (h : Holds p R q)
    {data : Nat → UInt8} {length : UInt32} {rv : Int}
    (hw : RingFIFOBuffer.write p (some data) length = some (rv, p')) (hrv : rv ≠ 0) :
    Marks p.bufferSize p'.toSnap (⟨p, length, p'⟩ :: ws) := by
  obtain ⟨-, hmax, hmin, -⟩ := h.write_counters hw hrv
  constructor
  · intro w hmem
    obtain rfl | hmem := List.mem_cons.mp hmem
    · exact h.kept_sound hw hrv
    · exact hmarks.sound w hmem
  · rw [hmax, hmarks.highest]
    rfl
  · have hlevel : Kept.shortLevel ⟨p, length, p'⟩ = p.numberOfStoredBytes + padded length.toNat := rfl
    rw [hmin, hmarks.lowest, peak_cons, hlevel]
    omega

theorem foldr_capacity (h : ∀ w ∈ ws, w.Sound B) :
    (ws.map Kept.capacity).foldr min B = B - peak 0 Kept.level ws := by
  induction ws with
  | nil => exact (Int.sub_zero B).symm
  | cons w ws ih =>
    rw [List.map_cons, List.foldr_cons, ih fun v hv => h v (List.mem_cons_of_mem w hv),
      (h w List.mem_cons_self).capacity, peak_cons]
    omega

/-- The marks agree unless the highest fill was brought about by jumps alone. -/
theorem Marks.agree_iff (h : Marks B s ws) :
    (s.minCapacity + s.maxBytes = B ∧ s.minCapacity = (ws.map Kept.capacity).foldr min B) ↔
      ∀ w ∈ ws, w.Jumps → ∃ v ∈ ws, ¬v.Jumps ∧ w.level ≤ v.level := by
  have hpeaks := peak_eq_iff (b := 0) (fun w hw => (h.sound w hw).short)
    fun w hw => (h.sound w hw).positive
  rw [foldr_capacity h.sound, h.highest, h.lowest]
  constructor
  · rintro ⟨hsum, -⟩ w hw hj
    have hlt : w.shortLevel < w.level :=
      (h.sound w hw).short.lt_of_ne fun heq => (h.sound w hw).jumps.mp heq hj
    obtain ⟨v, hv, heq, hle⟩ := hpeaks.mp (by omega) w hw hlt
    exact ⟨v, hv, (h.sound v hv).jumps.mp heq, hle⟩
  · intro hcond
    have heq := hpeaks.mpr fun w hw hlt => by
      have hj : w.Jumps := by
        by_contra hno
        exact hlt.ne ((h.sound w hw).jumps.mpr hno)
      obtain ⟨v, hv, hno, hle⟩ := hcond w hw hj
      exact ⟨v, hv, (h.sound v hv).jumps.mpr hno, hle⟩
    omega

end Marks

/-- What every move keeps: the marks of the ring, and those of the ring that a `Discard` would
bring back. -/
structure Tracked (B : Int) (h : History) : Prop where
  size : h.ring.ringbuf.bufferSize = B
  marks : Marks B h.ring.ringbuf.toSnap h.kept
  holds : ∃ R q new, Holds h.ring.ringbuf R (q ++ new) ∧ (h.tentative →
    Holds { h.ring.ringbuf with toSnap := h.ring.ringbufsnap } R q ∧
      Marks B h.ring.ringbufsnap h.saved)

section Run
variable {B : Int} {h h' : History}

theorem Tracked.write (ht : Tracked B h) {data : Nat → UInt8} {length : UInt32}
    (hmove : MoveStep h (.write data length) h') : Tracked B h' := by
  obtain ⟨hsize, hmarks, R, q, new, hp, hback⟩ := ht
  obtain ⟨⟨rv, p'⟩, hw, rfl⟩ := Option.map_eq_some_iff.mp hmove
  obtain ⟨hptr, more, hp'⟩ := hp.write_any hw
  rw [List.append_assoc] at hp'
  have hsize' : p'.bufferSize = B := by rw [hp'.bufferSize, hptr, ← hp.bufferSize, hsize]
  refine ⟨hsize', ?_, R, q, new ++ more, hp', fun htentative => ?_⟩
  · by_cases hrv : rv = 0
    · -- a write that is turned down changes no mark
      obtain rfl := write_zero (hrv ▸ hw)
      simpa only [if_pos hrv] using hmarks
    · simp only [if_neg hrv]
      rw [← hsize] at hmarks ⊢
      exact hmarks.write hp hw hrv
  · obtain ⟨hsnap, hsaved⟩ := hback htentative
    exact ⟨hsnap.rollback hp' hptr, hsaved⟩

theorem Tracked.read (ht : Tracked B h) (hmove : MoveStep h .read h') : Tracked B h' := by
  obtain ⟨hsize, hmarks, R, q, new, hp, -⟩ := ht
  obtain ⟨⟨rv, m, p'⟩, hr, rfl⟩ := Option.map_eq_some_iff.mp hmove
  obtain ⟨hmax, hmin, hsize'⟩ := read_marks hr
  have hstep : AnyStep h.ring.ringbuf ⟨.read, rv, m⟩ p' := by
    rw [AnyStep, perform, hr]
    rfl
  obtain ⟨-, R', q', hp'⟩ := hp.anyStep hstep
  refine ⟨hsize'.trans hsize, ?_, R', q', [], by rwa [List.append_nil], fun hno => by simp at hno⟩
  exact ⟨hmarks.sound, hmax.trans hmarks.highest, hmin.trans hmarks.lowest⟩

theorem Tracked.step (ht : Tracked B h) {m : Move} (hmove : MoveStep h m h') : Tracked B h' := by
  cases m with
  | write data length => exact ht.write hmove
  | read => exact ht.read hmove
  | snap =>
    obtain ⟨hsize, hmarks, R, q, new, hp, -⟩ := ht
    obtain rfl := Option.some.inj hmove
    exact ⟨hsize, hmarks, R, q ++ new, [], by rwa [List.append_nil], fun _ => ⟨hp, hmarks⟩⟩
  | discard =>
    obtain ⟨hsize, hmarks, R, q, new, hp, hback⟩ := ht
    rw [MoveStep, move] at hmove
    split_ifs at hmove with htentative
    obtain rfl := Option.some.inj hmove
    obtain ⟨hsnap, hsaved⟩ := hback htentative
    have hsize' : h.ring.ringbufsnap.bufferSize = B := by
      rw [← hsize, hp.bufferSize]
      exact hsnap.bufferSize
    exact ⟨hsize', hsaved, R, q, [], by rwa [List.append_nil], fun _ => ⟨hsnap, hsaved⟩⟩

theorem ringInitialize_marks (size : UInt64) :
    (ringInitialize size).2.maxBytes = 0 ∧
      (ringInitialize size).2.minCapacity = (ringInitialize size).2.bufferSize := by
  unfold ringInitialize
  split_ifs <;> exact ⟨rfl, rfl⟩

theorem tracked_run {size : UInt64} {s : Snap} {ms : List Move}
    (h1 : 64 ≤ (ringInitialize size).2.bufferSize)
    (h2 : (ringInitialize size).2.bufferSize ≤ 2 ^ 29)
    (hrun : Run MoveStep (opened s size) ms h) : Tracked (ringInitialize size).2.bufferSize h := by
  refine Run.invariant (fun _ => Tracked _) ?_ (fun _ _ _ _ ht hmove => ht.step hmove) hrun
  obtain ⟨hmax, hmin⟩ := ringInitialize_marks size
  exact ⟨rfl, ⟨by simp [opened], hmax, hmin.trans (Int.sub_zero _).symm⟩, 0, [], [],
    holds_ringInitialize h1 h2, by simp [opened]⟩

/-- In every run, at all times: the marks agree, and `min_capacity` is the smallest capacity that a
retained write left, exactly if no jump alone brought about the highest fill. -/
theorem marks_agree {size : UInt64} {s : Snap} {ms : List Move}
    (h1 : 64 ≤ (ringInitialize size).2.bufferSize)
    (h2 : (ringInitialize size).2.bufferSize ≤ 2 ^ 29)
    (hrun : Run MoveStep (opened s size) ms h) :
    (h.ring.ringbuf.minCapacity + h.ring.ringbuf.maxBytes = (ringInitialize size).2.bufferSize ∧
      h.ring.ringbuf.minCapacity =
        (h.kept.map Kept.capacity).foldr min (ringInitialize size).2.bufferSize) ↔
      ∀ w ∈ h.kept, w.Jumps → ∃ v ∈ h.kept, ¬v.Jumps ∧ w.level ≤ v.level :=
  (tracked_run h1 h2 hrun).marks.agree_iff

end Run

def write60 : Move := .write (fun _ => 1) 60
def write100 : Move := .write (fun _ => 1) 100

theorem marks_agree_refilled : ∃ h,
    Run MoveStep (opened default 256)
      [.snap, write60, .discard, write60, write60, write60, .read, .read, .read, write100] h ∧
    h.kept.map (fun w => decide w.Jumps) = [true, false, false, false] ∧
    h.ring.ringbuf.minCapacity + h.ring.ringbuf.maxBytes = 256 ∧
    h.ring.ringbuf.minCapacity = (h.kept.map Kept.capacity).foldr min 256 := by
  have hlook : ([.snap, write60, .discard, write60, write60, write60, .read, .read, .read,
      write100].foldlM move (opened default 256)).map (fun h =>
        (h.kept.map (fun w => decide w.Jumps),
          decide (∀ w ∈ h.kept, w.Jumps → ∃ v ∈ h.kept, ¬v.Jumps ∧ w.level ≤ v.level))) =
      some ([true, false, false, false], true) := by
    decide +kernel
  obtain ⟨h, hfold, hvalues⟩ := Option.map_eq_some_iff.mp hlook
  obtain ⟨hjumps, hcond⟩ := Prod.mk.inj hvalues
  have hrun := Run.of_foldlM (fun _ _ _ hst => hst) hfold
  have hsize : (ringInitialize 256).2.bufferSize = 256 := by decide +kernel
  have hagree := (marks_agree (by rw [hsize]; decide) (by rw [hsize]; decide) hrun).mpr
    (of_decide_eq_true hcond)
  rw [hsize] at hagree
  exact ⟨h, hrun, hjumps, hagree⟩

/-- A jump over 64 bytes into the empty ring: 192 bytes are booked, and the mark says that 128 were
left. -/
theorem marks_disagree : ∃ h,
    Run MoveStep (opened default 256)
      [write60, .read, write60, .read, write60, .read, write100] h ∧
    (ringInitialize 256).2.bufferSize = 256 ∧ h.ring.ringbuf.maxBytes = 192 ∧
    h.ring.ringbuf.minCapacity = 128 ∧ (h.kept.map Kept.capacity).foldr min 256 = 64 := by
  have hlook : ([write60, .read, write60, .read, write60, .read, write100].foldlM move
      (opened default 256)).map (fun h => (h.ring.ringbuf.maxBytes, h.ring.ringbuf.minCapacity,
        (h.kept.map Kept.capacity).foldr min 256)) = some (192, 128, 64) := by
    decide +kernel
  obtain ⟨h, hfold, hvalues⟩ := Option.map_eq_some_iff.mp hlook
  simp only [Prod.mk.injEq] at hvalues
  exact ⟨h, Run.of_foldlM (fun _ _ _ hst => hst) hfold, by decide +kernel, hvalues⟩

end UdpSm.RingFIFOBuffer
