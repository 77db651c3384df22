import UdpSm.RingLayout

/-! The ring as a queue: `read` takes the head, `discard` undoes the writes since a snap, and
reading on until nothing is left recovers the queue. -/
namespace UdpSm.RingFIFOBuffer
open Lib
variable {p : Ringbuffer} {R : Nat} {m : List UInt8} {q : List (List UInt8)}

theorem Holds.read_empty (h : Holds p R []) : read p = some (0, [], p) := by
  have hf := h.frames
  simp only [List.length_nil] at hf
  simp [read, hf]

theorem Holds.head_image (h : Holds p R (m :: q)) :
    p.ptr.load (place p.ptr.size R (padded m.length) % p.ptr.size) 4 = leBytes 4 m.length ∧
    p.ptr.load (place p.ptr.size R (padded m.length) % p.ptr.size + 4) m.length = m ∧
    (¬R % p.ptr.size + padded m.length ≤ p.ptr.size →
      p.ptr.load (R % p.ptr.size) 4 = [0, 0, 0, 0]) := by
  have hframe := h.stored ⟨place p.ptr.size R (padded m.length), frame m⟩
    (by simp [queueChunks, frameChunks])
  simp only [Chunk.Stored, Nat.zero_add, frame] at hframe
  obtain ⟨h1, h2⟩ := Memory.load_append_eq hframe
  rw [leBytes_length] at h1 h2
  refine ⟨h1, h2, ?_⟩
  intro hj
  have hmark := h.stored ⟨R, [0, 0, 0, 0]⟩ (by simp [queueChunks, frameChunks, marker, hj])
  simpa [Chunk.Stored] using hmark

theorem Holds.head_fits (h : Holds p R (m :: q)) :
    padded m.length ≤ p.ptr.size ∧ place p.ptr.size R (padded m.length) + padded m.length ≤
      queueEnd p.ptr.size R (m :: q) := by
  have he := le_advanceAll p.ptr.size (advance p.ptr.size R (padded m.length)) (sizes q)
  have ho := h.occupied
  have hb := h.bound
  have hp := le_place p.ptr.size R (padded m.length)
  simp only [queueEnd, sizes, List.map_cons, advanceAll_cons] at he ho ⊢
  unfold advance at he ho ⊢
  omega

theorem Holds.start_mod_dvd {q : List (List UInt8)} (h : Holds p R q) : 64 ∣ R % p.ptr.size :=
  (Nat.dvd_mod_iff h.aligned).mpr h.start

theorem Holds.start_room {q : List (List UInt8)} (h : Holds p R q) :
    R % p.ptr.size + 64 ≤ p.ptr.size := by
  have hm := Nat.mod_lt R h.size_pos
  have hd := h.start_mod_dvd
  have ha := h.aligned
  omega

theorem Holds.frames_pred (h : Holds p R (m :: q)) :
    int32 (p.framesStored - 1) = (q.length : Int) := by
  have hf := h.frames_bound
  have hu := h.upper
  rw [List.length_cons] at hf
  rw [h.frames, List.length_cons, int32_of_range (by omega) (by omega)]
  omega

theorem Holds.counter_sub {q : List (List UInt8)} (h : Holds p R q) {d : Nat} (hd : d < 2 ^ 30) :
    int32 (p.numberOfStoredBytes - (d : Int)) = p.numberOfStoredBytes - d := by
  have hu := h.upper
  have hb := h.bound
  have h0 := h.le_end.2
  exact int32_of_range (by omega) (by omega)

theorem length_word {n : Nat} (h : n < 2 ^ 29) :
    (UInt32.ofNat n).toNat = n ∧ ofLe (leBytes 4 n) = n := by
  rw [UInt32.toNat_ofNat', ofLe_leBytes]
  exact ⟨Nat.mod_eq_of_lt (by omega), Nat.mod_eq_of_lt (by omega)⟩

theorem Holds.load_head {q : List (List UInt8)} (h : Holds p R q) :
    p.ptr.loadAt ((R % p.ptr.size : Nat) : Int) 4 = some (p.ptr.load (R % p.ptr.size) 4) ∧
    p.ptr.loadAt 0 4 = some (p.ptr.load 0 4) := by
  have hr := h.start_room
  exact ⟨Memory.loadAt_natCast p.ptr (R % p.ptr.size) 4 (by omega),
    Memory.loadAt_natCast p.ptr 0 4 (by omega)⟩

theorem Holds.tail_index {q : List (List UInt8)} (h : Holds p R q) :
    int32 ((p.ptr.size : Int) - ((R % p.ptr.size : Nat) : Int)) =
      ((p.ptr.size - R % p.ptr.size : Nat) : Int) := by
  have hr := h.start_room
  have hu := h.upper
  rw [int32_of_range (by omega) (by omega)]
  omega

/-- What a read takes off the byte counter: at a jump only the skipped tail. -/
def charge (B R n : Nat) : Nat := if R % B + padded n ≤ B then padded n else B - R % B

theorem charge_le (B R n : Nat) : R + charge B R n ≤ advance B R (padded n) := by
  unfold charge advance place
  split_ifs <;> omega

theorem Holds.readHeader_cons (h : Holds p R (m :: q)) :
    readHeader p = some (UInt32.ofNat m.length,
      ((place p.ptr.size R (padded m.length) % p.ptr.size : Nat) : Int),
      p.numberOfStoredBytes - (charge p.ptr.size R m.length : Int)) := by
  unfold charge
  have hu := h.upper
  have hr := h.start_room
  have hstart : R % p.ptr.size ≤ 2 ^ 29 := by omega
  have htail : p.ptr.size - R % p.ptr.size < 2 ^ 30 := by omega
  have hplace := place_mod p.ptr.size R (padded m.length) (by omega)
  obtain ⟨hword, -, hmark⟩ := h.head_image
  obtain ⟨hm1, hm2⟩ := h.lengths m (by simp)
  have hm0 : m.length ≠ 0 := by omega
  obtain ⟨hload, hload0⟩ := h.load_head
  simp only [readHeader, h.readIndex, align_index_eq _ h.start_mod_dvd hstart, hload]
  by_cases hj : R % p.ptr.size + padded m.length ≤ p.ptr.size
  · have hpad : padded m.length < 2 ^ 30 := by omega
    rw [if_pos hj] at hplace
    rw [hplace] at hword ⊢
    obtain ⟨hulen, hle⟩ := length_word hm2
    simp only [hword, hle, if_neg hm0, if_pos hj]
    rw [decrement_eq _ (hulen.symm ▸ hm2), hulen, h.counter_sub hpad]
  · rw [if_neg hj] at hplace
    rw [hplace] at hword ⊢
    obtain ⟨-, hle⟩ := length_word hm2
    have hzero : ofLe [0, 0, 0, 0] = 0 := rfl
    simp only [hmark hj, hzero, if_true, hload0, hword, hle, if_neg hj, h.bufferSize, h.tail_index]
    rw [h.counter_sub htail]
    rfl

theorem leftover_eq (q : List (List UInt8)) (x : Int) :
    (if x ≠ 0 ∧ (q.length : Int) = 0 then 0 else x) = if q = [] then 0 else x := by
  cases q with
  | nil => simp
  | cons a q => simp; omega

theorem Holds.read_result (h : Holds p R (m :: q)) :
    read p = some ((m.length : Int), m, { p with
      readIndex := (advance p.ptr.size R (padded m.length) % p.ptr.size : Nat)
      numberOfStoredBytes :=
        if q = [] then 0 else p.numberOfStoredBytes - (charge p.ptr.size R m.length : Int)
      framesStored := q.length }) := by
  have hframes : ¬p.framesStored ≤ 0 := by
    rw [h.frames, List.length_cons]
    omega
  have hu := h.upper
  have hB := h.size_pos
  have hfit := place_fits p.ptr.size R (padded m.length) hB h.head_fits.1
  have hadv := add_mod_fits p.ptr.size _ (padded m.length) hB hfit
  have hdvd : 64 ∣ place p.ptr.size R (padded m.length) % p.ptr.size :=
    (Nat.dvd_mod_iff h.aligned).mpr (place_dvd h.aligned h.start)
  have hheader := h.readHeader_cons
  have himage := h.head_image.2.1
  obtain ⟨hb1, hb2, -⟩ := padded_bounds m.length
  generalize place p.ptr.size R (padded m.length) % p.ptr.size = s at *
  have hm := (h.lengths m (by simp)).2
  have hlen : int32 (m.length : Int) = m.length := int32_natCast (by omega)
  have hload := Memory.loadAt_natCast p.ptr (s + 4) m.length (by omega)
  have hs4 : int32 ((s : Int) + 4) = ((s + 4 : Nat) : Int) := by
    rw [int32_of_range (by omega) (by omega)]
    rfl
  obtain ⟨hulen, -⟩ := length_word hm
  have hstep := step_index_eq rfl h.aligned hu hdvd (by rw [hulen]; exact hfit) (hulen.symm ▸ hm)
  rw [hulen, hs4, ← hadv] at hstep
  simp only [read, if_neg hframes, hheader, h.frames_pred, hulen, hs4, hload, himage,
    leftover_eq, hlen, h.bufferSize, hstep]
  rfl

/-- A read of the ring takes the head of the queue. -/
theorem Holds.read_cons (h : Holds p R (m :: q)) :
    ∃ p', read p = some ((m.length : Int), m, p') ∧ p'.ptr = p.ptr ∧
      Holds p' (advance p.ptr.size R (padded m.length)) q := by
  refine ⟨_, h.read_result, rfl, ?_⟩
  have hend : queueEnd p.ptr.size R (m :: q) =
      queueEnd p.ptr.size (advance p.ptr.size R (padded m.length)) q := by
    simp [queueEnd, sizes]
  have ho := h.occupied
  have hbound := h.bound
  have h0 := h.le_end.2
  have hcharge := charge_le p.ptr.size R m.length
  constructor
  · exact h.bufferSize
  · exact h.aligned
  · exact h.lower
  · exact h.upper
  · exact Nat.dvd_add (place_dvd h.aligned h.start) (padded_bounds m.length).2.2
  · rfl
  · rw [← hend]
    exact h.writeIndex
  · rfl
  · rw [← hend]
    by_cases hq : q = []
    · subst hq
      simp [queueEnd, sizes]
    · simp only [if_neg hq]
      omega
  · simp only []
    split_ifs <;> omega
  · intro hq
    exact if_pos hq
  · intro a ha
    exact h.lengths a (List.mem_cons_of_mem m ha)
  · intro c hc
    exact h.stored c (by simp [queueChunks, hc])

theorem queueChunks_subset {B R : Nat} {q new : List (List UInt8)} {c : Chunk UInt8}
    (hc : c ∈ queueChunks B R q) : c ∈ queueChunks B R (q ++ new) := by
  induction q generalizing R with
  | nil => simp [queueChunks] at hc
  | cons m q ih =>
    simp only [List.cons_append, queueChunks, List.mem_append] at hc ⊢
    exact hc.imp_right ih

/-- `discard` after some writes: the storage keeps their bytes, the queue does not. -/
theorem Holds.rollback {p' : Ringbuffer} {q new : List (List UInt8)} (h : Holds p R q)
    (h' : Holds p' R (q ++ new)) (hsize : p'.ptr.size = p.ptr.size) :
    Holds { p' with toSnap := p.toSnap } R q := by
  constructor
  · exact hsize ▸ h.bufferSize
  · exact h'.aligned
  · exact h'.lower
  · exact h'.upper
  · exact h.start
  · exact hsize ▸ h.readIndex
  · exact hsize ▸ h.writeIndex
  · exact h.frames
  · exact hsize ▸ h.occupied
  · exact hsize ▸ h.bound
  · exact h.idle
  · exact h.lengths
  · intro c hc
    exact h'.stored c (queueChunks_subset hc)

/-! The retry loop around `write`. -/

theorem int32_length_ne_zero {length : UInt32} (h : length ≠ 0) : int32 length.toNat ≠ 0 := by
  intro h0
  have hlt := length.toNat_lt
  have hbits : (BitVec.ofInt 32 (length.toNat : Int)).toInt = (0#32).toInt := by
    simpa [int32] using h0
  have hzero := congrArg BitVec.toNat (BitVec.toInt_inj.mp hbits)
  rw [BitVec.ofInt_natCast, BitVec.toNat_ofNat, Nat.mod_eq_of_lt hlt] at hzero
  exact h (UInt32.toNat_inj.mp hzero)

theorem write_ne_zero {p p' : Ringbuffer} {data : Nat → UInt8} {length : UInt32}
    (hok : ¬(length = 0 ∨ ¬hasRoom p (int32 (next64aligned (length + 4).toUInt64).toNat))) :
    write p (some data) length ≠ some (0, p') := by
  intro h
  simp only [write, if_neg hok] at h
  have h0 := int32_length_ne_zero fun h0 => hok (.inl h0)
  by_cases hj : int32 (p.bufferSize - p.writeIndex) <
      int32 (next64aligned (length + 4).toUInt64).toNat
  · simp only [if_pos hj, Option.bind_eq_bind, Option.bind_some, Option.bind_eq_some_iff] at h
    obtain ⟨_, -, _, -, _, -, hp⟩ := h
    exact absurd (Prod.mk.inj (Option.some.inj hp)).1 h0
  · simp only [if_neg hj, Option.bind_eq_bind, Option.bind_some, Option.bind_eq_some_iff] at h
    obtain ⟨_, -, _, -, hp⟩ := h
    exact absurd (Prod.mk.inj (Option.some.inj hp)).1 h0

theorem write_zero {p p' : Ringbuffer} {data : Nat → UInt8} {length : UInt32}
    (h : write p (some data) length = some (0, p')) : p' = p := by
  by_cases hno : length = 0 ∨
      ¬hasRoom p (int32 (next64aligned (length + 4).toUInt64).toNat)
  · simp only [write, if_pos hno] at h
    simpa using h.symm
  · exact absurd h (write_ne_zero hno)

/-- However long it is tried, the loop is decided by its first turn. -/
theorem writeLoop_succ (fuel : Nat) (p : Ringbuffer) (data : Nat → UInt8) (length : UInt32) :
    writeLoop (fuel + 1) p data length = writeUntilAccepted p data length := by
  induction fuel with
  | zero => rfl
  | succ fuel ih =>
    rw [writeLoop]
    cases hw : write p (some data) length with
    | none => simp only [writeUntilAccepted, hw]
    | some r =>
      obtain ⟨rv, p'⟩ := r
      by_cases h0 : rv = 0
      · subst h0
        have hp := write_zero hw
        subst hp
        simpa using ih
      · simp only [writeUntilAccepted, hw, if_neg h0]

/-- How far writes may reach, as an absolute position; accepted writes do not move it. -/
def writeLimit (p : Ringbuffer) (w : Nat) : Int := w + p.ptr.size - p.numberOfStoredBytes

theorem Holds.writeUntilAccepted_ok {q : List (List UInt8)} (h : Holds p R q) (data : Nat → UInt8)
    (length : UInt32) (hl : 1 ≤ length.toNat) (hl' : length.toNat < 2 ^ 29)
    (hr : (advance p.ptr.size (queueEnd p.ptr.size R q) (padded length.toNat) : Int) ≤
      writeLimit p (queueEnd p.ptr.size R q)) :
    ∃ p', writeUntilAccepted p data length = .ok p' ∧ p'.ptr.size = p.ptr.size ∧
      writeLimit p' (advance p.ptr.size (queueEnd p.ptr.size R q) (padded length.toNat)) =
        writeLimit p (queueEnd p.ptr.size R q) ∧
      Holds p' R (q ++ [(List.range length.toNat).map data]) := by
  unfold writeLimit at hr ⊢
  obtain ⟨p', hw, hsize, hbytes, h'⟩ := h.write_accept data length hl hl' (by omega)
  refine ⟨p', ?_, hsize, by omega, h'⟩
  simp only [writeUntilAccepted, hw]
  exact if_neg (by omega)

theorem Holds.writeUntilAccepted_spins {q : List (List UInt8)} (h : Holds p R q)
    (data : Nat → UInt8) (length : UInt32) (hl' : length.toNat < 2 ^ 29)
    (hr : ¬(advance p.ptr.size (queueEnd p.ptr.size R q) (padded length.toNat) : Int) ≤
      writeLimit p (queueEnd p.ptr.size R q)) :
    writeUntilAccepted p data length = .error .spins := by
  unfold writeLimit at hr
  simp only [writeUntilAccepted, h.write_reject data length hl' (by omega), if_true]

theorem Holds.getCapacity_eq {q : List (List UInt8)} (h : Holds p R q) :
    (getCapacity p).1 = p.ptr.size - p.numberOfStoredBytes := by
  have hu := h.upper
  have hb := h.bound
  have h0 := h.le_end.2
  change int32 _ = _
  rw [h.bufferSize, int32_of_range (by omega) (by omega)]

/-! The messages of a ring, read from the ring alone. -/

def drain : Nat → Ringbuffer → List (List UInt8)
  | 0, _ => []
  | n+1, p =>
    match read p with
    | none => []
    | some (_, m, p') => m :: drain n p'

def contents (p : Ringbuffer) : List (List UInt8) := drain p.framesStored.toNat p

theorem Holds.contents_eq {q : List (List UInt8)} (h : Holds p R q) : contents p = q := by
  rw [contents, h.frames, Int.toNat_natCast]
  induction q generalizing p R with
  | nil => rfl
  | cons m q ih =>
    obtain ⟨p', hread, -, h'⟩ := h.read_cons
    rw [List.length_cons, drain, hread]
    simp only []
    rw [ih h']

end UdpSm.RingFIFOBuffer
