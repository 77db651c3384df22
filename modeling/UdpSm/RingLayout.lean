import UdpSm.RingFIFOBuffer
import UdpSm.Lib.Circular
import Mathlib.Tactic.Ring

/-! The frames of a ring as blocks of a circular log: what a stored queue looks like, and that
`write` appends to it and `read` takes its head. -/
namespace UdpSm.RingFIFOBuffer
open Lib

/-- Bytes a message occupies: its length word and payload, rounded up to 64. -/
def padded (n : Nat) : Nat := (n + 67) / 64 * 64

theorem padded_bounds (n : Nat) : n + 4 ≤ padded n ∧ padded n < n + 68 ∧ 64 ∣ padded n := by
  unfold padded
  omega

theorem padded_pos (n : Nat) : 64 ≤ padded n := by
  unfold padded
  omega

theorem align_mask (n : Nat) (h : n < 2 ^ 64) : n &&& (2 ^ 58 - 1) <<< 6 = n / 64 * 64 := by
  have hs : n / 64 * 64 = n >>> 6 <<< 6 := by
    rw [Nat.shiftRight_eq_div_pow, Nat.shiftLeft_eq]
  rw [hs]
  apply Nat.eq_of_testBit_eq
  intro i
  rw [Nat.testBit_and, Nat.testBit_shiftLeft, Nat.testBit_shiftLeft, Nat.testBit_shiftRight,
    Nat.testBit_two_pow_sub_one]
  by_cases h6 : 6 ≤ i
  · rw [Nat.add_sub_of_le h6]
    by_cases hi : i < 64
    · have hlow : i - 6 < 58 := by omega
      simp [h6, hlow]
    · have hf : n.testBit i = false :=
        Nat.testBit_lt_two_pow (Nat.lt_of_lt_of_le h (Nat.pow_le_pow_right (by omega) (by omega)))
      simp [hf]
  · simp [h6]

theorem next64aligned_toNat (x : UInt64) (h : x.toNat + 63 < 2 ^ 64) :
    (next64aligned x).toNat = (x.toNat + 63) / 64 * 64 := by
  have hx : (x + 63).toNat = x.toNat + 63 := by
    rw [UInt64.toNat_add]
    exact Nat.mod_eq_of_lt h
  rw [next64aligned, UInt64.toNat_and, hx]
  exact align_mask _ h

theorem decrement_eq (length : UInt32) (h : length.toNat < 2 ^ 29) :
    (next64aligned (length + 4).toUInt64).toNat = padded length.toNat := by
  have hl : (length + 4).toUInt64.toNat = length.toNat + 4 := by
    rw [UInt32.toNat_toUInt64, UInt32.toNat_add]
    exact Nat.mod_eq_of_lt (by change length.toNat + 4 < _; omega)
  rw [next64aligned_toNat _ (by omega), hl, padded]

theorem decrement_int (length : UInt32) (h : length.toNat < 2 ^ 29) :
    int32 (next64aligned (length + 4).toUInt64).toNat = (padded length.toNat : Int) := by
  have hb := padded_bounds length.toNat
  rw [decrement_eq length h]
  exact int32_natCast (by omega)

theorem next_index_eq (s : Nat) (length : UInt32) (hs : 64 ∣ s) (hs' : s ≤ 2 ^ 29)
    (h : length.toNat < 2 ^ 29) :
    int32 (next64aligned (UInt32.ofInt (int32 ((s : Int) + 4)) + length).toUInt64).toNat =
      (s + padded length.toNat : Nat) := by
  have h4 : int32 ((s : Int) + 4) = ((s + 4 : Nat) : Int) := by
    rw [int32_of_range (by omega) (by omega)]
    rfl
  have hl : (UInt32.ofInt ((s + 4 : Nat) : Int) + length).toUInt64.toNat = s + 4 + length.toNat := by
    rw [UInt32.toNat_toUInt64, UInt32.toNat_add, uint32_ofInt_natCast (by omega)]
    exact Nat.mod_eq_of_lt (by omega)
  have hn : (s + 4 + length.toNat + 63) / 64 * 64 = s + padded length.toNat := by
    unfold padded
    omega
  rw [h4, next64aligned_toNat _ (by omega), hl, hn]
  have := padded_bounds length.toNat
  exact int32_natCast (by omega)

/-- `read_index` is already aligned, so rounding it up keeps it. -/
theorem align_index_eq (s : Nat) (hs : 64 ∣ s) (hs' : s ≤ 2 ^ 29) :
    int32 (next64aligned (UInt64.ofInt (s : Int))).toNat = (s : Int) := by
  have hround : (s + 63) / 64 * 64 = s := by omega
  rw [next64aligned_toNat _ (by rw [uint64_ofInt_natCast (by omega)]; omega),
    uint64_ofInt_natCast (by omega), hround]
  exact int32_natCast (by omega)

/-- Stepping past a frame at `s` that fits a ring of `B` bytes; it wraps only at the very end. -/
theorem step_index_eq {B s : Nat} {i : Int} {length : UInt32} (hi : i = s) (hB : 64 ∣ B)
    (hu : B ≤ 2 ^ 29) (hs : 64 ∣ s) (hf : s + padded length.toNat ≤ B) (h : length.toNat < 2 ^ 29) :
    (if int32 ((B : Int) - 4) ≤
        int32 (next64aligned (UInt32.ofInt (int32 (i + 4)) + length).toUInt64).toNat then 0
      else int32 (next64aligned (UInt32.ofInt (int32 (i + 4)) + length).toUInt64).toNat) =
      ((if s + padded length.toNat = B then 0 else s + padded length.toNat : Nat) : Int) := by
  subst hi
  have hp := padded_bounds length.toNat
  rw [next_index_eq s length hs (by omega) h, int32_of_range (by omega) (by omega)]
  by_cases he : s + padded length.toNat = B
  · rw [if_pos (by omega), if_pos he]
    rfl
  · rw [if_neg (by omega), if_neg he]

/-! The layout. Positions are absolute; a ring of `B` bytes holds `q` from `R` on. -/

def frame (m : List UInt8) : List UInt8 := leBytes 4 m.length ++ m

theorem store_frame {β : Type} (m : Memory UInt8) {i : Int} {s n : Nat} {msg : List UInt8}
    (hi : i = s) (hn : msg.length = n) (hs : s + padded n ≤ m.size) (hu : m.size ≤ 2 ^ 29)
    (k : Memory UInt8 → Option β) :
    ((m.storeAt i (leBytes 4 n)).bind fun ptr =>
      (ptr.storeAt (int32 (i + 4)) msg).bind k) = k (m.store s (frame msg)) := by
  subst hi
  have hp := padded_bounds n
  have h4 : int32 ((s : Int) + 4) = ((s + 4 : Nat) : Int) := by
    rw [int32_of_range (by omega) (by omega)]
    rfl
  have ha := Memory.store_append m s (leBytes 4 n) msg
  rw [leBytes_length] at ha
  rw [Memory.storeAt_natCast _ _ _ (by rw [leBytes_length]; omega), Option.bind_some, h4,
    Memory.storeAt_natCast _ _ _ (by rw [Memory.store_size]; omega), Option.bind_some, ha, frame, hn]

def marker (B w d : Nat) : List (Chunk UInt8) := if w % B + d ≤ B then [] else [⟨w, [0, 0, 0, 0]⟩]

def frameChunks (B w : Nat) (m : List UInt8) : List (Chunk UInt8) :=
  marker B w (padded m.length) ++ [⟨place B w (padded m.length), frame m⟩]

def sizes (q : List (List UInt8)) : List Nat := q.map fun m => padded m.length

def queueChunks (B : Nat) : Nat → List (List UInt8) → List (Chunk UInt8)
  | _, [] => []
  | w, m :: q => frameChunks B w m ++ queueChunks B (advance B w (padded m.length)) q

def queueEnd (B R : Nat) (q : List (List UInt8)) : Nat := advanceAll B R (sizes q)

theorem queueEnd_append (B R : Nat) (q : List (List UInt8)) (m : List UInt8) :
    queueEnd B R (q ++ [m]) = advance B (queueEnd B R q) (padded m.length) := by
  simp [queueEnd, sizes, advanceAll_append]

theorem queueChunks_append (B R : Nat) (q : List (List UInt8)) (m : List UInt8) :
    queueChunks B R (q ++ [m]) = queueChunks B R q ++ frameChunks B (queueEnd B R q) m := by
  induction q generalizing R with
  | nil => simp [queueChunks, queueEnd, sizes]
  | cons a q ih => simp [queueChunks, ih, queueEnd, sizes, List.append_assoc]

theorem frameChunks_bounds {B w : Nat} {m : List UInt8} {c : Chunk UInt8}
    (hc : c ∈ frameChunks B w m) :
    w ≤ c.start ∧ c.stop ≤ advance B w (padded m.length) := by
  have hp := le_place B w (padded m.length)
  have hb := padded_bounds m.length
  simp only [frameChunks, marker, List.mem_append, List.mem_singleton] at hc
  obtain hc | rfl := hc
  · split_ifs at hc with hf
    · simp at hc
    · simp only [List.mem_singleton] at hc
      subst hc
      simp only [Chunk.stop, List.length_cons, List.length_nil]
      have := le_advance B w (padded m.length)
      omega
  · simp only [Chunk.stop, frame, List.length_append, leBytes_length, advance]
    omega

theorem queueChunks_bounds {B R : Nat} {q : List (List UInt8)} {c : Chunk UInt8}
    (hc : c ∈ queueChunks B R q) : R ≤ c.start ∧ c.stop ≤ queueEnd B R q := by
  induction q generalizing R with
  | nil => simp [queueChunks] at hc
  | cons m q ih =>
    have ha := le_advance B R (padded m.length)
    have he := le_advanceAll B (advance B R (padded m.length)) (sizes q)
    simp only [queueChunks, List.mem_append] at hc
    obtain hc | hc := hc
    · have hb := frameChunks_bounds hc
      simp only [queueEnd, sizes, List.map_cons, advanceAll_cons] at he ⊢
      omega
    · have hb := ih hc
      simp only [queueEnd, sizes, List.map_cons, advanceAll_cons] at hb ⊢
      omega

/-- The ring `p` holds the queue `q` from the absolute position `R` on. The byte counter bounds
the occupied span from above and need not be exact. -/
structure Holds (p : Ringbuffer) (R : Nat) (q : List (List UInt8)) : Prop where
  bufferSize : p.bufferSize = p.ptr.size
  aligned : 64 ∣ p.ptr.size
  lower : 64 ≤ p.ptr.size
  upper : p.ptr.size ≤ 2 ^ 29
  start : 64 ∣ R
  readIndex : p.readIndex = (R % p.ptr.size : Nat)
  writeIndex : p.writeIndex = (queueEnd p.ptr.size R q % p.ptr.size : Nat)
  frames : p.framesStored = q.length
  occupied : (queueEnd p.ptr.size R q : Int) ≤ R + p.numberOfStoredBytes
  bound : p.numberOfStoredBytes ≤ p.ptr.size
  idle : q = [] → p.numberOfStoredBytes = 0
  lengths : ∀ m ∈ q, 1 ≤ m.length ∧ m.length < 2 ^ 29
  stored : ∀ c ∈ queueChunks p.ptr.size R q, c.Stored 0 p.ptr.size p.ptr

section Holds
variable {p : Ringbuffer} {R : Nat} {q : List (List UInt8)}

theorem Holds.size_pos (h : Holds p R q) : 0 < p.ptr.size := Nat.lt_of_lt_of_le (by decide) h.lower

theorem Holds.end_dvd (h : Holds p R q) : 64 ∣ queueEnd p.ptr.size R q := by
  apply advanceAll_dvd h.aligned h.start
  intro d hd
  obtain ⟨m, _, rfl⟩ := List.mem_map.mp hd
  exact (padded_bounds m.length).2.2

theorem Holds.end_mod_dvd (h : Holds p R q) : 64 ∣ queueEnd p.ptr.size R q % p.ptr.size :=
  (Nat.dvd_mod_iff h.aligned).mpr h.end_dvd

theorem Holds.end_room (h : Holds p R q) :
    queueEnd p.ptr.size R q % p.ptr.size + 64 ≤ p.ptr.size := by
  have hm := Nat.mod_lt (queueEnd p.ptr.size R q) h.size_pos
  have hd := h.end_mod_dvd
  have ha := h.aligned
  omega

theorem Holds.le_end (h : Holds p R q) : R ≤ queueEnd p.ptr.size R q ∧ 0 ≤ p.numberOfStoredBytes := by
  have he := le_advanceAll p.ptr.size R (sizes q)
  have ho := h.occupied
  unfold queueEnd at *
  omega

/-- The acceptance test asks that the frame, and the tail it may skip, fit the free bytes. -/
theorem Holds.hasRoom_iff (h : Holds p R q) {d : Nat} (hd : d < 2 ^ 30) :
    hasRoom p d ↔ (advance p.ptr.size (queueEnd p.ptr.size R q) d : Int) + p.numberOfStoredBytes ≤
      queueEnd p.ptr.size R q + p.ptr.size := by
  have hm := Nat.mod_lt (queueEnd p.ptr.size R q) h.size_pos
  have h0 := h.le_end.2
  have hb := h.bound
  have hu := h.upper
  unfold hasRoom
  simp only []
  rw [h.bufferSize, h.writeIndex, int32_of_range (by omega) (by omega),
    int32_of_range (x := (p.ptr.size : Int) - p.numberOfStoredBytes) (by omega) (by omega),
    int32_of_range (x := (d : Int) + _) (by omega) (by omega)]
  unfold advance place
  split_ifs with hf <;> omega

theorem Holds.frames_bound (h : Holds p R q) : q.length * 64 ≤ p.ptr.size := by
  have hs : q.length * 64 ≤ (sizes q).sum := by
    clear h
    induction q with
    | nil => simp [sizes]
    | cons m q ih =>
      have hp := padded_pos m.length
      simp only [sizes, List.map_cons, List.sum_cons, List.length_cons] at ih ⊢
      omega
  have he := add_sum_le_advanceAll p.ptr.size R (sizes q)
  have ho := h.occupied
  have hb := h.bound
  unfold queueEnd at ho
  omega

theorem Holds.frames_succ (h : Holds p R q) : int32 (p.framesStored + 1) = p.framesStored + 1 := by
  have hf := h.frames_bound
  have hu := h.upper
  rw [h.frames]
  exact int32_of_range (by omega) (by omega)

theorem Holds.write_reject (h : Holds p R q) (data : Nat → UInt8) (length : UInt32)
    (hl : length.toNat < 2 ^ 29)
    (hr : ¬(advance p.ptr.size (queueEnd p.ptr.size R q) (padded length.toNat) : Int) +
      p.numberOfStoredBytes ≤ queueEnd p.ptr.size R q + p.ptr.size) :
    write p (some data) length = some (0, p) := by
  have hb := padded_bounds length.toNat
  have hd := decrement_int length hl
  rw [← h.hasRoom_iff (by omega)] at hr
  simp only [write, hd]
  rw [if_pos (Or.inr hr)]

theorem bytes_after_jump {B W d : Nat} {bytes : Int} (h0 : 0 ≤ bytes) (hb : bytes ≤ B)
    (hu : B ≤ 2 ^ 29) (hd : d < 2 ^ 30) :
    int32 (bytes + int32 ((d : Int) + ((B - W % B : Nat) : Int))) =
      bytes + ((W + (B - W % B) + d : Nat) : Int) - W := by
  generalize W % B = m
  have hi : int32 ((d : Int) + ((B - m : Nat) : Int)) = (d : Int) + ((B - m : Nat) : Int) :=
    int32_of_range (by omega) (by omega)
  rw [hi, int32_of_range (by omega) (by omega)]
  omega

theorem Holds.write_result (h : Holds p R q) (data : Nat → UInt8) (length : UInt32)
    (hl : 1 ≤ length.toNat) (hl' : length.toNat < 2 ^ 29)
    (hr : (advance p.ptr.size (queueEnd p.ptr.size R q) (padded length.toNat) : Int) +
      p.numberOfStoredBytes ≤ queueEnd p.ptr.size R q + p.ptr.size) :
    ∃ p', write p (some data) length = some ((length.toNat : Int), p') ∧
      p'.bufferSize = p.bufferSize ∧ p'.readIndex = p.readIndex ∧
      p'.writeIndex =
        (advance p.ptr.size (queueEnd p.ptr.size R q) (padded length.toNat) % p.ptr.size : Nat) ∧
      p'.framesStored = p.framesStored + 1 ∧
      p'.numberOfStoredBytes = p.numberOfStoredBytes +
        advance p.ptr.size (queueEnd p.ptr.size R q) (padded length.toNat) -
        queueEnd p.ptr.size R q ∧
      p'.ptr = Chunk.storeAll 0 p.ptr.size p.ptr (frameChunks p.ptr.size
        (queueEnd p.ptr.size R q) ((List.range length.toNat).map data)) := by
  obtain ⟨hb1, hb2, -⟩ := padded_bounds length.toNat
  have hd := decrement_int length hl'
  have hroom := (h.hasRoom_iff (by omega)).mpr hr
  have h0 : length ≠ 0 := by
    rintro rfl
    simp at hl
  simp only [write, hd]
  rw [if_neg (by simp [h0, hroom])]
  have hB := h.lower
  have hu := h.upper
  have hbd := h.bound
  have h0' := h.le_end.2
  have hm := Nat.mod_lt (queueEnd p.ptr.size R q) h.size_pos
  have hrun : int32 (p.bufferSize - p.writeIndex) =
      ((p.ptr.size - queueEnd p.ptr.size R q % p.ptr.size : Nat) : Int) := by
    rw [h.bufferSize, h.writeIndex, int32_of_range (by omega) (by omega)]
    omega
  have hlen : int32 (length.toNat : Int) = length.toNat := int32_natCast (by omega)
  rw [hrun, hlen, h.frames_succ]
  have hplace := place_mod p.ptr.size (queueEnd p.ptr.size R q) (padded length.toNat) (by omega)
  by_cases hj : queueEnd p.ptr.size R q % p.ptr.size + padded length.toNat ≤ p.ptr.size
  · rw [if_neg (by omega)]
    rw [if_pos hj] at hplace
    have hadv := add_mod_fits p.ptr.size (queueEnd p.ptr.size R q) _ (by omega) hj
    simp only [Option.bind_eq_bind, Option.bind_some, h.writeIndex, h.bufferSize]
    rw [store_frame p.ptr rfl (by simp) hj hu, step_index_eq rfl h.aligned hu h.end_mod_dvd hj hl']
    have hend : advance p.ptr.size (queueEnd p.ptr.size R q) (padded length.toNat) =
        queueEnd p.ptr.size R q + padded length.toNat := by rw [advance, place, if_pos hj]
    rw [hend] at hr ⊢
    refine ⟨_, rfl, rfl, rfl, ?_, rfl, ?_, ?_⟩
    · rw [hadv]
    · change int32 (p.numberOfStoredBytes + (padded length.toNat : Int)) = _
      rw [int32_of_range (by omega) (by omega)]
      omega
    · simp [frameChunks, marker, Chunk.storeAll, hj, hplace]
  · rw [if_pos (by omega)]
    rw [if_neg hj] at hplace
    have hend : advance p.ptr.size (queueEnd p.ptr.size R q) (padded length.toNat) =
        queueEnd p.ptr.size R q + (p.ptr.size - queueEnd p.ptr.size R q % p.ptr.size) +
          padded length.toNat := by rw [advance, place, if_neg hj]
    rw [hend] at hr ⊢
    have hadv := skip_mod p.ptr.size (queueEnd p.ptr.size R q) (by omega)
    have hfit : 0 + padded length.toNat ≤ p.ptr.size := by omega
    have hstart : (queueEnd p.ptr.size R q + (p.ptr.size - queueEnd p.ptr.size R q % p.ptr.size)) %
        p.ptr.size + padded length.toNat ≤ p.ptr.size := by omega
    have hend' := add_mod_fits p.ptr.size _ (padded length.toNat) (by omega) hstart
    simp only [Option.bind_eq_bind, h.writeIndex, h.bufferSize]
    rw [Memory.storeAt_natCast _ _ _ (Nat.le_trans (by simp) h.end_room)]
    simp only [Option.bind_some]
    have hz : (0 : Int) = ((0 : Nat) : Int) := rfl
    rw [store_frame (p.ptr.store _ _) hz (by simp) hfit hu,
      step_index_eq hz h.aligned hu (Nat.dvd_zero 64) hfit hl']
    refine ⟨_, rfl, rfl, rfl, ?_, rfl, ?_, ?_⟩
    · rw [hend', hadv]
    · exact bytes_after_jump h0' hbd hu (by omega)
    · simp [frameChunks, marker, Chunk.storeAll, hj, hplace]

theorem frameChunks_ordered (B w : Nat) (m : List UInt8) (hw : advance B w (padded m.length) ≤ w + B)
    (h4 : w % B + 64 ≤ B) :
    (frameChunks B w m).Pairwise fun c d => c.stop ≤ d.start ∧ d.stop ≤ c.start + B := by
  have hp := padded_bounds m.length
  unfold frameChunks marker
  split_ifs with hf
  · simp
  · have hpl : place B w (padded m.length) = w + (B - w % B) := by rw [place, if_neg hf]
    rw [advance, hpl] at hw
    simp only [List.singleton_append, List.pairwise_cons, List.mem_singleton, forall_eq,
      List.not_mem_nil, false_imp_iff, implies_true, List.Pairwise.nil, and_true, Chunk.stop, frame,
      List.length_append, leBytes_length, List.length_cons, List.length_nil, hpl]
    omega

/-- An accepted write appends its message to the queue. -/
theorem Holds.write_accept (h : Holds p R q) (data : Nat → UInt8) (length : UInt32)
    (hl : 1 ≤ length.toNat) (hl' : length.toNat < 2 ^ 29)
    (hr : (advance p.ptr.size (queueEnd p.ptr.size R q) (padded length.toNat) : Int) +
      p.numberOfStoredBytes ≤ queueEnd p.ptr.size R q + p.ptr.size) :
    ∃ p', write p (some data) length = some ((length.toNat : Int), p') ∧ p'.ptr.size = p.ptr.size ∧
      p'.numberOfStoredBytes = p.numberOfStoredBytes +
        advance p.ptr.size (queueEnd p.ptr.size R q) (padded length.toNat) -
        queueEnd p.ptr.size R q ∧
      Holds p' R (q ++ [(List.range length.toNat).map data]) := by
  obtain ⟨p', hw, hbs, hri, hwi, hfr, hbytes, hptr⟩ := h.write_result data length hl hl' hr
  have hsize : p'.ptr.size = p.ptr.size := by rw [hptr, Chunk.storeAll_size]
  have hB := h.lower
  have hocc := h.occupied
  have hle := h.le_end
  have hadv := le_advance p.ptr.size (queueEnd p.ptr.size R q) (padded length.toNat)
  have hlen : ((List.range length.toNat).map data).length = length.toNat := by simp
  refine ⟨p', hw, hsize, hbytes, ?_⟩
  constructor
  · rw [hbs, hsize, h.bufferSize]
  · rw [hsize]; exact h.aligned
  · rw [hsize]; exact h.lower
  · rw [hsize]; exact h.upper
  · exact h.start
  · rw [hri, hsize, h.readIndex]
  · rw [hwi, hsize, queueEnd_append, hlen]
  · rw [hfr, h.frames]; simp
  · rw [hsize, queueEnd_append, hlen, hbytes]; omega
  · rw [hsize, hbytes]; omega
  · simp
  · intro m hm
    obtain hm | hm := List.mem_append.mp hm
    · exact h.lengths m hm
    · rw [List.mem_singleton.mp hm, hlen]
      exact ⟨hl, hl'⟩
  · rw [hsize, queueChunks_append, hptr]
    intro c hc
    obtain hc | hc := List.mem_append.mp hc
    · have hcb := queueChunks_bounds hc
      apply (h.stored c hc).storeAll (by omega)
      intro d hd
      have hdb := frameChunks_bounds hd
      rw [hlen] at hdb
      omega
    · refine Chunk.stored_storeAll (by omega) (frameChunks_ordered _ _ _ ?_ h.end_room) c hc
      rw [hlen]
      omega

end Holds
end UdpSm.RingFIFOBuffer
