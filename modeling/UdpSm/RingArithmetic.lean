import UdpSm.RingTransaction

/-! The capacity test of `write` beside the one over the integers, for every 32-bit length. -/
namespace UdpSm.RingFIFOBuffer
open Lib

def firstRun (p : Ringbuffer) : Int := p.bufferSize - p.writeIndex
def free (p : Ringbuffer) : Int := p.bufferSize - p.numberOfStoredBytes

/-- What a message takes over the integers: its frame, and the tail that a frame jumps over. -/
def needed (p : Ringbuffer) (length : UInt32) : Int :=
  if (padded length.toNat : Int) ≤ firstRun p then padded length.toNat
  else padded length.toNat + firstRun p

def FitsFree (p : Ringbuffer) (length : UInt32) : Prop := needed p length ≤ free p

/-- A message that does not fit is turned down, and the ring is as before. -/
def Guarded (p : Ringbuffer) (data : Nat → UInt8) (length : UInt32) : Prop :=
  FitsFree p length ∨ write p (some data) length = some (0, p)

/-- The size needed is an `int`; or the length is one of the last three, of which 64 bytes are asked
for, and there are none. -/
def Representable (p : Ringbuffer) (length : UInt32) : Prop :=
  length = 0 ∨ needed p length < 2 ^ 31 ∨ (2 ^ 32 - 4 < length.toNat ∧ free p < 64)

instance (p : Ringbuffer) (length : UInt32) : Decidable (Representable p length) :=
  inferInstanceAs (Decidable (_ ∨ _ ∨ _))

theorem int32_wrap {x : Int} (h1 : 2147483648 ≤ x) (h2 : x < 6442450944) :
    int32 x = x - 4294967296 := by
  have hrange : int32 (x - 4294967296) = x - 4294967296 := int32_of_range (by omega) (by omega)
  rw [← hrange]
  unfold int32
  rw [BitVec.toInt_ofInt, BitVec.toInt_ofInt]
  exact (Int.sub_bmod_right x (2 ^ 32)).symm

theorem decrement_int32 (length : UInt32) :
    int32 (next64aligned (length + 4).toUInt64).toNat = int32 (padded length.toNat : Nat) := by
  have hlength := length.toNat_lt
  have hsum : (length + 4).toUInt64.toNat = (length.toNat + 4) % 4294967296 := by
    rw [UInt32.toNat_toUInt64, UInt32.toNat_add]
    rfl
  rw [next64aligned_toNat _ (by omega), hsum, padded]
  by_cases hwrap : length.toNat + 4 < 4294967296
  · rw [Nat.mod_eq_of_lt hwrap]
  · rw [int32_wrap (x := ((length.toNat + 67) / 64 * 64 : Nat)) (by omega) (by omega),
      int32_natCast (by omega)]
    omega

section Test
variable {p p' : Ringbuffer} {R : Nat} {q : List (List UInt8)}

theorem Holds.runs (h : Holds p R q) : 64 ≤ firstRun p ∧ firstRun p ≤ 2 ^ 29 ∧ 0 ≤ free p ∧
    free p ≤ 2 ^ 29 := by
  have hm := h.end_room
  have h0 := h.le_end.2
  have hb := h.bound
  have hu := h.upper
  have hsize := h.bufferSize
  have hwrite := h.writeIndex
  unfold firstRun free
  omega

theorem Holds.int32_runs (h : Holds p R q) : int32 (p.bufferSize - p.writeIndex) = firstRun p ∧
    int32 (p.bufferSize - p.numberOfStoredBytes) = free p := by
  obtain ⟨hrun, hrun', hfree, hfree'⟩ := h.runs
  unfold firstRun free at *
  exact ⟨int32_of_range (by omega) (by omega), int32_of_range (by omega) (by omega)⟩

/-- The test as the machine makes it: right up to 2^31, and passed beyond, except for the last three
lengths in a ring without 64 free bytes. -/
theorem Holds.test_iff (h : Holds p R q) (length : UInt32) :
    hasRoom p (int32 (next64aligned (length + 4).toUInt64).toNat) ↔
      if needed p length < 2 ^ 31 then FitsFree p length
      else ¬(2 ^ 32 - 4 < length.toNat ∧ free p < 64) := by
  obtain ⟨hrun, hrun', hfree, hfree'⟩ := h.runs
  have hlength := length.toNat_lt
  have hpad : padded length.toNat = (length.toNat + 67) / 64 * 64 := rfl
  obtain ⟨hfirst, hcapacity⟩ := h.int32_runs
  rw [decrement_int32, hasRoom]
  simp only [hfirst, hcapacity]
  unfold FitsFree needed
  by_cases hsmall : padded length.toNat < 2147483648
  · rw [int32_natCast hsmall]
    by_cases hjump : (padded length.toNat : Int) ≤ firstRun p
    · simp only [if_pos hjump]
      rw [if_pos (by omega)]
      omega
    · simp only [if_neg hjump]
      by_cases hsum : (padded length.toNat : Int) + firstRun p < 2 ^ 31
      · rw [if_pos hsum, int32_of_range (by omega) (by omega)]
        omega
      · rw [if_neg hsum, int32_wrap (by omega) (by omega)]
        omega
  · rw [int32_wrap (x := (padded length.toNat : Nat)) (by omega) (by omega)]
    have hjump : ¬(padded length.toNat : Int) ≤ firstRun p := by omega
    simp only [if_neg hjump]
    rw [if_neg (by omega)]
    have hlast : (padded length.toNat : Int) - 4294967296 ≤ 64 := by omega
    have hthree : (padded length.toNat : Int) - 4294967296 = 64 ↔ 2 ^ 32 - 4 < length.toNat := by omega
    have hsum : int32 ((padded length.toNat : Int) - 4294967296 + firstRun p) =
        (padded length.toNat : Int) - 4294967296 + firstRun p := int32_of_range (by omega) (by omega)
    rw [hsum]
    omega

theorem Holds.write_long (h : Holds p R q) {data : Nat → UInt8} {length : UInt32} {rv : Int}
    (hlength : 2 ^ 29 ≤ length.toNat) (hw : write p (some data) length = some (rv, p')) :
    rv = 0 ∧ p' = p := by
  have hu := h.upper
  have hm := h.end_room
  have hwrite := h.writeIndex
  by_cases hno : length = 0 ∨ ¬hasRoom p (int32 (next64aligned (length + 4).toUInt64).toNat)
  · simp only [write, if_pos hno] at hw
    obtain ⟨hrv, hp⟩ := Prod.mk.inj (Option.some.inj hw)
    exact ⟨hrv.symm, hp.symm⟩
  · simp only [write, if_neg hno] at hw
    by_cases hj : int32 (p.bufferSize - p.writeIndex) <
        int32 (next64aligned (length + 4).toUInt64).toNat
    · simp only [if_pos hj, Option.bind_eq_bind, Option.bind_some, Option.bind_eq_some_iff] at hw
      obtain ⟨ptr₀, hmark, ptr, hword, ptr', hbody, -⟩ := hw
      obtain ⟨-, -, rfl⟩ := Memory.storeAt_some hmark
      obtain ⟨-, -, rfl⟩ := Memory.storeAt_some hword
      obtain ⟨-, hle, -⟩ := Memory.storeAt_some hbody
      have hstart : int32 (0 + 4) = 4 := int32_of_range (by decide) (by decide)
      rw [hstart, List.length_map, List.length_range, Memory.store_size, Memory.store_size] at hle
      omega
    · simp only [if_neg hj, Option.bind_eq_bind, Option.bind_some, Option.bind_eq_some_iff] at hw
      obtain ⟨ptr, hword, ptr', hbody, -⟩ := hw
      obtain ⟨-, -, rfl⟩ := Memory.storeAt_some hword
      obtain ⟨-, hle, -⟩ := Memory.storeAt_some hbody
      have hstart : int32 (p.writeIndex + 4) = p.writeIndex + 4 :=
        int32_of_range (by omega) (by omega)
      rw [hstart, List.length_map, List.length_range, Memory.store_size] at hle
      omega

theorem Holds.write_any (h : Holds p R q) {data : Nat → UInt8} {length : UInt32} {rv : Int}
    (hw : write p (some data) length = some (rv, p')) :
    p'.ptr.size = p.ptr.size ∧ ∃ new, Holds p' R (q ++ new) := by
  by_cases hlength : length.toNat < 2 ^ 29
  · obtain ⟨rv', u, new, hu, hsize, hholds, -⟩ := h.write_short data hlength
    rw [hw] at hu
    obtain ⟨-, rfl⟩ := Prod.mk.inj (Option.some.inj hu)
    exact ⟨hsize, new, hholds⟩
  · obtain ⟨-, rfl⟩ := h.write_long (by omega) hw
    exact ⟨rfl, [], by rwa [List.append_nil]⟩

theorem Holds.guarded_iff (h : Holds p R q) (data : Nat → UInt8) (length : UInt32) :
    Guarded p data length ↔ Representable p length := by
  obtain ⟨-, -, -, hfree⟩ := h.runs
  have htest := h.test_iff length
  have hrejected : write p (some data) length = some (0, p) ↔ length = 0 ∨
      ¬hasRoom p (int32 (next64aligned (length + 4).toUInt64).toNat) := by
    constructor
    · intro hw
      by_contra hok
      exact write_ne_zero hok hw
    · intro hno
      simp only [write, if_pos hno]
  rw [Guarded, Representable, hrejected, htest]
  by_cases hsmall : needed p length < 2 ^ 31
  · rw [if_pos hsmall]
    exact iff_of_true (or_iff_not_imp_left.mpr .inr) (.inr (.inl hsmall))
  · have hno : ¬FitsFree p length := by
      unfold FitsFree
      omega
    rw [if_neg hsmall, not_not]
    simp only [hno, hsmall, false_or]

end Test

section Run
variable {p : Ringbuffer}

def AnyStep (p : Ringbuffer) (e : Event) (p' : Ringbuffer) : Prop := perform p e.op = some (e, p')

theorem Holds.anyStep {p' : Ringbuffer} {R : Nat} {q : List (List UInt8)} {e : Event}
    (h : Holds p R q) (hstep : AnyStep p e p') :
    p'.ptr.size = p.ptr.size ∧ ∃ R' q', Holds p' R' q' := by
  obtain ⟨op, rv, data⟩ := e
  cases op with
  | write data length =>
    obtain ⟨⟨rv', u⟩, hw, hu⟩ := Option.map_eq_some_iff.mp hstep
    obtain ⟨-, rfl⟩ := Prod.mk.inj hu
    obtain ⟨hsize, new, hq⟩ := h.write_any hw
    exact ⟨hsize, R, q ++ new, hq⟩
  | read =>
    obtain ⟨e, u, R', q', hperform, -, hsize, -, hu⟩ := h.perform (show Op.InRange .read from trivial)
    obtain ⟨-, rfl⟩ := Prod.mk.inj (Option.some.inj (hperform.symm.trans hstep))
    exact ⟨hsize, R', q', hu⟩

theorem holds_of_run {size : UInt64} {es : List Event}
    (h1 : 64 ≤ (ringInitialize size).2.bufferSize)
    (h2 : (ringInitialize size).2.bufferSize ≤ 2 ^ 29)
    (h : Run AnyStep (ringInitialize size).2 es p) :
    p.bufferSize = (ringInitialize size).2.bufferSize ∧ ∃ R q, Holds p R q := by
  have hinit := holds_ringInitialize h1 h2
  obtain ⟨hsize, R, q, hp⟩ := Run.invariant
    (fun _ p => p.ptr.size = (ringInitialize size).2.ptr.size ∧ ∃ R q, Holds p R q)
    ⟨rfl, 0, [], hinit⟩
    (by
      rintro es t e u ⟨hsize, R, q, ht⟩ hstep
      obtain ⟨hsize', hu⟩ := ht.anyStep hstep
      exact ⟨hsize'.trans hsize, hu⟩) h
  exact ⟨by rw [hp.bufferSize, hsize, hinit.bufferSize], R, q, hp⟩

/-- In every reachable ring, a message of any length fits or is turned down exactly if the size
needed for it is representable. -/
theorem capacity_test {size : UInt64} {es : List Event}
    (h1 : 64 ≤ (ringInitialize size).2.bufferSize)
    (h2 : (ringInitialize size).2.bufferSize ≤ 2 ^ 29)
    (h : Run AnyStep (ringInitialize size).2 es p) (data : Nat → UInt8) (length : UInt32) :
    FitsFree p length ∨ write p (some data) length = some (0, p) ↔ Representable p length := by
  obtain ⟨-, R, q, hp⟩ := holds_of_run h1 h2 h
  exact hp.guarded_iff data length

theorem capacity_test_fresh :
    FitsFree (ringInitialize 256).2 300 ∨
      write (ringInitialize 256).2 (some fun _ => 7) 300 = some (0, (ringInitialize 256).2) :=
  (capacity_test (by decide +kernel) (by decide +kernel) .nil (fun _ => 7) 300).mpr
    (by decide +kernel)

/-- 2^32 - 4 bytes, and the four of the length word, come to no bytes at all. -/
theorem wrapped_length_accepted :
    ¬(FitsFree (ringInitialize 256).2 4294967292 ∨
      write (ringInitialize 256).2 (some fun _ => 7) 4294967292 = some (0, (ringInitialize 256).2)) := by
  have hholds : Holds (ringInitialize 256).2 0 [] :=
    holds_ringInitialize (by decide +kernel) (by decide +kernel)
  have hwrapped : ¬Representable (ringInitialize 256).2 4294967292 := by decide +kernel
  exact fun hguarded => hwrapped ((hholds.guarded_iff _ _).mp hguarded)

end Run

end UdpSm.RingFIFOBuffer
