import UdpSm.ParserGrammar

/-! When the retry loops of the parser end: what the blocks of a frame take of ring buffer 1. -/
namespace UdpSm.ParserImplementation
open Lib RingFIFOBuffer

/-- Bytes that blocks take from index `w` on, the tails they skip included. -/
def footprint (B w : Nat) (ds : List Nat) : Nat := advanceAll B w ds - w

theorem footprint_mod (B w : Nat) (ds : List Nat) : footprint B (w % B) ds = footprint B w ds := by
  have hshift := advanceAll_mul_add B (w / B) (w % B) ds
  rw [Nat.div_add_mod] at hshift
  have hw := Nat.div_add_mod w B
  unfold footprint
  omega

section Room
variable {x : Context} {R : Nat} {q : List (List UInt8)}

theorem room_iff (h : Holds x.ring1.ringbuf R q) :
    Room x (queueEnd x.ring1.ringbuf.ptr.size R q) ↔
      (footprint x.ring1.ringbuf.ptr.size x.ring1.ringbuf.writeIndex.toNat
        (sizesOf (frameWalk x)) : Int) ≤ (getCapacity x.ring1.ringbuf).1 := by
  have hle := le_advanceAll x.ring1.ringbuf.ptr.size (queueEnd x.ring1.ringbuf.ptr.size R q)
    (sizesOf (frameWalk x))
  rw [h.writeIndex, Int.toNat_natCast, footprint_mod, h.getCapacity_eq, Room, writeLimit, footprint]
  omega

theorem iterate_of_capacity (h : (getCapacity x.ring1.ringbuf).1 ≥ 16384) :
    iterate x = iterateInternal x := by
  have hring : (getCapacity x.ring1.ringbuf).2 = x.ring1.ringbuf := if_neg (Int.not_lt.mpr h)
  simp only [iterate, hring]
  rw [if_pos h]

/-- A good block has a header of at least 28 bytes, so padding it costs less than four times. -/
theorem GoodHeader.padded_le {f : Nat → UInt8} {n o : Nat} (h : GoodHeader f n o) (timing last : Bool) :
    padded (block timing f n last o).2 ≤ 4 * declared f o := by
  have h28 : 28 ≤ (headerLength f o).toNat := by
    cases h.2.2.1 with
    | inl h32 => rw [h32]; decide
    | inr h28 => rw [h28]; decide
  have hl := h.1
  have hsize : (block timing f n last o).2 ≤ declared f o + 8 := by
    unfold block
    simp only []
    split_ifs <;> omega
  have hpadded := (padded_bounds (block timing f n last o).2).2.1
  omega

theorem GoodBlocks.sizes_le {f : Nat → UInt8} {n count o : Nat} (h : GoodBlocks f n count o)
    (timing : Bool) : (sizesOf (walk timing f n count o)).sum + 4 * o ≤ 4 * n := by
  induction count generalizing o with
  | zero =>
    obtain rfl : o = n := h
    simp [walk, sizesOf]
  | succ count ih =>
    have hfirst := h.1.padded_le timing (count = 0)
    have hrest := ih h.2
    simp only [walk, if_pos h.1, sizesOf, List.map_cons, List.sum_cons] at hrest ⊢
    omega

/-- A forwarded frame takes at most eight times its length. -/
theorem Good.footprint_le (h : Good x) (B w : Nat) :
    advanceAll B w (sizesOf (frameWalk x)) ≤ w + 8 * x.parser.payloadBytesReceived.toNat := by
  have hle := advanceAll_le B w (sizesOf (frameWalk x))
  have hsum := h.sizes_le (x.common.flag flagGetTiming)
  unfold frameWalk at hle ⊢
  omega

/-- With the guard passed, the call returns exactly when what it walks fits the free bytes. -/
theorem iterate_returns_iff {F : List UInt8} {ring0 : Ringbuffer} (hrun : Running x)
    (hread : read x.ring0 = some ((F.length : Int), F, ring0)) (h1 : 1 ≤ F.length)
    (hn : F.length ≤ 9008) (h : Holds x.ring1.ringbuf R q)
    (hguard : (getCapacity x.ring1.ringbuf).1 ≥ 16384) :
    (∃ x', (iterate x).2 = .ok x') ↔ (Parsed (received x F ring0) →
      (footprint x.ring1.ringbuf.ptr.size x.ring1.ringbuf.writeIndex.toNat
        (sizesOf (frameWalk (received x F ring0))) : Int) ≤ (getCapacity x.ring1.ringbuf).1) := by
  rw [iterate_of_capacity hguard, iterateInternal_returns hrun hread h1 (by omega) h]
  exact imp_congr Iff.rfl (room_iff (x := received x F ring0) h)

end Room

/-! A message that declares 65535 bytes: a fresh ring takes it, one with 21632 free bytes does
not. -/

def oversizedFrame : List UInt8 :=
  [0, 18] ++ List.replicate 16 0 ++ [0, 1] ++ [255, 255] ++ List.replicate 14 0

section Oversized
variable {ring0 ring0' ring1 : Ringbuffer}

theorem oversized_walk :
    frameWalk (received (startup ring0 ring1) oversizedFrame ring0') = [(20, 65537)] := by
  rw [startup_walk (by decide)]
  decide +kernel

theorem oversized_parsed : Parsed (received (startup ring0 ring1) oversizedFrame ring0') :=
  (startup_parsed (by decide)).mpr (by decide +kernel)

end Oversized

theorem iterate_returns_oversized : ∃ x ring0 x',
    read x.ring0 = some ((oversizedFrame.length : Int), oversizedFrame, ring0) ∧
      (iterate x).2 = .ok x' := by
  obtain ⟨ring0, ring0', hread⟩ := exists_frame (F := oversizedFrame) (by decide) (by decide)
  obtain ⟨x', hok⟩ := (iterate_returns_iff (x := startup ring0 (ringInitialize ringBufferSize).2)
    ⟨rfl, rfl⟩ hread (by decide) (by decide) holds_initial
    (show (getCapacity (ringInitialize ringBufferSize).2).1 ≥ 16384 by decide +kernel)).mpr
    (by
      intro _
      rw [oversized_walk]
      exact (by decide +kernel : (footprint (ringInitialize ringBufferSize).2.ptr.size
        (ringInitialize ringBufferSize).2.writeIndex.toNat [65600] : Int) ≤
          (getCapacity (ringInitialize ringBufferSize).2).1))
  exact ⟨_, ring0', x', hread, hok⟩

def storedMessage : List UInt8 := List.replicate 8976 0

theorem storedMessage_length : storedMessage.length = 8976 := List.length_replicate

theorem queueEnd_replicate {B d : Nat} {m : List UInt8} (hd : padded m.length = d) (k : Nat)
    (hk : k * d ≤ B) : queueEnd B 0 (List.replicate k m) = k * d := by
  have hsum : (List.replicate k d).sum = k * d := by
    rw [List.sum_replicate_nat]
  rw [queueEnd, sizes, List.map_replicate, hd, advanceAll_of_fits]
  · rw [hsum, Nat.zero_add]
  · intro e he
    rw [List.eq_of_mem_replicate he, ← hd]
    exact Nat.lt_of_lt_of_le (by decide) (padded_pos m.length)
  · rwa [hsum, Nat.zero_add]

theorem queueEnd_stored (k : Nat) (hk : k * 9024 ≤ 2097152) :
    queueEnd 2097152 0 (List.replicate k storedMessage) = k * 9024 :=
  queueEnd_replicate (by rw [storedMessage_length, padded]) k hk

theorem oversized_spins : ∃ es x ring0, Run Step (ringInitialize ringBufferSize).2 es x.ring1.ringbuf ∧
    Running x ∧ read x.ring0 = some ((oversizedFrame.length : Int), oversizedFrame, ring0) ∧
    (getCapacity x.ring1.ringbuf).1 = 21632 ∧ (iterate x).2 = .error .spins := by
  obtain ⟨hlow, hhigh, hsize⟩ := initial_ring
  obtain ⟨es, p, hrun, hp, hpsize, hbytes⟩ := exists_filled hlow hhigh
    (List.replicate 230 storedMessage)
    (by intro m hm; rw [List.eq_of_mem_replicate hm, storedMessage_length]; decide)
    (by rw [hsize, queueEnd_stored 230 (by decide)]; decide)
  rw [hsize] at hpsize hbytes
  rw [queueEnd_stored 230 (by decide)] at hbytes
  obtain ⟨ring0, ring0', hread⟩ := exists_frame (F := oversizedFrame) (by decide) (by decide)
  have hcap : (getCapacity p).1 = 21632 := by rw [hp.getCapacity_eq, hpsize, hbytes]; rfl
  have hroom : ¬Room (received (startup ring0 p) oversizedFrame ring0')
      (queueEnd p.ptr.size 0 (List.replicate 230 storedMessage)) := by
    have hlimit : writeLimit p 2075520 = 2097152 := by
      rw [writeLimit, hpsize, hbytes]
      rfl
    rw [Room, oversized_walk, hpsize, queueEnd_stored 230 (by decide)]
    change ¬(advanceAll p.ptr.size 2075520 [65600] : Int) ≤ writeLimit p 2075520
    rw [hlimit, hpsize]
    decide
  refine ⟨es, startup ring0 p, ring0', hrun, ⟨rfl, rfl⟩, hread, hcap, ?_⟩
  rw [iterate_of_capacity (show (getCapacity p).1 ≥ 16384 by rw [hcap]; decide)]
  exact iterateInternal_spins ⟨rfl, rfl⟩ hread (by decide) (by decide) hp oversized_parsed hroom

end UdpSm.ParserImplementation
