import UdpSm.InserterTurn
import UdpSm.ParserSession
import UdpSm.ReceiverPackets

/-! A frame with a time stamp behind it, and the messages queued for it. -/
namespace UdpSm.ParserImplementation
open Lib RingFIFOBuffer

/-- A block as it is queued: alone or with a time stamp behind it. -/
def Stamped (m b : List UInt8) : Prop :=
  Block b ∧ (m = b ∨ ∃ stamp : List UInt8, stamp.length = 8 ∧ m = b ++ stamp)

theorem Block.length_le {b : List UInt8} (h : Block b) : 4 ≤ b.length :=
  (List.getElem?_eq_some_iff.mp h.headerVersion).1

theorem Stamped.payloadOf {m b : List UInt8} (h : Stamped m b) {timing : Bool}
    (hstamp : m.length = ofBe (m.take 2) + 10 → timing = true) :
    InserterImplementation.payloadOf timing m = b.drop 2 := by
  obtain ⟨hblock, rfl | ⟨stamp, hlength, rfl⟩⟩ := h
  · have hplain := hblock.length
    rw [InserterImplementation.payloadOf, if_neg fun hs => by omega]
  · have h4 := hblock.length_le
    have htake : (b ++ stamp).take 2 = b.take 2 := List.take_append_of_le_length (by omega)
    have hall : (b ++ stamp).length = ofBe ((b ++ stamp).take 2) + 10 := by
      have hplain := hblock.length
      rw [htake, List.length_append]
      omega
    have hback : (b ++ stamp).length - 8 = b.length := by
      rw [List.length_append]
      omega
    rw [InserterImplementation.payloadOf, if_pos ⟨hstamp hall, hall⟩, hback, List.take_left]

theorem payloads_stamped {ms bs : List (List UInt8)} (h : List.Forall₂ Stamped ms bs) {timing : Bool}
    (hstamp : ∀ m ∈ ms, m.length = ofBe (m.take 2) + 10 → timing = true) :
    ms.map (InserterImplementation.payloadOf timing) =
      bs.map (InserterImplementation.payloadOf false) := by
  induction h with
  | nil => rfl
  | @cons m b ms bs hfirst _ ih =>
    rw [List.map_cons, List.map_cons, hfirst.payloadOf (hstamp m (by simp)),
      ih fun n hn => hstamp n (List.mem_cons_of_mem m hn)]
    exact congrArg (· :: _) (if_neg fun hs => by simp at hs).symm

section Walk
variable {f : Nat → UInt8} {n o : Nat}

theorem slice_add (f : Nat → UInt8) (o k l : Nat) :
    slice f (o, k + l) = slice f (o, k) ++ slice f (o + k, l) := by
  simp only [slice, List.range_add, List.map_append, List.map_map]
  congr 1
  exact List.map_congr_left fun i _ => by simp [Nat.add_assoc]

theorem slice_stamped (timing last : Bool) (hblock : Block (slice f (o, declared f o))) :
    Stamped (slice f (block timing f n last o)) (slice f (o, declared f o)) := by
  refine ⟨hblock, ?_⟩
  unfold block
  split_ifs
  · exact .inr ⟨_, by simp [slice], slice_add f o (declared f o) 8⟩
  · exact .inl rfl

theorem walk_stamped (timing : Bool) {count : Nat} (h : GoodBlocks f n count o)
    (hblocks : ∀ b ∈ (walk false f n count o).map (slice f), Block b) :
    List.Forall₂ Stamped ((walk timing f n count o).map (slice f))
      ((walk false f n count o).map (slice f)) := by
  induction count generalizing o with
  | zero => exact .nil
  | succ count ih =>
    rw [walk_good h.1] at hblocks ⊢
    rw [walk, if_pos h.1, List.map_cons]
    exact .cons (slice_stamped timing _ (hblocks _ (by simp)))
      (ih h.2 fun b hb => hblocks b (List.mem_cons_of_mem _ hb))

end Walk

/-- The blocks queued for a frame are those of its payload, some with a stamp. -/
theorem Grammar.frameBlocks_stamped {x : Context} {F : List UInt8} {ring0 : Ringbuffer}
    {blocks : List (List UInt8)} (h : Grammar (payload (x.common.flag flagGetTiming) F) blocks)
    (hn : F.length < 2 ^ 29) : List.Forall₂ Stamped (frameBlocks (received x F ring0)) blocks := by
  obtain ⟨-, hgood, hwalk⟩ := h.good (overwrite F x.parser.parserReceivedDataPtr)
    (Nat.le_trans (by decide) h.length_le)
  rw [payload_length, payload, overwrite_take] at hgood hwalk
  have hblocks := h.blocks
  rw [← hwalk] at hblocks
  have hstamped := walk_stamped (x.common.flag flagGetTiming) hgood hblocks
  rw [hwalk] at hstamped
  rw [frameBlocks, frameWalk, received_length x ring0 hn]
  exact hstamped

/-- What the parser makes of a frame received under the same setting of the flag. -/
theorem data_payload (timing : Bool) {pkt : NetworkReceiverImplementationEFVI.Packet}
    (h : 18 ≤ pkt.payload.length) : payload timing (pkt.data timing) = pkt.payload := by
  cases timing with
  | false => exact payload_untimed pkt.payload
  | true =>
    have hlength : (pkt.data true).length = pkt.payload.length + 8 := by
      simp [NetworkReceiverImplementationEFVI.Packet.data]
    rw [payload, hlength, frameLength, if_pos ⟨rfl, by omega⟩, Nat.add_sub_cancel]
    exact List.take_left

end UdpSm.ParserImplementation
