import UdpSm.PipelineTiming

/-! What the two reads of the pipeline copy, and the size that the inserter takes from it. -/
namespace UdpSm.RingFIFOBuffer
open Lib

theorem Holds.read_length {p p' : Ringbuffer} {R n : Nat} {q : List (List UInt8)} {rv : Int}
    {data : List UInt8} (h : Holds p R q) (hq : ∀ m ∈ q, m.length ≤ n)
    (hread : read p = some (rv, data, p')) : data.length ≤ n := by
  cases q with
  | nil =>
    rw [h.read_empty] at hread
    simp only [Option.some.injEq, Prod.mk.injEq] at hread
    rw [← hread.2.1]
    exact Nat.zero_le n
  | cons m q =>
    obtain ⟨p₁, hcons, -, -⟩ := h.read_cons
    rw [hcons] at hread
    simp only [Option.some.injEq, Prod.mk.injEq] at hread
    rw [← hread.2.1]
    exact hq m (by simp)

end UdpSm.RingFIFOBuffer

namespace UdpSm.ParserImplementation
open Lib

/-- The length field of a queued block counts neither itself nor a stamp. -/
theorem Stamped.length_field {m b : List UInt8} (h : Stamped m b) :
    m.length = ofBe (m.take 2) + 2 ∨ m.length = ofBe (m.take 2) + 10 := by
  obtain ⟨hblock, rfl | ⟨stamp, hlength, rfl⟩⟩ := h
  · exact .inl (by rw [Nat.add_comm]; exact hblock.length)
  · have h4 := hblock.length_le
    have hplain := hblock.length
    have htake : (b ++ stamp).take 2 = b.take 2 := List.take_append_of_le_length (by omega)
    rw [htake, List.length_append]
    omega

theorem exists_stamped {ms bs : List (List UInt8)} (h : List.Forall₂ Stamped ms bs) :
    ∀ m ∈ ms, ∃ b, Stamped m b := by
  induction h with
  | nil => simp
  | @cons m b ms bs hfirst _ ih =>
    intro n hn
    obtain rfl | hn := List.mem_cons.mp hn
    · exact ⟨b, hfirst⟩
    · exact ih n hn

end UdpSm.ParserImplementation

namespace UdpSm.InserterImplementation

theorem handleSharedMemoryFrames_bytes (c : CommonData) (s : Inserter) :
    (handleSharedMemoryFrames c s).1.framingMetaDataTotalNumberOfMessageBytes =
      s.framingMetaDataTotalNumberOfMessageBytes :=
  handleSharedMemoryFrames_kept c Inserter.framingMetaDataTotalNumberOfMessageBytes (fun _ => rfl)
    (fun _ => rfl) (fun _ _ => rfl) s

theorem timed_bytes (c : CommonData) (now : UInt64) (m : List UInt8) (s : Inserter) :
    (timed c now m s).1.framingMetaDataTotalNumberOfMessageBytes =
      (taken c m s).framingMetaDataTotalNumberOfMessageBytes := by
  have hframed : (framed c m s).1.framingMetaDataTotalNumberOfMessageBytes =
      (taken c m s).framingMetaDataTotalNumberOfMessageBytes := by
    rw [framed, handleSharedMemoryFrames_bytes, flagged_eq]
  rw [timed, writeTimestamp_kept Inserter.framingMetaDataTotalNumberOfMessageBytes fun _ _ _ => rfl]
  exact hframed

end UdpSm.InserterImplementation

namespace UdpSm.Pipeline
open Lib RingFIFOBuffer InserterImplementation
open ParserImplementation hiding iterate Context constructed
open NetworkReceiverImplementationEFVI (jumboSize packetEvent)

section Run
variable {u : Unset} {cs : List Call} {s : System} {c : Call}

theorem queued_stamped (hwell : Well c.before) : ∀ m ∈ c.queued, ∃ b, Stamped m b := by
  intro m hm
  rw [Call.queued] at hm
  obtain ⟨F, hF, hm⟩ := List.mem_flatMap.mp hm
  have hn : F.length < 2 ^ 29 := Nat.lt_of_le_of_lt (takenFrame_length hwell F hF) (by decide)
  rw [blocksFor] at hm
  split_ifs at hm with haccepted
  · obtain ⟨⟨blocks, hblocks⟩, -⟩ := (accepted_iff _ _ hn).mp haccepted
    exact exists_stamped (hblocks.frameBlocks_stamped hn) m hm
  · cases hm

theorem messages_stamped (h : Run Step (initial u) cs s) : ∀ m ∈ s.messages, ∃ b, Stamped m b := by
  intro m hm
  have hqueued : m ∈ queued cs := by
    rw [← (run_queues h).2]
    exact List.mem_append_right _ hm
  obtain ⟨c, hc, hm⟩ := List.mem_flatMap.mp hqueued
  exact queued_stamped (run_calls h c hc).1 m hm

theorem Well.reads (hwell : Well s) :
    (∀ rv data ring, read s.context.ring0 = some (rv, data, ring) → data.length ≤ dataBufferSize) ∧
    ∀ rv data ring, read s.context.ring1.ringbuf = some (rv, data, ring) →
      data.length ≤ dataBufferSize := by
  obtain ⟨R0, h0⟩ := hwell.ring0
  obtain ⟨R1, h1⟩ := hwell.ring1
  have hsize : jumboSize + 8 ≤ dataBufferSize := by decide
  constructor
  · intro rv data ring hread
    have hlength := h0.read_length hwell.frames hread
    omega
  · intro rv data ring hread
    have hlength := h1.read_length (fun m hm => (hwell.messages m hm).2) hread
    omega

theorem insert_bytes {now : UInt64} {s' : System} (h : Next s (.insert now) s') :
    s'.inserter.framingMetaDataTotalNumberOfMessageBytes =
      (InserterImplementation.taken s.common s.next s.inserter).framingMetaDataTotalNumberOfMessageBytes := by
  cases h with
  | idle now hnone =>
    have hnext : s.next = [] := by rw [System.next, hnone]; rfl
    rw [hnext]
    exact timed_bytes s.common now [] s.inserter
  | insert now m ring hm =>
    have hnext : s.next = m := by rw [System.next, hm]; rfl
    rw [hnext]
    exact timed_bytes s.common now m s.inserter

theorem payloadOf_field {timing : Bool} {m b : List UInt8} (h : Stamped m b) :
    (payloadOf timing m).length = ofBe (m.take 2) ↔
      (m.length = ofBe (m.take 2) + 10 → timing = true) := by
  have hfield := h.length_field
  unfold payloadOf
  by_cases hstamp : m.length = ofBe (m.take 2) + 10
  · cases timing with
    | false =>
      rw [if_neg fun hs => Bool.noConfusion hs.1, List.length_drop]
      constructor
      · intro hlength
        omega
      · intro hset
        exact Bool.noConfusion (hset hstamp)
    | true =>
      rw [if_pos ⟨rfl, hstamp⟩, List.length_drop, List.length_take]
      exact iff_of_true (by omega) fun _ => rfl
  · rw [if_neg fun hs => hstamp hs.2, List.length_drop]
    exact iff_of_true (by omega) fun hlength => (hstamp hlength).elim

/-- Both reads fit their buffers, and the 16-bit count loses nothing of what the inserter takes; it
is the size of the message exactly if no stamp is left on it. -/
theorem buffers_suffice (h : Run Step (initial u) cs s) :
    (∀ rv data ring, read s.context.ring0 = some (rv, data, ring) → data.length ≤ dataBufferSize) ∧
    (∀ rv data ring, read s.context.ring1.ringbuf = some (rv, data, ring) →
      data.length ≤ dataBufferSize) ∧
    ∀ now s', perform s (.insert now) = .ok s' →
      s'.inserter.framingMetaDataTotalNumberOfMessageBytes.toNat =
        (payloadOf (s.common.flag flagGetTiming) s.next).length ∧
      (s'.inserter.framingMetaDataTotalNumberOfMessageBytes.toNat = ofBe (s.next.take 2) ↔
        Call.Strips ⟨s, .insert now⟩) := by
  have hwell := well_of_run h
  refine ⟨hwell.reads.1, hwell.reads.2, ?_⟩
  intro now s' hok
  rw [insert_bytes (hwell.next hok).2]
  have hnext : s.next = s.messages.head?.getD [] := rfl
  have hconsumed : Call.consumed ⟨s, .insert now⟩ = s.messages.head?.toList := rfl
  have htiming : Call.timing ⟨s, .insert now⟩ = s.common.flag flagGetTiming := rfl
  rw [hnext, Call.Strips, hconsumed, htiming]
  cases hq : s.messages with
  | nil =>
    have hempty : (payloadOf (s.common.flag flagGetTiming) []).length = 0 := by
      unfold payloadOf
      split_ifs <;> rfl
    exact ⟨hempty.symm, iff_of_true rfl (by simp)⟩
  | cons m q =>
    have hm : m ∈ s.messages := by rw [hq]; simp
    have hlength := hwell.messages m hm
    obtain ⟨b, hstamped⟩ := messages_stamped h m hm
    have hbytes := (taken_bytes s.common s.inserter (m := m) (by omega) (Nat.le_trans hlength.2 (by decide))).2
    simp only [List.head?_cons, Option.getD_some, Option.toList_some, List.mem_singleton, forall_eq]
    rw [hbytes]
    exact ⟨rfl, payloadOf_field hstamped⟩

theorem buffers_suffice_stamped : ∃ cs s s', Run Step (initial blank) cs s ∧
    perform s (.insert 0) = .ok s' ∧ s.next.length = 38 ∧ ofBe (s.next.take 2) = 28 ∧
    (∀ rv data ring, read s.context.ring1.ringbuf = some (rv, data, ring) →
      data.length ≤ dataBufferSize) ∧
    s'.inserter.framingMetaDataTotalNumberOfMessageBytes.toNat = ofBe (s.next.take 2) := by
  obtain ⟨cs, s, s', hrun, hok, hlook⟩ := exists_perform (s := initial blank)
    [.readKeyboardInput (some 'T'), .receive [packetEvent oneMessageFrame], .parse] (.insert 0)
    (fun s _ => (s.next.length, ofBe (s.next.take 2), decide (Call.Strips ⟨s, .insert 0⟩)))
    (v := (38, 28, true)) (by decide +kernel)
  simp only [Prod.mk.injEq, decide_eq_true_eq] at hlook
  obtain ⟨hlength, hfield, hstrips⟩ := hlook
  obtain ⟨-, hread, hbytes⟩ := buffers_suffice hrun
  exact ⟨cs, s, s', hrun, hok, hlength, hfield, hread, (hbytes 0 s' hok).2.mpr hstrips⟩

/-- The flag is cleared while the message waits: its stamp is counted with it. -/
theorem cleared_stamp_counted : ∃ cs s s', Run Step (initial blank) cs s ∧
    perform s (.insert 0) = .ok s' ∧ s.next.take 30 = emptyBlock ∧ ofBe (s.next.take 2) = 28 ∧
    s'.inserter.framingMetaDataTotalNumberOfMessageBytes.toNat = 36 := by
  obtain ⟨cs, s, s', hrun, hok, hlook⟩ := exists_perform (s := initial blank)
    [.readKeyboardInput (some 'T'), .receive [packetEvent oneMessageFrame], .parse,
      .readKeyboardInput (some 'T')] (.insert 0)
    (fun s s' => (s.next.take 30, ofBe (s.next.take 2),
      s'.inserter.framingMetaDataTotalNumberOfMessageBytes.toNat))
    (v := (emptyBlock, 28, 36)) (by decide +kernel)
  simp only [Prod.mk.injEq] at hlook
  exact ⟨cs, s, s', hrun, hok, hlook⟩

end Run

end UdpSm.Pipeline
