import UdpSm.PipelineConservation
import UdpSm.PipelineSequence
import Mathlib.Algebra.BigOperators.Group.List.Basic

/-! The counters that the program shows: what each of them counts, and how they balance. -/
namespace UdpSm.RingFIFOBuffer
open Lib

section Processed
variable {p p' : Ringbuffer} {data : Nat → UInt8} {length : UInt32} {rv : Int} {bytes : List UInt8}

theorem write_processed (h : write p (some data) length = some (rv, p')) (hrv : rv ≠ 0) :
    p'.numberOfProcessedFrames = p.numberOfProcessedFrames + 1 := by
  simp only [write] at h
  by_cases hrefused : length = 0 ∨
      ¬hasRoom p (int32 (next64aligned (length + 4).toUInt64).toNat)
  · rw [if_pos hrefused] at h
    obtain ⟨rfl, -⟩ := Prod.mk.inj (Option.some.inj h)
    exact absurd rfl hrv
  · rw [if_neg hrefused] at h
    by_cases hjump : int32 (p.bufferSize - p.writeIndex) <
        int32 (next64aligned (length + 4).toUInt64).toNat
    · simp only [if_pos hjump, Option.bind_eq_bind, Option.bind_eq_some_iff] at h
      obtain ⟨_, -, _, -, _, -, _, -, hp⟩ := h
      obtain ⟨-, rfl⟩ := Prod.mk.inj (Option.some.inj hp)
      rfl
    · simp only [if_neg hjump, Option.bind_eq_bind, Option.bind_eq_some_iff] at h
      obtain ⟨_, -, _, -, _, -, hp⟩ := h
      obtain ⟨-, rfl⟩ := Prod.mk.inj (Option.some.inj hp)
      rfl

theorem writeUntilAccepted_processed (h : writeUntilAccepted p data length = .ok p') :
    p'.numberOfProcessedFrames = p.numberOfProcessedFrames + 1 := by
  rw [writeUntilAccepted] at h
  cases hw : write p (some data) length with
  | none => simp [hw] at h
  | some r =>
    obtain ⟨rv, u⟩ := r
    simp only [hw] at h
    split_ifs at h with hrv
    obtain rfl := Except.ok.inj h
    exact write_processed hw hrv

theorem read_processed (h : read p = some (rv, bytes, p')) :
    p'.numberOfProcessedFrames = p.numberOfProcessedFrames := by
  unfold read at h
  split_ifs at h
  · obtain ⟨-, -, rfl⟩ : _ ∧ _ ∧ p = p' := by simpa using h
    rfl
  · cases hheader : readHeader p with
    | none => simp [hheader] at h
    | some header =>
      simp only [hheader] at h
      cases hdata : p.ptr.loadAt (int32 (header.2.1 + 4)) header.1.toNat with
      | none => simp [hdata] at h
      | some data =>
        simp only [hdata, Option.some.injEq, Prod.mk.injEq] at h
        obtain ⟨-, -, rfl⟩ := h
        rfl

end Processed

end UdpSm.RingFIFOBuffer

namespace UdpSm.NetworkReceiverImplementationEFVI
open Lib RingFIFOBuffer

section Batch
variable {x x' : Context} {es : List EfEvent} {rv : Int}

theorem handleEvents_counted (hr : Sized x.receiver.jumbo) (hok : handleEvents x es = .ok (rv, x')) :
    x'.common.totalNumberOfReceivedMessages = x.common.totalNumberOfReceivedMessages +
      UInt64.ofNat (packets (x.common.flag flagGetTiming) x.receiver es).length ∧
    x'.ring0.numberOfProcessedFrames = x.ring0.numberOfProcessedFrames +
      UInt64.ofNat (packets (x.common.flag flagGetTiming) x.receiver es).length := by
  induction es generalizing x with
  | nil =>
    obtain ⟨-, rfl⟩ := Prod.mk.inj (Except.ok.inj hok)
    simp [packets]
  | cons e es ih =>
    have hfirst := handleEvent_handled hr e
    simp only [handleEvents, packets] at hok ⊢
    generalize outcome (x.common.flag flagGetTiming) x.receiver e = o at hfirst ⊢
    generalize handleEvent x e = result at hfirst hok
    cases hfirst with
    | halted => cases hok
    | refused =>
      obtain ⟨-, rfl⟩ := Prod.mk.inj (Except.ok.inj hok)
      simp
    | kept j hj => exact ih (x := { x with receiver.jumbo := j }) hj hok
    | completed j pkt hj hlength =>
      cases hw : writeMessage x.ring0 (pkt.data (x.common.flag flagGetTiming)) with
      | error h =>
        rw [hw] at hok
        cases hok
      | ok ring0 =>
        rw [hw] at hok
        obtain ⟨htotal, hring⟩ := ih (x := delivered x j ring0) hj hok
        have hfirst : ring0.numberOfProcessedFrames =
            x.ring0.numberOfProcessedFrames + UInt64.ofNat 1 := writeUntilAccepted_processed hw
        rw [htotal, hring, List.length_cons, UInt64.ofNat_add, UInt64.add_comm (UInt64.ofNat _),
          ← UInt64.add_assoc, ← UInt64.add_assoc, ← hfirst]
        exact ⟨rfl, rfl⟩

theorem iterate_counted (hr : Sized x.receiver.jumbo) (hok : iterate x es = .ok x') :
    x'.common.totalNumberOfReceivedMessages =
      x.common.totalNumberOfReceivedMessages + UInt64.ofNat (polled x es).length ∧
    x'.ring0.numberOfProcessedFrames =
      x.ring0.numberOfProcessedFrames + UInt64.ofNat (polled x es).length := by
  by_cases hinit : x.receiver.initialized = true
  · by_cases hcapacity : (getCapacity x.ring0).1 ≥ 16384
    · rw [iterate_of_capacity hinit hcapacity] at hok
      rw [polled, if_pos ⟨hinit, hcapacity⟩]
      cases hevents : handleEvents x es with
      | error e => simp [hevents, Except.map] at hok
      | ok r =>
        have hcounted := handleEvents_counted hr hevents
        rw [hevents] at hok
        obtain rfl := Except.ok.inj hok
        unfold finishEvents
        split_ifs
        · exact hcounted
        · exact hcounted
    · simp only [iterate] at hok
      rw [if_pos hinit, if_neg hcapacity] at hok
      obtain rfl := Except.ok.inj hok
      rw [polled, if_neg fun hc => hcapacity hc.2]
      have hkept := congrArg Snap.numberOfProcessedFrames (getCapacity_kept x.ring0).1
      exact ⟨(UInt64.add_zero _).symm, hkept.trans (UInt64.add_zero _).symm⟩
  · simp only [iterate] at hok
    rw [if_neg hinit] at hok
    obtain rfl := Except.ok.inj hok
    rw [polled, if_neg fun hc => hinit hc.1]
    exact ⟨(UInt64.add_zero _).symm, (UInt64.add_zero _).symm⟩

end Batch

end UdpSm.NetworkReceiverImplementationEFVI

namespace UdpSm.ParserImplementation
open Lib RingFIFOBuffer

/-- The frames that count as parsed; the others count as rejected messages. -/
def CountsAsParsed (timing : Bool) (F : List UInt8) : Prop :=
  36 ≤ (payload timing F).length ∨ (payload timing F).length = 18

instance (timing : Bool) (F : List UInt8) : Decidable (CountsAsParsed timing F) :=
  inferInstanceAs (Decidable (_ ∨ _))

theorem countsAsParsed_iff (timing : Bool) (F : List UInt8) : CountsAsParsed timing F ↔
    36 ≤ frameLength timing F.length ∨ frameLength timing F.length = 18 := by
  rw [← payload_length]
  rfl

section Loop
variable {c : CommonData} {f : Nat → UInt8} {n received : UInt64} {messageCounter : UInt16}
variable {s s' : LoopState}

theorem messageStep_processed {last : Bool}
    (hok : (messageStep c f n received messageCounter last s).2 = .ok s') :
    s'.ringbuf.numberOfProcessedFrames = s.ringbuf.numberOfProcessedFrames + 1 := by
  simp only [messageStep] at hok
  cases hw : writeUntilAccepted s.ringbuf (fun i => f (s.messageHeader + i))
      (handedLength c f (checkMessage f n s.messageHeader s.discardFrame) last s.messageHeader) with
  | error e => simp [hw] at hok
  | ok ring =>
    have hring := writeUntilAccepted_processed hw
    simp only [hw] at hok
    cases last with
    | true =>
      obtain rfl := Except.ok.inj hok
      exact hring
    | false =>
      obtain rfl := Except.ok.inj hok
      exact hring

theorem messageLoop_processed {count : Nat} (hd : s'.discardFrame = 0)
    (hok : (messageLoop c f n received messageCounter count s).2 = .ok s') :
    s'.ringbuf.numberOfProcessedFrames =
      s.ringbuf.numberOfProcessedFrames + UInt64.ofNat count := by
  induction count generalizing s with
  | zero =>
    obtain rfl := Except.ok.inj hok
    simp
  | succ count ih =>
    by_cases hs : s.discardFrame = 0
    · cases hstep : (messageStep c f n received messageCounter (count = 0) s).2 with
      | error e =>
        rw [messageLoop_refused hs hstep] at hok
        cases hok
      | ok t =>
        rw [messageLoop_pass hs hstep] at hok
        rw [ih hok, messageStep_processed hstep, UInt64.ofNat_add, UInt64.add_comm (UInt64.ofNat _),
          UInt64.add_assoc]
        rfl
    · rw [messageLoop_stop hs] at hok
      obtain rfl := Except.ok.inj hok
      exact absurd hd hs

end Loop

section Call
variable {x x' : Context} {R R0 : Nat} {q q0 : List (List UInt8)}

def tally (x : Context) : UInt64 × UInt64 × UInt64 :=
  (x.common.totalNumberOfParsedFrames, x.common.totalNumberOfRejectedMessages,
    x.ring1.ringbuf.numberOfProcessedFrames)

theorem tally_updateParserState (x : Context) : tally (updateParserState x) = tally x := by
  obtain ⟨_, _, _, _, hstate, -⟩ := updateParserState_eq x
  rw [hstate]
  rfl

theorem processMessages_tally (hf : HeaderOk x.parser.parserReceivedDataPtr)
    (hok : (processMessages x).2 = .ok x') : tally x' = ((tally x).1, (tally x).2.1,
      (tally x).2.2 + if x'.parser.discardFrame = 0 then
        UInt64.ofNat (count x.parser.parserReceivedDataPtr) else 0) := by
  simp only [processMessages, if_pos (messageCounter_pos hf)] at hok
  cases hloop : (messageLoop x.common x.parser.parserReceivedDataPtr x.parser.payloadBytesReceived
      (x.parser.payloadBytesReceived -
        (messageHeaderLength x.parser.parserReceivedDataPtr).toUInt64 - 2)
      (ntohs (messageCount x.parser.parserReceivedDataPtr))
      (ntohs (messageCount x.parser.parserReceivedDataPtr)).toNat
      ⟨x.parser.discardFrame, 20, 0, (snap x.ring1).ringbuf⟩).2 with
  | error e => simp [hloop] at hok
  | ok s =>
    simp only [hloop] at hok
    split_ifs at hok with hd
    · obtain rfl := Except.ok.inj hok
      rw [if_neg hd, UInt64.add_zero]
      rfl
    · have hd := Decidable.not_not.mp hd
      obtain rfl := Except.ok.inj hok
      have hloop := messageLoop_processed hd hloop
      rw [messageCounter_toNat] at hloop
      rw [if_pos hd, tally, hloop]
      rfl

theorem processFrame_tally (hok : (processFrame x).2 = .ok x') :
    tally x' = ((tally x).1 + 1, (tally x).2.1, (tally x).2.2 + if x'.parser.discardFrame = 0 then
      UInt64.ofNat (count x.parser.parserReceivedDataPtr) else 0) := by
  by_cases hf : HeaderOk x.parser.parserReceivedDataPtr
  · rw [processFrame_good hf] at hok
    split_ifs at hok with hs
    · rw [foreign_eq hs] at hok
      obtain rfl := Except.ok.inj hok
      exact (congrArg (fun n => ((tally x).1 + 1, (tally x).2.1, n)) (UInt64.add_zero _)).symm
    · have hmessages := processMessages_tally (x := updateParserState (counted x)) (by simpa using hf) hok
      rw [tally_updateParserState, updateParserState_buffer, counted_buffer] at hmessages
      exact hmessages
  · obtain ⟨d, hd, heq⟩ := processFrame_bad hf
    rw [heq] at hok
    obtain rfl := Except.ok.inj hok
    rw [if_neg hd]
    exact (congrArg (fun n => ((tally x).1 + 1, (tally x).2.1, n)) (UInt64.add_zero _)).symm

theorem Taken.receivedMessages {y : Context} (ht : Taken y R q x) :
    x.common.totalNumberOfReceivedMessages = y.common.totalNumberOfReceivedMessages := by
  cases ht with
  | short | header | foreign => rfl
  | messages =>
    obtain ⟨_, _, _, _, hstate, -⟩ := updateParserState_eq (counted y)
    rw [finished, hstate]
    rfl

theorem walk_length_of_good {f : Nat → UInt8} {n count o : Nat} (h : GoodBlocks f n count o)
    (timing : Bool) : (walk timing f n count o).length = count := by
  induction count generalizing o with
  | zero => rfl
  | succ count ih => rw [walk, List.length_cons, if_pos h.1, ih h.2]

theorem frameBlocks_length (h : Good x) :
    (frameBlocks x).length = count x.parser.parserReceivedDataPtr := by
  rw [frameBlocks, List.length_map]
  exact walk_length_of_good h _

variable {F : List UInt8}

/-- A frame that is taken counts once, its messages if it is accepted. -/
theorem iterate_tally (h0 : Holds x.ring0 R0 (F :: q0)) (h : Holds x.ring1.ringbuf R q)
    (hrun : Running x) (hcapacity : (getCapacity x.ring1.ringbuf).1 ≥ 16384)
    (hok : (iterate x).2 = .ok x') :
    tally x' = ((tally x).1 + if CountsAsParsed (x.common.flag flagGetTiming) F then 1 else 0,
      (tally x).2.1 + if CountsAsParsed (x.common.flag flagGetTiming) F then 0 else 1,
      (tally x).2.2 + UInt64.ofNat (if Accepted (received x F x.ring0) then
        frameBlocks (received x F x.ring0) else []).length) ∧
    x'.ring0.numberOfProcessedFrames = x.ring0.numberOfProcessedFrames := by
  obtain ⟨ring0, hread, -, -⟩ := h0.read_cons
  obtain ⟨h1, hn⟩ := h0.lengths F (by simp)
  rw [iterate_of_capacity hcapacity] at hok
  have ht := iterateInternal_taken hrun hread h1 hn h hok
  rw [iterateInternal_read hrun hread h1 hn] at hok
  refine ⟨?_, (congrArg (fun p => p.numberOfProcessedFrames) ht.kept.1).trans (read_processed hread)⟩
  have hshort : frameLength (x.common.flag flagGetTiming) F.length < 36 →
      ¬Accepted (received x F x.ring0) := by
    intro hlt ha
    have h36 := ha.1.1
    rw [received_length x x.ring0 hn] at h36
    omega
  have hiff := countsAsParsed_iff (x.common.flag flagGetTiming) F
  split_ifs at hok with hlong hheader
  · have hparsed := hiff.mpr (.inl hlong)
    rw [if_pos hparsed, if_pos hparsed, processFrame_tally hok]
    have hdiscard : x'.parser.discardFrame ≠ 0 ↔
        36 ≤ (received x F x.ring0).parser.payloadBytesReceived.toNat ∧
          ¬Accepted (received x F x.ring0) := ht.discard rfl
    rw [received_length x x.ring0 hn] at hdiscard
    by_cases ha : Accepted (received x F x.ring0)
    · have hzero : x'.parser.discardFrame = 0 := by
        by_contra hne
        exact (hdiscard.mp hne).2 ha
      rw [if_pos ha, if_pos hzero, frameBlocks_length ha.2, UInt64.add_zero]
      rfl
    · rw [if_neg ha, if_neg (hdiscard.mpr ⟨hlong, ha⟩), UInt64.add_zero, UInt64.add_zero,
        List.length_nil]
      exact congrArg (fun n => ((tally x).1 + 1, (tally x).2.1, n)) (UInt64.add_zero _).symm
  · have hparsed := hiff.mpr (.inr hheader)
    obtain rfl := Except.ok.inj hok
    rw [if_pos hparsed, if_pos hparsed, if_neg (hshort (Nat.not_le.mp hlong)), UInt64.add_zero,
      List.length_nil]
    exact congrArg (fun n => ((tally x).1 + 1, (tally x).2.1, n)) (UInt64.add_zero _).symm
  · have hrejected : ¬CountsAsParsed (x.common.flag flagGetTiming) F := by
      rw [hiff]
      exact not_or.mpr ⟨hlong, hheader⟩
    obtain rfl := Except.ok.inj hok
    rw [if_neg hrejected, if_neg hrejected, if_neg (hshort (Nat.not_le.mp hlong)), UInt64.add_zero,
      List.length_nil]
    exact congrArg (fun n => ((tally x).1, (tally x).2.1 + 1, n)) (UInt64.add_zero _).symm

end Call

end UdpSm.ParserImplementation

namespace UdpSm.InserterImplementation
open Lib Memory RingFIFOBuffer

section Inserted
variable (c : CommonData) (now : UInt64) (m : List UInt8) (s : Inserter)

theorem handleSharedMemoryFrames_inserted :
    (handleSharedMemoryFrames c s).1.numberOfInsertedFramesSinceProgramStart =
      s.numberOfInsertedFramesSinceProgramStart +
        if s.framingMetaDataTotalNumberOfMessageBytes > 0 then 1 else 0 := by
  unfold handleSharedMemoryFrames
  by_cases hbytes : s.framingMetaDataTotalNumberOfMessageBytes > 0
  · simp only [if_pos hbytes]
    split_ifs
    · rfl
    · rfl
  · simp only [if_neg hbytes, UInt64.add_zero]

theorem timed_inserted : (timed c now m s).1.numberOfInsertedFramesSinceProgramStart =
    s.numberOfInsertedFramesSinceProgramStart +
      if (taken c m s).framingMetaDataTotalNumberOfMessageBytes > 0 then 1 else 0 := by
  have htaken := taken_kept Inserter.numberOfInsertedFramesSinceProgramStart (fun _ _ _ _ => rfl) c m s
  rw [timed, writeTimestamp_kept Inserter.numberOfInsertedFramesSinceProgramStart (fun _ _ _ => rfl),
    framed, handleSharedMemoryFrames_inserted, flagged_eq, ← htaken]

theorem iterate_processed {ring ring' : Ringbuffer} {s' : Inserter} {stores : List (Store UInt8)}
    (h : iterate c now ring s = some (ring', s', stores)) :
    ring'.numberOfProcessedFrames = ring.numberOfProcessedFrames := by
  unfold iterate at h
  cases hread : RingFIFOBuffer.read ring with
  | none => simp [hread] at h
  | some r =>
    obtain ⟨rv, data, ring1⟩ := r
    simp only [hread, Option.some.injEq, Prod.mk.injEq] at h
    obtain ⟨rfl, -, -⟩ := h
    exact read_processed hread

end Inserted

end UdpSm.InserterImplementation

namespace UdpSm.Pipeline
open Lib RingFIFOBuffer InserterImplementation
open ParserImplementation hiding iterate Context constructed
open NetworkReceiverImplementationEFVI (packetEvent)

def Call.parsed (c : Call) : List (List UInt8) := c.taken.filter fun F => CountsAsParsed c.timing F

def Call.rejected (c : Call) : List (List UInt8) :=
  c.taken.filter fun F => ¬CountsAsParsed c.timing F

inductive Counter where
  | receivedMessages
  | parsedFrames
  | rejectedMessages
  | processedFrames0
  | processedFrames1
  | insertedFrames
deriving DecidableEq, Repr

def System.counter (s : System) : Counter → UInt64
  | .receivedMessages => s.common.totalNumberOfReceivedMessages
  | .parsedFrames => s.common.totalNumberOfParsedFrames
  | .rejectedMessages => s.common.totalNumberOfRejectedMessages
  | .processedFrames0 => s.context.ring0.numberOfProcessedFrames
  | .processedFrames1 => s.context.ring1.ringbuf.numberOfProcessedFrames
  | .insertedFrames => s.inserter.numberOfInsertedFramesSinceProgramStart

def Call.counted (c : Call) : Counter → Nat
  | .receivedMessages => c.packets.length
  | .parsedFrames => c.parsed.length
  | .rejectedMessages => c.rejected.length
  | .processedFrames0 => c.packets.length
  | .processedFrames1 => c.queued.length
  | .insertedFrames => c.published.length

def counted (cs : List Call) (k : Counter) : Nat := (cs.map fun c => c.counted k).sum

section Step
variable {s s' : System}

theorem receive_counted (hwell : Well s) {events : List NetworkReceiverImplementationEFVI.EfEvent}
    (hok : perform s (.receive events) = .ok s') (k : Counter) :
    s'.counter k = s.counter k + UInt64.ofNat (Call.counted ⟨s, .receive events⟩ k) := by
  obtain ⟨x, hx, rfl⟩ := map_ok hok
  obtain ⟨hcommon, hring⟩ :=
    NetworkReceiverImplementationEFVI.iterate_counted (x := s.received) hwell.jumbo hx
  obtain ⟨R, h0⟩ := hwell.ring0
  obtain ⟨total, run, jumbo, ring0, rfl, -, -, -⟩ :=
    NetworkReceiverImplementationEFVI.iterate_ok (x := s.received) hwell.jumbo h0 hx
  cases k with
  | receivedMessages => exact hcommon
  | processedFrames0 => exact hring
  | parsedFrames => exact (UInt64.add_zero _).symm
  | rejectedMessages => exact (UInt64.add_zero _).symm
  | processedFrames1 => exact (UInt64.add_zero _).symm
  | insertedFrames => exact (UInt64.add_zero _).symm

theorem insert_counted (hwell : Well s) {now : UInt64} (hok : perform s (.insert now) = .ok s')
    (k : Counter) : s'.counter k = s.counter k + UInt64.ofNat (Call.counted ⟨s, .insert now⟩ k) := by
  obtain ⟨R, h1⟩ := hwell.ring1
  cases hq : s.messages with
  | nil =>
    rw [hq] at h1
    have hpublished : Call.published ⟨s, .insert now⟩ = [] := by simp only [Call.published, hq]; rfl
    have hinserted := timed_inserted s.common now [] s.inserter
    simp only [perform, iterate_empty s.common now s.inserter h1] at hok
    obtain rfl := Except.ok.inj hok
    cases k with
    | insertedFrames =>
      rw [Call.counted, hpublished]
      exact hinserted
    | receivedMessages => exact (UInt64.add_zero _).symm
    | parsedFrames => exact (UInt64.add_zero _).symm
    | rejectedMessages => exact (UInt64.add_zero _).symm
    | processedFrames0 => exact (UInt64.add_zero _).symm
    | processedFrames1 => exact (UInt64.add_zero _).symm
  | cons m q =>
    have hlength := hwell.messages m (by rw [hq]; simp)
    rw [hq] at h1
    obtain ⟨ring, hiterate, -, -⟩ := iterate_cons s.common now s.inserter h1
    have hprocessed := iterate_processed s.common now s.inserter hiterate
    have hpublished : (Call.published ⟨s, .insert now⟩).length = 1 := by
      simp only [Call.published, hq]
      rfl
    have hbytes : (InserterImplementation.taken s.common m s.inserter).framingMetaDataTotalNumberOfMessageBytes > 0 := by
      obtain ⟨-, hbytes⟩ := taken_bytes s.common s.inserter (m := m) (by omega)
        (Nat.le_trans hlength.2
          (by decide : NetworkReceiverImplementationEFVI.jumboSize + 8 ≤ 65537))
      have hpos := (payloadOf_length (m := m) (s.common.flag flagGetTiming) (by omega)).1
      rw [gt_iff_lt, UInt16.lt_iff_toNat_lt, hbytes]
      exact hpos
    have hinserted := timed_inserted s.common now m s.inserter
    rw [if_pos hbytes] at hinserted
    simp only [perform, hiterate] at hok
    obtain rfl := Except.ok.inj hok
    cases k with
    | insertedFrames =>
      rw [Call.counted, hpublished]
      exact hinserted
    | processedFrames1 => exact hprocessed.trans (UInt64.add_zero _).symm
    | receivedMessages => exact (UInt64.add_zero _).symm
    | parsedFrames => exact (UInt64.add_zero _).symm
    | rejectedMessages => exact (UInt64.add_zero _).symm
    | processedFrames0 => exact (UInt64.add_zero _).symm

theorem parse_tally (hwell : Well s) (hok : perform s .parse = .ok s') :
    tally s'.context =
      ((tally s.context).1 + UInt64.ofNat (Call.parsed ⟨s, .parse⟩).length,
        (tally s.context).2.1 + UInt64.ofNat (Call.rejected ⟨s, .parse⟩).length,
        (tally s.context).2.2 + UInt64.ofNat (Call.queued ⟨s, .parse⟩).length) ∧
    s'.context.ring0.numberOfProcessedFrames = s.context.ring0.numberOfProcessedFrames := by
  obtain ⟨R0, h0⟩ := hwell.ring0
  obtain ⟨R, h1⟩ := hwell.ring1
  obtain ⟨x, hx, rfl⟩ := map_ok hok
  cases iterate_turned h0 h1 hx with
  | idle hnone d n p hsnap hptr =>
    have hprocessed := congrArg Snap.numberOfProcessedFrames hsnap
    rw [Call.parsed, Call.rejected, Call.taken_none hnone, Call.queued_none hnone]
    refine ⟨?_, rfl⟩
    simp only [tally, List.filter_nil, List.length_nil]
    rw [hprocessed]
    simp
  | frame F ring0 hsome hrun hcapacity hlength hframes hring ht =>
    have hframes : s.frames = F :: contents ring0 := hframes
    rw [hframes] at h0
    obtain ⟨htally, hring0⟩ := iterate_tally h0 h1 hrun hcapacity hx
    have htiming : s.context.common.flag flagGetTiming = Call.timing ⟨s, .parse⟩ := rfl
    refine ⟨?_, hring0⟩
    rw [htally, htiming, Call.parsed, Call.rejected, Call.taken_some hsome, Call.queued_some hsome]
    by_cases hparsed : CountsAsParsed (Call.timing ⟨s, .parse⟩) F
    · rw [if_pos hparsed, if_pos hparsed, List.filter_cons_of_pos (by simpa using hparsed),
        List.filter_cons_of_neg (by simpa using hparsed)]
      rfl
    · rw [if_neg hparsed, if_neg hparsed, List.filter_cons_of_neg (by simpa using hparsed),
        List.filter_cons_of_pos (by simpa using hparsed)]
      rfl

theorem parse_counted (hwell : Well s) (hok : perform s .parse = .ok s') (k : Counter) :
    s'.counter k = s.counter k + UInt64.ofNat (Call.counted ⟨s, .parse⟩ k) := by
  obtain ⟨htally, hring0⟩ := parse_tally hwell hok
  obtain ⟨hparsed, hrest⟩ := Prod.mk.inj htally
  obtain ⟨hrejected, hprocessed⟩ := Prod.mk.inj hrest
  obtain ⟨R0, h0⟩ := hwell.ring0
  obtain ⟨R, h1⟩ := hwell.ring1
  obtain ⟨x, hx, rfl⟩ := map_ok hok
  cases k with
  | receivedMessages =>
    refine Eq.trans ?_ (UInt64.add_zero _).symm
    cases iterate_turned h0 h1 hx with
    | idle => rfl
    | frame F ring0 hsome hrun hcapacity hlength hframes hring ht => exact ht.receivedMessages
  | parsedFrames => exact hparsed
  | rejectedMessages => exact hrejected
  | processedFrames0 => exact hring0.trans (UInt64.add_zero _).symm
  | processedFrames1 => exact hprocessed
  | insertedFrames => exact (UInt64.add_zero _).symm

theorem step_counted (hwell : Well s) {c : Call} (hbefore : c.before = s)
    (hok : perform s c.action = .ok s') (k : Counter) :
    s'.counter k = s.counter k + UInt64.ofNat (c.counted k) := by
  obtain ⟨before, action⟩ := c
  obtain rfl : before = s := hbefore
  cases action with
  | receive events => exact receive_counted hwell hok k
  | parse => exact parse_counted hwell hok k
  | insert now => exact insert_counted hwell hok k
  | writeTimestamp now =>
    have hinserted := writeTimestamp_kept Inserter.numberOfInsertedFramesSinceProgramStart
      (fun _ _ _ => rfl) before.common now before.inserter
    obtain rfl := Except.ok.inj hok
    cases k with
    | insertedFrames => exact hinserted.trans (UInt64.add_zero _).symm
    | _ => exact (UInt64.add_zero _).symm
  | readKeyboardInput key =>
    obtain ⟨flags, threshold, hkey⟩ := KeyboardReadInput.readKeyboardInput_kept before.common key
    obtain rfl := Except.ok.inj hok
    rw [hkey]
    cases k <;> exact (UInt64.add_zero _).symm

theorem initial_counter (u : Unset) (k : Counter) : (initial u).counter k = 0 := by
  cases k <;> rfl

end Step

section Run
variable {u : Unset} {cs : List Call} {s : System}

theorem run_counter (h : Run Step (initial u) cs s) (k : Counter) :
    s.counter k = UInt64.ofNat (counted cs k) := by
  refine (run_invariant (fun cs s => s.counter k = UInt64.ofNat (counted cs k)) ?_ ?_ h).2
  · exact initial_counter u k
  · intro cs s c s' hwell hcounter hbefore hok _
    rw [step_counted hwell hbefore hok, hcounter, counted, counted, List.map_append, List.sum_append,
      UInt64.ofNat_add, List.map_singleton, List.sum_singleton]

theorem counted_flatMap {α : Type} (f : Call → List α) (k : Counter)
    (hf : ∀ c, Call.counted c k = (f c).length) (cs : List Call) :
    counted cs k = (cs.flatMap f).length := by
  rw [counted, List.length_flatMap]
  exact congrArg List.sum (List.map_congr_left fun c _ => hf c)

theorem parsed_rejected_length (c : Call) :
    c.parsed.length + c.rejected.length = c.taken.length := by
  rw [Call.parsed, Call.rejected, List.length_eq_length_filter_add
    (l := c.taken) fun F => decide (CountsAsParsed c.timing F)]
  simp only [decide_not]

theorem counted_taken (cs : List Call) :
    counted cs .parsedFrames + counted cs .rejectedMessages = (taken cs).length := by
  rw [counted, counted, ← List.sum_map_add, taken, List.length_flatMap]
  exact congrArg List.sum (List.map_congr_left fun c _ => parsed_rejected_length c)

/-- In every run each counter is the number of what it is named after, modulo 2^64, and they
balance: what came in is parsed, rejected or waits in ring buffer 0, and what the parser put into
ring buffer 1 is inserted or waits there. -/
theorem counters_balance (h : Run Step (initial u) cs s) :
    (∀ k, s.counter k = UInt64.ofNat (counted cs k)) ∧
    s.counter .processedFrames0 = s.counter .receivedMessages ∧
    s.counter .receivedMessages = s.counter .parsedFrames + s.counter .rejectedMessages +
      UInt64.ofNat s.frames.length ∧
    s.counter .processedFrames1 = s.counter .insertedFrames + UInt64.ofNat s.messages.length := by
  have hcounter := run_counter h
  obtain ⟨htaken, hconsumed⟩ := run_queues h
  have hreceived : counted cs .receivedMessages = (taken cs).length + s.frames.length := by
    rw [counted_flatMap Call.packets _ (fun _ => rfl), ← List.length_append, htaken, handed,
      List.length_flatMap, List.length_flatMap]
    refine congrArg List.sum (List.map_congr_left fun c _ => ?_)
    rw [Call.handed, List.length_map]
  have hqueued : counted cs .processedFrames1 = (published cs).length + s.messages.length := by
    rw [counted_flatMap Call.queued _ (fun _ => rfl)]
    change (queued cs).length = _
    rw [← hconsumed, List.length_append, published, consumed, List.length_flatMap,
      List.length_flatMap]
    exact congrArg (· + s.messages.length)
      (congrArg List.sum (List.map_congr_left fun c _ => (published_length c).symm))
  refine ⟨hcounter, (hcounter .processedFrames0).trans (hcounter .receivedMessages).symm, ?_, ?_⟩
  · rw [hcounter, hcounter, hcounter, ← UInt64.ofNat_add, ← UInt64.ofNat_add, counted_taken, hreceived]
  · rw [hcounter, hcounter, ← UInt64.ofNat_add, hqueued,
      counted_flatMap Call.published .insertedFrames fun _ => rfl]
    rfl

theorem counters_balance_short : ∃ cs s, Run Step (initial blank) cs s ∧
    s.counter .receivedMessages = 3 ∧ s.counter .parsedFrames = 1 ∧
    s.counter .rejectedMessages = 1 ∧ s.counter .processedFrames1 = s.counter .insertedFrames := by
  obtain ⟨cs, s, hrun, hlook⟩ := exists_run (s := initial blank)
    [.receive [packetEvent oneMessageFrame, packetEvent [1, 2, 3], packetEvent oneMessageFrame],
      .parse, .parse, .insert 0]
    (fun r => (counted r.2 .receivedMessages, counted r.2 .parsedFrames, counted r.2 .rejectedMessages,
      r.1.frames.length, r.1.messages.length)) (v := (3, 1, 1, 1, 0)) (by decide +kernel)
  simp only [Prod.mk.injEq] at hlook
  obtain ⟨hreceived, hparsed, hrejected, -, hmessages⟩ := hlook
  obtain ⟨hcounter, -, -, hprocessed⟩ := counters_balance hrun
  rw [hmessages] at hprocessed
  refine ⟨cs, s, hrun, ?_, ?_, ?_, hprocessed.trans (UInt64.add_zero _)⟩
  · rw [hcounter, hreceived]
    rfl
  · rw [hcounter, hparsed]
    rfl
  · rw [hcounter, hrejected]
    rfl

end Run

end UdpSm.Pipeline
