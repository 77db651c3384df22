import UdpSm.ParserCapacity
import UdpSm.ParserSession

/-! The parser leaves the byte counter of ring buffer 1 exact, whatever the frames. -/
namespace UdpSm.ParserImplementation
open Lib RingFIFOBuffer

def Writable (P : Ringbuffer → Prop) : Prop :=
  ∀ p data length rv p', length.toNat < 2 ^ 29 → write p (some data) length = some (rv, p') →
    P p → P p'

theorem writeUntilAccepted_write {p p' : Ringbuffer} {data : Nat → UInt8} {length : UInt32}
    (h : writeUntilAccepted p data length = .ok p') :
    ∃ rv, write p (some data) length = some (rv, p') := by
  rw [writeUntilAccepted] at h
  cases hw : write p (some data) length with
  | none => simp [hw] at h
  | some r =>
    obtain ⟨rv, u⟩ := r
    simp only [hw] at h
    split_ifs at h
    obtain rfl := Except.ok.inj h
    exact ⟨rv, rfl⟩

section Loop
variable {c : CommonData} {f : Nat → UInt8} {n received : UInt64} {messageCounter : UInt16}
variable {s s' : LoopState} {P : Ringbuffer → Prop}

theorem messageStep_kept (hP : Writable P) {last : Bool} (hd : s.discardFrame = 0)
    (hok : (messageStep c f n received messageCounter last s).2 = .ok s') (h : P s.ringbuf) :
    P s'.ringbuf := by
  have hb := block_bounds (c.flag flagGetTiming) f n.toNat last s.messageHeader
  have hh := handedLength_toNat c f n last s.messageHeader
  simp only [messageStep, hd] at hok
  cases hw : writeUntilAccepted s.ringbuf (fun i => f (s.messageHeader + i))
      (handedLength c f (checkMessage f n s.messageHeader 0) last s.messageHeader) with
  | error e => simp [hw] at hok
  | ok ring =>
    obtain ⟨rv, hwrite⟩ := writeUntilAccepted_write hw
    have hring : P ring := hP _ _ _ rv ring (by rw [hh]; omega) hwrite h
    simp only [hw] at hok
    cases last with
    | true =>
      obtain rfl := Except.ok.inj hok
      exact hring
    | false =>
      obtain rfl := Except.ok.inj hok
      exact hring

theorem messageLoop_kept (hP : Writable P) {count : Nat}
    (hok : (messageLoop c f n received messageCounter count s).2 = .ok s') (h : P s.ringbuf) :
    P s'.ringbuf := by
  induction count generalizing s with
  | zero =>
    obtain rfl := Except.ok.inj hok
    exact h
  | succ count ih =>
    by_cases hd : s.discardFrame = 0
    · cases hstep : (messageStep c f n received messageCounter (count = 0) s).2 with
      | error e =>
        rw [messageLoop_refused hd hstep] at hok
        cases hok
      | ok t =>
        rw [messageLoop_pass hd hstep] at hok
        exact ih hok (messageStep_kept hP hd hstep h)
    · rw [messageLoop_stop hd] at hok
      obtain rfl := Except.ok.inj hok
      exact h

end Loop

section Exact
variable {x x' : Context} {R R0 : Nat} {q q0 : List (List UInt8)}

/-- A ring that came from `p` by writes alone, its counter exact. -/
def Grown (p : Ringbuffer) (R : Nat) (q : List (List UInt8)) (p' : Ringbuffer) : Prop :=
  p'.ptr.size = p.ptr.size ∧ (∃ new, Holds p' R (q ++ new)) ∧ Exact p'

theorem grown_writable (p : Ringbuffer) (R : Nat) (q : List (List UInt8)) :
    Writable (Grown p R q) := by
  intro u data length rv u' hlength hwrite h
  obtain ⟨hsize, ⟨new, hu⟩, hexact⟩ := h
  obtain ⟨rv', v, more, hw, hsize', hv, -⟩ := hu.write_short data hlength
  obtain ⟨rv'', v', q', hw', -, hv', hexact'⟩ := hu.write_exact hexact data hlength
  rw [hwrite] at hw hw'
  obtain ⟨-, rfl⟩ := Prod.mk.inj (Option.some.inj hw)
  obtain ⟨-, rfl⟩ := Prod.mk.inj (Option.some.inj hw')
  exact ⟨hsize'.trans hsize, ⟨new ++ more, by rwa [← List.append_assoc]⟩, hexact'⟩

theorem processMessages_exact (h : Holds x.ring1.ringbuf R q) (hexact : Exact x.ring1.ringbuf)
    (hok : (processMessages x).2 = .ok x') : Exact x'.ring1.ringbuf := by
  by_cases hcount : ntohs (messageCount x.parser.parserReceivedDataPtr) > 0
  · simp only [processMessages, if_pos hcount] at hok
    cases hloop : (messageLoop x.common x.parser.parserReceivedDataPtr x.parser.payloadBytesReceived
        (x.parser.payloadBytesReceived -
          (messageHeaderLength x.parser.parserReceivedDataPtr).toUInt64 - 2)
        (ntohs (messageCount x.parser.parserReceivedDataPtr))
        (ntohs (messageCount x.parser.parserReceivedDataPtr)).toNat
        ⟨x.parser.discardFrame, 20, 0, (snap x.ring1).ringbuf⟩).2 with
    | error e => simp [hloop] at hok
    | ok s =>
      have hstart : Grown x.ring1.ringbuf R q (snap x.ring1).ringbuf :=
        ⟨rfl, ⟨[], by rw [List.append_nil]; exact h⟩, hexact⟩
      obtain ⟨hsize, ⟨new, hnew⟩, hgrown⟩ := messageLoop_kept (grown_writable _ R q) hloop hstart
      simp only [hloop] at hok
      split_ifs at hok
      · obtain rfl := Except.ok.inj hok
        -- the counters are those of the snapshot again
        have hback := h.rollback hnew hsize
        change Exact { s.ringbuf with toSnap := x.ring1.ringbuf.toSnap }
        rw [hback.exact_iff]
        have hbefore := h.exact_iff.mp hexact
        rw [← hsize] at hbefore
        exact hbefore
      · obtain rfl := Except.ok.inj hok
        exact hgrown
  · simp only [processMessages, if_neg hcount] at hok
    obtain rfl := Except.ok.inj hok
    exact hexact

theorem processFrame_exact (h : Holds x.ring1.ringbuf R q) (hexact : Exact x.ring1.ringbuf)
    (hok : (processFrame x).2 = .ok x') : Exact x'.ring1.ringbuf := by
  have hring : (updateParserState (counted x)).ring1 = x.ring1 := by simp
  by_cases hf : HeaderOk x.parser.parserReceivedDataPtr
  · rw [processFrame_good hf] at hok
    split_ifs at hok
    · obtain rfl := Except.ok.inj hok
      rwa [hring]
    · exact processMessages_exact (x := updateParserState (counted x)) (hring.symm ▸ h)
        (hring.symm ▸ hexact) hok
  · obtain ⟨d, -, heq⟩ := processFrame_bad hf
    rw [heq] at hok
    obtain rfl := Except.ok.inj hok
    exact hexact

theorem iterate_exact (h0 : Holds x.ring0 R0 q0) (h : Holds x.ring1.ringbuf R q)
    (hexact : Exact x.ring1.ringbuf) (hok : (iterate x).2 = .ok x') : Exact x'.ring1.ringbuf := by
  cases iterate_turned h0 h hok with
  | idle hnone d n p hsnap hptr =>
    have hp := holds_of_kept h hsnap hptr
    have hbefore := h.exact_iff.mp hexact
    refine hp.exact_iff.mpr ?_
    rw [hptr, congrArg Snap.numberOfStoredBytes hsnap]
    exact hbefore
  | frame F ring0 hsome hrun hcapacity hlength hframes hring ht =>
    obtain ⟨R0', hring0⟩ := hring
    rw [h0.contents_eq] at hframes
    subst hframes
    obtain ⟨ring, hread, -, hrest⟩ := h0.read_cons
    obtain ⟨h1, hn⟩ := h0.lengths F (by simp)
    rw [iterate_of_capacity hcapacity, iterateInternal_read hrun hread h1 hn] at hok
    split_ifs at hok
    · exact processFrame_exact (x := received x F ring) h hexact hok
    · obtain rfl := Except.ok.inj hok
      exact hexact
    · obtain rfl := Except.ok.inj hok
      exact hexact

end Exact

end UdpSm.ParserImplementation
