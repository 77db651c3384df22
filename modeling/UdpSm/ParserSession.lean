import UdpSm.ParserGrammar
import UdpSm.RingTransaction

/-! The session state machine of the parser, and what one call of `Iterate` can do. -/
namespace UdpSm.ParserImplementation
open Lib RingFIFOBuffer

/-- What `UpdateParserState` reads and writes, apart from the discard flag. -/
structure Session where
  parserState : ParserState
  shutdownReceived : Bool
  valueSessionId : UInt64
  sessionIdReceived : Bool
deriving DecidableEq

def sessionOf (x : Context) : Session :=
  ⟨x.parser.parserStateInstance, x.common.commonFlagShutdownReceived,
    x.common.commonValueSessionId, x.common.commonFlagSessionIdReceived⟩

/-- The step for a frame of the given type and id; `drained` if ring buffer 1 is empty. -/
def Session.next (drained : Bool) (type : UInt8) (id : UInt64) (s : Session) : Session :=
  match s.parserState.state with
  | .startup =>
    if type ≠ parserMessageShutdown then ⟨⟨id, s.parserState.sessionIdVal, .session⟩, false, id, true⟩
    else s
  | .session =>
    if id = s.parserState.sessionIdVal ∧ type = parserMessageShutdown then
      { s with parserState.state := .shutdown }
    else s
  | .shutdown =>
    if drained then ⟨⟨0, 0, .startup⟩, true, s.valueSessionId, false⟩ else s

section Next
variable {s : Session} {drained : Bool} {type : UInt8} {id : UInt64}

theorem Session.next_startup (h : s.parserState.state = .startup) : s.next drained type id =
    if type ≠ parserMessageShutdown then ⟨⟨id, s.parserState.sessionIdVal, .session⟩, false, id, true⟩
    else s := by
  simp only [Session.next, h]

theorem Session.next_session (h : s.parserState.state = .session) : s.next drained type id =
    if id = s.parserState.sessionIdVal ∧ type = parserMessageShutdown then
      { s with parserState.state := .shutdown } else s := by
  simp only [Session.next, h]

theorem Session.next_shutdown (h : s.parserState.state = .shutdown) : s.next drained type id =
    if drained then ⟨⟨0, 0, .startup⟩, true, s.valueSessionId, false⟩ else s := by
  simp only [Session.next, h]

end Next

def Drained (x : Context) : Prop :=
  x.ring1.ringbuf.numberOfStoredBytes = 0 ∨ x.ring1.ringbuf.framesStored = 0

instance (x : Context) : Decidable (Drained x) := inferInstanceAs (Decidable (_ ∨ _))

theorem drained_iff {x : Context} {R : Nat} {q : List (List UInt8)} (h : Holds x.ring1.ringbuf R q) :
    Drained x ↔ q = [] := by
  have hframes := h.frames
  constructor
  · rintro (hbytes | hzero)
    · cases q with
      | nil => rfl
      | cons m q =>
        have hoccupied := h.occupied
        have hfirst := le_advance x.ring1.ringbuf.ptr.size R (padded m.length)
        have hrest := le_advanceAll x.ring1.ringbuf.ptr.size
          (advance x.ring1.ringbuf.ptr.size R (padded m.length)) (sizes q)
        have hpos := padded_pos m.length
        simp only [queueEnd, sizes, List.map_cons, advanceAll_cons] at hoccupied hrest
        omega
    · rw [hzero] at hframes
      exact List.length_eq_zero_iff.mp (by omega)
  · rintro rfl
    exact .inr hframes

theorem sessionOf_updateParserState (x : Context) : sessionOf (updateParserState x) =
    (sessionOf x).next (decide (Drained x)) (messageType x.parser.parserReceivedDataPtr)
      (sessionIdVal x.parser.parserReceivedDataPtr) := by
  cases hs : x.parser.parserStateInstance.state with
  | startup =>
    simp only [updateParserState, Session.next, sessionOf, hs]
    split_ifs <;> rfl
  | session =>
    simp only [updateParserState, Session.next, sessionOf, hs]
    by_cases hid : sessionIdVal x.parser.parserReceivedDataPtr =
        x.parser.parserStateInstance.sessionIdVal
    · simp only [hid, ne_eq, not_true_eq_false, if_false, true_and]
      split_ifs <;> rfl
    · simp only [hid, ne_eq, not_false_eq_true, if_true, false_and, if_false]
      split_ifs <;> rfl
  | shutdown =>
    by_cases hd : Drained x
    · have hd' : x.ring1.ringbuf.numberOfStoredBytes = 0 ∨ x.ring1.ringbuf.framesStored = 0 := hd
      simp only [updateParserState, Session.next, sessionOf, hs, hd, if_pos hd', decide_true, if_true]
    · have hd' : ¬(x.ring1.ringbuf.numberOfStoredBytes = 0 ∨ x.ring1.ringbuf.framesStored = 0) := hd
      simp only [updateParserState, Session.next, sessionOf, hs, hd, if_neg hd', decide_false,
        Bool.false_eq_true, if_false]

/-- The header of the frame in the receive buffer is in order, so that its session is looked at. -/
def Headed (x : Context) : Prop :=
  36 ≤ x.parser.payloadBytesReceived.toNat ∧ HeaderOk x.parser.parserReceivedDataPtr

instance (x : Context) : Decidable (Headed x) := inferInstanceAs (Decidable (_ ∧ _))

def nextSession (y : Context) : Session :=
  if Headed y then (sessionOf y).next (decide (Drained y))
    (messageType y.parser.parserReceivedDataPtr) (sessionIdVal y.parser.parserReceivedDataPtr)
  else sessionOf y

section Taken
variable {x y : Context} {R : Nat} {q : List (List UInt8)}

theorem Foreign.next (h : Foreign y) : (sessionOf y).next (decide (Drained y))
    (messageType y.parser.parserReceivedDataPtr) (sessionIdVal y.parser.parserReceivedDataPtr) =
      sessionOf y := by
  obtain ⟨hs, hid, -⟩ := h
  have hstate : (sessionOf y).parserState.state = .session := hs
  simp only [Session.next, hstate]
  exact if_neg fun hc => hid hc.1

theorem Taken.session (ht : Taken y R q x) : sessionOf x = nextSession y := by
  cases ht with
  | short hn => exact (if_neg fun h => absurd h.1 (Nat.not_le.mpr hn)).symm
  | header _ hf => exact (if_neg fun h => hf h.2).symm
  | foreign hn hf hs => rw [nextSession, if_pos ⟨hn, hf⟩, hs.next]; rfl
  | messages hn hf hs d r =>
    rw [nextSession, if_pos ⟨hn, hf⟩]
    exact sessionOf_updateParserState (counted y)

theorem Taken.kept (ht : Taken y R q x) :
    x.ring0 = y.ring0 ∧ x.parser.parserReceivedDataPtr = y.parser.parserReceivedDataPtr ∧
    x.parser.payloadBytesReceived = y.parser.payloadBytesReceived ∧
    x.ring1.ringbuf.ptr.size = y.ring1.ringbuf.ptr.size ∧
    x.common.applicationRunFlag = y.common.applicationRunFlag ∧
    x.common.commonFlagConnected = y.common.commonFlagConnected ∧
    x.common.configurationFlags = y.common.configurationFlags ∧
    x.common.commonValueSequenceNumber = if Accepted y then
      ntoh64 (sequenceNumber y.parser.parserReceivedDataPtr)
      else y.common.commonValueSequenceNumber := by
  cases ht with
  | short hn =>
    exact ⟨rfl, rfl, rfl, rfl, rfl, rfl, rfl,
      (if_neg fun ha => absurd ha.1.1 (Nat.not_le.mpr hn)).symm⟩
  | header _ hf => exact ⟨rfl, rfl, rfl, rfl, rfl, rfl, rfl, (if_neg fun ha => hf ha.1.2.1).symm⟩
  | foreign _ _ hs => exact ⟨rfl, rfl, rfl, rfl, rfl, rfl, rfl, (if_neg fun ha => ha.1.2.2 hs).symm⟩
  | messages hn hf hs d r hd hsize hr =>
    have hgood : Good (updateParserState (counted y)) ↔ Accepted y :=
      (good_session y).trans ⟨fun hg => ⟨⟨hn, hf, hs⟩, hg⟩, fun ha => ha.2⟩
    obtain ⟨_, _, _, _, hstate, -⟩ := updateParserState_eq (counted y)
    refine ⟨by simp [finished, counted], by simp [finished], by simp [finished],
      by simpa [finished] using hsize, ?_, ?_, ?_, ?_⟩
    · rw [finished, hstate]
      rfl
    · rw [finished, hstate]
      rfl
    · rw [finished, hstate]
      rfl
    · simp only [finished, hgood, updateParserState_buffer, counted_buffer, updateParserState_sequence]
      rfl

theorem Taken.contents (ht : Taken y R q x) (hq : contents y.ring1.ringbuf = q) :
    contents x.ring1.ringbuf = if Accepted y then q ++ frameBlocks y else q := by
  cases ht with
  | short hn => rwa [if_neg fun ha => absurd ha.1.1 (Nat.not_le.mpr hn)]
  | header _ hf => rwa [if_neg fun ha => hf ha.1.2.1]
  | foreign _ _ hs => rwa [if_neg fun ha => ha.1.2.2 hs]
  | messages hn hf hs d r hd hsize hr =>
    have hgood : Accepted y ↔ Good y := ⟨fun ha => ha.2, fun hg => ⟨⟨hn, hf, hs⟩, hg⟩⟩
    simp only [hgood]
    exact hr.contents_eq

end Taken

/-! The accepted frames are those of the grammar. -/
section Grammar
variable {x : Context} {F : List UInt8} {ring0 : Ringbuffer}

theorem Grammar.length_le {blocks : List (List UInt8)} (h : Grammar F blocks) : 50 ≤ F.length := by
  obtain ⟨b, hb⟩ := List.length_pos_iff_exists_mem.mp h.nonempty
  obtain ⟨k, -, hk, hle⟩ := (h.blocks b hb).headerLength
  have h28 : 28 ≤ k.toNat := by
    cases hk with
    | inl h => rw [h]; decide
    | inr h => rw [h]; decide
  have hsum : b.length ≤ blocks.flatten.length := List.Sublist.length_le (List.sublist_flatten_of_mem hb)
  rw [← h.split, List.length_drop] at hsum
  omega

theorem accepted_iff (x : Context) (ring0 : Ringbuffer) (hn : F.length < 2 ^ 29) :
    Accepted (received x F ring0) ↔
      (∃ blocks, Grammar (payload (x.common.flag flagGetTiming) F) blocks) ∧
        ¬Foreign (received x F ring0) := by
  have hlength := received_length x ring0 hn
  constructor
  · rintro ⟨⟨h36, hf, hs⟩, hg⟩
    rw [hlength] at h36
    exact ⟨(good_iff_grammar x ring0 hn h36).mp ⟨hf, hg⟩, hs⟩
  · rintro ⟨⟨blocks, hblocks⟩, hs⟩
    have h36 : 36 ≤ frameLength (x.common.flag flagGetTiming) F.length := by
      rw [← payload_length]
      exact Nat.le_trans (by decide) hblocks.length_le
    obtain ⟨hf, hg⟩ := (good_iff_grammar x ring0 hn h36).mpr ⟨blocks, hblocks⟩
    exact ⟨⟨by rwa [hlength], hf, hs⟩, hg⟩

end Grammar

/-! One call of `Iterate`. -/

def takenFrame (x : Context) : Option (List UInt8) :=
  if (getCapacity x.ring1.ringbuf).1 ≥ 16384 ∧ x.common.applicationRunFlag ∧
    x.common.commonFlagConnected then (contents x.ring0).head? else none

/-- What a call that returns has done: without a frame next to nothing. -/
inductive Turned (x : Context) (R : Nat) (q : List (List UInt8)) : Context → Prop where
  | idle (hnone : takenFrame x = none) (d : UInt8) (n : UInt64) (p : Ringbuffer)
      (hsnap : p.toSnap = x.ring1.ringbuf.toSnap) (hptr : p.ptr = x.ring1.ringbuf.ptr) :
      Turned x R q { x with
        parser.discardFrame := d
        parser.payloadBytesReceived := n
        ring1.ringbuf := p }
  | frame (F : List UInt8) (ring0 : Ringbuffer) (hsome : takenFrame x = some F) (hrun : Running x)
      (hcapacity : (getCapacity x.ring1.ringbuf).1 ≥ 16384)
      (hlength : F.length < 2 ^ 29) (hframes : contents x.ring0 = F :: contents ring0)
      (hring : ∃ R0, Holds ring0 R0 (contents ring0)) {x' : Context}
      (ht : Taken (received x F ring0) R q x') : Turned x R q x'

section Iterate
variable {x x' : Context} {R R0 : Nat} {q q0 : List (List UInt8)}

theorem iterateInternal_idle (h0 : Holds x.ring0 R0 []) : ∃ d n, (iterateInternal x).2 =
    .ok { x with parser.discardFrame := d, parser.payloadBytesReceived := n } := by
  by_cases hrun : x.common.applicationRunFlag = true ∧ x.common.commonFlagConnected = true
  · have hzero : UInt64.ofInt 0 = 0 := by decide
    have hshort : ¬((0 : UInt64) ≥ 18 + 8) := by decide
    have hnot : ¬((0 : UInt64) > 0) := by decide
    simp only [iterateInternal, if_pos hrun, h0.read_empty, hzero, hshort, and_false, if_false, hnot]
    exact ⟨0, 0, rfl⟩
  · simp only [iterateInternal, if_neg hrun]
    exact ⟨0, _, rfl⟩

/-- Every call that returns takes the head of ring buffer 0, or leaves both queues alone. -/
theorem iterate_turned (h0 : Holds x.ring0 R0 q0) (h : Holds x.ring1.ringbuf R q)
    (hok : (iterate x).2 = .ok x') : Turned x R q x' := by
  by_cases hcapacity : (getCapacity x.ring1.ringbuf).1 ≥ 16384
  · have hring : (getCapacity x.ring1.ringbuf).2 = x.ring1.ringbuf := if_neg (Int.not_lt.mpr hcapacity)
    simp only [iterate, hring] at hok
    rw [if_pos hcapacity] at hok
    by_cases hrun : x.common.applicationRunFlag = true ∧ x.common.commonFlagConnected = true
    · cases q0 with
      | nil =>
        obtain ⟨d, n, heq⟩ := iterateInternal_idle h0
        rw [heq] at hok
        obtain rfl := Except.ok.inj hok
        exact .idle (by rw [takenFrame, if_pos ⟨hcapacity, hrun⟩, h0.contents_eq]; rfl) d n _ rfl rfl
      | cons F q0 =>
        obtain ⟨ring0, hread, -, hrest⟩ := h0.read_cons
        obtain ⟨h1, hn⟩ := h0.lengths F (by simp)
        have hcontents := hrest.contents_eq
        exact .frame F ring0 (by rw [takenFrame, if_pos ⟨hcapacity, hrun⟩, h0.contents_eq]; rfl) hrun
          hcapacity hn (by rw [h0.contents_eq, hcontents]) ⟨_, by rw [hcontents]; exact hrest⟩
          (iterateInternal_taken hrun hread h1 hn h hok)
    · simp only [iterateInternal, if_neg hrun] at hok
      obtain rfl := Except.ok.inj hok
      exact .idle (if_neg fun hc => hrun hc.2) 0 _ _ rfl rfl
  · obtain ⟨hsnap, hptr⟩ := getCapacity_kept x.ring1.ringbuf
    simp only [iterate] at hok
    rw [if_neg hcapacity] at hok
    obtain rfl := Except.ok.inj hok
    exact .idle (if_neg fun hc => hcapacity hc.1) _ _ _ hsnap hptr

theorem holds_of_kept {p p' : Ringbuffer} (h : Holds p R q) (hsnap : p'.toSnap = p.toSnap)
    (hptr : p'.ptr = p.ptr) : Holds p' R q := by
  obtain ⟨s, slip, m⟩ := p
  obtain ⟨s', slip', m'⟩ := p'
  obtain rfl : s' = s := hsnap
  obtain rfl : m' = m := hptr
  exact ⟨h.bufferSize, h.aligned, h.lower, h.upper, h.start, h.readIndex, h.writeIndex, h.frames,
    h.occupied, h.bound, h.idle, h.lengths, h.stored⟩

end Iterate

end UdpSm.ParserImplementation
