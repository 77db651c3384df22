import UdpSm.ParserLoop

/-! What one call of `IterateInternal` does to the state, given the frame it takes. -/
namespace UdpSm.ParserImplementation
open Lib RingFIFOBuffer

def count (f : Nat → UInt8) : Nat := ofBe [f 18, f 19]

def HeaderOk (f : Nat → UInt8) : Prop := messageHeaderLength f = 18 ∧ 1 ≤ count f

instance (f : Nat → UInt8) : Decidable (HeaderOk f) := inferInstanceAs (Decidable (_ ∧ _))

/-- The bytes of a frame that count as payload: with the timing flag set all but the last 8. -/
def frameLength (timing : Bool) (n : Nat) : Nat := if timing ∧ 26 ≤ n then n - 8 else n

def received (x : Context) (F : List UInt8) (ring0 : Ringbuffer) : Context :=
  { x with
    ring0 := ring0
    parser.discardFrame := 0
    parser.payloadBytesReceived :=
      UInt64.ofNat (frameLength (x.common.flag flagGetTiming) F.length)
    parser.parserReceivedDataPtr := overwrite F x.parser.parserReceivedDataPtr }

def counted (x : Context) : Context :=
  { x with
    common.totalNumberOfParsedFrames := x.common.totalNumberOfParsedFrames + 1
    parser.discardFrame := 0 }

def Running (x : Context) : Prop :=
  x.common.applicationRunFlag = true ∧ x.common.commonFlagConnected = true

/-- The blocks of the frame in the receive buffer that the loop would hand to `Write`. -/
def frameWalk (x : Context) : List Access :=
  walk (x.common.flag flagGetTiming) x.parser.parserReceivedDataPtr
    x.parser.payloadBytesReceived.toNat (count x.parser.parserReceivedDataPtr) 20

def Room (x : Context) (w : Nat) : Prop :=
  (advanceAll x.ring1.ringbuf.ptr.size w (sizesOf (frameWalk x)) : Int) ≤
    writeLimit x.ring1.ringbuf w

def Good (x : Context) : Prop :=
  GoodBlocks x.parser.parserReceivedDataPtr x.parser.payloadBytesReceived.toNat
    (count x.parser.parserReceivedDataPtr) 20

instance GoodBlocks.decidable (f : Nat → UInt8) (n : Nat) :
    (count o : Nat) → Decidable (GoodBlocks f n count o)
  | 0, o => inferInstanceAs (Decidable (o = n))
  | count+1, o =>
    have := GoodBlocks.decidable f n count (o + declared f o)
    inferInstanceAs (Decidable (_ ∧ _))

instance (x : Context) : Decidable (Good x) := GoodBlocks.decidable _ _ _ _

def frameBlocks (x : Context) : List (List UInt8) :=
  (frameWalk x).map (slice x.parser.parserReceivedDataPtr)

def finished (x : Context) (d : UInt8) (r : Ring) : Context :=
  { x with
    parser.discardFrame := d
    ring1 := r
    common.commonValueSequenceNumber := if Good x then
      ntoh64 (sequenceNumber x.parser.parserReceivedDataPtr)
    else x.common.commonValueSequenceNumber }

section Messages
variable {x : Context} {R : Nat} {q : List (List UInt8)}

theorem messageBytesReceived_toNat {f : Nat → UInt8} {n : UInt64} (hf : messageHeaderLength f = 18)
    (hn : 36 ≤ n.toNat) : (n - (messageHeaderLength f).toUInt64 - 2).toNat + 20 = n.toNat := by
  rw [hf]
  have h18 : (n - (18 : UInt8).toUInt64).toNat = n.toNat - 18 :=
    UInt64.toNat_sub_of_le _ _ (UInt64.le_iff_toNat_le.mpr (Nat.le_trans (by decide) hn))
  have h2 : 2 ≤ n - (18 : UInt8).toUInt64 := by
    rw [UInt64.le_iff_toNat_le, h18]
    change 2 ≤ n.toNat - 18
    omega
  rw [UInt64.toNat_sub_of_le _ _ h2, h18]
  change n.toNat - 18 - 2 + 20 = n.toNat
  omega

theorem messageCounter_toNat (f : Nat → UInt8) : (ntohs (messageCount f)).toNat = count f :=
  ntohs_ofLe rfl

def frameLoop (x : Context) : List Access × Except Halt LoopState :=
  messageLoop x.common x.parser.parserReceivedDataPtr x.parser.payloadBytesReceived
    (x.parser.payloadBytesReceived -
      (messageHeaderLength x.parser.parserReceivedDataPtr).toUInt64 - 2)
    (ntohs (messageCount x.parser.parserReceivedDataPtr)) (count x.parser.parserReceivedDataPtr)
    { discardFrame := x.parser.discardFrame
      messageHeader := 20
      messageBytesExpected := 0
      ringbuf := (snap x.ring1).ringbuf }

theorem messageCounter_pos {f : Nat → UInt8} (hf : HeaderOk f) : ntohs (messageCount f) > 0 := by
  rw [gt_iff_lt, UInt16.lt_iff_toNat_lt, messageCounter_toNat]
  exact hf.2

theorem processMessages_accesses (h : Holds x.ring1.ringbuf R q) (hd : x.parser.discardFrame = 0)
    (hf : HeaderOk x.parser.parserReceivedDataPtr) :
    (processMessages x).1 = (reached x.ring1.ringbuf.ptr.size
      (writeLimit x.ring1.ringbuf (queueEnd x.ring1.ringbuf.ptr.size R q))
      (queueEnd x.ring1.ringbuf.ptr.size R q) (frameWalk x)).flatMap
        (accesses x.common x.parser.parserReceivedDataPtr
          (ntohs (messageCount x.parser.parserReceivedDataPtr))) := by
  have hloop : (processMessages x).1 = (frameLoop x).1 := by
    simp only [processMessages, if_pos (messageCounter_pos hf), messageCounter_toNat, frameLoop]
  rw [hloop]
  exact messageLoop_accesses h hd _

theorem processMessages_spins (h : Holds x.ring1.ringbuf R q) (hd : x.parser.discardFrame = 0)
    (hf : HeaderOk x.parser.parserReceivedDataPtr)
    (hroom : ¬Room x (queueEnd x.ring1.ringbuf.ptr.size R q)) :
    (processMessages x).2 = .error .spins := by
  have hloop : (frameLoop x).2 = .error .spins := messageLoop_spins h hd _ hroom
  rw [frameLoop] at hloop
  simp only [processMessages, if_pos (messageCounter_pos hf), messageCounter_toNat, hloop]

/-- Whether the frame is good decides between its blocks and the queue as it was. -/
theorem processMessages_ok (h : Holds x.ring1.ringbuf R q) (hd : x.parser.discardFrame = 0)
    (hf : HeaderOk x.parser.parserReceivedDataPtr) (hn : 36 ≤ x.parser.payloadBytesReceived.toNat)
    (hroom : Room x (queueEnd x.ring1.ringbuf.ptr.size R q)) :
    ∃ d r, (processMessages x).2 = .ok (finished x d r) ∧ (d = 0 ↔ Good x) ∧
      r.ringbuf.ptr.size = x.ring1.ringbuf.ptr.size ∧
      Holds r.ringbuf R (if Good x then q ++ frameBlocks x else q) := by
  have hcount : count x.parser.parserReceivedDataPtr < 65536 := by
    rw [← messageCounter_toNat]
    exact UInt16.toNat_lt _
  obtain ⟨s, hloop, hsize, hholds, hgood⟩ := messageLoop_ok
    (ntohs (messageCount x.parser.parserReceivedDataPtr)) (s := ⟨x.parser.discardFrame, 20, 0, (snap x.ring1).ringbuf⟩) h hd
    (count x.parser.parserReceivedDataPtr) rfl (messageBytesReceived_toNat hf.1 hn)
    (by change 20 + _ < _; omega) hroom
  have hgood := hgood (Nat.ne_of_gt hf.2)
  simp only [processMessages, if_pos (messageCounter_pos hf), messageCounter_toNat, hloop]
  unfold finished
  by_cases hg : Good x
  · have hs : s.discardFrame = 0 := hgood.mpr hg
    simp only [hs, if_pos hg, ne_eq, not_true_eq_false, if_false]
    exact ⟨_, _, rfl, by simp [hg], hsize, hholds⟩
  · have hs : s.discardFrame ≠ 0 := fun h0 => hg (hgood.mp h0)
    simp only [if_neg hg, if_pos hs]
    exact ⟨_, _, rfl, by simp [hg, hs], hsize, h.rollback hholds hsize⟩

end Messages

section Session

/-- The frame in the receive buffer belongs to another session and is to be filtered. -/
def Foreign (x : Context) : Prop :=
  x.parser.parserStateInstance.state = .session ∧
    sessionIdVal x.parser.parserReceivedDataPtr ≠ x.parser.parserStateInstance.sessionIdVal ∧
    x.common.flag flagDontFilterSouceId = false

instance (x : Context) : Decidable (Foreign x) := inferInstanceAs (Decidable (_ ∧ _))

/-- Apart from the session data only the discard flag changes, and only for a foreign frame. -/
theorem updateParserState_eq (x : Context) : ∃ i shutdown session received,
    updateParserState x = { x with
      parser.parserStateInstance := i
      parser.discardFrame :=
        if Foreign x then x.parser.discardFrame ||| 0x20 else x.parser.discardFrame
      common.commonFlagShutdownReceived := shutdown
      common.commonValueSessionId := session
      common.commonFlagSessionIdReceived := received } ∧
    (Foreign x → i = x.parser.parserStateInstance ∧ shutdown = x.common.commonFlagShutdownReceived ∧
      session = x.common.commonValueSessionId ∧ received = x.common.commonFlagSessionIdReceived) := by
  cases hs : x.parser.parserStateInstance.state with
  | startup =>
    have hf : ¬Foreign x := by simp [Foreign, hs]
    simp only [updateParserState, hs, if_neg hf]
    split_ifs
    · exact ⟨_, _, _, _, rfl, fun h => absurd h hf⟩
    · exact ⟨_, _, _, _, rfl, fun h => absurd h hf⟩
  | session =>
    by_cases hf : Foreign x
    · simp only [updateParserState, hs, if_pos hf, if_pos hf.2.1, hf.2.2, Bool.not_false, if_true]
      exact ⟨_, _, _, _, rfl, fun _ => ⟨rfl, rfl, rfl, rfl⟩⟩
    · simp only [updateParserState, hs, if_neg hf]
      split_ifs with hid hfilter
      · exact absurd ⟨hs, hid, by simpa using hfilter⟩ hf
      · exact ⟨_, _, _, _, rfl, fun h => absurd h hf⟩
      · exact ⟨_, _, _, _, rfl, fun h => absurd h hf⟩
      · exact ⟨_, _, _, _, rfl, fun h => absurd h hf⟩
  | shutdown =>
    have hf : ¬Foreign x := by simp [Foreign, hs]
    simp only [updateParserState, hs, if_neg hf]
    split_ifs
    · exact ⟨_, _, _, _, rfl, fun h => absurd h hf⟩
    · exact ⟨_, _, _, _, rfl, fun h => absurd h hf⟩

section Kept
variable (x : Context)

@[simp] theorem counted_ring1 : (counted x).ring1 = x.ring1 := rfl
@[simp] theorem counted_buffer :
    (counted x).parser.parserReceivedDataPtr = x.parser.parserReceivedDataPtr := rfl
@[simp] theorem counted_received :
    (counted x).parser.payloadBytesReceived = x.parser.payloadBytesReceived := rfl

@[simp] theorem updateParserState_ring0 : (updateParserState x).ring0 = x.ring0 := by
  obtain ⟨_, _, _, _, h, -⟩ := updateParserState_eq x
  rw [h]

@[simp] theorem updateParserState_ring1 : (updateParserState x).ring1 = x.ring1 := by
  obtain ⟨_, _, _, _, h, -⟩ := updateParserState_eq x
  rw [h]

@[simp] theorem updateParserState_buffer :
    (updateParserState x).parser.parserReceivedDataPtr = x.parser.parserReceivedDataPtr := by
  obtain ⟨_, _, _, _, h, -⟩ := updateParserState_eq x
  rw [h]

@[simp] theorem updateParserState_received :
    (updateParserState x).parser.payloadBytesReceived = x.parser.payloadBytesReceived := by
  obtain ⟨_, _, _, _, h, -⟩ := updateParserState_eq x
  rw [h]

@[simp] theorem updateParserState_sequence : (updateParserState x).common.commonValueSequenceNumber =
    x.common.commonValueSequenceNumber := by
  obtain ⟨_, _, _, _, h, -⟩ := updateParserState_eq x
  rw [h]

@[simp] theorem updateParserState_flag (mask : UInt32) :
    (updateParserState x).common.flag mask = x.common.flag mask := by
  obtain ⟨_, _, _, _, h, -⟩ := updateParserState_eq x
  rw [h]
  rfl

@[simp] theorem updateParserState_accesses :
    accesses (updateParserState x).common = accesses x.common := by
  obtain ⟨_, _, _, _, h, -⟩ := updateParserState_eq x
  rw [h]
  rfl

@[simp] theorem frameWalk_session : frameWalk (updateParserState (counted x)) = frameWalk x := by
  simp only [frameWalk, updateParserState_flag, updateParserState_buffer, updateParserState_received]
  rfl

@[simp] theorem good_session : Good (updateParserState (counted x)) ↔ Good x := by
  simp only [Good, updateParserState_buffer, updateParserState_received]
  rfl

@[simp] theorem frameBlocks_session :
    frameBlocks (updateParserState (counted x)) = frameBlocks x := by
  simp only [frameBlocks, frameWalk_session, updateParserState_buffer]
  rfl

@[simp] theorem room_session (w : Nat) : Room (updateParserState (counted x)) w ↔ Room x w := by
  simp only [Room, frameWalk_session, updateParserState_ring1]
  rfl

theorem session_discard (h : ¬Foreign x) :
    (updateParserState (counted x)).parser.discardFrame = 0 := by
  obtain ⟨_, _, _, _, hstate, -⟩ := updateParserState_eq (counted x)
  rw [hstate]
  exact if_neg h

end Kept
end Session

section Frame
variable {x : Context} {F : List UInt8} {ring0 : Ringbuffer}

theorem frameLength_toNat {n : Nat} (timing : Bool) (hn : n < 2 ^ 29) :
    (UInt64.ofNat (frameLength timing n)).toNat = frameLength timing n := by
  rw [UInt64.toNat_ofNat']
  apply Nat.mod_eq_of_lt
  unfold frameLength
  split_ifs <;> omega

theorem received_length (x : Context) (ring0 : Ringbuffer) (hn : F.length < 2 ^ 29) :
    (received x F ring0).parser.payloadBytesReceived.toNat =
      frameLength (x.common.flag flagGetTiming) F.length :=
  frameLength_toNat _ hn

theorem payloadBytesReceived_eq (timing : Bool) {n : Nat} (hn : n < 2 ^ 29) :
    (if timing ∧ UInt64.ofInt (n : Int) ≥ 18 + 8 then UInt64.ofInt (n : Int) - 8
      else UInt64.ofInt (n : Int)) = UInt64.ofNat (frameLength timing n) := by
  have hlength := frameLength_toNat timing hn
  have hof : (UInt64.ofInt (n : Int)).toNat = n := uint64_ofInt_natCast (by omega)
  have hge : UInt64.ofInt (n : Int) ≥ 18 + 8 ↔ 26 ≤ n := by
    rw [ge_iff_le, UInt64.le_iff_toNat_le, hof]
    rfl
  apply UInt64.toNat_inj.mp
  rw [hlength, frameLength]
  simp only [hge]
  split_ifs with h
  · have h8 : (8 : UInt64) ≤ UInt64.ofInt (n : Int) := by
      rw [UInt64.le_iff_toNat_le, hof]
      change 8 ≤ n
      omega
    rw [UInt64.toNat_sub_of_le _ _ h8, hof]
    rfl
  · exact hof

theorem iterateInternal_read (hrun : Running x)
    (hread : read x.ring0 = some ((F.length : Int), F, ring0)) (h1 : 1 ≤ F.length)
    (hn : F.length < 2 ^ 29) :
    iterateInternal x =
      if 36 ≤ frameLength (x.common.flag flagGetTiming) F.length then
        processFrame (received x F ring0)
      else if frameLength (x.common.flag flagGetTiming) F.length = 18 then
        ([], .ok { received x F ring0 with
          common.totalNumberOfParsedFrames := x.common.totalNumberOfParsedFrames + 1 })
      else ([], .ok { received x F ring0 with
        common.totalNumberOfRejectedMessages := x.common.totalNumberOfRejectedMessages + 1 }) := by
  have hlength := frameLength_toNat (x.common.flag flagGetTiming) hn
  have hpos : UInt64.ofNat (frameLength (x.common.flag flagGetTiming) F.length) > 0 := by
    rw [gt_iff_lt, UInt64.lt_iff_toNat_lt, hlength]
    change 0 < _
    unfold frameLength
    split_ifs <;> omega
  have hlong : UInt64.ofNat (frameLength (x.common.flag flagGetTiming) F.length) ≥ 36 ↔
      36 ≤ frameLength (x.common.flag flagGetTiming) F.length := by
    rw [ge_iff_le, UInt64.le_iff_toNat_le, hlength]
    rfl
  have hempty : UInt64.ofNat (frameLength (x.common.flag flagGetTiming) F.length) = 18 ↔
      frameLength (x.common.flag flagGetTiming) F.length = 18 := by
    rw [← UInt64.toNat_inj, hlength]
    rfl
  have hflags : x.common.applicationRunFlag = true ∧ x.common.commonFlagConnected = true := hrun
  simp only [iterateInternal]
  rw [if_pos hflags]
  simp only [hread]
  rw [payloadBytesReceived_eq _ hn, if_pos hpos]
  simp only [hlong, hempty]
  rfl

theorem header_marks (f : Nat → UInt8) :
    (if ntohs (messageCount f) ≤ 0 then
      (if messageHeaderLength f ≠ 18 then 0x01 else 0) ||| 0x02
    else if messageHeaderLength f ≠ 18 then (0x01 : UInt8) else 0) = 0 ↔ HeaderOk f := by
  have hcount : ntohs (messageCount f) ≤ 0 ↔ ¬1 ≤ count f := by
    rw [UInt16.le_iff_toNat_le, messageCounter_toNat]
    change count f ≤ 0 ↔ _
    omega
  unfold HeaderOk
  by_cases hlength : messageHeaderLength f = 18 <;> by_cases hpos : 1 ≤ count f <;>
    simp [hlength, hcount, hpos]

theorem processFrame_bad (hf : ¬HeaderOk x.parser.parserReceivedDataPtr) :
    ∃ d, d ≠ 0 ∧ processFrame x = ([], .ok { counted x with parser.discardFrame := d }) := by
  have hmarks := mt (header_marks x.parser.parserReceivedDataPtr).mp hf
  refine ⟨_, hmarks, ?_⟩
  simp only [processFrame]
  rw [if_neg hmarks]
  rfl

theorem processFrame_good (hf : HeaderOk x.parser.parserReceivedDataPtr) :
    processFrame x = if Foreign x then ([], .ok (updateParserState (counted x)))
      else processMessages (updateParserState (counted x)) := by
  have hmarks := (header_marks x.parser.parserReceivedDataPtr).mpr hf
  obtain ⟨_, _, _, _, hstate, -⟩ := updateParserState_eq (counted x)
  have hdiscard : (updateParserState (counted x)).parser.discardFrame = 0 ↔ ¬Foreign x := by
    rw [hstate]
    change (if Foreign x then (0 : UInt8) ||| 0x20 else 0) = 0 ↔ _
    split_ifs with hforeign <;> simp [hforeign]
  simp only [processFrame]
  rw [hmarks, if_pos rfl]
  change (if (updateParserState (counted x)).parser.discardFrame = 0 then _ else _) = _
  simp only [hdiscard, ite_not]
  rfl

/-- What a frame in the receive buffer can lead to, from a ring buffer 1 that holds `q`. -/
inductive Taken (y : Context) (R : Nat) (q : List (List UInt8)) : Context → Prop where
  | short (h : y.parser.payloadBytesReceived.toNat < 36) (parsed rejected : UInt64) :
      Taken y R q { y with
        common.totalNumberOfParsedFrames := parsed
        common.totalNumberOfRejectedMessages := rejected }
  | header (h : 36 ≤ y.parser.payloadBytesReceived.toNat)
      (hf : ¬HeaderOk y.parser.parserReceivedDataPtr) (d : UInt8) (hd : d ≠ 0) :
      Taken y R q { counted y with parser.discardFrame := d }
  | foreign (h : 36 ≤ y.parser.payloadBytesReceived.toNat)
      (hf : HeaderOk y.parser.parserReceivedDataPtr) (hs : Foreign y) :
      Taken y R q { counted y with parser.discardFrame := 0x20 }
  | messages (h : 36 ≤ y.parser.payloadBytesReceived.toNat)
      (hf : HeaderOk y.parser.parserReceivedDataPtr) (hs : ¬Foreign y) (d : UInt8) (r : Ring)
      (hd : d = 0 ↔ Good y) (hsize : r.ringbuf.ptr.size = y.ring1.ringbuf.ptr.size)
      (hr : Holds r.ringbuf R (if Good y then q ++ frameBlocks y else q)) :
      Taken y R q (finished (updateParserState (counted y)) d r)

theorem foreign_eq (h : Foreign x) : updateParserState (counted x) =
    { counted x with parser.discardFrame := 0x20 } := by
  obtain ⟨i, shutdown, session, received, hstate, hkept⟩ := updateParserState_eq (counted x)
  obtain ⟨rfl, rfl, rfl, rfl⟩ := hkept h
  have hmark : (0 : UInt8) ||| 0x20 = 0x20 := by decide
  have hcounted : Foreign (counted x) := h
  rw [hstate, if_pos hcounted]
  exact congrArg (fun d => { counted x with parser.discardFrame := d }) hmark

def Parsed (x : Context) : Prop :=
  36 ≤ x.parser.payloadBytesReceived.toNat ∧ HeaderOk x.parser.parserReceivedDataPtr ∧ ¬Foreign x

instance (x : Context) : Decidable (Parsed x) := inferInstanceAs (Decidable (_ ∧ _))

section Outcome
variable {R : Nat} {q : List (List UInt8)}

theorem processFrame_parsed (hp : Parsed x) :
    processFrame x = processMessages (updateParserState (counted x)) := by
  rw [processFrame_good hp.2.1, if_neg hp.2.2]

theorem processFrame_taken (h : Holds x.ring1.ringbuf R q)
    (hn : 36 ≤ x.parser.payloadBytesReceived.toNat)
    (hroom : Parsed x → Room x (queueEnd x.ring1.ringbuf.ptr.size R q)) :
    ∃ x', (processFrame x).2 = .ok x' ∧ Taken x R q x' := by
  by_cases hf : HeaderOk x.parser.parserReceivedDataPtr
  · by_cases hs : Foreign x
    · rw [processFrame_good hf, if_pos hs, foreign_eq hs]
      exact ⟨_, rfl, .foreign hn hf hs⟩
    · obtain ⟨d, r, hok, hd, hsize, hr⟩ := processMessages_ok (x := updateParserState (counted x))
        (R := R) (q := q) (by simpa using h) (session_discard x hs) (by simpa using hf)
        (by simpa using hn) (by simpa using hroom ⟨hn, hf, hs⟩)
      rw [processFrame_parsed ⟨hn, hf, hs⟩, hok]
      simp only [good_session, frameBlocks_session, updateParserState_ring1, counted_ring1]
        at hd hsize hr
      exact ⟨_, rfl, .messages hn hf hs d r hd hsize hr⟩
  · obtain ⟨d, hd, heq⟩ := processFrame_bad hf
    rw [heq]
    exact ⟨_, rfl, .header hn hf d hd⟩

theorem processFrame_spins (h : Holds x.ring1.ringbuf R q) (hp : Parsed x)
    (hroom : ¬Room x (queueEnd x.ring1.ringbuf.ptr.size R q)) :
    (processFrame x).2 = .error .spins := by
  rw [processFrame_parsed hp]
  exact processMessages_spins (R := R) (q := q) (by simpa using h) (session_discard x hp.2.2)
    (by simpa using hp.2.1) (by simpa using hroom)

theorem processFrame_unparsed (hp : ¬Parsed x) (hn : 36 ≤ x.parser.payloadBytesReceived.toNat) :
    (processFrame x).1 = [] := by
  by_cases hf : HeaderOk x.parser.parserReceivedDataPtr
  · have hs : Foreign x := Decidable.not_not.mp fun hs => hp ⟨hn, hf, hs⟩
    rw [processFrame_good hf, if_pos hs]
  · obtain ⟨d, -, heq⟩ := processFrame_bad hf
    rw [heq]

def Accepted (x : Context) : Prop := Parsed x ∧ Good x

instance (x : Context) : Decidable (Accepted x) := inferInstanceAs (Decidable (_ ∧ _))

theorem Taken.holds {y : Context} (ht : Taken y R q x) (h : Holds y.ring1.ringbuf R q) :
    Holds x.ring1.ringbuf R (if Accepted y then q ++ frameBlocks y else q) := by
  cases ht with
  | short hn => rwa [if_neg fun ha => absurd ha.1.1 (Nat.not_le.mpr hn)]
  | header _ hf => rwa [if_neg fun ha => hf ha.1.2.1]
  | foreign _ _ hs => rwa [if_neg fun ha => ha.1.2.2 hs]
  | messages hn hf hs d r hd hsize hr =>
    have hgood : Accepted y ↔ Good y := ⟨fun ha => ha.2, fun hg => ⟨⟨hn, hf, hs⟩, hg⟩⟩
    simp only [hgood]
    exact hr

theorem Taken.discard {y : Context} (ht : Taken y R q x) (hy : y.parser.discardFrame = 0) :
    x.parser.discardFrame ≠ 0 ↔ 36 ≤ y.parser.payloadBytesReceived.toNat ∧ ¬Accepted y := by
  cases ht with
  | short hn => exact ⟨fun h => absurd hy h, fun h => absurd h.1 (Nat.not_le.mpr hn)⟩
  | header hn hf d hd => exact ⟨fun _ => ⟨hn, fun ha => hf ha.1.2.1⟩, fun _ => hd⟩
  | foreign hn hf hs => exact ⟨fun _ => ⟨hn, fun ha => ha.1.2.2 hs⟩, fun _ h0 => by cases h0⟩
  | messages hn hf hs d r hd hsize hr =>
    change d ≠ 0 ↔ _
    rw [ne_eq, hd]
    exact ⟨fun h => ⟨hn, fun ha => h ha.2⟩, fun h hg => h.2 ⟨⟨hn, hf, hs⟩, hg⟩⟩

end Outcome
end Frame

/-! The whole call, for a frame `F` that `Read` takes from ring buffer 0. -/
section Call
variable {x : Context} {F : List UInt8} {ring0 : Ringbuffer} {R : Nat} {q : List (List UInt8)}

theorem frameWalk_received (hn : F.length < 2 ^ 29) : frameWalk (received x F ring0) =
    walk (x.common.flag flagGetTiming) (overwrite F x.parser.parserReceivedDataPtr)
      (frameLength (x.common.flag flagGetTiming) F.length)
      (count (overwrite F x.parser.parserReceivedDataPtr)) 20 := by
  rw [← received_length x ring0 hn]
  rfl

/-! A parser right after its construction, in a connected program with no flag set. -/

def connected : CommonData :=
  { (default : CommonData) with applicationRunFlag := true, commonFlagConnected := true }

def startup (ring0 ring1 : Ringbuffer) : Context :=
  constructed connected default ring0 ⟨ring1.toSnap, ring1⟩

def blankBuffer : Nat → UInt8 := overwrite (List.replicate dataBufferSize 0) default

theorem frameLength_untimed (n : Nat) : frameLength false n = n := by simp [frameLength]

theorem startup_timing (ring0 ring1 : Ringbuffer) :
    (startup ring0 ring1).common.flag flagGetTiming = false :=
  show connected.flag flagGetTiming = false by decide

theorem startup_not_foreign {ring0 ring0' ring1 : Ringbuffer} :
    ¬Foreign (received (startup ring0 ring1) F ring0') := fun h => nomatch h.1

theorem startup_walk {ring0 ring0' ring1 : Ringbuffer} (hn : F.length < 2 ^ 29) :
    frameWalk (received (startup ring0 ring1) F ring0') =
      walk false (overwrite F blankBuffer) F.length (count (overwrite F blankBuffer)) 20 := by
  rw [frameWalk_received hn, startup_timing, frameLength_untimed]
  rfl

theorem startup_parsed {ring0 ring0' ring1 : Ringbuffer} (hn : F.length < 2 ^ 29) :
    Parsed (received (startup ring0 ring1) F ring0') ↔
      36 ≤ F.length ∧ HeaderOk (overwrite F blankBuffer) := by
  rw [Parsed, received_length _ _ hn, startup_timing,
    frameLength_untimed]
  exact ⟨fun h => ⟨h.1, h.2.1⟩, fun h => ⟨h.1, h.2, startup_not_foreign⟩⟩

theorem iterateInternal_taken (hrun : Running x)
    (hread : read x.ring0 = some ((F.length : Int), F, ring0)) (h1 : 1 ≤ F.length)
    (hn : F.length < 2 ^ 29) (h : Holds x.ring1.ringbuf R q) {x' : Context}
    (hok : (iterateInternal x).2 = .ok x') : Taken (received x F ring0) R q x' := by
  have hlength := received_length x ring0 hn
  rw [iterateInternal_read hrun hread h1 hn] at hok
  by_cases hlong : 36 ≤ frameLength (x.common.flag flagGetTiming) F.length
  · rw [if_pos hlong] at hok
    by_cases hroom : Parsed (received x F ring0) →
        Room (received x F ring0) (queueEnd x.ring1.ringbuf.ptr.size R q)
    · obtain ⟨x'', hok', ht⟩ := processFrame_taken (x := received x F ring0) h
        (by rwa [hlength]) hroom
      rw [hok'] at hok
      obtain rfl : x'' = x' := by simpa using hok
      exact ht
    · obtain ⟨hp, hno⟩ := Classical.not_imp.mp hroom
      rw [processFrame_spins (x := received x F ring0) h hp hno] at hok
      exact absurd hok (by simp)
  · have hshort : (received x F ring0).parser.payloadBytesReceived.toNat < 36 := by
      rw [hlength]
      omega
    rw [if_neg hlong] at hok
    split_ifs at hok
    · obtain rfl : _ = x' := Except.ok.inj hok
      exact .short hshort _ _
    · obtain rfl : _ = x' := Except.ok.inj hok
      exact .short hshort _ _

/-- The call returns unless it gets as far as the messages and they do not all fit. -/
theorem iterateInternal_returns (hrun : Running x)
    (hread : read x.ring0 = some ((F.length : Int), F, ring0)) (h1 : 1 ≤ F.length)
    (hn : F.length < 2 ^ 29) (h : Holds x.ring1.ringbuf R q) :
    (∃ x', (iterateInternal x).2 = .ok x') ↔ (Parsed (received x F ring0) →
      Room (received x F ring0) (queueEnd x.ring1.ringbuf.ptr.size R q)) := by
  have hlength := received_length x ring0 hn
  rw [iterateInternal_read hrun hread h1 hn]
  by_cases hlong : 36 ≤ frameLength (x.common.flag flagGetTiming) F.length
  · rw [if_pos hlong]
    constructor
    · rintro ⟨x', hok⟩ hp
      by_contra hno
      rw [processFrame_spins (x := received x F ring0) h hp hno] at hok
      exact absurd hok (by simp)
    · intro hroom
      obtain ⟨x', hok, -⟩ := processFrame_taken (x := received x F ring0) h (by rwa [hlength]) hroom
      exact ⟨x', hok⟩
  · rw [if_neg hlong]
    constructor
    · intro _ hp
      exact absurd (hlength ▸ hp.1) hlong
    · intro _
      split_ifs
      · exact ⟨_, rfl⟩
      · exact ⟨_, rfl⟩

theorem iterateInternal_spins (hrun : Running x)
    (hread : read x.ring0 = some ((F.length : Int), F, ring0)) (h1 : 1 ≤ F.length)
    (hn : F.length < 2 ^ 29) (h : Holds x.ring1.ringbuf R q) (hp : Parsed (received x F ring0))
    (hroom : ¬Room (received x F ring0) (queueEnd x.ring1.ringbuf.ptr.size R q)) :
    (iterateInternal x).2 = .error .spins := by
  have hlong := hp.1
  rw [received_length _ _ hn] at hlong
  rw [iterateInternal_read hrun hread h1 hn, if_pos hlong]
  exact processFrame_spins (x := received x F ring0) h hp hroom

theorem iterateInternal_accesses (hrun : Running x)
    (hread : read x.ring0 = some ((F.length : Int), F, ring0)) (h1 : 1 ≤ F.length)
    (hn : F.length < 2 ^ 29) (h : Holds x.ring1.ringbuf R q) :
    (iterateInternal x).1 = if Parsed (received x F ring0) then
      (reached x.ring1.ringbuf.ptr.size
        (writeLimit x.ring1.ringbuf (queueEnd x.ring1.ringbuf.ptr.size R q))
        (queueEnd x.ring1.ringbuf.ptr.size R q) (frameWalk (received x F ring0))).flatMap
          (accesses x.common (overwrite F x.parser.parserReceivedDataPtr)
            (ntohs (messageCount (overwrite F x.parser.parserReceivedDataPtr))))
      else [] := by
  have hlength := received_length x ring0 hn
  rw [iterateInternal_read hrun hread h1 hn]
  by_cases hlong : 36 ≤ frameLength (x.common.flag flagGetTiming) F.length
  · rw [if_pos hlong]
    by_cases hp : Parsed (received x F ring0)
    · have haccesses := processMessages_accesses
        (x := updateParserState (counted (received x F ring0))) (R := R) (q := q)
        (by rw [updateParserState_ring1]; exact h) (session_discard _ hp.2.2)
        (by simpa using hp.2.1)
      rw [if_pos hp, processFrame_parsed hp, haccesses]
      simp only [updateParserState_ring1, counted_ring1, frameWalk_session,
        updateParserState_accesses, updateParserState_buffer, counted_buffer]
      rfl
    · rw [if_neg hp]
      exact processFrame_unparsed hp (by rwa [hlength])
  · have hp : ¬Parsed (received x F ring0) := fun hp => hlong (hlength ▸ hp.1)
    rw [if_neg hlong, if_neg hp]
    split_ifs <;> rfl

end Call
end UdpSm.ParserImplementation
