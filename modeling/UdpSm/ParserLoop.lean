import UdpSm.ParserImplementation
import UdpSm.RingQueue

/-! What the message loop of the parser does, as a walk over the declared lengths. -/
namespace UdpSm.ParserImplementation
open Lib RingFIFOBuffer

/-- Length of the block at `o`, with its length field, as the block declares it. -/
def declared (f : Nat → UInt8) (o : Nat) : Nat := 2 + ofBe [f o, f (o + 1)]

def GoodHeader (f : Nat → UInt8) (n o : Nat) : Prop :=
  2 + (headerLength f o).toNat ≤ declared f o ∧ declared f o + 20 ≤ n ∧
    (headerLength f o = 32 ∨ headerLength f o = 28) ∧ headerVersion f o = 1

instance (f : Nat → UInt8) (n o : Nat) : Decidable (GoodHeader f n o) :=
  inferInstanceAs (Decidable (_ ∧ _))

/-- The blocks from `o` on are good and end exactly at `n`. -/
def GoodBlocks (f : Nat → UInt8) (n : Nat) : Nat → Nat → Prop
  | 0, o => o = n
  | count+1, o => GoodHeader f n o ∧ GoodBlocks f n count (o + declared f o)

/-- What is handed to `Write` for the block at `o`: offset and length. -/
def block (timing : Bool) (f : Nat → UInt8) (n : Nat) (last : Bool) (o : Nat) : Access :=
  (o, if GoodHeader f n o ∧ timing ∧ last then declared f o + 8 else declared f o)

/-- The blocks handed to `Write`, up to the first bad one. -/
def walk (timing : Bool) (f : Nat → UInt8) (n : Nat) : Nat → Nat → List Access
  | 0, _ => []
  | count+1, o => block timing f n (count = 0) o ::
      if GoodHeader f n o then walk timing f n count (o + declared f o) else []

def slice (f : Nat → UInt8) (a : Access) : List UInt8 := (List.range a.2).map fun i => f (a.1 + i)

/-- The blocks up to the first that a ring of `size` bytes refuses; writes may reach `limit`. -/
def reached (size : Nat) (limit : Int) : Nat → List Access → List Access
  | _, [] => []
  | w, a :: as =>
    a :: if (advance size w (padded a.2) : Int) ≤ limit then
      reached size limit (advance size w (padded a.2)) as
    else []

def sizesOf (as : List Access) : List Nat := as.map fun a => padded a.2

def accesses (c : CommonData) (f : Nat → UInt8) (messageCounter : UInt16) (a : Access) :
    List Access :=
  inspect c f messageCounter a.1 ++ [a]

theorem declared_bounds (f : Nat → UInt8) (o : Nat) : 2 ≤ declared f o ∧ declared f o < 65538 := by
  have h := ofBe_lt [f o, f (o + 1)]
  unfold declared
  simp only [List.length_cons, List.length_nil] at h
  omega

theorem messageLengthBytes_toNat (f : Nat → UInt8) (o : Nat) :
    (messageLengthBytes f o).toNat = declared f o := by
  have hb := declared_bounds f o
  have hlength : (ntohs (messageLength f o)).toNat = ofBe [f o, f (o + 1)] := ntohs_ofLe rfl
  rw [messageLengthBytes, UInt32.toNat_add, UInt16.toNat_toUInt32, hlength]
  exact Nat.mod_eq_of_lt (Nat.lt_trans hb.2 (by decide))

theorem marks_eq_zero (a b c : Prop) [Decidable a] [Decidable b] [Decidable c] :
    (if c then (if b then (if a then (0 : UInt8) ||| 0x04 else 0) ||| 0x08
      else if a then 0 ||| 0x04 else 0) ||| 0x10
    else if b then (if a then (0 : UInt8) ||| 0x04 else 0) ||| 0x08
      else if a then 0 ||| 0x04 else 0) = 0 ↔ ¬a ∧ ¬b ∧ ¬c := by
  by_cases ha : a <;> by_cases hb : b <;> by_cases hc : c <;> simp [ha, hb, hc]

theorem checkMessage_eq_zero (f : Nat → UInt8) (n : UInt64) (o : Nat) :
    checkMessage f n o 0 = 0 ↔ GoodHeader f n.toNat o := by
  have hb := declared_bounds f o
  have hlength := messageLengthBytes_toNat f o
  have hint : int32 ((messageLengthBytes f o).toNat : Int) = declared f o := by
    rw [hlength]
    exact int32_natCast (by omega)
  have hsum : ((messageLengthBytes f o + 20).toUInt64 + 0).toNat = declared f o + 20 := by
    rw [UInt64.add_zero, UInt32.toNat_toUInt64, UInt32.toNat_add, hlength]
    exact Nat.mod_eq_of_lt (Nat.lt_trans (Nat.add_lt_add_right hb.2 20) (by decide))
  unfold checkMessage GoodHeader
  simp only []
  rw [marks_eq_zero, hint, gt_iff_lt, UInt64.lt_iff_toNat_lt, hsum]
  constructor
  · intro h
    refine ⟨by omega, by omega, Decidable.not_not.mp h.2.1, Decidable.not_not.mp h.2.2⟩
  · intro h
    exact ⟨by omega, not_not.mpr h.2.2.1, not_not.mpr h.2.2.2⟩

theorem handedLength_toNat (c : CommonData) (f : Nat → UInt8) (n : UInt64) (last : Bool) (o : Nat) :
    (handedLength c f (checkMessage f n o 0) last o).toNat =
      (block (c.flag flagGetTiming) f n.toNat last o).2 := by
  have hb := declared_bounds f o
  unfold handedLength block
  simp only [checkMessage_eq_zero]
  split_ifs
  · rw [UInt32.toNat_add, messageLengthBytes_toNat]
    exact Nat.mod_eq_of_lt (show declared f o + 8 < _ by omega)
  · exact messageLengthBytes_toNat f o

theorem block_bounds (timing : Bool) (f : Nat → UInt8) (n : Nat) (last : Bool) (o : Nat) :
    2 ≤ (block timing f n last o).2 ∧ (block timing f n last o).2 < 65546 := by
  have hb := declared_bounds f o
  unfold block
  simp only []
  split_ifs <;> omega

section Loop
variable (c : CommonData) (f : Nat → UInt8) (n received : UInt64) (messageCounter : UInt16)
variable {s : LoopState} {R : Nat} {q : List (List UInt8)}

structure Passed (c : CommonData) (f : Nat → UInt8) (n received : UInt64) (last : Bool)
    (R : Nat) (q : List (List UInt8)) (s s' : LoopState) : Prop where
  size : s'.ringbuf.ptr.size = s.ringbuf.ptr.size
  limit : writeLimit s'.ringbuf (queueEnd s'.ringbuf.ptr.size R
      (q ++ [slice f (block (c.flag flagGetTiming) f n.toNat last s.messageHeader)])) =
    writeLimit s.ringbuf (queueEnd s.ringbuf.ptr.size R q)
  holds : Holds s'.ringbuf R
    (q ++ [slice f (block (c.flag flagGetTiming) f n.toNat last s.messageHeader)])
  expected : s'.messageBytesExpected =
    s.messageBytesExpected + UInt64.ofNat (declared f s.messageHeader)
  header : last = false → s'.messageHeader = s.messageHeader + declared f s.messageHeader
  discard : s'.discardFrame = 0 ↔ GoodHeader f n.toNat s.messageHeader ∧
    (last = true → s'.messageBytesExpected = received)

theorem messageStep_accesses (hd : s.discardFrame = 0) (last : Bool) :
    (messageStep c f n received messageCounter last s).1 =
      accesses c f messageCounter (block (c.flag flagGetTiming) f n.toNat last s.messageHeader) := by
  simp only [messageStep, hd, handedLength_toNat]
  rfl

theorem messageStep_ok (h : Holds s.ringbuf R q) (hd : s.discardFrame = 0) (last : Bool)
    (hroom : (advance s.ringbuf.ptr.size (queueEnd s.ringbuf.ptr.size R q)
      (padded (block (c.flag flagGetTiming) f n.toNat last s.messageHeader).2) : Int) ≤
        writeLimit s.ringbuf (queueEnd s.ringbuf.ptr.size R q)) :
    ∃ s', (messageStep c f n received messageCounter last s).2 = .ok s' ∧
      Passed c f n received last R q s s' := by
  have hb := block_bounds (c.flag flagGetTiming) f n.toNat last s.messageHeader
  have hh := handedLength_toNat c f n last s.messageHeader
  obtain ⟨p', hw, hsize, hlimit, hp⟩ := h.writeUntilAccepted_ok (fun i => f (s.messageHeader + i))
    (handedLength c f (checkMessage f n s.messageHeader 0) last s.messageHeader)
    (by rw [hh]; omega) (by rw [hh]; omega) (by rw [hh]; exact hroom)
  rw [hh] at hlimit hp
  have hexpected : UInt64.ofNat (declared f s.messageHeader) =
      (messageLengthBytes f s.messageHeader).toUInt64 := by
    rw [← messageLengthBytes_toNat]
    apply UInt64.toNat_inj.mp
    rw [UInt64.toNat_ofNat', UInt32.toNat_toUInt64]
    exact Nat.mod_eq_of_lt (Nat.lt_trans (UInt32.toNat_lt _) (by norm_num))
  have hend : queueEnd p'.ptr.size R
      (q ++ [slice f (block (c.flag flagGetTiming) f n.toNat last s.messageHeader)]) =
      advance s.ringbuf.ptr.size (queueEnd s.ringbuf.ptr.size R q)
        (padded (block (c.flag flagGetTiming) f n.toNat last s.messageHeader).2) := by
    rw [queueEnd_append, hsize]
    simp [slice]
  rw [← hend] at hlimit
  have hcheck := checkMessage_eq_zero f n s.messageHeader
  cases last with
  | false =>
    have hstep : (messageStep c f n received messageCounter false s).2 = .ok
        { discardFrame := checkMessage f n s.messageHeader 0
          messageHeader := s.messageHeader + (messageLengthBytes f s.messageHeader).toNat
          messageBytesExpected := s.messageBytesExpected +
            (messageLengthBytes f s.messageHeader).toUInt64
          ringbuf := p' } := by
      simp only [messageStep, hd, hw, Bool.false_eq_true, if_false]
    refine ⟨_, hstep, hsize, hlimit, hp, ?_, ?_, ?_⟩
    · rw [hexpected]
    · intro _
      rw [messageLengthBytes_toNat]
    · simpa using hcheck
  | true =>
    have hstep : (messageStep c f n received messageCounter true s).2 = .ok
        { discardFrame := if s.messageBytesExpected +
            (messageLengthBytes f s.messageHeader).toUInt64 ≠ received then
              checkMessage f n s.messageHeader 0 ||| 0x20 else checkMessage f n s.messageHeader 0
          messageHeader := s.messageHeader
          messageBytesExpected := s.messageBytesExpected +
            (messageLengthBytes f s.messageHeader).toUInt64
          ringbuf := p' } := by
      simp only [messageStep, hd, hw, if_true]
    refine ⟨_, hstep, hsize, hlimit, hp, ?_, ?_, ?_⟩
    · rw [hexpected]
    · intro hlast
      exact absurd hlast (by decide)
    · rw [← hcheck]
      by_cases hne : s.messageBytesExpected + (messageLengthBytes f s.messageHeader).toUInt64 =
          received
      · simp [hne]
      · simp [hne]

theorem messageStep_spins (h : Holds s.ringbuf R q) (hd : s.discardFrame = 0) (last : Bool)
    (hroom : ¬(advance s.ringbuf.ptr.size (queueEnd s.ringbuf.ptr.size R q)
      (padded (block (c.flag flagGetTiming) f n.toNat last s.messageHeader).2) : Int) ≤
        writeLimit s.ringbuf (queueEnd s.ringbuf.ptr.size R q)) :
    (messageStep c f n received messageCounter last s).2 = .error .spins := by
  have hb := block_bounds (c.flag flagGetTiming) f n.toNat last s.messageHeader
  have hh := handedLength_toNat c f n last s.messageHeader
  rw [← hh] at hroom hb
  simp only [messageStep, hd, h.writeUntilAccepted_spins _ _ (show _ < 2 ^ 29 by omega) hroom]

variable {c f n received messageCounter}

theorem Passed.queueEnd {last : Bool} {s' : LoopState} (hp : Passed c f n received last R q s s') :
    RingFIFOBuffer.queueEnd s'.ringbuf.ptr.size R
      (q ++ [slice f (block (c.flag flagGetTiming) f n.toNat last s.messageHeader)]) =
    advance s.ringbuf.ptr.size (RingFIFOBuffer.queueEnd s.ringbuf.ptr.size R q)
      (padded (block (c.flag flagGetTiming) f n.toNat last s.messageHeader).2) := by
  rw [queueEnd_append, hp.size]
  simp [slice]

theorem messageLoop_stop (hd : s.discardFrame ≠ 0) (count : Nat) :
    messageLoop c f n received messageCounter count s = ([], .ok s) := by
  cases count with
  | zero => rfl
  | succ count => simp only [messageLoop, if_pos hd]

theorem messageLoop_pass (hd : s.discardFrame = 0) {count : Nat} {s' : LoopState}
    (hstep : (messageStep c f n received messageCounter (count = 0) s).2 = .ok s') :
    messageLoop c f n received messageCounter (count + 1) s =
      (accesses c f messageCounter
          (block (c.flag flagGetTiming) f n.toNat (count = 0) s.messageHeader) ++
        (messageLoop c f n received messageCounter count s').1,
      (messageLoop c f n received messageCounter count s').2) := by
  rw [← messageStep_accesses c f n received messageCounter hd]
  simp only [messageLoop, hd, ne_eq, not_true_eq_false, if_false, hstep]

theorem messageLoop_refused (hd : s.discardFrame = 0) {count : Nat} {e : Halt}
    (hstep : (messageStep c f n received messageCounter (count = 0) s).2 = .error e) :
    messageLoop c f n received messageCounter (count + 1) s =
      (accesses c f messageCounter
        (block (c.flag flagGetTiming) f n.toNat (count = 0) s.messageHeader), .error e) := by
  rw [← messageStep_accesses c f n received messageCounter hd]
  simp only [messageLoop, hd, ne_eq, not_true_eq_false, if_false, hstep]

variable (messageCounter) in
/-- What is left of the loop after a pass: nothing, or the loop from the next block on. -/
theorem Passed.rest {count : Nat} {s' : LoopState}
    (hp : Passed c f n received (count = 0) R q s s') :
    (messageLoop c f n received messageCounter count s' = ([], .ok s') ∧
      (if GoodHeader f n.toNat s.messageHeader then walk (c.flag flagGetTiming) f n.toNat count
        (s.messageHeader + declared f s.messageHeader) else []) = [] ∧
      (count = 0 ∨ ¬GoodHeader f n.toNat s.messageHeader)) ∨
    (s'.discardFrame = 0 ∧ GoodHeader f n.toNat s.messageHeader ∧
      s'.messageHeader = s.messageHeader + declared f s.messageHeader ∧ count ≠ 0) := by
  cases count with
  | zero => exact .inl ⟨rfl, by simp [walk], .inl rfl⟩
  | succ count =>
    have hlast : decide (count + 1 = 0) = false := by simp
    rw [hlast] at hp
    by_cases hgood : GoodHeader f n.toNat s.messageHeader
    · exact .inr ⟨hp.discard.mpr ⟨hgood, by simp⟩, hgood, hp.header rfl, by simp⟩
    · have hbad : s'.discardFrame ≠ 0 := fun h0 => hgood (hp.discard.mp h0).1
      exact .inl ⟨messageLoop_stop hbad _, if_neg hgood, .inr hgood⟩

theorem messageLoop_accesses (h : Holds s.ringbuf R q) (hd : s.discardFrame = 0) (count : Nat) :
    (messageLoop c f n received messageCounter count s).1 =
      (reached s.ringbuf.ptr.size (writeLimit s.ringbuf (queueEnd s.ringbuf.ptr.size R q))
        (queueEnd s.ringbuf.ptr.size R q)
        (walk (c.flag flagGetTiming) f n.toNat count s.messageHeader)).flatMap
          (accesses c f messageCounter) := by
  induction count generalizing s q with
  | zero => rfl
  | succ count ih =>
    rw [walk, reached, List.flatMap_cons]
    by_cases hroom : (advance s.ringbuf.ptr.size (queueEnd s.ringbuf.ptr.size R q)
        (padded (block (c.flag flagGetTiming) f n.toNat (count = 0) s.messageHeader).2) : Int) ≤
          writeLimit s.ringbuf (queueEnd s.ringbuf.ptr.size R q)
    · obtain ⟨s', hstep, hp⟩ := messageStep_ok c f n received messageCounter h hd (count = 0) hroom
      rw [messageLoop_pass hd hstep, if_pos hroom]
      cases hp.rest messageCounter with
      | inl hstop => rw [hstop.1, hstop.2.1]; rfl
      | inr hgo =>
        rw [ih hp.holds hgo.1, hp.limit, hp.queueEnd, hp.size, hgo.2.2.1, if_pos hgo.2.1]
    · have hstep := messageStep_spins c f n received messageCounter h hd (count = 0) hroom
      rw [messageLoop_refused hd hstep, if_neg hroom]
      simp

/-- The loop hangs exactly when the blocks it walks do not all fit the ring. -/
theorem messageLoop_spins (h : Holds s.ringbuf R q) (hd : s.discardFrame = 0) (count : Nat)
    (hroom : ¬(advanceAll s.ringbuf.ptr.size (queueEnd s.ringbuf.ptr.size R q)
      (sizesOf (walk (c.flag flagGetTiming) f n.toNat count s.messageHeader)) : Int) ≤
        writeLimit s.ringbuf (queueEnd s.ringbuf.ptr.size R q)) :
    (messageLoop c f n received messageCounter count s).2 = .error .spins := by
  induction count generalizing s q with
  | zero =>
    have hbound := h.bound
    simp only [walk, sizesOf, List.map_nil, advanceAll_nil, writeLimit] at hroom
    omega
  | succ count ih =>
    rw [walk, sizesOf, List.map_cons, advanceAll_cons] at hroom
    by_cases hfirst : (advance s.ringbuf.ptr.size (queueEnd s.ringbuf.ptr.size R q)
        (padded (block (c.flag flagGetTiming) f n.toNat (count = 0) s.messageHeader).2) : Int) ≤
          writeLimit s.ringbuf (queueEnd s.ringbuf.ptr.size R q)
    · obtain ⟨s', hstep, hp⟩ := messageStep_ok c f n received messageCounter h hd (count = 0) hfirst
      rw [messageLoop_pass hd hstep]
      cases hp.rest messageCounter with
      | inl hstop =>
        rw [hstop.2.1] at hroom
        exact absurd hfirst hroom
      | inr hgo =>
        apply ih hp.holds hgo.1
        rw [hp.limit, hp.queueEnd, hp.size, hgo.2.2.1]
        rwa [if_pos hgo.2.1] at hroom
    · have hstep := messageStep_spins c f n received messageCounter h hd (count = 0) hfirst
      rw [messageLoop_refused hd hstep]

variable (messageCounter) in
/-- Otherwise every block walked is in the ring, and the frame is good if all of them are. -/
theorem messageLoop_ok (h : Holds s.ringbuf R q) (hd : s.discardFrame = 0) (count : Nat)
    (hexpected : s.messageBytesExpected.toNat + 20 = s.messageHeader)
    (hreceived : received.toNat + 20 = n.toNat)
    (hsmall : s.messageHeader + count * 65538 < 2 ^ 64)
    (hroom : (advanceAll s.ringbuf.ptr.size (queueEnd s.ringbuf.ptr.size R q)
      (sizesOf (walk (c.flag flagGetTiming) f n.toNat count s.messageHeader)) : Int) ≤
        writeLimit s.ringbuf (queueEnd s.ringbuf.ptr.size R q)) :
    ∃ s', (messageLoop c f n received messageCounter count s).2 = .ok s' ∧
      s'.ringbuf.ptr.size = s.ringbuf.ptr.size ∧
      Holds s'.ringbuf R (q ++
        (walk (c.flag flagGetTiming) f n.toNat count s.messageHeader).map (slice f)) ∧
      (count ≠ 0 → (s'.discardFrame = 0 ↔ GoodBlocks f n.toNat count s.messageHeader)) := by
  induction count generalizing s q with
  | zero => exact ⟨s, rfl, rfl, by simpa [walk] using h, by simp⟩
  | succ count ih =>
    have hb := declared_bounds f s.messageHeader
    rw [walk, sizesOf, List.map_cons, advanceAll_cons] at hroom
    have hfirst := Int.le_trans (Int.ofNat_le.mpr (le_advanceAll _ _ _)) hroom
    obtain ⟨s', hstep, hp⟩ := messageStep_ok c f n received messageCounter h hd (count = 0) hfirst
    have hsum : s'.messageBytesExpected.toNat + 20 =
        s.messageHeader + declared f s.messageHeader := by
      rw [hp.expected, UInt64.toNat_add, UInt64.toNat_ofNat',
        Nat.mod_eq_of_lt (show declared f s.messageHeader < 2 ^ 64 by omega),
        Nat.mod_eq_of_lt (by omega)]
      omega
    rw [messageLoop_pass hd hstep, walk, List.map_cons]
    cases hp.rest messageCounter with
    | inl hstop =>
      rw [hstop.1, hstop.2.1, List.map_nil]
      refine ⟨s', rfl, hp.size, hp.holds, fun _ => ?_⟩
      cases hstop.2.2 with
      | inl hzero =>
        subst hzero
        have heq : s'.messageBytesExpected = received ↔
            s.messageHeader + declared f s.messageHeader = n.toNat := by
          rw [← UInt64.toNat_inj]
          omega
        rw [hp.discard, GoodBlocks, GoodBlocks, ← heq]
        simp
      | inr hbad =>
        rw [hp.discard, GoodBlocks]
        simp [hbad]
    | inr hgo =>
      obtain ⟨s'', hloop, hsize, hholds, hdiscard⟩ := ih hp.holds hgo.1
        (by rw [hsum, hgo.2.2.1]) (by rw [hgo.2.2.1]; omega)
        (by rw [hp.limit, hp.queueEnd, hp.size, hgo.2.2.1]; rwa [if_pos hgo.2.1] at hroom)
      refine ⟨s'', hloop, hsize.trans hp.size, ?_, fun _ => ?_⟩
      · rw [if_pos hgo.2.1]
        rw [hgo.2.2.1, List.append_assoc] at hholds
        exact hholds
      · rw [hdiscard hgo.2.2.2, hgo.2.2.1, GoodBlocks]
        simp [hgo.2.1]

end Loop
end UdpSm.ParserImplementation
