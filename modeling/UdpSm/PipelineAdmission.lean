import UdpSm.PipelineFields

/-! Which frames are accepted, from the frames alone and from which of them end a shutdown. -/
namespace UdpSm.ParserImplementation
open Lib RingFIFOBuffer

def bytesOf (F : List UInt8) : Nat → UInt8 := overwrite F fun _ => 0

def HeadedFrame (F : List UInt8) : Prop := 36 ≤ F.length ∧ HeaderOk (bytesOf F)

instance (F : List UInt8) : Decidable (HeadedFrame F) := inferInstanceAs (Decidable (_ ∧ _))

def Session.Filters (v : Session) (id : UInt64) : Prop :=
  v.parserState.state = .session ∧ id ≠ v.parserState.sessionIdVal

instance (v : Session) (id : UInt64) : Decidable (v.Filters id) := inferInstanceAs (Decidable (_ ∧ _))

section Bytes
variable {F : List UInt8} {buffer : Nat → UInt8}

theorem header_bytesOf (h : 36 ≤ F.length) (buffer : Nat → UInt8) :
    messageType (overwrite F buffer) = messageType (bytesOf F) ∧
    sessionIdVal (overwrite F buffer) = sessionIdVal (bytesOf F) ∧
    (HeaderOk (overwrite F buffer) ↔ HeaderOk (bytesOf F)) := by
  have hbyte : ∀ i < 36, overwrite F buffer i = bytesOf F i := by
    intro i hi
    rw [bytesOf, overwrite, overwrite, List.getElem?_eq_getElem (by omega)]
    rfl
  refine ⟨hbyte 0 (by decide), ?_, ?_⟩
  · have hbytes : (List.range 8).map (fun i => overwrite F buffer (2 + i)) =
        (List.range 8).map fun i => bytesOf F (2 + i) := by
      refine List.map_congr_left fun i hi => hbyte (2 + i) ?_
      have hlt := List.mem_range.mp hi
      omega
    rw [sessionIdVal, loadUInt64, hbytes]
    rfl
  · rw [HeaderOk, messageHeaderLength, count, hbyte 1 (by decide), hbyte 18 (by decide),
      hbyte 19 (by decide)]
    rfl

instance (F : List UInt8) : Decidable (∃ blocks, Grammar F blocks) :=
  decidable_of_iff (HeadedFrame F ∧ GoodBlocks (bytesOf F) F.length (count (bytesOf F)) 20) <| by
    constructor
    · rintro ⟨⟨h36, hf⟩, hgood⟩
      exact grammar_of_good h36 hf hgood
    · rintro ⟨blocks, hblocks⟩
      have h36 : 36 ≤ F.length := Nat.le_trans (by decide) hblocks.length_le
      obtain ⟨hf, hgood, -⟩ := hblocks.good (fun _ => 0) h36
      exact ⟨⟨h36, hf⟩, hgood⟩

end Bytes

/-- A session with the frames accepted so far, after one more frame and whether it ends a shutdown. -/
def admission (v : Session × List (List UInt8)) (m : List UInt8 × Bool) :
    Session × List (List UInt8) :=
  (if HeadedFrame m.1 then
      v.1.next m.2 (messageType (bytesOf m.1)) (sessionIdVal (bytesOf m.1)) else v.1,
    if (∃ blocks, Grammar m.1 blocks) ∧ ¬v.1.Filters (sessionIdVal (bytesOf m.1)) then
      v.2 ++ [m.1] else v.2)

theorem Session.next_congr {v : Session} {drained drained' : Bool}
    (h : v.parserState.state = .shutdown → drained = drained') (type : UInt8) (id : UInt64) :
    v.next drained type id = v.next drained' type id := by
  cases hstate : v.parserState.state with
  | startup => rw [next_startup hstate, next_startup hstate]
  | session => rw [next_session hstate, next_session hstate]
  | shutdown => rw [next_shutdown hstate, next_shutdown hstate, h hstate]

section Frame
variable (x : Context) (ring0 : Ringbuffer) {F : List UInt8}

theorem header_payload (timing : Bool) (F : List UInt8) (buffer : Nat → UInt8)
    (h : 36 ≤ (payload timing F).length) :
    messageType (overwrite F buffer) = messageType (bytesOf (payload timing F)) ∧
    sessionIdVal (overwrite F buffer) = sessionIdVal (bytesOf (payload timing F)) ∧
    (HeaderOk (overwrite F buffer) ↔ HeaderOk (bytesOf (payload timing F))) := by
  have hheader := header_bytesOf h (overwrite F buffer)
  rw [payload, overwrite_take] at hheader
  exact hheader

theorem headed_iff (hn : F.length < 2 ^ 29) : Headed (received x F ring0) ↔
    HeadedFrame (payload (x.common.flag flagGetTiming) F) := by
  rw [Headed, HeadedFrame, received_length x ring0 hn, payload_length]
  refine and_congr_right fun h36 => ?_
  exact (header_payload _ F x.parser.parserReceivedDataPtr (by rwa [payload_length])).2.2

/-- What a frame does to the session is in its payload. -/
theorem nextSession_payload (hn : F.length < 2 ^ 29) : nextSession (received x F ring0) =
    if HeadedFrame (payload (x.common.flag flagGetTiming) F) then
      (sessionOf x).next (decide (Drained x))
        (messageType (bytesOf (payload (x.common.flag flagGetTiming) F)))
        (sessionIdVal (bytesOf (payload (x.common.flag flagGetTiming) F)))
    else sessionOf x := by
  rw [nextSession]
  by_cases hheaded : HeadedFrame (payload (x.common.flag flagGetTiming) F)
  · obtain ⟨htype, hid, -⟩ := header_payload _ F x.parser.parserReceivedDataPtr hheaded.1
    rw [if_pos ((headed_iff x ring0 hn).mpr hheaded), if_pos hheaded, ← htype, ← hid]
    rfl
  · rw [if_neg (mt (headed_iff x ring0 hn).mp hheaded), if_neg hheaded]
    rfl

theorem accepted_payload (hn : F.length < 2 ^ 29) : Accepted (received x F ring0) ↔
    (∃ blocks, Grammar (payload (x.common.flag flagGetTiming) F) blocks) ∧
      ¬((sessionOf x).Filters (sessionIdVal (bytesOf (payload (x.common.flag flagGetTiming) F))) ∧
        x.common.flag flagDontFilterSouceId = false) := by
  refine (accepted_iff x ring0 hn).trans (and_congr_right fun hblocks => not_congr ?_)
  obtain ⟨blocks, hblocks⟩ := hblocks
  obtain ⟨-, hid, -⟩ := header_payload _ F x.parser.parserReceivedDataPtr
    (Nat.le_trans (by decide) hblocks.length_le)
  rw [← hid]
  constructor
  · rintro ⟨hstate, hne, hfilter⟩
    exact ⟨⟨hstate, hne⟩, hfilter⟩
  · rintro ⟨⟨hstate, hne⟩, hfilter⟩
    exact ⟨hstate, hne, hfilter⟩

end Frame

end UdpSm.ParserImplementation

namespace UdpSm.Pipeline
open Lib
open ParserImplementation hiding iterate Context constructed

def Call.Closes (c : Call) (F : List UInt8) : Prop :=
  Headed (c.before.arrived F) ∧ c.before.state = .shutdown ∧ Drained c.before.context

instance (c : Call) (F : List UInt8) : Decidable (c.Closes F) :=
  inferInstanceAs (Decidable (_ ∧ _ ∧ _))

def Call.closings (c : Call) : List Bool := c.taken.map fun F => decide (c.Closes F)

def closings (cs : List Call) : List Bool := cs.flatMap Call.closings

/-- No configuration flag is set when the call is made. -/
def Call.Default (c : Call) : Prop := c.before.common.configurationFlags = 0

instance (c : Call) : Decidable c.Default := inferInstanceAs (Decidable (_ = _))

section Admission
variable {u : Unset} {cs : List Call} {s s' : System} {c : Call} {F : List UInt8}

theorem Call.Default.flag (h : c.Default) (mask : UInt32) : c.before.common.flag mask = false :=
  CommonData.flag_of_none h mask

theorem admission_frame (hdefault : Call.Default ⟨s, .parse⟩) (hn : F.length < 2 ^ 29)
    (acc : List (List UInt8)) : admission (sessionOf s.context, acc)
      (F, decide (Call.Closes ⟨s, .parse⟩ F)) = (nextSession (s.arrived F),
        if Accepted (s.arrived F) then acc ++ [F] else acc) := by
  have htiming : s.context.common.flag flagGetTiming = false := hdefault.flag flagGetTiming
  have hfilter : s.context.common.flag flagDontFilterSouceId = false :=
    hdefault.flag flagDontFilterSouceId
  have hnext : nextSession (s.arrived F) = _ := nextSession_payload s.context s.context.ring0 hn
  have haccepted : Accepted (s.arrived F) ↔ _ := accepted_payload s.context s.context.ring0 hn
  have hheaded : Headed (s.arrived F) ↔ _ := headed_iff s.context s.context.ring0 hn
  rw [htiming, payload_untimed] at hnext haccepted hheaded
  simp only [hfilter, and_true] at haccepted
  refine Prod.ext ?_ (if_congr haccepted.symm rfl rfl)
  rw [admission, hnext]
  by_cases hh : HeadedFrame F
  · rw [if_pos hh, if_pos hh]
    refine Session.next_congr (fun hstate => ?_) _ _
    have hstate : s.state = .shutdown := hstate
    simp [Call.Closes, hheaded, hh, hstate]
  · rw [if_neg hh, if_neg hh]

theorem admission_step (hwell : Well s) (hbefore : c.before = s) (hok : perform s c.action = .ok s')
    (hnext : Next s c.action s') (hdefault : c.Default) (acc : List (List UInt8)) :
    (sessionOf s'.context, acc ++ c.accepted) =
      (c.taken.zip c.closings).foldl admission (sessionOf s.context, acc) := by
  obtain ⟨before, action⟩ := c
  obtain rfl : before = s := hbefore
  cases action with
  | receive events => exact Prod.ext (calm_receive hnext).session (List.append_nil acc)
  | insert now => exact Prod.ext (insert_step hnext).2.1 (List.append_nil acc)
  | writeTimestamp now => exact Prod.ext (calm_writeTimestamp hnext).session (List.append_nil acc)
  | readKeyboardInput key =>
    exact Prod.ext (calm_readKeyboardInput hnext).session (List.append_nil acc)
  | parse =>
    have haccepted := accepted_eq (c := ⟨before, .parse⟩) hwell hok
    obtain ⟨hnone, hsession⟩ | ⟨F, hF, hsession⟩ := parse_next hnext
    · have htaken := Call.taken_none hnone
      rw [haccepted, htaken, hsession]
      exact Prod.ext rfl (List.append_nil acc)
    · have htaken := Call.taken_some hF
      rw [haccepted, Call.closings, htaken]
      change _ = admission _ _
      rw [admission_frame hdefault (takenFrame_short hwell hF), hsession]
      refine Prod.ext rfl ?_
      change acc ++ [F].filter (fun G => decide (Accepted (before.arrived G))) = _
      by_cases ha : Accepted (before.arrived F)
      · simp [ha]
      · simp [ha]

/-- The frames accepted in a run, and the session at its end. -/
theorem admission_run (h : Run Step (initial u) cs s) (hdefault : ∀ c ∈ cs, c.Default) :
    (sessionOf s.context, accepted cs) =
      ((taken cs).zip (closings cs)).foldl admission (⟨⟨0, 0, .startup⟩, false, 0, false⟩, []) := by
  refine (run_invariant (fun cs s => (∀ c ∈ cs, c.Default) → (sessionOf s.context, accepted cs) =
    ((taken cs).zip (closings cs)).foldl admission (⟨⟨0, 0, .startup⟩, false, 0, false⟩, []))
    (fun _ => rfl) ?_ h).2 hdefault
  intro cs s c s' hwell hinv hbefore hok hnext hcs
  have hbefore_run := hinv fun d hd => hcs d (List.mem_append_left _ hd)
  have hstep := admission_step hwell hbefore hok hnext (hcs c (by simp)) (accepted cs)
  have hlength : (taken cs).length = (closings cs).length := by
    simp [taken, closings, Call.closings, List.length_flatMap]
  have htaken : taken (cs ++ [c]) = taken cs ++ c.taken := by simp [taken]
  have hclosings : closings (cs ++ [c]) = closings cs ++ c.closings := by simp [closings]
  have haccepted : accepted (cs ++ [c]) = accepted cs ++ c.accepted := by simp [accepted]
  rw [htaken, hclosings, haccepted, List.zip_append hlength, List.foldl_append, ← hbefore_run, hstep]

end Admission

end UdpSm.Pipeline
