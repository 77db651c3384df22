import UdpSm.PipelineConservation

/-! What one frame does to the session: which frames get their messages through, and what a
discarded frame leaves behind. -/
namespace UdpSm.Pipeline
open Lib RingFIFOBuffer
open ParserImplementation hiding iterate Context constructed
open NetworkReceiverImplementationEFVI (packetEvent jumboSize)

def System.arrived (s : System) (F : List UInt8) : ParserImplementation.Context :=
  ParserImplementation.received s.context F s.context.ring0

def System.state (s : System) : ParserStateEnum := s.context.parser.parserStateInstance.state

def System.session (s : System) : UInt64 := s.context.parser.parserStateInstance.sessionIdVal

/-- The messages of the frame are left in ring buffer 1 only within its own session. -/
def Isolated (s : System) (F : List UInt8) (s' : System) : Prop :=
  s'.messages ≠ s.messages →
    (s'.state = .session ∨ s'.state = .shutdown ∧ s.state ≠ .shutdown) ∧
      sessionIdVal (s.arrived F).parser.parserReceivedDataPtr = s'.session

section Taken
variable {u : Unset} {cs : List Call} {s s' : System} {F : List UInt8}

theorem parse_taken (hwell : Well s) (hok : perform s .parse = .ok s')
    (hF : takenFrame s.context = some F) : ∃ R ring0 x, s' = { s with context := x } ∧
      F.length < 2 ^ 29 ∧ Taken (ParserImplementation.received s.context F ring0) R s.messages x := by
  obtain ⟨R0, h0⟩ := hwell.ring0
  obtain ⟨R, h1⟩ := hwell.ring1
  obtain ⟨x, hx, rfl⟩ := map_ok hok
  cases iterate_turned h0 h1 hx with
  | idle hnone => rw [hnone] at hF; cases hF
  | frame G ring0 hsome hrun hcapacity hlength hframes hring ht =>
    rw [hsome] at hF
    obtain rfl := Option.some.inj hF
    exact ⟨R, ring0, x, rfl, hlength, ht⟩

theorem frameBlocks_ne_nil {y : ParserImplementation.Context} (h : Accepted y) : frameBlocks y ≠ [] := by
  have hcount := h.1.2.1.2
  obtain ⟨k, hk⟩ : ∃ k, count y.parser.parserReceivedDataPtr = k + 1 := ⟨_, (Nat.sub_add_cancel hcount).symm⟩
  rw [frameBlocks, frameWalk, hk]
  simp [walk]

/-- Messages are left exactly by the frames accepted. -/
theorem parse_messages (hwell : Well s) (hok : perform s .parse = .ok s')
    (hF : takenFrame s.context = some F) : s'.messages ≠ s.messages ↔ Accepted (s.arrived F) := by
  obtain ⟨R, ring0, x, rfl, -, ht⟩ := parse_taken hwell hok hF
  have hmessages := ht.contents rfl
  change contents x.ring1.ringbuf ≠ s.messages ↔ _
  rw [hmessages]
  change (if Accepted (s.arrived F) then s.messages ++ frameBlocks (s.arrived F) else s.messages) ≠ _ ↔ _
  split_ifs with ha
  · simpa [ha] using frameBlocks_ne_nil ha
  · simp [ha]

theorem parse_session (hwell : Well s) (hok : perform s .parse = .ok s')
    (hF : takenFrame s.context = some F) : sessionOf s'.context = nextSession (s.arrived F) := by
  obtain ⟨R, ring0, x, rfl, -, ht⟩ := parse_taken hwell hok hF
  exact ht.session

theorem well_of_run (h : Run Step (initial u) cs s) : Well s :=
  (run_invariant (fun _ _ => True) trivial (fun _ _ _ _ _ _ _ _ _ => trivial) h).1

theorem accepted_session (hwell : Well s) (hok : perform s .parse = .ok s')
    (hF : takenFrame s.context = some F) (ha : Accepted (s.arrived F)) : sessionOf s'.context =
      (sessionOf s.context).next (decide (Drained s.context))
        (messageType (s.arrived F).parser.parserReceivedDataPtr)
        (sessionIdVal (s.arrived F).parser.parserReceivedDataPtr) := by
  rw [parse_session hwell hok hF, nextSession, if_pos ⟨ha.1.1, ha.1.2.1⟩]
  rfl

/-- Only startup frames and frames of the session are isolated once they are of the grammar. -/
theorem isolated_iff (h : Run Step (initial u) cs s) (hok : perform s .parse = .ok s')
    (hF : takenFrame s.context = some F) (hfilter : s.common.flag flagDontFilterSouceId = false) :
    Isolated s F s' ↔
      (¬∃ blocks, Grammar (payload (s.common.flag flagGetTiming) F) blocks) ∨ s.state = .session ∨
        s.state = .startup ∧
          messageType (s.arrived F).parser.parserReceivedDataPtr ≠ parserMessageShutdown := by
  have hwell := well_of_run h
  obtain ⟨R, ring0, x, hs', hn, ht⟩ := parse_taken hwell hok hF
  have haccepted : Accepted (s.arrived F) ↔
      (∃ blocks, Grammar (payload (s.common.flag flagGetTiming) F) blocks) ∧ ¬Foreign (s.arrived F) :=
    accepted_iff s.context s.context.ring0 hn
  have hsession := accepted_session hwell hok hF
  have hstates : s'.state = (sessionOf s'.context).parserState.state ∧
      s'.session = (sessionOf s'.context).parserState.sessionIdVal := ⟨rfl, rfl⟩
  rw [Isolated, parse_messages hwell hok hF, hstates.1, hstates.2]
  cases hstate : s.state with
  | startup =>
    have hbefore : (sessionOf s.context).parserState.state = .startup := hstate
    have hforeign : ¬Foreign (s.arrived F) := fun hf => by cases hbefore.symm.trans hf.1
    constructor
    · intro hisolated
      by_cases hg : ∃ blocks, Grammar (payload (s.common.flag flagGetTiming) F) blocks
      · refine .inr (.inr ⟨rfl, fun htype => ?_⟩)
        have ha := haccepted.mpr ⟨hg, hforeign⟩
        have hafter := (hisolated ha).1
        rw [hsession ha, Session.next_startup hbefore, if_neg (not_not.mpr htype), hbefore] at hafter
        simp at hafter
      · exact .inl hg
    · rintro (hno | hstate | ⟨-, htype⟩) ha
      · exact absurd (haccepted.mp ha).1 hno
      · cases hstate
      · rw [hsession ha, Session.next_startup hbefore, if_pos htype]
        exact ⟨.inl rfl, rfl⟩
  | session =>
    have hbefore : (sessionOf s.context).parserState.state = .session := hstate
    refine iff_of_true (fun ha => ?_) (.inr (.inl rfl))
    have hid : sessionIdVal (s.arrived F).parser.parserReceivedDataPtr = s.session := by
      by_contra hne
      exact (haccepted.mp ha).2 ⟨hstate, hne, hfilter⟩
    rw [hsession ha, Session.next_session hbefore]
    split_ifs
    · exact ⟨.inr ⟨rfl, nofun⟩, hid⟩
    · exact ⟨.inl hbefore, hid⟩
  | shutdown =>
    have hbefore : (sessionOf s.context).parserState.state = .shutdown := hstate
    have hforeign : ¬Foreign (s.arrived F) := fun hf => by cases hbefore.symm.trans hf.1
    constructor
    · intro hisolated
      refine .inl fun hg => ?_
      have ha := haccepted.mpr ⟨hg, hforeign⟩
      have hafter := (hisolated ha).1
      rw [hsession ha, Session.next_shutdown hbefore] at hafter
      split_ifs at hafter
      · simp at hafter
      · rw [hbefore] at hafter
        simp at hafter
    · rintro (hno | hstate | ⟨hstate, -⟩) ha
      · exact absurd (haccepted.mp ha).1 hno
      · cases hstate
      · cases hstate

theorem isolated_one_message : ∃ cs s s', Run Step (initial blank) cs s ∧
    perform s .parse = .ok s' ∧ takenFrame s.context = some oneMessageFrame ∧
    s'.messages = [emptyBlock] ∧ Isolated s oneMessageFrame s' := by
  obtain ⟨cs, s, s', hrun, hok, hlook⟩ := exists_perform (s := initial blank)
    [.receive [packetEvent oneMessageFrame]] .parse
    (fun s s' => (takenFrame s.context, s.common.flag flagDontFilterSouceId, s.state,
      messageType (s.arrived oneMessageFrame).parser.parserReceivedDataPtr, s'.messages))
    (v := (some oneMessageFrame, false, .startup, 0, [emptyBlock])) (by decide +kernel)
  simp only [Prod.mk.injEq] at hlook
  obtain ⟨hF, hfilter, hstate, htype, hmessages⟩ := hlook
  refine ⟨cs, s, s', hrun, hok, hF, hmessages, (isolated_iff hrun hok hF hfilter).mpr ?_⟩
  rw [htype]
  exact .inr (.inr ⟨hstate, by decide⟩)

def shutdownFrame : List UInt8 := frameOf 1 (List.replicate 8 0) 1 [emptyBlock]

/-- Its message is forwarded although there is no session yet. -/
theorem shutdownFrame_not_isolated : ∃ cs s s', Run Step (initial blank) cs s ∧
    perform s .parse = .ok s' ∧ takenFrame s.context = some shutdownFrame ∧
    s.common.flag flagDontFilterSouceId = false ∧ s.messages = [] ∧ s'.messages = [emptyBlock] ∧
    s'.state = .startup ∧ ¬Isolated s shutdownFrame s' := by
  obtain ⟨cs, s, s', hrun, hok, hlook⟩ := exists_perform (s := initial blank)
    [.receive [packetEvent shutdownFrame]] .parse
    (fun s s' => (takenFrame s.context, s.common.flag flagDontFilterSouceId, s.messages, s'.messages,
      s'.state))
    (v := (some shutdownFrame, false, [], [emptyBlock], .startup)) (by decide +kernel)
  simp only [Prod.mk.injEq] at hlook
  obtain ⟨hF, hfilter, hbefore, hafter, hstate⟩ := hlook
  refine ⟨cs, s, s', hrun, hok, hF, hfilter, hbefore, hafter, hstate, fun hisolated => ?_⟩
  have hsession := (hisolated (by rw [hbefore, hafter]; exact List.cons_ne_nil _ _)).1
  rw [hstate] at hsession
  simp at hsession

def versionTwoBlock : List UInt8 := [0, 28, 28, 2] ++ List.replicate 26 0

end Taken

end UdpSm.Pipeline
