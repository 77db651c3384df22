import UdpSm.MainLoopSession

/-! What is appended while the shutdown flag is set. -/
namespace UdpSm.Pipeline
open Lib Memory RingFIFOBuffer InserterImplementation
open ParserImplementation hiding iterate Context constructed

/-- The call takes a frame of the grammar that leaves the parser in startup with a shutdown
reported. -/
def Call.Late (c : Call) (F : List UInt8) : Prop :=
  F ∈ c.taken ∧ (∃ blocks, Grammar (payload c.timing F) blocks) ∧
    (c.before.state = .startup ∧ c.before.common.commonFlagShutdownReceived = true ∧
        messageType (c.before.arrived F).parser.parserReceivedDataPtr = parserMessageShutdown ∨
      c.before.state = .shutdown ∧ Drained c.before.context)

/-- Nothing is queued once a shutdown is reported, and the flags are those last computed. -/
structure Closed (s : System) : Prop where
  proper : (sessionOf s.context).Proper
  drained : s.common.commonFlagShutdownReceived = true → s.messages = []
  flags : writerFlagsField s.file = s.inserter.writerFlagsPrevious

section Closed
variable {u : Unset} {cs : List Call} {s s' : System} {c : Call}

theorem closed_initial (u : Unset) : Closed (initial u) := by
  refine ⟨proper_initial u, fun _ => initial_messages u, ?_⟩
  obtain ⟨m, hm⟩ : ∃ m : Memory UInt8, (initial u).file =
      m.store writerFlagsPosition (leBytes 4 0) := ⟨_, rfl⟩
  have hload := load_store_self m writerFlagsPosition (leBytes 4 0)
  rw [leBytes_length] at hload
  rw [writerFlagsField, hm, hload]
  rfl

theorem Closed.calm (h : Closed s) (hcalm : Calm s s') (hmessages : s'.messages = s.messages) :
    Closed s' := by
  have hshutdown : s'.common.commonFlagShutdownReceived = s.common.commonFlagShutdownReceived :=
    congrArg Session.shutdownReceived hcalm.session
  exact ⟨hcalm.session.symm ▸ h.proper,
    fun hset => hmessages.trans (h.drained (hshutdown.symm.trans hset)),
    hcalm.flags.trans (h.flags.trans hcalm.previous.symm)⟩

theorem Closed.insert (h : Closed s) (hwell : Well s) {now : UInt64}
    (hnext : Next s (.insert now) s') : Closed s' := by
  obtain ⟨hcommon, hsession, hprevious, hfile⟩ := insert_step hnext
  have hmessages := step_messages (c := ⟨s, .insert now⟩) hwell rfl hnext
  refine ⟨hsession.symm ▸ h.proper, fun hset => ?_, ?_⟩
  · rw [hcommon] at hset
    rw [h.drained hset] at hmessages
    exact (List.append_eq_nil_iff.mp hmessages).2
  · rw [hfile, hprevious, (turnStores_fields _ _ _ _ _).1]
    split_ifs with hsame
    · exact h.flags.trans hsame
    · rfl

theorem grammar_of_accepted (hwell : Well s) {F : List UInt8} (hF : takenFrame s.context = some F)
    (ha : Accepted (s.arrived F)) :
    ∃ blocks, Grammar (payload (s.common.flag flagGetTiming) F) blocks := by
  exact ((accepted_iff s.context s.context.ring0 (takenFrame_short hwell hF)).mp ha).1

theorem Call.Late.accepted (hwell : Well c.before) {F : List UInt8} (h : c.Late F) :
    Accepted (c.before.arrived F) ∧ c.before.state ≠ .session ∧
      (c.before.state = .startup → c.before.common.commonFlagShutdownReceived = true) := by
  obtain ⟨htaken, hgrammar, hstate⟩ := h
  have hlength := takenFrame_length hwell F htaken
  have hsession : c.before.state ≠ .session ∧
      (c.before.state = .startup → c.before.common.commonFlagShutdownReceived = true) := by
    obtain ⟨hstate, hset, -⟩ | ⟨hstate, -⟩ := hstate
    · exact ⟨by simp [hstate], fun _ => hset⟩
    · exact ⟨by simp [hstate], by simp [hstate]⟩
  exact ⟨(accepted_iff c.before.context c.before.context.ring0
    (Nat.lt_of_le_of_lt hlength (by decide))).mpr ⟨hgrammar, fun hf => hsession.1 hf.1⟩, hsession⟩

theorem Closed.parse (h : Closed s) (hwell : Well s) (hlate : ∀ F, ¬Call.Late ⟨s, .parse⟩ F)
    (hnext : Next s .parse s') : Closed s' := by
  obtain ⟨hstep, hinserter, hfile, -⟩ := parse_step hnext
  refine ⟨h.proper.step hstep, fun hset => ?_, by rw [hfile, hinserter]; exact h.flags⟩
  change (sessionOf s'.context).shutdownReceived = true at hset
  obtain ⟨hnone, hsame⟩ | ⟨F, hF, hsession⟩ := parse_next hnext
  · rw [hsame] at hset
    rw [(parse_idle hwell hnone hnext).2.1]
    exact h.drained hset
  have htaken : F ∈ Call.taken ⟨s, .parse⟩ := by simp [Call.taken_some hF]
  have hquiet : ¬Accepted (s.arrived F) → s.messages = [] → s'.messages = [] := by
    intro hno hempty
    have hblocks : blocksFor s.context F = [] := if_neg hno
    rw [(parse_frame hwell hF hnext).2.1, hempty, hblocks]
    rfl
  rw [hsession, nextSession] at hset
  split_ifs at hset with hheaded
  · cases hstate : s.state with
    | startup =>
      have hbefore : (sessionOf (s.arrived F)).parserState.state = .startup := hstate
      rw [Session.next_startup hbefore] at hset
      split_ifs at hset with htype
      exact hquiet (fun ha => hlate F ⟨htaken, grammar_of_accepted hwell hF ha,
        .inl ⟨hstate, hset, not_not.mp htype⟩⟩) (h.drained hset)
    | session =>
      have hbefore : (sessionOf (s.arrived F)).parserState.state = .session := hstate
      have hset' : (sessionOf s.context).shutdownReceived = true := by
        rw [Session.next_session hbefore] at hset
        split_ifs at hset
        · exact hset
        · exact hset
      cases hstate.symm.trans (h.proper.shutdown hset')
    | shutdown =>
      have hbefore : (sessionOf (s.arrived F)).parserState.state = .shutdown := hstate
      rw [Session.next_shutdown hbefore] at hset
      split_ifs at hset with hdrained
      · have hd : Drained s.context := of_decide_eq_true hdrained
        obtain ⟨R, h1⟩ := hwell.ring1
        exact hquiet (fun ha => hlate F ⟨htaken, grammar_of_accepted hwell hF ha,
          .inr ⟨hstate, hd⟩⟩) ((drained_iff h1).mp hd)
      · cases hstate.symm.trans (h.proper.shutdown hset)
  · exact hquiet (fun ha => hheaded ⟨ha.1.1, ha.1.2.1⟩) (h.drained hset)

theorem Closed.step (h : Closed s) (hwell : Well s) (hbefore : c.before = s)
    (hlate : ∀ F, ¬c.Late F) (hnext : Next s c.action s') : Closed s' := by
  have hmessages := step_messages hwell hbefore hnext
  obtain ⟨before, action⟩ := c
  obtain rfl : before = s := hbefore
  cases action with
  | receive events => exact h.calm (calm_receive hnext) (hmessages.trans (List.append_nil _))
  | parse => exact h.parse hwell hlate hnext
  | insert now => exact h.insert hwell hnext
  | writeTimestamp now => exact h.calm (calm_writeTimestamp hnext) (hmessages.trans (List.append_nil _))
  | readKeyboardInput key =>
    exact h.calm (calm_readKeyboardInput hnext) (hmessages.trans (List.append_nil _))

theorem Closed.fileAfter (h : Closed c.before) (hwell : Well c.before) (k : Nat)
    (hflag : writerFlagsField (c.fileAfter k) &&& writerFlagsShutdown ≠ 0) :
    ∀ i, commitSequencePosition ≤ i → (c.fileAfter k).cell i = c.before.file.cell i := by
  intro i hi
  have hbefore : (∀ st ∈ c.stores, Before st) → (c.fileAfter k).cell i = c.before.file.cell i :=
    fun hall => applyAll_before _ (fun st hst => hall st (List.mem_of_mem_take hst)) hi
  cases htime : c.action.insertTime with
  | none => exact hbefore fun st hst => (stores_aside htime st hst).2
  | some now =>
    obtain ⟨before, action⟩ := c
    obtain rfl : action = .insert now := Action.eq_insert htime
    cases hshutdown : before.common.commonFlagShutdownReceived with
    | true =>
      have hempty : before.next = [] := by rw [System.next, h.drained hshutdown]; rfl
      rw [insert_stores hwell, hempty] at hbefore
      exact hbefore (turnStores_empty _ _ _)
    | false =>
      have hopen : flagsOf before.common &&& writerFlagsShutdown = 0 := by
        rw [flagsOf, hshutdown]
        decide
      have htake := turnStores_take before.common now before.next before.inserter before.file k
      simp only [Call.fileAfter, insert_stores hwell] at hflag ⊢
      split_ifs at htake with hsame hone
      · rw [(Prod.mk.inj htake).1, h.flags] at hflag
        cases hsame with
        | inl hprevious => exact absurd hopen (hprevious ▸ hflag)
        | inr hzero => rw [hzero, List.take_zero, applyAll_nil]
      · exact absurd hopen ((Prod.mk.inj htake).1 ▸ hflag)
      · exact absurd hopen ((Prod.mk.inj htake).1 ▸ hflag)

theorem closed_run (h : Run Step (initial u) cs s) (hlate : ∀ c ∈ cs, ∀ F, ¬c.Late F) :
    ∀ c ∈ cs, Closed c.before := by
  refine ((run_invariant (fun cs s => (∀ c ∈ cs, ∀ F, ¬c.Late F) →
    (∀ c ∈ cs, Closed c.before) ∧ Closed s) ?_ ?_ h).2 hlate).1
  · exact fun _ => ⟨by simp, closed_initial u⟩
  · intro cs s c s' hwell hinv hbefore _ hnext hlate
    obtain ⟨hcalls, hclosed⟩ := hinv fun d hd => hlate d (List.mem_append_left _ hd)
    refine ⟨fun d hd => ?_, hclosed.step hwell hbefore (hlate c (by simp)) hnext⟩
    obtain hd | hd := List.mem_append.mp hd
    · exact hcalls d hd
    · obtain rfl := List.mem_singleton.mp hd
      exact hbefore ▸ hclosed

end Closed

end UdpSm.Pipeline

namespace UdpSm.UDPJubmoFrameReceiverImplementation
open Lib Memory Pipeline InserterImplementation
open ParserImplementation hiding iterate Context constructed Turned
open NetworkReceiverImplementationEFVI (packetEvent)

section Shutdown
variable {u : Unset} {rs : List Round} {p : Program}

/-- Without late frames nothing is appended while the shutdown flag is set. -/
theorem shutdown_appends_nothing (h : Run Turned (start u) rs p)
    (hlate : ∀ c ∈ calls rs, ∀ F, ¬c.Late F) : ∀ c ∈ calls rs, ∀ k,
      writerFlagsField (c.fileAfter k) &&& writerFlagsShutdown ≠ 0 →
        commitSequence (c.fileAfter k) = commitSequence c.before.file ∧
        ∀ i, commitSequencePosition ≤ i → (c.fileAfter k).cell i = c.before.file.cell i := by
  intro c hc k hflag
  have hclosed := closed_run (loop_run h) hlate c hc
  have hcells := hclosed.fileAfter (run_calls (loop_run h) c hc).1 k hflag
  refine ⟨?_, hcells⟩
  rw [commitSequence, commitSequence, load_congr fun i hi _ => hcells i hi]

theorem shutdown_appends_nothing_malformed : ∃ rs p, Run Turned (start blank) rs p ∧
    writerFlagsField p.system.file &&& writerFlagsShutdown ≠ 0 ∧
    ∀ c ∈ calls rs, ∀ k, writerFlagsField (c.fileAfter k) &&& writerFlagsShutdown ≠ 0 →
      commitSequence (c.fileAfter k) = commitSequence c.before.file ∧
      ∀ i, commitSequencePosition ≤ i → (c.fileAfter k).cell i = c.before.file.cell i := by
  obtain ⟨rs, p, hrun, hlook⟩ := exists_loop (p := start blank)
    [⟨[packetEvent (sessionFrame 0 [1, 2, 3, 4, 5, 6, 7, 8])], 0, none⟩, ⟨[], 0, none⟩, ⟨[], 0, none⟩,
      ⟨[packetEvent (sessionFrame 1 [1, 2, 3, 4, 5, 6, 7, 8])], 0, none⟩,
      ⟨[packetEvent (frameOf 0 [1, 2, 3, 4, 5, 6, 7, 8] 1 [versionTwoBlock])], 0, none⟩,
      ⟨[], 0, none⟩]
    (fun r => (writerFlagsField r.1.system.file, (calls r.2).all fun c => c.taken.all fun F =>
      ¬Accepted (c.before.arrived F) ∨ c.before.state = .session ∨
        c.before.state = .startup ∧ c.before.common.commonFlagShutdownReceived = false))
    (v := (5, true)) (by decide +kernel)
  obtain ⟨hflags, hall⟩ := Prod.mk.inj hlook
  refine ⟨rs, p, hrun, by rw [hflags]; decide,
    shutdown_appends_nothing hrun fun c hc F hlate => ?_⟩
  obtain ⟨haccepted, hsession, hstartup⟩ := hlate.accepted (run_calls (loop_run hrun) c hc).1
  have htaken := List.all_eq_true.mp (List.all_eq_true.mp hall c hc) F hlate.1
  simp only [decide_eq_true_eq] at htaken
  obtain hno | hstate | ⟨hstate, hunset⟩ := htaken
  · exact hno haccepted
  · exact hsession hstate
  · rw [hstartup hstate] at hunset
    cases hunset

/-- The frame that takes the parser out of its shutdown is forwarded, and appended under the flag. -/
theorem appended_after_shutdown : ∃ rs p c k, Run Turned (start blank) rs p ∧ c ∈ calls rs ∧
    k ≤ c.stores.length ∧ writerFlagsField (c.fileAfter k) &&& writerFlagsShutdown ≠ 0 ∧
    commitSequence c.before.file = 2 ∧ commitSequence (c.fileAfter k) = 3 := by
  obtain ⟨rs, p, hrun, hlook⟩ := exists_loop (p := start blank)
    [⟨[packetEvent (sessionFrame 0 [1, 2, 3, 4, 5, 6, 7, 8])], 0, none⟩, ⟨[], 0, none⟩, ⟨[], 0, none⟩,
      ⟨[packetEvent (sessionFrame 1 [1, 2, 3, 4, 5, 6, 7, 8])], 0, none⟩,
      ⟨[packetEvent (sessionFrame 0 [1, 2, 3, 4, 5, 6, 7, 8])], 0, none⟩, ⟨[], 0, none⟩]
    (fun r => (calls r.2)[12]?.map fun (c : Call) => (writerFlagsField (c.fileAfter c.stores.length),
      commitSequence c.before.file, commitSequence (c.fileAfter c.stores.length)))
    (v := some (5, 2, 3)) (by decide +kernel)
  obtain ⟨c, hc, hcall⟩ := Option.map_eq_some_iff.mp hlook
  simp only [Prod.mk.injEq] at hcall
  obtain ⟨hflags, hbefore, hafter⟩ := hcall
  exact ⟨rs, p, c, c.stores.length, hrun, List.mem_of_getElem? hc, Nat.le_refl _,
    by rw [hflags]; decide, hbefore, hafter⟩

end Shutdown

end UdpSm.UDPJubmoFrameReceiverImplementation
