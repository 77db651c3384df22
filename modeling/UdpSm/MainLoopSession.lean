import UdpSm.PipelineFields
import UdpSm.UDPJubmoFrameReceiverImplementation

/-! The session in shared memory along the runs of the main loop. -/
namespace UdpSm.UDPJubmoFrameReceiverImplementation
open Lib Memory Pipeline InserterImplementation
open ParserImplementation (Session sessionOf sessionIdVal frameOf emptyBlock)
open NetworkReceiverImplementationEFVI (packetEvent)

/-- The session id field holds the id of the session whenever the flags are up to date. -/
structure Follows (p : Program) : Prop where
  proper : (sessionOf p.system.context).Proper
  started : p.streamState ≠ .waitForSession → p.system.common.applicationRunFlag = true →
    p.system.state = .startup → p.system.common.commonFlagShutdownReceived = true
  waiting : p.streamState ≠ .inSession → p.system.inserter.writerFlagsPrevious = 0
  field : p.system.inserter.writerFlagsPrevious = flagsOf p.system.common →
    writerSessionIdField p.system.file = p.system.common.commonValueSessionId

section Follows
variable {u : Unset} {rs : List Round} {p p' : Program} {t : Turn} {cs : List Call} {s s' : System}

theorem flagsOf_session {s s' : System} (h : sessionOf s'.context = sessionOf s.context) :
    flagsOf s'.common = flagsOf s.common ∧ s'.state = s.state ∧
      s'.common.commonFlagShutdownReceived = s.common.commonFlagShutdownReceived ∧
      s'.common.commonValueSessionId = s.common.commonValueSessionId := by
  have hshutdown : s'.common.commonFlagShutdownReceived = s.common.commonFlagShutdownReceived :=
    congrArg Session.shutdownReceived h
  refine ⟨?_, congrArg (fun x => x.parserState.state) h, hshutdown,
    congrArg Session.valueSessionId h⟩
  rw [flagsOf, flagsOf, hshutdown]

theorem Follows.calm (h : Follows p) (hcalm : Calm p.system s') :
    Follows { p with system := s' } := by
  obtain ⟨hflags, hstate, hshutdown, hvalue⟩ := flagsOf_session hcalm.session
  constructor
  · exact hcalm.session.symm ▸ h.proper
  · intro hwait hrun hstartup
    exact hshutdown.trans (h.started hwait (hcalm.run hrun) (hstate.symm.trans hstartup))
  · intro hin
    exact hcalm.previous.trans (h.waiting hin)
  · intro hprevious
    rw [hcalm.sessionId, hvalue]
    exact h.field (hcalm.previous.symm.trans (hprevious.trans hflags))

theorem Follows.insert (h : Follows p) {now : UInt64} (hnext : Next p.system (.insert now) s') :
    writerSessionIdField s'.file = s'.common.commonValueSessionId := by
  obtain ⟨hcommon, -, -, hfile⟩ := insert_step hnext
  rw [hfile, hcommon, (turnStores_fields p.system.common now _ _ p.system.file).2]
  split_ifs with hprevious
  · exact h.field hprevious
  · rfl

/-- The parser changes the session only together with the flags that go with it. -/
theorem Follows.parse (h : Follows p)
    (hcurrent : p.system.inserter.writerFlagsPrevious = flagsOf p.system.common ∧
        (p.system.state = .startup → p.system.common.commonFlagShutdownReceived = true) ∨
      p.system.inserter.writerFlagsPrevious = 0)
    (hnext : Next p.system .parse s') : Follows { p with system := s' } := by
  obtain ⟨hstep, hinserter, hfile, hrun⟩ := parse_step hnext
  refine ⟨h.proper.step hstep, ?_, fun hin => hinserter ▸ h.waiting hin, ?_⟩
  · intro hwait hrun' hstartup
    have hstarted := h.started hwait (hrun ▸ hrun')
    generalize hx : sessionOf s'.context = x at hstep
    have hstate : x.parserState.state = .startup :=
      (congrArg (fun x => x.parserState.state) hx).symm.trans hstartup
    have hshutdown : s'.common.commonFlagShutdownReceived = x.shutdownReceived :=
      congrArg Session.shutdownReceived hx
    rw [hshutdown]
    cases hstep with
    | stay => exact hstarted hstate
    | adopt => cases hstate
    | close => cases hstate
    | drain => rfl
  · intro hprevious
    rw [hinserter] at hprevious
    change p.system.inserter.writerFlagsPrevious = flagsOf s'.common at hprevious
    cases hcurrent with
    | inr hzero => exact absurd (hprevious.symm.trans hzero) (flagsOf_ne_zero _)
    | inl hcurrent =>
      have hsame := flagsOf_inj (hcurrent.1.symm.trans hprevious)
      have hbefore := h.field hcurrent.1
      generalize hx : sessionOf s'.context = x at hstep
      have hshutdown : s'.common.commonFlagShutdownReceived = x.shutdownReceived :=
        congrArg Session.shutdownReceived hx
      have hvalue : s'.common.commonValueSessionId = x.valueSessionId :=
        congrArg Session.valueSessionId hx
      change writerSessionIdField s'.file = s'.common.commonValueSessionId
      rw [hfile, hvalue, hbefore]
      cases hstep with
      | stay => rfl
      | adopt hstartup id =>
        have hset := hcurrent.2 hstartup
        rw [hsame, hshutdown] at hset
        cases hset
      | close => rfl
      | drain hstate => rfl

theorem follows_start (u : Unset) : Follows (start u) := by
  have hprevious : (start u).system.inserter.writerFlagsPrevious = 0 := rfl
  exact ⟨proper_initial u, fun hwait => absurd rfl hwait, fun _ => hprevious,
    fun hflags => absurd (hflags.symm.trans hprevious) (flagsOf_ne_zero _)⟩

theorem Follows.turn (h : Follows p) (heffect : Effect p t p' cs) : Follows p' ∧
    ∀ c ∈ cs, ∀ now s', c.action = .insert now → perform c.before c.action = .ok s' →
      writerSessionIdField s'.file = s'.common.commonValueSessionId := by
  cases heffect with
  | leave hstate hdone =>
    refine ⟨⟨h.proper, ?_, fun _ => h.waiting (by simp [hstate]), h.field⟩, by simp⟩
    intro _ hrun hstartup
    have hreceived := h.proper.received.mpr hstartup
    have hdone : (sessionOf p.system.context).sessionIdReceived = true := (hdone hrun).2
    rw [hdone] at hreceived
    cases hreceived
  | enter hstate hrun =>
    refine ⟨⟨h.proper, fun _ => h.started (by simp [hstate]), fun hin => absurd rfl hin, h.field⟩, by simp⟩
  | still hstate => exact ⟨h, by simp⟩
  | stop s1 s2 s3 hstate hwait h1 h2 h3 =>
    have hcalm := ((calm_readKeyboardInput h1.next).trans (calm_writeTimestamp h2.next)).trans
      (calm_receive h3.next)
    exact ⟨h.calm hcalm, by simp⟩
  | wait s1 s2 s3 s4 hstate hwait h1 h2 h3 h4 =>
    have hcalm := ((calm_readKeyboardInput h1.next).trans (calm_writeTimestamp h2.next)).trans
      (calm_receive h3.next)
    have h' := h.calm hcalm
    exact ⟨h'.parse (.inr (h'.waiting (by simp [hstate]))) h4.next, by simp⟩
  | session s1 s2 s3 s4 hstate hrun h1 h2 h3 h4 =>
    have hfield := h.insert h1.next
    obtain ⟨hcommon, hsession, hprevious, -⟩ := insert_step h1.next
    have hinsert : Follows { p with system := s1 } := by
      refine ⟨hsession ▸ h.proper, fun hwait _ hstartup => ?_, fun hin => absurd hstate hin,
        fun _ => hfield⟩
      obtain ⟨-, hsame, hshutdown, -⟩ := flagsOf_session hsession
      exact hshutdown.trans (h.started hwait hrun (hsame.symm.trans hstartup))
    have hreceive := hinsert.calm (calm_receive h2.next)
    have hcurrent : s2.inserter.writerFlagsPrevious = flagsOf s2.common := by
      rw [(calm_receive h2.next).previous, hprevious,
        (flagsOf_session (calm_receive h2.next).session).1, hcommon]
    have hstarted : s2.state = .startup → s2.common.commonFlagShutdownReceived = true := by
      obtain ⟨-, hsame, hshutdown, -⟩ :=
        flagsOf_session ((calm_receive h2.next).session.trans hsession)
      intro hstartup
      exact hshutdown.trans (h.started (by simp [hstate]) hrun (hsame.symm.trans hstartup))
    have hparse := hreceive.parse (.inl ⟨hcurrent, hstarted⟩) h3.next
    refine ⟨hparse.calm (calm_readKeyboardInput h4.next), ?_⟩
    intro c hc now s' haction hok
    simp only [List.mem_cons, List.not_mem_nil, or_false] at hc
    obtain rfl | rfl | rfl | rfl := hc
    · rw [h1.ok] at hok
      obtain rfl := Except.ok.inj hok
      exact hfield
    · cases haction
    · cases haction
    · cases haction

/-- Right after every call of the inserter the field of the control block is the session's id. -/
theorem session_id_follows (h : Run Turned (start u) rs p) : ∀ c ∈ calls rs, ∀ now s',
    c.action = .insert now → perform c.before c.action = .ok s' →
      writerSessionIdField s'.file = s'.common.commonValueSessionId := by
  refine (loop_invariant (fun rs p => Follows p ∧ ∀ c ∈ calls rs, ∀ now s', c.action = .insert now →
    perform c.before c.action = .ok s' →
      writerSessionIdField s'.file = s'.common.commonValueSessionId)
    ⟨follows_start u, by simp [calls]⟩ ?_ h).2.2
  rintro rs p r p' - ⟨hfollows, hcalls⟩ heffect
  obtain ⟨hfollows', hround⟩ := hfollows.turn heffect
  refine ⟨hfollows', fun c hc => ?_⟩
  have happend : calls (rs ++ [r]) = calls rs ++ r.calls := by simp [calls]
  rw [happend] at hc
  obtain hc | hc := List.mem_append.mp hc
  · exact hcalls c hc
  · exact hround c hc

def sessionFrame (type : UInt8) (sessionIdVal : List UInt8) : List UInt8 :=
  frameOf type sessionIdVal 1 [emptyBlock]

theorem session_id_follows_one_session : ∃ rs p c now s', Run Turned (start blank) rs p ∧
    c ∈ calls rs ∧ c.action = .insert now ∧ perform c.before c.action = .ok s' ∧
    s'.common.commonValueSessionId = 0x0807060504030201 ∧
    writerSessionIdField s'.file = s'.common.commonValueSessionId := by
  obtain ⟨rs, p, hrun, hlook⟩ := exists_loop (p := start blank)
    [⟨[packetEvent (sessionFrame 0 [1, 2, 3, 4, 5, 6, 7, 8])], 0, none⟩, ⟨[], 0, none⟩, ⟨[], 0, none⟩,
      ⟨[], 0, none⟩]
    (fun r => (calls r.2)[4]?.map fun c => (c.action.insertTime,
      (perform c.before c.action).toOption.map fun s' => s'.common.commonValueSessionId))
    (v := some (some 0, some 0x0807060504030201)) (by decide +kernel)
  obtain ⟨c, hc, hcall⟩ := Option.map_eq_some_iff.mp hlook
  obtain ⟨hinsert, hvalue⟩ := Prod.mk.inj hcall
  obtain ⟨s', hok, hsession⟩ := Option.map_eq_some_iff.mp hvalue
  have haction := Action.eq_insert hinsert
  have hperform := ok_of_toOption hok
  have hmem := List.mem_of_getElem? hc
  exact ⟨rs, p, c, 0, s', hrun, hmem, haction, hperform, hsession,
    session_id_follows hrun c hmem 0 s' haction hperform⟩

end Follows

/-! What a reader sees between two stores. -/

def Coherent (c : CommonData) (file : Memory UInt8) : Prop :=
  writerFlagsField file &&& writerFlagsInSession ≠ 0 → c.commonFlagSessionIdReceived = true →
    writerSessionIdField file = c.commonValueSessionId

section Coherent
variable {u : Unset} {rs : List Round} {p : Program}

/-- The flags go out before the id, so it has to be there before its session starts. -/
theorem in_session_coherent (h : Run Turned (start u) rs p)
    (hids : ∀ c ∈ calls rs, ∀ F, c.Adopts F →
      sessionIdVal (c.before.arrived F).parser.parserReceivedDataPtr =
        writerSessionIdField c.before.file) :
    (∀ c ∈ calls rs, ∀ k, Coherent c.before.common (c.fileAfter k)) ∧
      Coherent p.system.common p.system.file := by
  obtain ⟨hcalls, hend⟩ := current_run (loop_run h) hids
  exact ⟨fun c hc k _ => hcalls c hc k, fun _ => hend⟩

end Coherent

theorem in_session_coherent_zero : ∃ rs p, Run Turned (start blank) rs p ∧
    p.system.common.commonFlagSessionIdReceived = true ∧
    writerFlagsField p.system.file &&& writerFlagsInSession ≠ 0 ∧
    (∀ c ∈ calls rs, ∀ k, Coherent c.before.common (c.fileAfter k)) ∧
      Coherent p.system.common p.system.file := by
  obtain ⟨rs, p, hrun, hlook⟩ := exists_loop (p := start blank)
    [⟨[packetEvent (sessionFrame 0 (List.replicate 8 0))], 0, none⟩, ⟨[], 0, none⟩, ⟨[], 0, none⟩,
      ⟨[], 0, none⟩]
    (fun r => (r.1.system.common.commonFlagSessionIdReceived, writerFlagsField r.1.system.file,
      (calls r.2).all fun c => c.taken.all fun F =>
        sessionIdVal (c.before.arrived F).parser.parserReceivedDataPtr =
          writerSessionIdField c.before.file))
    (v := (true, 3, true)) (by decide +kernel)
  simp only [Prod.mk.injEq] at hlook
  obtain ⟨hreceived, hflags, hall⟩ := hlook
  refine ⟨rs, p, hrun, hreceived, by rw [hflags]; decide,
    in_session_coherent hrun fun c hc F hadopts => ?_⟩
  have htaken := List.all_eq_true.mp hall c hc
  simpa using List.all_eq_true.mp htaken F hadopts.1

/-- After its first store the inserter shows the new flags with the old id. -/
theorem new_session_incoherent : ∃ rs p c k, Run Turned (start blank) rs p ∧ c ∈ calls rs ∧
    k ≤ c.stores.length ∧ ¬Coherent c.before.common (c.fileAfter k) := by
  obtain ⟨rs, p, hrun, hlook⟩ := exists_loop (p := start blank)
    [⟨[packetEvent (sessionFrame 0 [1, 2, 3, 4, 5, 6, 7, 8])], 0, none⟩, ⟨[], 0, none⟩, ⟨[], 0, none⟩,
      ⟨[], 0, none⟩]
    (fun r => (calls r.2)[4]?.map fun (c : Call) => (decide (1 ≤ c.stores.length),
      writerFlagsField (c.fileAfter 1), c.before.common.commonFlagSessionIdReceived,
      writerSessionIdField (c.fileAfter 1), c.before.common.commonValueSessionId))
    (v := some (true, 3, true, 0, 0x0807060504030201)) (by decide +kernel)
  obtain ⟨c, hc, hcall⟩ := Option.map_eq_some_iff.mp hlook
  simp only [Prod.mk.injEq] at hcall
  obtain ⟨hlength, hflags, hreceived, hfield, hvalue⟩ := hcall
  refine ⟨rs, p, c, 1, hrun, List.mem_of_getElem? hc, by simpa using hlength, fun hcoherent => ?_⟩
  have hsame := hcoherent (by rw [hflags]; decide) hreceived
  rw [hfield, hvalue] at hsame
  exact absurd hsame (by decide)

end UdpSm.UDPJubmoFrameReceiverImplementation
