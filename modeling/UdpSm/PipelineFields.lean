import UdpSm.PipelineSession

/-! What each call does to the session and to the fields of the control block. -/
namespace UdpSm.ParserImplementation

inductive Session.Step (x : Session) : Session → Prop where
  | stay : Session.Step x x
  | adopt (h : x.parserState.state = .startup) (id : UInt64) :
      Session.Step x ⟨⟨id, x.parserState.sessionIdVal, .session⟩, false, id, true⟩
  | close (h : x.parserState.state = .session) :
      Session.Step x { x with parserState.state := .shutdown }
  | drain (h : x.parserState.state = .shutdown) :
      Session.Step x ⟨⟨0, 0, .startup⟩, true, x.valueSessionId, false⟩

theorem Session.next_step (x : Session) (drained : Bool) (type : UInt8) (id : UInt64) :
    x.Step (x.next drained type id) := by
  cases hstate : x.parserState.state with
  | startup =>
    rw [next_startup hstate]
    split_ifs
    · exact .adopt hstate id
    · exact .stay
  | session =>
    rw [next_session hstate]
    split_ifs
    · exact .close hstate
    · exact .stay
  | shutdown =>
    rw [next_shutdown hstate]
    split_ifs
    · exact .drain hstate
    · exact .stay

theorem nextSession_step (y : Context) : (sessionOf y).Step (nextSession y) := by
  unfold nextSession
  split_ifs
  · exact Session.next_step _ _ _ _
  · exact .stay

/-- A session id is on hand outside startup only, and a shutdown reported in startup only. -/
structure Session.Proper (x : Session) : Prop where
  received : x.sessionIdReceived = false ↔ x.parserState.state = .startup
  shutdown : x.shutdownReceived = true → x.parserState.state = .startup

theorem Session.Proper.step {x y : Session} (h : x.Proper) (hstep : x.Step y) : y.Proper := by
  cases hstep with
  | stay => exact h
  | adopt hstate id => exact ⟨by simp, by simp⟩
  | close hstate =>
    have hreceived := h.received
    have hshutdown := h.shutdown
    rw [hstate] at hreceived hshutdown
    exact ⟨by simpa using hreceived, by simpa using hshutdown⟩
  | drain hstate => exact ⟨by simp, by simp⟩

end UdpSm.ParserImplementation

namespace UdpSm.Pipeline
open Lib Memory RingFIFOBuffer InserterImplementation
open ParserImplementation hiding iterate Context constructed
open NetworkReceiverImplementationEFVI (EfEvent)

theorem proper_initial (u : Unset) : (sessionOf (initial u).context).Proper := by
  have hsession : sessionOf (initial u).context = ⟨⟨0, 0, .startup⟩, false, 0, false⟩ := rfl
  rw [hsession]
  exact ⟨by simp, by simp⟩

def Action.insertTime : Action → Option UInt64
  | .insert now => some now
  | _ => none

theorem Action.eq_insert {a : Action} {now : UInt64} (h : a.insertTime = some now) :
    a = .insert now := by
  cases a with
  | insert t => exact congrArg Action.insert (Option.some.inj h)
  | _ => cases h

def Call.stores (c : Call) : List (Store UInt8) :=
  match c.action with
  | .insert now =>
    match InserterImplementation.iterate c.before.common now c.before.context.ring1.ringbuf
      c.before.inserter with
    | none => []
    | some (_, _, stores) => stores
  | .writeTimestamp now => (writeTimestampToSharedMemory c.before.common now c.before.inserter).2
  | _ => []

/-- The file after the first `k` stores of a call. -/
def Call.fileAfter (c : Call) (k : Nat) : Memory UInt8 := c.before.file.applyAll (c.stores.take k)

structure Calm (s s' : System) : Prop where
  session : sessionOf s'.context = sessionOf s.context
  previous : s'.inserter.writerFlagsPrevious = s.inserter.writerFlagsPrevious
  flags : writerFlagsField s'.file = writerFlagsField s.file
  sessionId : writerSessionIdField s'.file = writerSessionIdField s.file
  run : s'.common.applicationRunFlag = true → s.common.applicationRunFlag = true

theorem Calm.trans {s t v : System} (h : Calm s t) (h' : Calm t v) : Calm s v :=
  ⟨h'.session.trans h.session, h'.previous.trans h.previous, h'.flags.trans h.flags,
    h'.sessionId.trans h.sessionId, fun hrun => h.run (h'.run hrun)⟩

section Calls
variable {s s' : System} {now : UInt64}

theorem calm_receive {events : List EfEvent} (h : Next s (.receive events) s') : Calm s s' := by
  cases h with
  | receive events total run jumbo ring0 hrun hframes => exact ⟨rfl, rfl, rfl, rfl, hrun⟩

theorem calm_readKeyboardInput {key : Option Char} (h : Next s (.readKeyboardInput key) s') :
    Calm s s' := by
  cases h with
  | readKeyboardInput key flags threshold hkey => exact ⟨rfl, rfl, rfl, rfl, id⟩

theorem calm_writeTimestamp (h : Next s (.writeTimestamp now) s') : Calm s s' := by
  cases h with
  | writeTimestamp now =>
    obtain ⟨hflags, hsession⟩ := applyAll_aside s.file fun st hst =>
      (writeTimestamp_stores s.common now s.inserter st hst).1
    have hprevious := writeTimestamp_kept Inserter.writerFlagsPrevious (fun _ _ _ => rfl) s.common now
      s.inserter
    exact ⟨rfl, hprevious, hflags, hsession, id⟩

theorem parse_step (h : Next s .parse s') : (sessionOf s.context).Step (sessionOf s'.context) ∧
    s'.inserter = s.inserter ∧ s'.file = s.file ∧
    s'.common.applicationRunFlag = s.common.applicationRunFlag := by
  cases h with
  | parse R x ht =>
    cases ht with
    | idle hnone d n p hsnap hptr => exact ⟨.stay, rfl, rfl, rfl⟩
    | frame F ring0 hsome hrun hcapacity hlength hframes hring ht =>
      refine ⟨?_, rfl, rfl, ht.kept.2.2.2.2.1⟩
      rw [ht.session]
      exact nextSession_step (ParserImplementation.received s.context F ring0)

def System.next (s : System) : List UInt8 := s.messages.head?.getD []

theorem insert_step (h : Next s (.insert now) s') : s'.common = s.common ∧
    sessionOf s'.context = sessionOf s.context ∧
    s'.inserter.writerFlagsPrevious = flagsOf s.common ∧
    s'.file = s.file.applyAll (turnStores s.common now s.next s.inserter) := by
  cases h with
  | idle now hnone =>
    have hnext : s.next = [] := by rw [System.next, hnone]; rfl
    rw [hnext]
    exact ⟨rfl, rfl, timed_previous s.common now [] s.inserter, rfl⟩
  | insert now m ring hm =>
    have hnext : s.next = m := by rw [System.next, hm]; rfl
    rw [hnext]
    exact ⟨rfl, rfl, timed_previous s.common now m s.inserter, rfl⟩

theorem insert_stores (hwell : Well s) :
    Call.stores ⟨s, .insert now⟩ = turnStores s.common now s.next s.inserter := by
  obtain ⟨R, h1⟩ := hwell.ring1
  cases hq : s.messages with
  | nil =>
    rw [hq] at h1
    simp only [Call.stores, iterate_empty s.common now s.inserter h1, System.next, hq]
    rfl
  | cons m q =>
    rw [hq] at h1
    obtain ⟨ring, hiterate, -, -⟩ := iterate_cons s.common now s.inserter h1
    simp only [Call.stores, hiterate, System.next, hq]
    rfl

theorem parse_next (h : Next s .parse s') :
    takenFrame s.context = none ∧ sessionOf s'.context = sessionOf s.context ∨
    ∃ F, takenFrame s.context = some F ∧ sessionOf s'.context = nextSession (s.arrived F) := by
  cases h with
  | parse R x ht =>
    cases ht with
    | idle hnone d n p hsnap hptr => exact .inl ⟨hnone, rfl⟩
    | frame F ring0 hsome hrun hcapacity hlength hframes hring ht =>
      exact .inr ⟨F, hsome, ht.session⟩

theorem parse_idle (hwell : Well s) (hnone : takenFrame s.context = none) (h : Next s .parse s') :
    s'.frames = s.frames ∧ s'.messages = s.messages ∧ sessionOf s'.context = sessionOf s.context := by
  have hframes := step_frames (c := ⟨s, .parse⟩) rfl h
  have hmessages := step_messages (c := ⟨s, .parse⟩) hwell rfl h
  rw [Call.taken_none hnone] at hframes
  rw [Call.queued_none hnone] at hmessages
  refine ⟨hframes.trans (List.append_nil _), hmessages.trans (List.append_nil _), ?_⟩
  obtain ⟨-, hsession⟩ | ⟨F, hF, -⟩ := parse_next h
  · exact hsession
  · rw [hnone] at hF
    cases hF

theorem parse_frame (hwell : Well s) {F : List UInt8} (hF : takenFrame s.context = some F)
    (h : Next s .parse s') : F :: s'.frames = s.frames ∧
      s'.messages = s.messages ++ blocksFor s.context F ∧
      sessionOf s'.context = nextSession (s.arrived F) := by
  have hframes := step_frames (c := ⟨s, .parse⟩) rfl h
  have hmessages := step_messages (c := ⟨s, .parse⟩) hwell rfl h
  rw [Call.taken_some hF] at hframes
  rw [Call.queued_some hF] at hmessages
  refine ⟨hframes.trans (List.append_nil _), hmessages, ?_⟩
  obtain ⟨hnone, -⟩ | ⟨G, hG, hsession⟩ := parse_next h
  · rw [hF] at hnone
    cases hnone
  · rw [hF] at hG
    obtain rfl := Option.some.inj hG
    exact hsession

end Calls

/-! The fields after each store. -/
section Fields
variable {c : Call}

theorem stores_aside (hquiet : c.action.insertTime = none) :
    ∀ st ∈ c.stores, Aside st ∧ Before st := by
  obtain ⟨before, action⟩ := c
  cases action with
  | insert now => cases hquiet
  | writeTimestamp now => exact writeTimestamp_stores before.common now before.inserter
  | receive => simp [Call.stores]
  | parse => simp [Call.stores]
  | readKeyboardInput => simp [Call.stores]

/-- Only a turn of the inserter changes them, to the flags and the id of the session. -/
theorem fileAfter_fields (hwell : Well c.before) (k : Nat) :
    writerFlagsField (c.fileAfter k) = writerFlagsField c.before.file ∧
      writerSessionIdField (c.fileAfter k) = writerSessionIdField c.before.file ∨
    c.action.insertTime ≠ none ∧ k ≠ 0 ∧
      writerFlagsField (c.fileAfter k) = flagsOf c.before.common ∧
      (writerSessionIdField (c.fileAfter k) = writerSessionIdField c.before.file ∨
        writerSessionIdField (c.fileAfter k) = c.before.common.commonValueSessionId) := by
  cases htime : c.action.insertTime with
  | none =>
    exact .inl (applyAll_aside c.before.file fun st hst =>
      (stores_aside htime st (List.mem_of_mem_take hst)).1)
  | some now =>
    obtain ⟨before, action⟩ := c
    obtain rfl : action = .insert now := Action.eq_insert htime
    have htake := turnStores_take before.common now before.next before.inserter before.file k
    simp only [Call.fileAfter, insert_stores hwell]
    split_ifs at htake with hsame hone
    · exact .inl (Prod.mk.inj htake)
    · have hk : k ≠ 0 := fun h0 => hsame (.inr h0)
      obtain ⟨hflags, hsession⟩ := Prod.mk.inj htake
      exact .inr ⟨nofun, hk, hflags, .inl hsession⟩
    · have hk : k ≠ 0 := fun h0 => hsame (.inr h0)
      obtain ⟨hflags, hsession⟩ := Prod.mk.inj htake
      exact .inr ⟨nofun, hk, hflags, .inr hsession⟩

end Fields

/-! Sessions whose id is in the control block before they start. -/

def Call.Adopts (c : Call) (F : List UInt8) : Prop :=
  F ∈ c.taken ∧ Headed (c.before.arrived F) ∧ c.before.state = .startup ∧
    messageType (c.before.arrived F).parser.parserReceivedDataPtr ≠ parserMessageShutdown

def Current (s : System) (file : Memory UInt8) : Prop :=
  s.common.commonFlagSessionIdReceived = true →
    writerSessionIdField file = s.common.commonValueSessionId

section Current
variable {u : Unset} {cs : List Call} {s s' : System} {c : Call}

theorem Current.calm (h : Current s s.file) (hcalm : Calm s s') : Current s' s'.file := by
  intro hreceived
  have hsame : s'.common.commonFlagSessionIdReceived = s.common.commonFlagSessionIdReceived :=
    congrArg Session.sessionIdReceived hcalm.session
  have hvalue : s'.common.commonValueSessionId = s.common.commonValueSessionId :=
    congrArg Session.valueSessionId hcalm.session
  rw [hcalm.sessionId, hvalue]
  exact h (hsame.symm.trans hreceived)

theorem Current.parse (h : Current s s.file) (hnext : Next s .parse s')
    (hid : ∀ F, Call.Adopts ⟨s, .parse⟩ F →
      sessionIdVal (s.arrived F).parser.parserReceivedDataPtr = writerSessionIdField s.file) :
    Current s' s'.file := by
  obtain ⟨-, -, hfile, -⟩ := parse_step hnext
  intro hreceived
  change (sessionOf s'.context).sessionIdReceived = true at hreceived
  change writerSessionIdField s'.file = (sessionOf s'.context).valueSessionId
  rw [hfile]
  obtain ⟨-, hsame⟩ | ⟨F, hF, hsession⟩ := parse_next hnext
  · rw [hsame] at hreceived ⊢
    exact h hreceived
  rw [hsession, nextSession] at hreceived ⊢
  split_ifs at hreceived ⊢ with hheaded
  · cases hstate : s.state with
    | startup =>
      have hbefore : (sessionOf (s.arrived F)).parserState.state = .startup := hstate
      rw [Session.next_startup hbefore] at hreceived ⊢
      split_ifs at hreceived ⊢ with htype
      · exact (hid F ⟨by simp [Call.taken_some hF], hheaded, hstate, htype⟩).symm
      · exact h hreceived
    | session =>
      have hbefore : (sessionOf (s.arrived F)).parserState.state = .session := hstate
      rw [Session.next_session hbefore] at hreceived ⊢
      split_ifs at hreceived ⊢
      · exact h hreceived
      · exact h hreceived
    | shutdown =>
      have hbefore : (sessionOf (s.arrived F)).parserState.state = .shutdown := hstate
      rw [Session.next_shutdown hbefore] at hreceived ⊢
      split_ifs at hreceived ⊢
      · exact h hreceived
  · exact h hreceived

theorem Current.step (hwell : Well s) (h : Current s s.file) (hbefore : c.before = s)
    (hnext : Next s c.action s') (hid : ∀ F, c.Adopts F →
      sessionIdVal (s.arrived F).parser.parserReceivedDataPtr = writerSessionIdField s.file) :
    Current s' s'.file := by
  obtain ⟨before, action⟩ := c
  obtain rfl : before = s := hbefore
  cases action with
  | receive events => exact h.calm (calm_receive hnext)
  | parse => exact h.parse hnext hid
  | insert now =>
    obtain ⟨hcommon, -, -, hfile⟩ := insert_step hnext
    rw [Current, hcommon, hfile, (turnStores_fields _ _ _ _ _).2]
    intro hreceived
    split_ifs
    · exact h hreceived
    · rfl
  | writeTimestamp now => exact h.calm (calm_writeTimestamp hnext)
  | readKeyboardInput key => exact h.calm (calm_readKeyboardInput hnext)

theorem Current.fileAfter (hwell : Well c.before) (h : Current c.before c.before.file) (k : Nat) :
    Current c.before (c.fileAfter k) := by
  intro hreceived
  obtain ⟨-, hsession⟩ | ⟨-, -, -, hsession | hsession⟩ := fileAfter_fields hwell k
  · exact hsession.trans (h hreceived)
  · exact hsession.trans (h hreceived)
  · exact hsession

theorem current_run (h : Run Step (initial u) cs s) (hids : ∀ c ∈ cs, ∀ F, c.Adopts F →
      sessionIdVal (c.before.arrived F).parser.parserReceivedDataPtr =
        writerSessionIdField c.before.file) :
    (∀ c ∈ cs, ∀ k, Current c.before (c.fileAfter k)) ∧ Current s s.file := by
  refine (run_invariant (fun cs s => (∀ c ∈ cs, ∀ F, c.Adopts F →
      sessionIdVal (c.before.arrived F).parser.parserReceivedDataPtr =
        writerSessionIdField c.before.file) →
    (∀ c ∈ cs, ∀ k, Current c.before (c.fileAfter k)) ∧ Current s s.file) ?_ ?_ h).2 hids
  · exact fun _ => ⟨by simp, fun hreceived => by cases hreceived⟩
  · intro cs s c s' hwell hinv hbefore _ hnext hids
    obtain ⟨hcalls, hcurrent⟩ := hinv fun d hd => hids d (List.mem_append_left _ hd)
    have hid := hids c (by simp)
    subst hbefore
    refine ⟨fun d hd => ?_, hcurrent.step hwell rfl hnext hid⟩
    obtain hd | hd := List.mem_append.mp hd
    · exact hcalls d hd
    · obtain rfl := List.mem_singleton.mp hd
      exact hcurrent.fileAfter hwell

end Current

end UdpSm.Pipeline
