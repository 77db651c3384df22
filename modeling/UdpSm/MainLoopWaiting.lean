import UdpSm.ParserAccounting
import UdpSm.MainLoopSession

/-! Ring buffer 1 while the main loop waits for a session and nobody reads it. -/
namespace UdpSm.Pipeline
open Lib RingFIFOBuffer
open ParserImplementation hiding iterate Context constructed
open NetworkReceiverImplementationEFVI (jumboSize packetEvent Ready)

/-- The call takes a shutdown frame of the grammar before any session has started. -/
def Call.Unclaimed (c : Call) (F : List UInt8) : Prop :=
  F ∈ c.taken ∧ (∃ blocks, Grammar (payload c.timing F) blocks) ∧ c.before.state = .startup ∧
    c.before.common.commonFlagShutdownReceived = false ∧
    messageType (c.before.arrived F).parser.parserReceivedDataPtr = parserMessageShutdown

structure Unread (s : System) : Prop where
  size : s.context.ring1.ringbuf.ptr.size = 2097152
  holds : Holds s.context.ring1.ringbuf 0 s.messages
  counter : Exact s.context.ring1.ringbuf

/-- No session so far, or the first one with the messages of the frame that started it. -/
structure Awaiting (s : System) : Prop where
  unread : Unread s
  session : s.state = .startup ∧ s.common.commonFlagShutdownReceived = false ∧ s.messages = [] ∨
    s.common.commonFlagConnected = true ∧ s.common.commonFlagSessionIdReceived = true ∧
      queueEnd 2097152 0 s.messages ≤ 8 * jumboSize

section Awaiting
variable {u : Unset} {s s' : System}

theorem unread_initial (u : Unset) : Unread (initial u) := by
  have hempty := initial_messages u
  have hholds : Holds (initial u).context.ring1.ringbuf 0 [] := holds_initial
  refine ⟨initial_ring.2.2, by rw [hempty]; exact hholds, hholds.exact_iff.mpr ?_⟩
  rw [hholds.idle rfl]
  rfl

theorem Unread.capacity (h : Unread s) : (getCapacity s.context.ring1.ringbuf).1 =
    2097152 - queueEnd 2097152 0 s.messages := by
  have hbytes := h.holds.exact_iff.mp h.counter
  rw [h.size] at hbytes
  rw [h.holds.getCapacity_eq, h.size]
  omega

theorem Unread.kept (h : Unread s) (hring : s'.context.ring1 = s.context.ring1) : Unread s' := by
  have hmessages : s'.messages = s.messages := congrArg (fun (r : Ring) => contents r.ringbuf) hring
  exact ⟨hring ▸ h.size, by rw [hring, hmessages]; exact h.holds, hring ▸ h.counter⟩

theorem Unread.parse (hwell : Well s) (h : Unread s) (hok : perform s .parse = .ok s') :
    Unread s' := by
  obtain ⟨R0, h0⟩ := hwell.ring0
  obtain ⟨x, hx, rfl⟩ := map_ok hok
  have hcounter := iterate_exact h0 h.holds h.counter hx
  cases iterate_turned h0 h.holds hx with
  | idle hnone d n p hsnap hptr =>
    have hp := holds_of_kept h.holds hsnap hptr
    refine ⟨(congrArg Memory.size hptr).trans h.size, ?_, hcounter⟩
    rw [System.messages, hp.contents_eq]
    exact hp
  | frame F ring0 hsome hrun hcapacity hlength hframes hring ht =>
    have hholds := ht.holds h.holds
    refine ⟨ht.kept.2.2.2.1.trans h.size, ?_, hcounter⟩
    rw [System.messages, hholds.contents_eq]
    exact hholds

theorem blocksFor_end (x : ParserImplementation.Context) {F : List UInt8} (h : F.length ≤ jumboSize) :
    queueEnd 2097152 0 (blocksFor x F) ≤ 8 * jumboSize := by
  rw [blocksFor]
  split_ifs with ha
  · have hsizes : sizes (frameBlocks (ParserImplementation.received x F x.ring0)) =
        sizesOf (frameWalk (ParserImplementation.received x F x.ring0)) := by
      simp [sizes, sizesOf, frameBlocks, slice]
    have hend := ha.2.footprint_le 2097152 0
    have hpayload := received_length x x.ring0 (Nat.lt_of_le_of_lt h (by decide))
    have hle := frameLength_le (x.common.flag flagGetTiming) F.length
    rw [queueEnd, hsizes]
    omega
  · exact Nat.zero_le _

/-- A frame starts the session or leaves no messages, unless it is unclaimed. -/
theorem Unread.awaiting (h : Unread s) (hwell : Well s) (hstate : s.state = .startup)
    (hshutdown : s.common.commonFlagShutdownReceived = false) (hempty : s.messages = [])
    (hclaimed : ∀ F, ¬Call.Unclaimed ⟨s, .parse⟩ F) (hok : perform s .parse = .ok s')
    (hnext : Next s .parse s') : Awaiting s' := by
  have hunread := h.parse hwell hok
  have hmessages : s'.messages = s.messages ++ Call.queued ⟨s, .parse⟩ :=
    step_messages (c := ⟨s, .parse⟩) hwell rfl hnext
  rw [hempty, List.nil_append] at hmessages
  have hquiet : sessionOf s'.context = sessionOf s.context → Call.queued ⟨s, .parse⟩ = [] →
      Awaiting s' := by
    intro hsession hqueued
    obtain ⟨-, hstate', hshutdown', -⟩ := UDPJubmoFrameReceiverImplementation.flagsOf_session hsession
    exact ⟨hunread, .inl ⟨hstate'.trans hstate, hshutdown'.trans hshutdown, hmessages.trans hqueued⟩⟩
  obtain ⟨hnone, hsession⟩ | ⟨F, hF, hsession⟩ := parse_next hnext
  · exact hquiet hsession (Call.queued_none hnone)
  have hqueued : Call.queued ⟨s, .parse⟩ = blocksFor s.context F := Call.queued_some hF
  have htaken : F ∈ Call.taken ⟨s, .parse⟩ := by simp [Call.taken_some hF]
  have hlength := takenFrame_length (c := ⟨s, .parse⟩) hwell F htaken
  have hbefore : (sessionOf (s.arrived F)).parserState.state = .startup := hstate
  rw [nextSession, Session.next_startup hbefore] at hsession
  by_cases hadopts : Headed (s.arrived F) ∧
      messageType (s.arrived F).parser.parserReceivedDataPtr ≠ parserMessageShutdown
  · rw [if_pos hadopts.1, if_pos hadopts.2] at hsession
    refine ⟨hunread, .inr ⟨?_, congrArg Session.sessionIdReceived hsession, ?_⟩⟩
    · obtain ⟨R, ring0, x, rfl, -, ht⟩ := parse_taken hwell hok hF
      rw [takenFrame] at hF
      split_ifs at hF with hguard
      exact ht.kept.2.2.2.2.2.1.trans hguard.2.2
    · rw [hmessages, hqueued]
      exact blocksFor_end s.context hlength
  · have hrefused : ¬Accepted (s.arrived F) := by
      intro ha
      have htype := not_not.mp fun htype => hadopts ⟨⟨ha.1.1, ha.1.2.1⟩, htype⟩
      exact hclaimed F ⟨htaken, ((accepted_iff s.context s.context.ring0
        (takenFrame_short hwell hF)).mp ha).1, hstate, hshutdown, htype⟩
    have hsame : sessionOf s'.context = sessionOf s.context := by
      rw [hsession]
      split_ifs with hheaded htype
      · exact absurd ⟨hheaded, htype⟩ hadopts
      · rfl
      · rfl
    exact hquiet hsame (hqueued.trans (if_neg hrefused))

theorem Awaiting.receive (h : Unread s) {key : Option Char} {now : UInt64}
    {events : List NetworkReceiverImplementationEFVI.EfEvent} {s1 s2 : System}
    (h1 : Next s (.readKeyboardInput key) s1) (h2 : Next s1 (.writeTimestamp now) s2)
    (h3 : Next s2 (.receive events) s') : Unread s' ∧ s'.messages = s.messages ∧
      sessionOf s'.context = sessionOf s.context := by
  have hring : s'.context.ring1 = s.context.ring1 := by
    cases h1 with
    | readKeyboardInput =>
      cases h2 with
      | writeTimestamp =>
        cases h3 with
        | receive => rfl
  have hcalm := ((calm_readKeyboardInput h1).trans (calm_writeTimestamp h2)).trans (calm_receive h3)
  exact ⟨h.kept hring, congrArg (fun (r : Ring) => contents r.ringbuf) hring, hcalm.session⟩

end Awaiting

/-! Shutdown frames that fill ring buffer 1. -/

def floodBlock : List UInt8 := [35, 14, 28, 1] ++ List.replicate 8972 0

def floodFrame : List UInt8 := frameOf parserMessageShutdown (List.replicate 8 0) 1 [floodBlock]

theorem floodBlock_length : floodBlock.length = 8976 := by
  rw [floodBlock, List.length_append, List.length_replicate]
  rfl

theorem grammar_floodFrame : Grammar floodFrame [floodBlock] := by
  refine grammar_frameOf parserMessageShutdown 1 (List.length_replicate ..) (by simp) (by simp) ?_
  intro b hb
  obtain rfl := List.mem_singleton.mp hb
  refine ⟨?_, ⟨28, rfl, .inl rfl, ?_⟩, rfl⟩
  · rw [floodBlock_length]
    rfl
  · rw [floodBlock_length]
    decide

theorem floodFrame_length : floodFrame.length = 8996 := by
  have hdrop := congrArg List.length grammar_floodFrame.split
  rw [List.length_drop, List.flatten_singleton, floodBlock_length] at hdrop
  omega

/-- The ring holds `k` such messages and nothing else has happened, but for what `frames` still waits. -/
structure Flooded (k : Nat) (frames : List (List UInt8)) (s : System) : Prop where
  well : Well s
  receiver : Ready s.receiver
  ring0 : ∃ R, Holds s.context.ring0 R frames
  size0 : s.context.ring0.ptr.size = 2097152
  unread : Unread s
  messages : s.messages = List.replicate k floodBlock
  session : sessionOf s.context = ⟨⟨0, 0, .startup⟩, false, 0, false⟩
  running : Running s.context
  flags : s.common.configurationFlags = 0

section Flood
variable {k : Nat} {frames : List (List UInt8)} {s : System}

theorem flooded_initial : Flooded 0 [] (initial blank) :=
  ⟨well_initial blank, ⟨rfl, rfl, by decide, rfl, by decide, by decide, rfl⟩, ⟨0, holds_initial⟩,
    initial_ring.2.2, unread_initial blank, initial_messages blank, rfl, ⟨rfl, rfl⟩, rfl⟩

theorem Flooded.capacity {frames : List (List UInt8)} (h : Flooded k frames s) (hk : k ≤ 231) :
    (getCapacity s.context.ring1.ringbuf).1 = 2097152 - k * 9024 := by
  rw [h.unread.capacity, h.messages,
    queueEnd_replicate (d := 9024) (by rw [floodBlock_length, padded]) k (by omega)]
  omega

theorem Flooded.receive (h : Flooded k [] s) : ∃ s',
    perform s (.receive [packetEvent floodFrame]) = .ok s' ∧ Flooded k [floodFrame] s' := by
  obtain ⟨R, h0⟩ := h.ring0
  have hempty := h0.idle rfl
  have hsize : s.received.ring0.ptr.size = 2097152 := h.size0
  have htiming : s.received.common.flag flagGetTiming = false := CommonData.flag_of_none h.flags _
  have hguard : (getCapacity s.context.ring0).1 ≥ 16384 := by
    rw [h0.getCapacity_eq, h.size0, hempty]
    decide
  have hroom : (advance 2097152 R 9024 : Int) ≤ R + 2097152 := by
    have hmod := Nat.mod_lt R (Nat.zero_lt_succ 2097151)
    rw [advance, place]
    split_ifs <;> omega
  obtain ⟨j, ring0, hok, hready, hsize', hholds⟩ := Ready.iterate (x := s.received) (q := [])
    h.receiver h0 htiming (List.ne_nil_of_length_pos (by rw [floodFrame_length]; decide))
    (by rw [floodFrame_length]; decide) hguard (by
      rw [floodFrame_length, hsize, writeLimit, hsize]
      change (advance 2097152 R (padded 8996) : Int) ≤ R + _ - s.context.ring0.numberOfStoredBytes
      rw [hempty]
      exact Int.le_trans hroom (by omega))
  refine ⟨_, by rw [perform, hok]; rfl, ?_⟩
  have hwell := (h.well.next (a := .receive [packetEvent floodFrame])
    (by rw [perform, hok]; rfl)).1
  exact ⟨hwell, hready, ⟨R, hholds⟩, hsize'.trans h.size0, h.unread.kept rfl, h.messages, h.session,
    h.running, h.flags⟩

theorem Flooded.accepted (h : Flooded k frames s) (ring0 : Ringbuffer) :
    Accepted (ParserImplementation.received s.context floodFrame ring0) ∧
    frameBlocks (ParserImplementation.received s.context floodFrame ring0) = [floodBlock] := by
  have hlength := floodFrame_length
  have hn : floodFrame.length < 2 ^ 29 := by omega
  have htiming : s.context.common.flag flagGetTiming = false := CommonData.flag_of_none h.flags _
  have hbefore : (sessionOf s.context).parserState.state = .startup := by rw [h.session]
  refine ⟨(accepted_iff s.context ring0 hn).mpr ⟨⟨[floodBlock], ?_⟩, fun hf => ?_⟩,
    grammar_floodFrame.frameBlocks_eq hn (by omega) htiming⟩
  · rw [htiming, payload_untimed]
    exact grammar_floodFrame
  · cases hbefore.symm.trans hf.1

theorem Flooded.room (h : Flooded k frames s) (hk : k ≤ 230) (ring0 : Ringbuffer) :
    Room (ParserImplementation.received s.context floodFrame ring0)
      (queueEnd s.context.ring1.ringbuf.ptr.size 0 s.messages) := by
  have hcapacity := h.capacity (Nat.le_succ_of_le hk)
  have hsizes : sizesOf (frameWalk (ParserImplementation.received s.context floodFrame ring0)) =
      [9024] := by
    have hmap := congrArg sizes (h.accepted ring0).2
    simpa [sizes, sizesOf, frameBlocks, slice, floodBlock_length, padded] using hmap
  have hend : queueEnd s.context.ring1.ringbuf.ptr.size 0 s.messages = k * 9024 := by
    rw [h.unread.size, h.messages]
    exact queueEnd_replicate (by rw [floodBlock_length, padded]) k (by omega)
  have hstored : s.context.ring1.ringbuf.numberOfStoredBytes = (k * 9024 : Nat) := by
    rw [h.unread.holds.getCapacity_eq, h.unread.size] at hcapacity
    omega
  rw [Room, hsizes, hend, advanceAll_cons, advanceAll_nil]
  change (advance s.context.ring1.ringbuf.ptr.size (k * 9024) 9024 : Int) ≤
    writeLimit s.context.ring1.ringbuf (k * 9024 : Nat)
  rw [writeLimit, h.unread.size, hstored, advance, place, Nat.mod_eq_of_lt (by omega),
    if_pos (by omega)]
  omega

theorem Flooded.parse (h : Flooded k [floodFrame] s) (hk : k ≤ 230) : ∃ s',
    perform s .parse = .ok s' ∧ Flooded (k + 1) [] s' := by
  obtain ⟨R, h0⟩ := h.ring0
  obtain ⟨ring0, hread, hptr, hrest⟩ := h0.read_cons
  have hcapacity := h.capacity (Nat.le_succ_of_le hk)
  have hguard : (getCapacity s.context.ring1.ringbuf).1 ≥ 16384 := by omega
  have hlength := floodFrame_length
  have hbefore : (sessionOf s.context).parserState.state = .startup := by rw [h.session]
  obtain ⟨haccepted, hblocks⟩ := h.accepted ring0
  obtain ⟨x, hok⟩ := (iterateInternal_returns h.running hread (by omega) (by omega)
    h.unread.holds).mpr fun _ => h.room hk ring0
  have ht := iterateInternal_taken h.running hread (by omega) (by omega) h.unread.holds hok
  have hperform : perform s .parse = .ok { s with context := x } := by
    rw [perform, iterate_of_capacity hguard, hok]
    rfl
  obtain ⟨hring0, -, -, -, hrun, hconnected, hflags, -⟩ := ht.kept
  have hring : x.ring0 = ring0 := hring0
  refine ⟨_, hperform, (h.well.next hperform).1, h.receiver, ⟨_, hring.symm ▸ hrest⟩, ?_,
    h.unread.parse h.well hperform, ?_, ?_, ⟨hrun.trans h.running.1, hconnected.trans h.running.2⟩,
    hflags.trans h.flags⟩
  · change x.ring0.ptr.size = _
    rw [hring, hptr]
    exact h.size0
  · have hmessages := ht.contents rfl
    rw [if_pos haccepted, hblocks, h.messages, ← List.replicate_succ'] at hmessages
    exact hmessages
  · have hsession := ht.session
    have hsame : (sessionOf (ParserImplementation.received s.context floodFrame ring0)).parserState.state =
        .startup := hbefore
    have htype : messageType (ParserImplementation.received s.context floodFrame
        ring0).parser.parserReceivedDataPtr = parserMessageShutdown := rfl
    rw [nextSession, if_pos ⟨haccepted.1.1, haccepted.1.2.1⟩, Session.next_startup hsame,
      if_neg (not_not.mpr htype)] at hsession
    exact hsession.trans h.session

end Flood

end UdpSm.Pipeline

namespace UdpSm.UDPJubmoFrameReceiverImplementation
open Lib Pipeline
open RingFIFOBuffer (Holds getCapacity queueEnd)
open ParserImplementation (Session iterateInternal iterate_of_capacity messageType
  parserMessageShutdown)
open NetworkReceiverImplementationEFVI (packetEvent)

section Waiting
variable {u : Unset} {rs : List Round} {p p' : Program} {t : Turn} {cs : List Call}

theorem awaiting_turn (h : p.streamState = .waitForSession → Awaiting p.system)
    (heffect : Effect p t p' cs) (hclaimed : ∀ c ∈ cs, ∀ F, ¬c.Unclaimed F) :
    p'.streamState = .waitForSession → Awaiting p'.system := by
  have hstart : p.streamState = .waitForSession →
      ¬(p.system.common.commonFlagConnected = true ∧
        p.system.common.commonFlagSessionIdReceived = true) →
      Unread p.system ∧ p.system.state = .startup ∧
        p.system.common.commonFlagShutdownReceived = false ∧ p.system.messages = [] := by
    intro hstate hwait
    obtain ⟨hunread, hfirst | hsecond⟩ := h hstate
    · exact ⟨hunread, hfirst⟩
    · exact absurd ⟨hsecond.1, hsecond.2.1⟩ hwait
  cases heffect with
  | leave hstate hdone => exact nofun
  | enter hstate hrun => exact nofun
  | still hstate => exact h
  | stop s1 s2 s3 hstate hwait h1 h2 h3 hrun =>
    intro _
    obtain ⟨hunread, hstartup, hshutdown, hempty⟩ := hstart hstate hwait
    obtain ⟨hunread', hmessages, hsession⟩ := Awaiting.receive hunread h1.next h2.next h3.next
    obtain ⟨-, hstate', hshutdown', -⟩ := flagsOf_session hsession
    exact ⟨hunread', .inl ⟨hstate'.trans hstartup, hshutdown'.trans hshutdown,
      hmessages.trans hempty⟩⟩
  | wait s1 s2 s3 s4 hstate hwait h1 h2 h3 h4 =>
    intro _
    obtain ⟨hunread, hstartup, hshutdown, hempty⟩ := hstart hstate hwait
    obtain ⟨hunread', hmessages, hsession⟩ := Awaiting.receive hunread h1.next h2.next h3.next
    obtain ⟨-, hstate', hshutdown', -⟩ := flagsOf_session hsession
    exact hunread'.awaiting h3.well (hstate'.trans hstartup) (hshutdown'.trans hshutdown)
      (hmessages.trans hempty) (hclaimed ⟨s3, .parse⟩ (by simp)) h4.ok h4.next
  | session s1 s2 s3 s4 hstate hrun h1 h2 h3 h4 =>
    intro hwait
    rw [hstate] at hwait
    cases hwait

/-- While it waits the parser's guard is open, provided no shutdown frame comes before the first
session. -/
theorem waiting_capacity (h : Run Turned (start u) rs p)
    (hclaimed : ∀ c ∈ calls rs, ∀ F, ¬c.Unclaimed F) (hwait : p.streamState = .waitForSession) :
    (getCapacity p.system.context.ring1.ringbuf).1 ≥ 16384 ∧
      ParserImplementation.iterate p.system.context = iterateInternal p.system.context := by
  have hawaiting := (loop_invariant (fun rs p => (∀ c ∈ calls rs, ∀ F, ¬c.Unclaimed F) →
      p.streamState = .waitForSession → Awaiting p.system)
    (fun _ _ => ⟨unread_initial u, .inl ⟨rfl, rfl, initial_messages u⟩⟩) (by
      intro rs p r p' _ hinv heffect hcs
      have hcalls : calls (rs ++ [r]) = calls rs ++ r.calls := by simp [calls]
      rw [hcalls] at hcs
      exact awaiting_turn (hinv fun c hc => hcs c (List.mem_append_left _ hc)) heffect
        fun c hc => hcs c (List.mem_append_right _ hc)) h).2 hclaimed hwait
  have hcapacity : (getCapacity p.system.context.ring1.ringbuf).1 ≥ 16384 := by
    have hend : queueEnd 2097152 0 p.system.messages ≤ 8 * NetworkReceiverImplementationEFVI.jumboSize := by
      obtain ⟨-, ⟨-, -, hempty⟩ | ⟨-, -, hend⟩⟩ := hawaiting
      · rw [hempty]
        exact Nat.zero_le _
      · exact hend
    have hjumbo : 8 * NetworkReceiverImplementationEFVI.jumboSize = 72000 := rfl
    rw [hawaiting.unread.capacity]
    omega
  exact ⟨hcapacity, iterate_of_capacity hcapacity⟩

theorem waiting_capacity_one_frame : ∃ rs p, Run Turned (start blank) rs p ∧
    p.streamState = .waitForSession ∧ accepted (calls rs) = [sessionFrame 0 (List.replicate 8 1)] ∧
    (getCapacity p.system.context.ring1.ringbuf).1 ≥ 16384 ∧
      ParserImplementation.iterate p.system.context = iterateInternal p.system.context := by
  obtain ⟨rs, p, hrun, hlook⟩ := exists_loop (p := start blank)
    [⟨[packetEvent (sessionFrame 0 (List.replicate 8 1))], 0, none⟩]
    (fun r => (r.1.streamState, accepted (calls r.2), (calls r.2).all fun (c : Call) =>
      c.taken.all fun F => messageType (c.before.arrived F).parser.parserReceivedDataPtr ≠
        parserMessageShutdown))
    (v := (.waitForSession, [sessionFrame 0 (List.replicate 8 1)], true)) (by decide +kernel)
  simp only [Prod.mk.injEq] at hlook
  obtain ⟨hwait, haccepted, hall⟩ := hlook
  refine ⟨rs, p, hrun, hwait, haccepted, waiting_capacity hrun (fun c hc F hunclaimed => ?_) hwait⟩
  have htype := List.all_eq_true.mp (List.all_eq_true.mp hall c hc) F hunclaimed.1
  exact absurd hunclaimed.2.2.2.2 (by simpa using htype)

def floodTurn : Turn := ⟨[packetEvent floodFrame], 0, none⟩

theorem flood_turn {k : Nat} (h : Flooded k [] p.system) (hstate : p.streamState = .waitForSession)
    (hk : k ≤ 230) : ∃ p' cs, iterate p floodTurn = .ok (p', cs) ∧
      p'.streamState = .waitForSession ∧ Flooded (k + 1) [] p'.system := by
  obtain ⟨s, streamState⟩ := p
  obtain rfl : streamState = .waitForSession := hstate
  have hstamp : perform s (.writeTimestamp 0) = .ok _ := rfl
  have h2 : Flooded k [] _ := ⟨(h.well.next hstamp).1, h.receiver, h.ring0, h.size0,
    h.unread.kept rfl, h.messages, h.session, h.running, h.flags⟩
  obtain ⟨s3, hreceive, h3⟩ := h2.receive
  obtain ⟨s4, hparse, h4⟩ := h3.parse hk
  have hnone : s.common.commonFlagSessionIdReceived = false :=
    congrArg Session.sessionIdReceived h.session
  have hwait : s.common.applicationRunFlag = true ∧ ¬(s.common.commonFlagConnected = true ∧
      s.common.commonFlagSessionIdReceived = true) := ⟨h.running.1, by simp [hnone]⟩
  have hkey : perform s (.readKeyboardInput none) = .ok s := rfl
  have hrun : s3.common.applicationRunFlag = true := h3.running.1
  have hiterate : ∃ cs, iterate ⟨s, .waitForSession⟩ floodTurn = .ok (⟨s4, .waitForSession⟩, cs) := by
    simp only [iterate, floodTurn, if_pos hwait, performAll, hkey, hstamp, hreceive, Except.map,
      if_pos hrun, hparse]
    exact ⟨_, rfl⟩
  obtain ⟨cs, hcs⟩ := hiterate
  exact ⟨⟨s4, .waitForSession⟩, cs, hcs, rfl, h4⟩

theorem flood_run (k : Nat) (hk : k ≤ 231) : ∃ rs p, Run Turned (start blank) rs p ∧
    rs.map Round.turn = List.replicate k floodTurn ∧ p.streamState = .waitForSession ∧
      Flooded k [] p.system := by
  induction k with
  | zero => exact ⟨[], start blank, .nil, rfl, rfl, flooded_initial⟩
  | succ k ih =>
    obtain ⟨rs, p, hrun, hturns, hstate, hflooded⟩ := ih (by omega)
    obtain ⟨p', cs, hturn, hstate', hflooded'⟩ := flood_turn hflooded hstate (by omega)
    have hlast : Run Turned p [⟨floodTurn, cs⟩] p' := Run.single hturn
    refine ⟨_, p', hrun.append hlast, ?_, hstate', hflooded'⟩
    rw [List.map_append, hturns, List.replicate_succ']
    rfl

/-- After 231 of these frames the guard is closed, and nobody reads the ring. -/
theorem flooded_wedges : ∃ rs p, Run Turned (start blank) rs p ∧
    rs.map Round.turn = List.replicate 231 floodTurn ∧ p.streamState = .waitForSession ∧
    p.system.common.applicationRunFlag = true ∧
    ¬(getCapacity p.system.context.ring1.ringbuf).1 ≥ 16384 := by
  obtain ⟨rs, p, hrun, hturns, hstate, hflooded⟩ := flood_run 231 (Nat.le_refl 231)
  refine ⟨rs, p, hrun, hturns, hstate, hflooded.running.1, ?_⟩
  rw [hflooded.capacity (Nat.le_refl 231)]
  decide

end Waiting

end UdpSm.UDPJubmoFrameReceiverImplementation
