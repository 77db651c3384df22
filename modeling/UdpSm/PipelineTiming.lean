import UdpSm.ParserTiming
import UdpSm.PipelineAdmission
import UdpSm.ReceiverTiming

/-! Runs with the timing flag, next to the same runs without. -/
namespace UdpSm.Pipeline
open Lib RingFIFOBuffer InserterImplementation
open ParserImplementation hiding iterate Context constructed
open KeyboardReadInput (untimedKey readKeyboardInput_untimed)
open NetworkReceiverImplementationEFVI (Packet Alike packetEvent)

def Action.untimed : Action → Action
  | .readKeyboardInput key => .readKeyboardInput (untimedKey key)
  | a => a

/-- The guard in front of the writes of a call lets it go on. -/
def Call.Open (c : Call) : Prop :=
  match c.action with
  | .receive _ => (getCapacity c.before.context.ring0).1 ≥ 16384
  | .parse => (getCapacity c.before.context.ring1.ringbuf).1 ≥ 16384
  | _ => True

instance : (c : Call) → Decidable c.Open
  | ⟨s, .receive _⟩ => inferInstanceAs (Decidable ((getCapacity s.context.ring0).1 ≥ 16384))
  | ⟨s, .parse⟩ => inferInstanceAs (Decidable ((getCapacity s.context.ring1.ringbuf).1 ≥ 16384))
  | ⟨_, .insert _⟩ => inferInstanceAs (Decidable True)
  | ⟨_, .writeTimestamp _⟩ => inferInstanceAs (Decidable True)
  | ⟨_, .readKeyboardInput _⟩ => inferInstanceAs (Decidable True)

/-- The same turn of two runs, with the toggles and without. -/
structure SameCall (c d : Call) : Prop where
  action : d.action = c.action.untimed
  guard : d.Open ↔ c.Open

/-- The test of the parser: it takes a frame from 26 bytes on for one with a time stamp. -/
def trimmed (F : List UInt8) : Bool := decide (26 ≤ F.length)

/-- The settings of the timing flag under which such frames are received, one for each. -/
def settingsIn (cs : List Call) : List Bool :=
  cs.flatMap fun c => (c.handed.filter trimmed).map fun _ => c.timing

/-- The settings under which they are parsed. -/
def settingsOut (cs : List Call) : List Bool :=
  cs.flatMap fun c => (c.taken.filter trimmed).map fun _ => c.timing

/-- A message that carries a stamp is taken with the flag set. -/
def Call.Strips (c : Call) : Prop :=
  ∀ m ∈ c.consumed, m.length = ofBe (m.take 2) + 10 → c.timing = true

/-- Each frame that is long enough for a stamp is parsed under the setting of the flag that it was
received under, and each stamp taken off. -/
structure Consistent (cs : List Call) : Prop where
  settings : settingsOut cs <+: settingsIn cs
  strips : ∀ c ∈ cs, c.Strips

instance (c : Call) : Decidable c.Strips := inferInstanceAs (Decidable (∀ m ∈ c.consumed, _))

instance (cs : List Call) : Decidable (Consistent cs) :=
  decidable_of_iff (settingsOut cs <+: settingsIn cs ∧ ∀ c ∈ cs, c.Strips)
    ⟨fun h => ⟨h.1, h.2⟩, fun h => ⟨h.1, h.2⟩⟩

structure Waiting (cs : List Call) (s t : System) (pend : List (Bool × Packet)) : Prop where
  settings : settingsOut cs ++ (pend.filter fun e => trimmed (e.2.data e.1)).map Prod.fst =
    settingsIn cs
  frames : s.frames = pend.map fun e => e.2.data e.1
  payloads : t.frames = pend.map fun e => e.2.payload
  long : ∀ e ∈ pend, 18 ≤ e.2.payload.length

/-- Two runs in step, the second one with the flag never set. -/
structure Paired (cs ds : List Call) (s t : System) : Prop where
  receiver : Alike s.receiver t.receiver
  flags : t.common.configurationFlags = s.common.configurationFlags &&& ~~~flagGetTiming
  run : t.common.applicationRunFlag = s.common.applicationRunFlag
  connected : t.common.commonFlagConnected = s.common.commonFlagConnected
  session : sessionOf t.context = sessionOf s.context
  frames : ∃ pend, Waiting cs s t pend
  messages : List.Forall₂ Stamped s.messages t.messages
  published : (published cs).map Append.message = (published ds).map Append.message

structure Inert (s s' : System) : Prop where
  receiver : s'.receiver = s.receiver
  run : s'.common.applicationRunFlag = s.common.applicationRunFlag
  connected : s'.common.commonFlagConnected = s.common.commonFlagConnected
  session : sessionOf s'.context = sessionOf s.context
  frames : s'.frames = s.frames
  messages : s'.messages = s.messages

section Flags
variable {s t : System} {cs ds : List Call}

theorem Paired.untimed (h : Paired cs ds s t) : t.common.flag flagGetTiming = false := by
  have hmask : ~~~flagGetTiming &&& flagGetTiming = 0 := UInt32.not_and_self
  rw [CommonData.flag, h.flags, UInt32.and_assoc, hmask, UInt32.and_zero]
  rfl

theorem Paired.filter (h : Paired cs ds s t) :
    t.common.flag flagDontFilterSouceId = s.common.flag flagDontFilterSouceId := by
  have hmask : ~~~flagGetTiming &&& flagDontFilterSouceId = flagDontFilterSouceId := by decide
  rw [CommonData.flag, CommonData.flag, h.flags, UInt32.and_assoc, hmask]

end Flags

section Step
variable {cs ds : List Call} {s s' t t' : System} {c d : Call}

theorem settingsIn_snoc (cs : List Call) (c : Call) :
    settingsIn (cs ++ [c]) = settingsIn cs ++ (c.handed.filter trimmed).map fun _ => c.timing := by
  simp only [settingsIn, List.flatMap_append, List.flatMap_singleton]

theorem settingsOut_snoc (cs : List Call) (c : Call) :
    settingsOut (cs ++ [c]) = settingsOut cs ++ (c.taken.filter trimmed).map fun _ => c.timing := by
  simp only [settingsOut, List.flatMap_append, List.flatMap_singleton]

theorem Waiting.quiet {pend : List (Bool × Packet)} (h : Waiting cs s t pend) (hs : s'.frames = s.frames)
    (ht : t'.frames = t.frames) (hpackets : c.packets = []) (htaken : c.taken = []) :
    Waiting (cs ++ [c]) s' t' pend := by
  refine ⟨?_, hs.trans h.frames, ht.trans h.payloads, h.long⟩
  rw [settingsIn_snoc, settingsOut_snoc, Call.handed, hpackets, htaken]
  simp only [List.map_nil, List.filter_nil, List.append_nil]
  exact h.settings

theorem published_quiet (hc : c.published = []) (hd : d.published = [])
    (h : (published cs).map Append.message = (published ds).map Append.message) :
    (published (cs ++ [c])).map Append.message = (published (ds ++ [d])).map Append.message := by
  simp only [published] at h
  simp [published, hc, hd, h]

theorem Paired.inert (h : Paired cs ds s t) (hs : Inert s s') (ht : Inert t t')
    (hflags : t'.common.configurationFlags = s'.common.configurationFlags &&& ~~~flagGetTiming)
    (hpackets : c.packets = []) (htaken : c.taken = []) (hc : c.published = [])
    (hd : d.published = []) : Paired (cs ++ [c]) (ds ++ [d]) s' t' := by
  obtain ⟨pend, hpend⟩ := h.frames
  refine ⟨?_, hflags, ?_, ?_, ?_, ⟨pend, hpend.quiet hs.frames ht.frames hpackets htaken⟩, ?_,
    published_quiet hc hd h.published⟩
  · rw [hs.receiver, ht.receiver]
    exact h.receiver
  · rw [hs.run, ht.run, h.run]
  · rw [hs.connected, ht.connected, h.connected]
  · rw [hs.session, ht.session, h.session]
  · rw [hs.messages, ht.messages]
    exact h.messages

theorem inert_writeTimestamp {now : UInt64} (h : Next s (.writeTimestamp now) s') : Inert s s' ∧
    s'.common.configurationFlags = s.common.configurationFlags := by
  cases h with
  | writeTimestamp => exact ⟨⟨rfl, rfl, rfl, rfl, rfl, rfl⟩, rfl⟩

theorem inert_readKeyboardInput {key : Option Char} (h : Next s (.readKeyboardInput key) s') :
    Inert s s' ∧ s'.common.configurationFlags =
      (KeyboardReadInput.readKeyboardInput s.common key).configurationFlags := by
  cases h with
  | readKeyboardInput key flags threshold hkey =>
    rw [hkey]
    exact ⟨⟨rfl, rfl, rfl, rfl, rfl, rfl⟩, rfl⟩

theorem receive_kept {events : List NetworkReceiverImplementationEFVI.EfEvent}
    (h : Next s (.receive events) s') :
    s'.common.configurationFlags = s.common.configurationFlags ∧
    s'.common.commonFlagConnected = s.common.commonFlagConnected ∧
    sessionOf s'.context = sessionOf s.context ∧ s'.messages = s.messages := by
  cases h with
  | receive => exact ⟨rfl, rfl, rfl, rfl⟩

theorem Paired.receive {events : List NetworkReceiverImplementationEFVI.EfEvent}
    (h : Paired cs ds s t) (hwell : Well s) (hwell' : Well t)
    (hguard : (getCapacity t.context.ring0).1 ≥ 16384 ↔ (getCapacity s.context.ring0).1 ≥ 16384)
    (hlong : ∀ pkt ∈ Call.packets ⟨s, .receive events⟩, 18 ≤ pkt.payload.length)
    (hok : perform s (.receive events) = .ok s') (hok' : perform t (.receive events) = .ok t') :
    Paired (cs ++ [⟨s, .receive events⟩]) (ds ++ [⟨t, .receive events⟩]) s' t' := by
  have hnext := (hwell.next hok).2
  have hnext' := (hwell'.next hok').2
  have hframes := step_frames (c := ⟨s, .receive events⟩) rfl hnext
  have hframes' := step_frames (c := ⟨t, .receive events⟩) rfl hnext'
  obtain ⟨hflags, hconnected, hsession, hmessages⟩ := receive_kept hnext
  obtain ⟨hflags', hconnected', hsession', hmessages'⟩ := receive_kept hnext'
  obtain ⟨R, h0⟩ := hwell.ring0
  obtain ⟨R', h0'⟩ := hwell'.ring0
  obtain ⟨x, hx, rfl⟩ := map_ok hok
  obtain ⟨x', hx', rfl⟩ := map_ok hok'
  have halike : Alike s.received.receiver t.received.receiver := h.receiver
  obtain ⟨hreceiver, hrun, hpolled⟩ := NetworkReceiverImplementationEFVI.iterate_alike halike
    hwell.jumbo hwell'.jumbo h0 h0' h.untimed hguard h.run hx hx'
  obtain ⟨pend, hpend⟩ := h.frames
  refine ⟨hreceiver, ?_, hrun, ?_, ?_, ⟨pend ++ (Call.packets ⟨s, .receive events⟩).map
    fun pkt => (Call.timing ⟨s, .receive events⟩, pkt), ?_, ?_, ?_, ?_⟩, ?_,
    published_quiet rfl rfl h.published⟩
  · rw [hflags, hflags', h.flags]
  · rw [hconnected, hconnected', h.connected]
  · rw [hsession, hsession', h.session]
  · have hnone : Call.taken ⟨s, .receive events⟩ = [] := rfl
    rw [settingsIn_snoc, settingsOut_snoc, hnone, ← hpend.settings, Call.handed]
    simp only [List.filter_nil, List.map_nil, List.append_nil, List.filter_append, List.map_append,
      List.filter_map, List.map_map, List.append_assoc]
    rfl
  · rw [Call.taken, List.nil_append] at hframes
    rw [hframes, hpend.frames, List.map_append, List.map_map]
    rfl
  · rw [Call.taken, List.nil_append] at hframes'
    have hdata : Call.handed ⟨t, .receive events⟩ =
        (Call.packets ⟨t, .receive events⟩).map Packet.payload := by
      rw [Call.handed, Call.timing, h.untimed]
      rfl
    rw [hframes', hpend.payloads, hdata, List.map_append, List.map_map]
    exact congrArg _ hpolled
  · intro e he
    obtain he | he := List.mem_append.mp he
    · exact hpend.long e he
    · obtain ⟨pkt, hpkt, rfl⟩ := List.mem_map.mp he
      exact hlong pkt hpkt
  · rw [hmessages, hmessages']
    exact h.messages


theorem insert_kept {now : UInt64} (h : Next s (.insert now) s') : s'.receiver = s.receiver ∧
    s'.common = s.common ∧ sessionOf s'.context = sessionOf s.context ∧ s'.frames = s.frames := by
  cases h with
  | idle => exact ⟨rfl, rfl, rfl, rfl⟩
  | insert => exact ⟨rfl, rfl, rfl, rfl⟩

theorem Paired.consumed {now : UInt64} (h : Paired cs ds s t) : List.Forall₂ Stamped
    (Call.consumed ⟨s, .insert now⟩) (Call.consumed ⟨t, .insert now⟩) := by
  have hmessages := h.messages
  simp only [Call.consumed]
  generalize s.messages = q at hmessages
  generalize t.messages = q' at hmessages
  cases hmessages with
  | nil => exact .nil
  | cons hfirst _ => exact .cons hfirst .nil

theorem Paired.insert {now : UInt64} (h : Paired cs ds s t) (hwell : Well s) (hwell' : Well t)
    (hstrips : Call.Strips ⟨s, .insert now⟩) (hnext : Next s (.insert now) s')
    (hnext' : Next t (.insert now) t') :
    Paired (cs ++ [⟨s, .insert now⟩]) (ds ++ [⟨t, .insert now⟩]) s' t' := by
  obtain ⟨hreceiver, hcommon, hsession, hframes⟩ := insert_kept hnext
  obtain ⟨hreceiver', hcommon', hsession', hframes'⟩ := insert_kept hnext'
  have hmessages := step_messages (c := ⟨s, .insert now⟩) hwell rfl hnext
  have hmessages' := step_messages (c := ⟨t, .insert now⟩) hwell' rfl hnext'
  have hqueued : Call.queued ⟨s, .insert now⟩ = [] := rfl
  have hqueued' : Call.queued ⟨t, .insert now⟩ = [] := rfl
  rw [hqueued, List.append_nil] at hmessages
  rw [hqueued', List.append_nil] at hmessages'
  have hall := h.messages
  have hconsumed : List.Forall₂ Stamped (Call.consumed ⟨s, .insert now⟩)
    (Call.consumed ⟨t, .insert now⟩) := h.consumed
  have hpublished := published_eq (c := ⟨s, .insert now⟩) hwell
  have hpublished' := published_eq (c := ⟨t, .insert now⟩) hwell'
  rw [← hmessages, ← hmessages'] at hall
  obtain ⟨pend, hpend⟩ := h.frames
  refine ⟨?_, ?_, ?_, ?_, ?_, ⟨pend, hpend.quiet hframes hframes' rfl rfl⟩, ?_, ?_⟩
  · rw [hreceiver, hreceiver']
    exact h.receiver
  · rw [hcommon, hcommon', h.flags]
  · rw [hcommon, hcommon', h.run]
  · rw [hcommon, hcommon', h.connected]
  · rw [hsession, hsession', h.session]
  · have hrest := List.forall₂_drop_append _ _ _ hall
    rwa [List.drop_left' hconsumed.length_eq] at hrest
  · rw [published_snoc, published_snoc, List.map_append, List.map_append, h.published]
    have htiming : Call.timing ⟨t, .insert now⟩ = false := h.untimed
    rw [hpublished, hpublished', htiming, payloads_stamped hconsumed hstrips]

/-- The two parsers make the same of a packet. -/
theorem parsed_alike {x x' : ParserImplementation.Context} {pkt : Packet} {F : List UInt8}
    (hpayload : payload (x.common.flag flagGetTiming) F = pkt.payload)
    (hn : F.length < 2 ^ 29) (hn' : pkt.payload.length < 2 ^ 29)
    (htiming : x'.common.flag flagGetTiming = false)
    (hfilter : x'.common.flag flagDontFilterSouceId = x.common.flag flagDontFilterSouceId)
    (hsession : sessionOf x' = sessionOf x) (hdrained : Drained x' ↔ Drained x) :
    nextSession (ParserImplementation.received x' pkt.payload x'.ring0) =
      nextSession (ParserImplementation.received x F x.ring0) ∧
    List.Forall₂ Stamped (blocksFor x F) (blocksFor x' pkt.payload) := by
  have hnext := nextSession_payload x x.ring0 hn
  have hnext' := nextSession_payload x' x'.ring0 hn'
  have haccepted := accepted_payload x x.ring0 hn
  have haccepted' := accepted_payload x' x'.ring0 hn'
  rw [hpayload] at hnext haccepted
  rw [htiming, payload_untimed] at hnext' haccepted'
  rw [hsession, hfilter] at haccepted'
  refine ⟨?_, ?_⟩
  · rw [hnext, hnext', hsession]
    simp only [hdrained]
  · rw [blocksFor, blocksFor]
    simp only [haccepted'.trans haccepted.symm]
    split_ifs with ha
    · obtain ⟨⟨blocks, hblocks⟩, -⟩ := haccepted.mp ha
      have h36 : 36 ≤ pkt.payload.length := Nat.le_trans (by decide) hblocks.length_le
      rw [hblocks.frameBlocks_eq hn' h36 htiming]
      rw [← hpayload] at hblocks
      exact hblocks.frameBlocks_stamped hn
    · exact .nil

theorem parse_kept (h : Next s .parse s') : s'.receiver = s.receiver ∧
    s'.common.configurationFlags = s.common.configurationFlags ∧
    s'.common.applicationRunFlag = s.common.applicationRunFlag ∧
    s'.common.commonFlagConnected = s.common.commonFlagConnected := by
  cases h with
  | parse R x ht =>
    cases ht with
    | idle => exact ⟨rfl, rfl, rfl, rfl⟩
    | frame F ring0 hsome hrun hcapacity hlength hframes hring ht =>
      obtain ⟨-, -, -, -, hrun, hconnected, hflags, -⟩ := ht.kept
      exact ⟨rfl, hflags, hrun, hconnected⟩

theorem Paired.takenFrame {pend : List (Bool × Packet)} (h : Paired cs ds s t)
    (hpend : Waiting cs s t pend) (hguard : (getCapacity t.context.ring1.ringbuf).1 ≥ 16384 ↔
      (getCapacity s.context.ring1.ringbuf).1 ≥ 16384) :
    takenFrame s.context = none ∧ takenFrame t.context = none ∨
    ∃ e rest, pend = e :: rest ∧ takenFrame s.context = some (e.2.data e.1) ∧
      takenFrame t.context = some e.2.payload := by
  have hframes : contents s.context.ring0 = _ := hpend.frames
  have hpayloads : contents t.context.ring0 = _ := hpend.payloads
  have hrun : t.context.common.applicationRunFlag = s.context.common.applicationRunFlag := h.run
  have hconnected : t.context.common.commonFlagConnected = s.context.common.commonFlagConnected :=
    h.connected
  simp only [ParserImplementation.takenFrame, hguard, hrun, hconnected, hframes, hpayloads]
  split_ifs
  · cases pend with
    | nil => exact .inl ⟨rfl, rfl⟩
    | cons e rest => exact .inr ⟨e, rest, rfl, rfl, rfl⟩
  · exact .inl ⟨rfl, rfl⟩

theorem Paired.drained (h : Paired cs ds s t) (hwell : Well s) (hwell' : Well t) :
    Drained t.context ↔ Drained s.context := by
  obtain ⟨R, h1⟩ := hwell.ring1
  obtain ⟨R', h1'⟩ := hwell'.ring1
  have hlength := h.messages.length_eq
  rw [drained_iff h1, drained_iff h1', ← List.length_eq_zero_iff, ← List.length_eq_zero_iff, hlength]

theorem Waiting.setting {e : Bool × Packet} {rest : List (Bool × Packet)}
    (h : Waiting cs s t (e :: rest)) (hpackets : c.packets = []) (htaken : c.taken = [e.2.data e.1])
    (hsettings : settingsOut (cs ++ [c]) <+: settingsIn (cs ++ [c]))
    (htrimmed : trimmed (e.2.data e.1) = true) : e.1 = c.timing := by
  rw [settingsOut_snoc, settingsIn_snoc, Call.handed, hpackets, htaken, ← h.settings] at hsettings
  simp only [List.map_nil, List.filter_nil, List.append_nil, List.filter_cons, htrimmed, if_true,
    List.map_cons, List.prefix_append_right_inj] at hsettings
  exact (List.cons_prefix_cons.mp hsettings).1.symm

theorem Waiting.parsed {e : Bool × Packet} {rest : List (Bool × Packet)}
    (h : Waiting cs s t (e :: rest)) (hpackets : c.packets = []) (htaken : c.taken = [e.2.data e.1])
    (hsettings : settingsOut (cs ++ [c]) <+: settingsIn (cs ++ [c])) :
    payload c.timing (e.2.data e.1) = e.2.payload := by
  have hlong : 18 ≤ e.2.payload.length := h.long e (by simp)
  by_cases htrimmed : trimmed (e.2.data e.1) = true
  · rw [← h.setting hpackets htaken hsettings htrimmed]
    exact data_payload e.1 hlong
  · -- it came in without a stamp, and is too short for one to be taken off
    have hshort : (e.2.data e.1).length < 26 := by
      simpa [trimmed] using htrimmed
    have hplain : e.2.data e.1 = e.2.payload := by
      cases htiming : e.1 with
      | false => rfl
      | true =>
        rw [htiming] at hshort
        simp [Packet.data] at hshort
        omega
    rw [payload, frameLength, if_neg (by omega), List.take_length, hplain]

theorem inert_parse (hwell : Well s) (hnone : takenFrame s.context = none) (h : Next s .parse s') :
    Inert s s' := by
  obtain ⟨hreceiver, -, hrun, hconnected⟩ := parse_kept h
  obtain ⟨hframes, hmessages, hsession⟩ := parse_idle hwell hnone h
  exact ⟨hreceiver, hrun, hconnected, hsession, hframes, hmessages⟩

theorem Paired.parse (h : Paired cs ds s t) (hwell : Well s) (hwell' : Well t)
    (hguard : (getCapacity t.context.ring1.ringbuf).1 ≥ 16384 ↔
      (getCapacity s.context.ring1.ringbuf).1 ≥ 16384)
    (hsettings : settingsOut (cs ++ [⟨s, .parse⟩]) <+: settingsIn (cs ++ [⟨s, .parse⟩]))
    (hnext : Next s .parse s') (hnext' : Next t .parse t') :
    Paired (cs ++ [⟨s, .parse⟩]) (ds ++ [⟨t, .parse⟩]) s' t' := by
  obtain ⟨hreceiver, hflags, hrun, hconnected⟩ := parse_kept hnext
  obtain ⟨hreceiver', hflags', hrun', hconnected'⟩ := parse_kept hnext'
  have hmasked : t'.common.configurationFlags = s'.common.configurationFlags &&& ~~~flagGetTiming := by
    rw [hflags, hflags', h.flags]
  obtain ⟨pend, hpend⟩ := h.frames
  obtain ⟨hnone, hnone'⟩ | ⟨e, rest, rfl, hsome, hsome'⟩ := h.takenFrame hpend hguard
  · exact h.inert (inert_parse hwell hnone hnext) (inert_parse hwell' hnone' hnext') hmasked rfl
      (Call.taken_none hnone) rfl rfl
  · obtain ⟨hframes, hmessages, hsession⟩ := parse_frame hwell hsome hnext
    obtain ⟨hframes', hmessages', hsession'⟩ := parse_frame hwell' hsome' hnext'
    have htaken := Call.taken_some hsome
    obtain ⟨hparsed, hblocks⟩ := parsed_alike (hpend.parsed rfl htaken hsettings)
      (takenFrame_short hwell hsome) (takenFrame_short hwell' hsome') h.untimed h.filter h.session
      (h.drained hwell hwell')
    refine ⟨?_, hmasked, ?_, ?_, ?_, ⟨rest, ?_, ?_, ?_, ?_⟩, ?_, published_quiet rfl rfl h.published⟩
    · rw [hreceiver, hreceiver']
      exact h.receiver
    · rw [hrun, hrun', h.run]
    · rw [hconnected, hconnected', h.connected]
    · rw [hsession, hsession']
      exact hparsed
    · have hhanded : Call.handed ⟨s, .parse⟩ = [] := rfl
      rw [settingsOut_snoc, settingsIn_snoc, htaken, hhanded, ← hpend.settings]
      by_cases htrimmed : trimmed (e.2.data e.1) = true
      · simp [htrimmed, ← hpend.setting rfl htaken hsettings htrimmed]
      · simp [htrimmed]
    · rw [hpend.frames] at hframes
      exact (List.cons.inj hframes).2
    · rw [hpend.payloads] at hframes'
      exact (List.cons.inj hframes').2
    · exact fun e he => hpend.long e (List.mem_cons_of_mem _ he)
    · rw [hmessages, hmessages']
      exact List.rel_append h.messages hblocks

theorem Paired.readKeyboardInput {key : Option Char} (h : Paired cs ds s t)
    (hnext : Next s (.readKeyboardInput key) s')
    (hnext' : Next t (.readKeyboardInput (untimedKey key)) t') :
    Paired (cs ++ [⟨s, .readKeyboardInput key⟩])
      (ds ++ [⟨t, .readKeyboardInput (untimedKey key)⟩]) s' t' := by
  obtain ⟨hinert, hflags⟩ := inert_readKeyboardInput hnext
  obtain ⟨hinert', hflags'⟩ := inert_readKeyboardInput hnext'
  refine h.inert hinert hinert' ?_ rfl rfl rfl rfl
  rw [hflags, hflags']
  exact readKeyboardInput_untimed h.flags key

theorem Paired.step (h : Paired cs ds s t) (hwell : Well s) (hwell' : Well t) (hsame : SameCall c d)
    (hc : Step s c s') (hd : Step t d t') (hlong : ∀ pkt ∈ c.packets, 18 ≤ pkt.payload.length)
    (hconsistent : Consistent (cs ++ [c])) :
    Paired (cs ++ [c]) (ds ++ [d]) s' t' := by
  obtain ⟨haction, hguard⟩ := hsame
  obtain ⟨hbefore, hok⟩ := hc
  obtain ⟨hbefore', hok'⟩ := hd
  obtain ⟨before, action⟩ := c
  obtain ⟨before', action'⟩ := d
  obtain rfl : before = s := hbefore
  obtain rfl : before' = t := hbefore'
  obtain rfl : action' = action.untimed := haction
  have hnext := (hwell.next hok).2
  have hnext' := (hwell'.next hok').2
  cases action with
  | receive events => exact h.receive hwell hwell' hguard hlong hok hok'
  | parse => exact h.parse hwell hwell' hguard hconsistent.settings hnext hnext'
  | insert now => exact h.insert hwell hwell' (hconsistent.strips _ (by simp)) hnext hnext'
  | writeTimestamp now =>
    obtain ⟨hinert, hflags⟩ := inert_writeTimestamp hnext
    obtain ⟨hinert', hflags'⟩ := inert_writeTimestamp hnext'
    refine h.inert hinert hinert' ?_ rfl rfl rfl rfl
    rw [hflags, hflags', h.flags]
  | readKeyboardInput key => exact h.readKeyboardInput hnext hnext'

end Step

section Run
variable {u : Unset} {cs ds : List Call} {s t : System}

theorem paired_initial (u : Unset) : Paired [] [] (initial u) (initial u) := by
  have hflags : (0 : UInt32) = 0 &&& ~~~flagGetTiming := by decide
  refine ⟨⟨rfl, rfl, rfl, rfl, fun _ => ⟨rfl, rfl⟩⟩, hflags, rfl, rfl, rfl,
    ⟨[], rfl, ?_, ?_, by simp⟩, ?_, rfl⟩
  · exact initial_frames u
  · exact initial_frames u
  · rw [initial_messages]
    exact .nil

theorem settings_length (h : Run Step (initial u) cs s) :
    (settingsOut cs).length ≤ (settingsIn cs).length := by
  have hout : (settingsOut cs).length = ((taken cs).filter trimmed).length := by
    simp [settingsOut, taken, List.length_flatMap, List.filter_flatMap]
  have hin : (settingsIn cs).length = ((handed cs).filter trimmed).length := by
    simp [settingsIn, handed, List.length_flatMap, List.filter_flatMap]
  rw [hout, hin, ← (run_queues h).1, List.filter_append, List.length_append]
  omega

theorem Consistent.before {c : Call} (h : Run Step (initial u) cs s)
    (hconsistent : Consistent (cs ++ [c])) : Consistent cs := by
  refine ⟨?_, fun d hd => hconsistent.strips d (List.mem_append_left _ hd)⟩
  have hsettings := hconsistent.settings
  rw [settingsOut_snoc, settingsIn_snoc] at hsettings
  exact List.prefix_of_prefix_length_le ((List.prefix_append _ _).trans hsettings)
    (List.prefix_append _ _) (settings_length h)

theorem received_snoc (cs : List Call) (c : Call) : received (cs ++ [c]) =
    received cs ++ c.packets := by
  simp only [received, List.flatMap_append, List.flatMap_singleton]

theorem run_paired (h : Run Step (initial u) cs s) (h' : Run Step (initial u) ds t)
    (hsame : List.Forall₂ SameCall cs ds) :
    (∀ pkt ∈ received cs, 18 ≤ pkt.payload.length) → Consistent cs →
      Paired cs ds s t ∧ ∀ d ∈ ds, d.timing = false := by
  refine Run.lockstep SameCall (fun cs ds s t => (∀ pkt ∈ received cs, 18 ≤ pkt.payload.length) →
    Consistent cs → Paired cs ds s t ∧ ∀ d ∈ ds, d.timing = false) ?_ ?_ h h' hsame
  · exact fun _ _ => ⟨paired_initial u, by simp⟩
  · intro cs ds s t c d s' t' hrun hrun' ih hpair hstep hstep' hlong hconsistent
    rw [received_snoc] at hlong
    obtain ⟨hpaired, htiming⟩ := ih (fun pkt hpkt => hlong pkt (List.mem_append_left _ hpkt))
      (hconsistent.before hrun)
    refine ⟨hpaired.step (well_of_run hrun) (well_of_run hrun') hpair hstep hstep'
      (fun pkt hpkt => hlong pkt (List.mem_append_right _ hpkt)) hconsistent, fun e he => ?_⟩
    obtain he | he := List.mem_append.mp he
    · exact htiming e he
    · obtain rfl := List.mem_singleton.mp he
      rw [Call.timing, hstep'.1]
      exact hpaired.untimed

/-- Where the stamps that are put on are taken off again, the run publishes what the run publishes
that has the flag never set. -/
theorem published_transparent (h : Run Step (initial u) cs s) (h' : Run Step (initial u) ds t)
    (hsame : List.Forall₂ SameCall cs ds) (hlong : ∀ pkt ∈ received cs, 18 ≤ pkt.payload.length)
    (hconsistent : Consistent cs) :
    (published cs).map Append.message = (published ds).map Append.message ∧
    (∀ d ∈ ds, d.timing = false) ∧ Decodes u cs s ∧ Decodes u ds t := by
  obtain ⟨hpaired, htiming⟩ := run_paired h h' hsame hlong hconsistent
  exact ⟨hpaired.published, htiming, decodes h, decodes h'⟩

theorem sameCalls {cs ds : List Call} (hactions : ds.map Call.action = (cs.map Call.action).map Action.untimed)
    (hc : ∀ c ∈ cs, c.Open) (hd : ∀ d ∈ ds, d.Open) : List.Forall₂ SameCall cs ds := by
  induction cs generalizing ds with
  | nil =>
    obtain rfl : ds = [] := List.map_eq_nil_iff.mp hactions
    exact .nil
  | cons c cs ih =>
    cases ds with
    | nil => simp at hactions
    | cons d ds =>
      obtain ⟨haction, hrest⟩ := List.cons.inj hactions
      exact .cons ⟨haction, iff_of_true (hd d (by simp)) (hc c (by simp))⟩
        (ih hrest (fun c h => hc c (List.mem_cons_of_mem _ h)) fun d h => hd d (List.mem_cons_of_mem _ h))

theorem exists_calls {α : Type} {s t : System} (as : List Action)
    (look : System × List Call → System × List Call → α) {v : α}
    (h : ((performAll s as).toOption.bind fun r =>
      (performAll t (as.map Action.untimed)).toOption.map fun r' =>
        (decide ((∀ c ∈ r.2, c.Open) ∧ ∀ d ∈ r'.2, d.Open), look r r')) = some (true, v)) :
    ∃ cs ds s' t', Run Step s cs s' ∧ Run Step t ds t' ∧ List.Forall₂ SameCall cs ds ∧
      look (s', cs) (t', ds) = v := by
  obtain ⟨r, hr, hrest⟩ := Option.bind_eq_some_iff.mp h
  obtain ⟨r', hr', hlook⟩ := Option.map_eq_some_iff.mp hrest
  obtain ⟨hopen, hlook⟩ := Prod.mk.inj hlook
  obtain ⟨hrun, hactions⟩ := performAll_run (ok_of_toOption hr)
  obtain ⟨hrun', hactions'⟩ := performAll_run (ok_of_toOption hr')
  obtain ⟨hc, hd⟩ := of_decide_eq_true hopen
  exact ⟨r.2, r'.2, r.1, r'.1, hrun, hrun', sameCalls (by rw [hactions, hactions']) hc hd, hlook⟩

/-- The flag is set while a message without a stamp waits, and a frame too short for one. -/
theorem published_transparent_toggled : ∃ cs ds s t, Run Step (initial blank) cs s ∧
    Run Step (initial blank) ds t ∧ List.Forall₂ SameCall cs ds ∧ Consistent cs ∧
    cs.map Call.timing = [false, false, false, false, true, true, true, true, true, true] ∧
    (published ds).map Append.message = [emptyBlock.drop 2, emptyBlock.drop 2] ∧
    (published cs).map Append.message = (published ds).map Append.message ∧
    (∀ d ∈ ds, d.timing = false) ∧ Decodes blank cs s ∧ Decodes blank ds t := by
  obtain ⟨cs, ds, s, t, hrun, hrun', hsame, hlook⟩ := exists_calls (s := initial blank)
    (t := initial blank)
    [.receive [packetEvent oneMessageFrame], .parse, .receive [packetEvent (oneMessageFrame.take 20)],
      .readKeyboardInput (some 'T'), .parse, .receive [packetEvent oneMessageFrame], .insert 0, .parse,
      .insert 0,
      .readKeyboardInput (some 'T')]
    (fun r r' => (decide ((∀ pkt ∈ received r.2, 18 ≤ pkt.payload.length) ∧ Consistent r.2),
      r.2.map Call.timing, (published r'.2).map Append.message))
    (v := (true, [false, false, false, false, true, true, true, true, true, true],
      [emptyBlock.drop 2, emptyBlock.drop 2])) (by decide +kernel)
  simp only [Prod.mk.injEq, decide_eq_true_eq] at hlook
  obtain ⟨⟨hlong, hconsistent⟩, htimings, hpublished⟩ := hlook
  exact ⟨cs, ds, s, t, hrun, hrun', hsame, hconsistent, htimings, hpublished,
    published_transparent hrun hrun' hsame hlong hconsistent⟩

/-- The flag is set while a frame waits: the parser takes the last eight bytes of its message for a
stamp and discards the frame. -/
theorem toggled_frame_lost : ∃ cs ds s t, Run Step (initial blank) cs s ∧
    Run Step (initial blank) ds t ∧ List.Forall₂ SameCall cs ds ∧
    (∀ pkt ∈ received cs, 18 ≤ pkt.payload.length) ∧ (∀ d ∈ ds, d.timing = false) ∧
    (received cs).map Packet.payload = [oneMessageFrame] ∧
    (published cs).map Append.message = [] ∧
    (published ds).map Append.message = [emptyBlock.drop 2] := by
  obtain ⟨cs, ds, s, t, hrun, hrun', hsame, hlook⟩ := exists_calls (s := initial blank)
    (t := initial blank)
    [.receive [packetEvent oneMessageFrame], .readKeyboardInput (some 'T'), .parse, .insert 0]
    (fun r r' => (decide ((∀ pkt ∈ received r.2, 18 ≤ pkt.payload.length) ∧
        (∀ d ∈ r'.2, d.timing = false) ∧ (received r.2).map Packet.payload = [oneMessageFrame]),
      (published r.2).map Append.message, (published r'.2).map Append.message))
    (v := (true, [], [emptyBlock.drop 2])) (by decide +kernel)
  simp only [Prod.mk.injEq, decide_eq_true_eq] at hlook
  obtain ⟨⟨hlong, htiming, hreceived⟩, hpublished, hpublished'⟩ := hlook
  exact ⟨cs, ds, s, t, hrun, hrun', hsame, hlong, htiming, hreceived, hpublished, hpublished'⟩

end Run

end UdpSm.Pipeline
