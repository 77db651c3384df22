import UdpSm.MainLoopPublished
import UdpSm.ReceiverReassembly

/-! From the fragments on the wire to what a reader decodes out of the shared memory file. -/
namespace UdpSm.NetworkReceiverImplementationEFVI
open Lib RingFIFOBuffer

/-- The packets of events that are all accepted, with the receiver after them. -/
def reassemble (timing : Bool) (r : Receiver) : List EfEvent → Option (Receiver × List Packet)
  | [] => some (r, [])
  | e :: es =>
    match outcome timing r e with
    | .halted => none
    | .refused => none
    | .kept j => reassemble timing { r with jumbo := j } es
    | .completed j pkt => (reassemble timing { r with jumbo := j } es).map fun v => (v.1, pkt :: v.2)

section Reassemble
variable {x x' : Context} {r : Receiver} {R : Nat} {q : List (List UInt8)} {timing : Bool}

theorem reassemble_append (timing : Bool) (r : Receiver) (es es' : List EfEvent) :
    reassemble timing r (es ++ es') = (reassemble timing r es).bind fun v =>
      (reassemble timing v.1 es').map fun v' => (v'.1, v.2 ++ v'.2) := by
  induction es generalizing r with
  | nil => simp [reassemble]
  | cons e es ih =>
    rw [List.cons_append]
    simp only [reassemble]
    cases outcome timing r e with
    | halted => rfl
    | refused => rfl
    | kept j => exact ih _
    | completed j pkt =>
      simp only [ih]
      cases reassemble timing { r with jumbo := j } es with
      | none => rfl
      | some v =>
        simp only [Option.bind_some, Option.map_some, Option.map_map]
        rfl

theorem handleEvents_reassemble (hr : Sized x.receiver.jumbo) {es : List EfEvent} {rv : Int}
    {v : Receiver × List Packet} (hv : reassemble (x.common.flag flagGetTiming) x.receiver es = some v)
    (hok : handleEvents x es = .ok (rv, x')) :
    x'.receiver = v.1 ∧ packets (x.common.flag flagGetTiming) x.receiver es = v.2 := by
  induction es generalizing x v with
  | nil =>
    obtain ⟨-, rfl⟩ := Prod.mk.inj (Except.ok.inj hok)
    obtain rfl := Option.some.inj hv
    exact ⟨rfl, rfl⟩
  | cons e es ih =>
    have hfirst := handleEvent_handled hr e
    simp only [handleEvents, reassemble, packets] at hok hv ⊢
    generalize outcome (x.common.flag flagGetTiming) x.receiver e = o at hfirst hv ⊢
    generalize handleEvent x e = result at hfirst hok
    cases hfirst with
    | halted => cases hv
    | refused => cases hv
    | kept j hj => exact ih (x := { x with receiver.jumbo := j }) hj hv hok
    | completed j pkt hj hlength =>
      obtain ⟨w, hw, rfl⟩ := Option.map_eq_some_iff.mp hv
      cases hwrite : writeMessage x.ring0 (pkt.data (x.common.flag flagGetTiming)) with
      | error h => simp [hwrite, Except.map] at hok
      | ok ring0 =>
        rw [hwrite] at hok
        obtain ⟨hreceiver, hpackets⟩ := ih (x := delivered x j ring0) hj hw hok
        exact ⟨hreceiver, congrArg (pkt :: ·) hpackets⟩

def eventsPolled (x : Context) (es : List EfEvent) : List EfEvent :=
  if x.receiver.initialized ∧ (getCapacity x.ring0).1 ≥ 16384 then es else []

theorem iterate_reassemble (hr : Sized x.receiver.jumbo) {es : List EfEvent}
    {v : Receiver × List Packet}
    (hv : reassemble (x.common.flag flagGetTiming) x.receiver (eventsPolled x es) = some v)
    (hok : iterate x es = .ok x') : x'.receiver = v.1 ∧ polled x es = v.2 := by
  by_cases hopen : x.receiver.initialized = true ∧ (getCapacity x.ring0).1 ≥ 16384
  · rw [eventsPolled, if_pos hopen] at hv
    rw [iterate_of_capacity hopen.1 hopen.2] at hok
    rw [polled, if_pos hopen]
    cases hevents : handleEvents x es with
    | error e => simp [hevents, Except.map] at hok
    | ok w =>
      obtain ⟨hreceiver, hpackets⟩ := handleEvents_reassemble hr hv hevents
      rw [hevents] at hok
      obtain rfl := Except.ok.inj hok
      refine ⟨?_, hpackets⟩
      rw [← hreceiver]
      unfold finishEvents
      split_ifs <;> rfl
  · rw [eventsPolled, if_neg hopen] at hv
    obtain rfl := Option.some.inj hv
    rw [polled, if_neg hopen]
    refine ⟨?_, rfl⟩
    by_cases hinit : x.receiver.initialized = true
    · have hclosed : ¬(getCapacity x.ring0).1 ≥ 16384 := fun hc => hopen ⟨hinit, hc⟩
      simp only [iterate] at hok
      rw [if_pos hinit, if_neg hclosed] at hok
      obtain rfl := Except.ok.inj hok
      rfl
    · simp only [iterate] at hok
      rw [if_neg hinit] at hok
      obtain rfl := Except.ok.inj hok
      rfl

end Reassemble

/-! Well-formed packets. -/

def Fragment.events (w : List Fragment) : List EfEvent := w.map fun f => .rx f.ev

def packetPayload (w : List Fragment) : List UInt8 := (bytesOf w).drop udpHeaderLen.toNat

section Packets
variable {r : Receiver} {bs : List UInt8} {k : Nat} {fs : List Fragment} {es : List EfEvent}

/-- The rest of a packet, wherever the batches are cut. -/
theorem Pending.reassemble (timing : Bool) (h : Pending bs k r.jumbo) (hne : fs ≠ [])
    (hreported : Reported r bs.length (decide (k = 0)) fs) (hcount : k + fs.length ≤ maxPktFrags)
    (hheader : ∀ f ∈ fs.head?, udpHeaderLen.toNat ≤ (bs ++ f.data).length)
    (hmax : (bs ++ bytesOf fs).length ≤ udpHeaderLen.toNat + 8992) : ∃ j pkt, Pending [] 0 j ∧
      pkt.payload = (bs ++ bytesOf fs).drop udpHeaderLen.toNat ∧
      reassemble timing r (Fragment.events fs) = some ({ r with jumbo := j }, [pkt]) := by
  induction fs generalizing bs k r with
  | nil => exact absurd rfl hne
  | cons f fs ih =>
    have hf := hreported.1
    have hmin := hheader f rfl
    rw [bytesOf, List.flatMap_cons, ← List.append_assoc] at hmax
    have hmax' : (bs ++ f.data).length ≤ udpHeaderLen.toNat + 8992 := by
      rw [List.length_append] at hmax
      omega
    rw [List.length_cons] at hcount
    have hfits := h.fits hf (by omega) hmin hmax' timing
    have houtcome := outcome_rx timing h.arrays hf.rqId (h.turn hf)
    rw [if_pos hfits, hf.cont] at houtcome
    cases fs with
    | nil =>
      obtain ⟨-, -, hdata⟩ := h.fragment hf (by omega) hmin
      refine ⟨_, finishedPacket r f.ev, h.finished timing f.ev, ?_, ?_⟩
      · rw [finishedPacket, hdata, bytesOf, List.flatMap_singleton]
      · rw [Fragment.events, List.map_singleton]
        simp only [NetworkReceiverImplementationEFVI.reassemble, houtcome]
        rfl
    | cons g fs =>
      have hnext := h.stored hf (by omega) hmin hmax'
      have hreported' := hreported.2.jumbo (NetworkReceiverImplementationEFVI.stored r f.ev)
      rw [← List.length_append, ← decide_eq_false (Nat.succ_ne_zero k)] at hreported'
      obtain ⟨j, pkt, hpending, hpayload, hrest⟩ := ih
        (r := { r with jumbo := NetworkReceiverImplementationEFVI.stored r f.ev }) hnext (by simp)
        hreported' (by omega) (fun e _ => by rw [List.length_append]; omega) hmax
      refine ⟨j, pkt, hpending, ?_, ?_⟩
      · rw [hpayload, List.append_assoc]
        rfl
      · rw [Fragment.events, List.map_cons]
        simp only [NetworkReceiverImplementationEFVI.reassemble, houtcome]
        exact hrest

theorem reassemble_packets (timing : Bool) {ws : List (List Fragment)} (h : Pending [] 0 r.jumbo)
    (hws : ∀ w ∈ ws, WellFormed r w) : ∃ r' pkts,
    reassemble timing r (ws.flatMap Fragment.events) = some (r', pkts) ∧
      pkts.map Packet.payload = ws.map packetPayload := by
  induction ws generalizing r with
  | nil => exact ⟨r, [], rfl, rfl⟩
  | cons w ws ih =>
    have hw := hws w (by simp)
    obtain ⟨j, pkt, hpending, hpayload, hfirst⟩ := Pending.reassemble timing h hw.nonempty
      hw.reported (by rw [Nat.zero_add]; exact hw.count) hw.header hw.size.2
    obtain ⟨r', pkts, hrest, hpayloads⟩ := ih (r := { r with jumbo := j }) hpending
      fun v hv => (hws v (List.mem_cons_of_mem w hv)).jumbo j
    refine ⟨r', pkt :: pkts, ?_, ?_⟩
    · rw [List.flatMap_cons, reassemble_append, hfirst, Option.bind_some, hrest]
      rfl
    · rw [List.map_cons, List.map_cons, hpayload, hpayloads]
      rfl

end Packets

end UdpSm.NetworkReceiverImplementationEFVI

namespace UdpSm.Pipeline
open Lib RingFIFOBuffer InserterImplementation
open ParserImplementation hiding iterate Context constructed
open NetworkReceiverImplementationEFVI (EfEvent Receiver Packet reassemble reassemble_append
  eventsPolled iterate_reassemble)

def Call.wire (c : Call) : List EfEvent :=
  match c.action with
  | .receive events => eventsPolled c.before.received events
  | _ => []

def wire (cs : List Call) : List EfEvent := cs.flatMap Call.wire

section Wire
variable {u : Unset} {cs : List Call} {s s' : System} {c : Call}

theorem wire_step (hwell : Well s) (hbefore : c.before = s) (hok : perform s c.action = .ok s')
    (htiming : c.timing = false) {v : Receiver × List Packet}
    (hv : reassemble false s.receiver c.wire = some v) : s'.receiver = v.1 ∧ c.packets = v.2 := by
  obtain ⟨before, action⟩ := c
  obtain rfl : before = s := hbefore
  have hflag : before.common.flag flagGetTiming = false := htiming
  cases action with
  | receive events =>
    obtain ⟨x, hx, rfl⟩ := map_ok hok
    refine iterate_reassemble (x := before.received) hwell.jumbo ?_ hx
    change reassemble (before.common.flag flagGetTiming) before.receiver _ = _
    rw [hflag]
    exact hv
  | parse =>
    obtain ⟨x, -, rfl⟩ := map_ok hok
    obtain rfl := Option.some.inj hv
    exact ⟨rfl, rfl⟩
  | insert now =>
    obtain rfl := Option.some.inj hv
    cases (hwell.insert hok).2 with
    | idle => exact ⟨rfl, rfl⟩
    | insert => exact ⟨rfl, rfl⟩
  | writeTimestamp now =>
    obtain rfl := Except.ok.inj hok
    obtain rfl := Option.some.inj hv
    exact ⟨rfl, rfl⟩
  | readKeyboardInput key =>
    obtain rfl := Except.ok.inj hok
    obtain rfl := Option.some.inj hv
    exact ⟨rfl, rfl⟩

/-- The packets of a run are those of its events, however they are spread over the calls. -/
theorem wire_run (h : Run Step (initial u) cs s) (htiming : ∀ c ∈ cs, c.timing = false)
    {v : Receiver × List Packet} (hv : reassemble false (initial u).receiver (wire cs) = some v) :
    s.receiver = v.1 ∧ received cs = v.2 := by
  refine (run_invariant (fun cs s => (∀ c ∈ cs, c.timing = false) → ∀ v,
    reassemble false (initial u).receiver (wire cs) = some v → s.receiver = v.1 ∧ received cs = v.2)
    ?_ ?_ h).2 htiming v hv
  · intro _ v hv
    obtain rfl := Option.some.inj hv
    exact ⟨rfl, rfl⟩
  · intro cs s c s' hwell hinv hbefore hok _ hcs v hv
    have hwire : wire (cs ++ [c]) = wire cs ++ c.wire := by simp [wire]
    have hreceived : received (cs ++ [c]) = received cs ++ c.packets := by simp [received]
    rw [hwire, reassemble_append] at hv
    obtain ⟨w, hw, hmap⟩ := Option.bind_eq_some_iff.mp hv
    obtain ⟨w', hlast, rfl⟩ := Option.map_eq_some_iff.mp hmap
    obtain ⟨hreceiver, hpackets⟩ := hinv (fun d hd => hcs d (List.mem_append_left _ hd)) w hw
    rw [← hreceiver] at hlast
    obtain ⟨hreceiver', hpackets'⟩ := wire_step hwell hbefore hok (hcs c (by simp)) hlast
    exact ⟨hreceiver', by rw [hreceived, hpackets, hpackets']⟩

end Wire

end UdpSm.Pipeline

namespace UdpSm.UDPJubmoFrameReceiverImplementation
open Lib Pipeline InserterImplementation
open ParserImplementation (admission connected emptyBlock messagesOf oneMessageFrame)
open NetworkReceiverImplementationEFVI (Fragment WellFormed packetPayload reassemble_packets
  pending_idle fragmentOf reports_fragmentOf blankReceiver)

section Reader
variable {u : Unset} {rs : List Round} {p : Program} {ws : List (List Fragment)}

/-- What a reader decodes once both queues are empty is what was sent: the messages of the frames
that the session admits out of the packets on the wire, in order, whole, and nothing else. -/
theorem wire_to_reader (h : Run Turned (start u) rs p) (hdefault : ∀ c ∈ calls rs, c.Default)
    (hwire : wire (calls rs) = ws.flatMap Fragment.events)
    (hws : ∀ w ∈ ws, WellFormed (initial u).receiver w) (hframes : p.system.frames = [])
    (hmessages : p.system.messages = []) (hmax : linesWritten 0 (published (calls rs)) < 2 ^ 64) :
    (((records 0 (published (calls rs))).filter fun r => r.payload ≠ []).map Record.payload =
      (((ws.map packetPayload).zip (closings (calls rs))).foldl admission
        (⟨⟨0, 0, .startup⟩, false, 0, false⟩, [])).2.flatMap messagesOf) ∧
    ∀ older r newer, records 0 (published (calls rs)) = older ++ r :: newer →
      commitSequence p.system.file ≤ r.line + totalNumberOfDataCacheLines →
      ∀ fuel, newer.length + 1 < fuel →
        decode p.system.file (commitSequence p.system.file) fuel r.line = some (r :: newer) := by
  have hrun := loop_run h
  have htiming : ∀ c ∈ calls rs, c.timing = false := fun c hc => (hdefault c hc).flag flagGetTiming
  have hbytes := published_bytes hrun
  constructor
  · obtain ⟨r', pkts, hreassemble, hpayloads⟩ := reassemble_packets false
      (pending_idle (r := (initial u).receiver) ⟨rfl, rfl, rfl⟩ rfl) hws
    rw [← hwire] at hreassemble
    obtain ⟨-, hreceived⟩ := wire_run hrun htiming hreassemble
    obtain ⟨htaken, hconsumed⟩ := run_queues hrun
    rw [hframes, List.append_nil, handed_untimed htiming, hreceived, hpayloads] at htaken
    rw [hmessages, List.append_nil] at hconsumed
    have haccepted := congrArg Prod.snd (admission_run hrun hdefault)
    rw [htaken] at haccepted
    have hrecords := congrArg (List.map Prod.snd) (records_messages (w := 0) hbytes)
    rw [List.map_map, List.map_map] at hrecords
    refine Eq.trans hrecords ?_
    change (published (calls rs)).map Append.message = _
    rw [published_untimed hrun htiming, hconsumed, queued_untimed hrun htiming]
    exact congrArg (List.flatMap messagesOf) haccepted
  · exact (decodes hrun).decode hmax

/-! A frame in two fragments, which the receiver polls in different turns. -/

def splitFrame : List Fragment :=
  [fragmentOf 0 true false (List.replicate 42 0 ++ oneMessageFrame.take 20),
    fragmentOf 62 false true (oneMessageFrame.drop 20)]

theorem wellFormed_splitFrame : WellFormed (initial blank).receiver splitFrame := by
  have hblank : WellFormed blankReceiver splitFrame :=
    ⟨⟨reports_fragmentOf (by decide) true false, reports_fragmentOf (by decide) false true, trivial⟩,
      by decide, by decide, by decide, by decide⟩
  exact hblank.jumbo (initial blank).receiver.jumbo

def polls (c : Call) : Bool :=
  match c.action with
  | .receive _ => decide (c.before.received.receiver.initialized = true ∧
      (RingFIFOBuffer.getCapacity c.before.received.ring0).1 ≥ 16384)
  | _ => false

theorem wire_receive (s : System) (events : List NetworkReceiverImplementationEFVI.EfEvent) :
    Call.wire ⟨s, .receive events⟩ = if polls ⟨s, .receive events⟩ then events else [] := by
  unfold Call.wire NetworkReceiverImplementationEFVI.eventsPolled polls
  exact if_congr decide_eq_true_iff.symm rfl rfl

theorem Effect.wire {p p' : Program} {t : Turn} {cs : List Call} (h : Effect p t p' cs) :
    cs.flatMap Call.wire = if cs.any polls then t.events else [] := by
  have hreceive := fun s => wire_receive s t.events
  cases h with
  | leave => rfl
  | enter => rfl
  | still => rfl
  | stop s1 s2 s3 => simpa [Call.wire, polls] using hreceive s2
  | wait s1 s2 s3 s4 => simpa [Call.wire, polls] using hreceive s2
  | session s1 s2 s3 s4 => simpa [Call.wire, polls] using hreceive s1

theorem wire_turns {ts : List Turn} {p' : Program} (hwell : Pipeline.Well p.system)
    (h : iterateAll p ts = .ok (p', rs)) : wire (calls rs) =
      (ts.zip (rs.map fun r => r.calls.any polls)).flatMap fun v => if v.2 then v.1.events else [] := by
  induction ts generalizing p rs with
  | nil =>
    obtain ⟨-, rfl⟩ := Prod.mk.inj (Except.ok.inj h)
    rfl
  | cons t ts ih =>
    rw [iterateAll] at h
    cases hok : iterate p t with
    | error e => simp [hok] at h
    | ok r =>
      simp only [hok] at h
      obtain ⟨v, hv, heq⟩ := map_ok h
      obtain ⟨rfl, rfl⟩ := Prod.mk.inj heq
      have heffect := iterate_effect hwell hok
      have hrest := ih (heffect.well hwell) hv
      rw [List.map_cons, List.zip_cons_cons, List.flatMap_cons, ← hrest, ← heffect.wire]
      simp [Pipeline.wire, calls]

theorem wire_to_reader_split : ∃ rs p, Run Turned (start blank) rs p ∧
    decode p.system.file (commitSequence p.system.file) 3 0 =
      some [⟨0, 1, 1, emptyBlock.drop 2⟩] := by
  obtain ⟨⟨p, rs⟩, hall, hlook⟩ := Option.map_eq_some_iff.mp
    (show ((iterateAll (start blank) [⟨(Fragment.events splitFrame).take 1, 0, none⟩,
        ⟨(Fragment.events splitFrame).drop 1, 0, none⟩, ⟨[], 0, none⟩, ⟨[], 0, none⟩,
        ⟨[], 0, none⟩]).toOption.map fun r => (decide (Settled r),
          r.2.map fun v => v.calls.any polls, records 0 (published (calls r.2)),
          decide (linesWritten 0 (published (calls r.2)) < 2 ^ 64 ∧
            commitSequence r.1.system.file ≤ totalNumberOfDataCacheLines))) =
        some (true, [true, true, false, false, true], [⟨0, 1, 1, emptyBlock.drop 2⟩], true) by
      decide +kernel)
  simp only [Prod.mk.injEq, decide_eq_true_eq] at hlook
  obtain ⟨hsettled, hpolls, hrecords, hmax, hwindow⟩ := hlook
  have hall := ok_of_toOption hall
  have hwire := wire_turns (p := start blank) (well_initial blank) hall
  rw [hpolls] at hwire
  change wire (calls rs) = [splitFrame].flatMap Fragment.events at hwire
  have hdecode := (wire_to_reader (iterateAll_run hall) hsettled.default hwire
    (by simpa using wellFormed_splitFrame) hsettled.2.1 hsettled.2.2 hmax).2 [] _ [] hrecords
    (Nat.le_trans hwindow (Nat.le_add_left _ _)) 3 (by decide)
  exact ⟨rs, p, iterateAll_run hall, hdecode⟩

end Reader

end UdpSm.UDPJubmoFrameReceiverImplementation
