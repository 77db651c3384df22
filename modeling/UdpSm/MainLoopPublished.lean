import UdpSm.MainLoopSession
import UdpSm.PipelineAdmission
import UdpSm.PipelineSequence

/-! What the main loop publishes: the numbers of the records, and two runs side by side. -/
namespace UdpSm.UDPJubmoFrameReceiverImplementation
open Lib Pipeline InserterImplementation
open ParserImplementation hiding iterate Context constructed Turned
open NetworkReceiverImplementationEFVI (packetEvent Packet)

section Numbers
variable {u : Unset} {rs : List Round} {p : Program}

/-- Every record carries its own frame's number, provided frames find ring buffer 1 empty or bring
the number that is there. -/
theorem records_numbered (h : Run Turned (start u) rs p) (hcalls : ∀ c ∈ calls rs, c.InStep) :
    ((delivered (calls rs)).map fun d => (d.1.sequenceNumber, d.2)) <+: labelled (calls rs) ∧
      (delivered (calls rs)).map Prod.fst = published (calls rs) ∧ Decodes u (calls rs) p.system := by
  have hnumbered := numbered_run (loop_run h) hcalls
  exact ⟨⟨_, hnumbered⟩, delivered_fst _, decodes (loop_run h)⟩

def numberedFrame (sequenceNumber count : Nat) : List UInt8 :=
  frameOf 0 (List.replicate 8 0) sequenceNumber (List.replicate count emptyBlock)

theorem records_numbered_two_frames : ∃ rs p, Run Turned (start blank) rs p ∧
    (published (calls rs)).map Append.sequenceNumber = [1, 2] ∧
    ((delivered (calls rs)).map fun d => (d.1.sequenceNumber, d.2)) <+: labelled (calls rs) ∧
      (delivered (calls rs)).map Prod.fst = published (calls rs) ∧
      Decodes blank (calls rs) p.system := by
  obtain ⟨rs, p, hrun, hlook⟩ := exists_loop (p := start blank)
    [⟨[packetEvent (numberedFrame 1 1)], 0, none⟩, ⟨[], 0, none⟩, ⟨[], 0, none⟩,
      ⟨[packetEvent (numberedFrame 2 1)], 0, none⟩, ⟨[], 0, none⟩]
    (fun r => ((published (calls r.2)).map Append.sequenceNumber, (calls r.2).all fun c =>
      c.accepted.all fun F => c.before.messages = [] ∨
        sequenceNumberOf F = c.before.common.commonValueSequenceNumber))
    (v := ([1, 2], true)) (by decide +kernel)
  obtain ⟨hnumbers, hall⟩ := Prod.mk.inj hlook
  refine ⟨rs, p, hrun, hnumbers, records_numbered hrun fun c hc F hF => ?_⟩
  simpa using List.all_eq_true.mp (List.all_eq_true.mp hall c hc) F hF

/-- The second message of the first frame goes out under the number of the second frame. -/
theorem backlog_renumbered : ∃ rs p, Run Turned (start blank) rs p ∧
    accepted (calls rs) = [numberedFrame 1 2, numberedFrame 2 1] ∧
    (published (calls rs)).map Append.sequenceNumber = [1, 2] ∧
    (labelled (calls rs)).map Prod.fst = [1, 1, 2] ∧
    ¬((delivered (calls rs)).map fun d => (d.1.sequenceNumber, d.2)) <+: labelled (calls rs) := by
  obtain ⟨rs, p, hrun, hlook⟩ := exists_loop (p := start blank)
    [⟨[packetEvent (numberedFrame 1 2)], 0, none⟩, ⟨[], 0, none⟩, ⟨[], 0, none⟩,
      ⟨[packetEvent (numberedFrame 2 1)], 0, none⟩, ⟨[], 0, none⟩]
    (fun r => (accepted (calls r.2), (published (calls r.2)).map Append.sequenceNumber,
      (labelled (calls r.2)).map Prod.fst,
      (delivered (calls r.2)).map fun d => d.1.sequenceNumber))
    (v := ([numberedFrame 1 2, numberedFrame 2 1], [1, 2], [1, 1, 2], [1, 2])) (by decide +kernel)
  simp only [Prod.mk.injEq] at hlook
  obtain ⟨haccepted, hnumbers, hlabels, hdelivered⟩ := hlook
  refine ⟨rs, p, hrun, haccepted, hnumbers, hlabels, fun hlead => ?_⟩
  have hfirst := hlead.map Prod.fst
  rw [hlabels, List.map_map] at hfirst
  change (delivered (calls rs)).map (fun d => d.1.sequenceNumber) <+: _ at hfirst
  rw [hdelivered] at hfirst
  exact absurd hfirst (by decide)

end Numbers

/-! Two runs on the same frames. -/
section Independence
variable {u v : Unset} {rs ts : List Round} {p q : Program}

/-- Once both rings are empty the records are the messages of the frames accepted. -/
theorem published_accepted (h : Run Turned (start u) rs p) (hdefault : ∀ c ∈ calls rs, c.Default)
    (hframes : p.system.frames = []) (hmessages : p.system.messages = []) :
    (published (calls rs)).map Append.message = (accepted (calls rs)).flatMap messagesOf ∧
      taken (calls rs) = (received (calls rs)).map Packet.payload := by
  have hrun := loop_run h
  have htiming : ∀ c ∈ calls rs, c.timing = false := fun c hc => (hdefault c hc).flag flagGetTiming
  obtain ⟨htaken, hconsumed⟩ := run_queues hrun
  rw [hframes, List.append_nil] at htaken
  rw [hmessages, List.append_nil] at hconsumed
  rw [published_untimed hrun htiming, hconsumed, queued_untimed hrun htiming, htaken,
    handed_untimed htiming]
  exact ⟨rfl, rfl⟩

/-- The timing of the same frames shows in nothing published but which of them end a shutdown. -/
theorem published_independent (h : Run Turned (start u) rs p) (h' : Run Turned (start v) ts q)
    (hdefault : ∀ c ∈ calls rs, c.Default) (hdefault' : ∀ c ∈ calls ts, c.Default)
    (hreceived : (received (calls rs)).map Packet.payload = (received (calls ts)).map Packet.payload)
    (hempty : p.system.frames = [] ∧ p.system.messages = [])
    (hempty' : q.system.frames = [] ∧ q.system.messages = [])
    (hclosings : closings (calls rs) = closings (calls ts)) :
    (published (calls rs)).map Append.message = (published (calls ts)).map Append.message ∧
      Decodes u (calls rs) p.system ∧ Decodes v (calls ts) q.system := by
  obtain ⟨hpublished, htaken⟩ := published_accepted h hdefault hempty.1 hempty.2
  obtain ⟨hpublished', htaken'⟩ := published_accepted h' hdefault' hempty'.1 hempty'.2
  have hadmit := admission_run (loop_run h) hdefault
  have hadmit' := admission_run (loop_run h') hdefault'
  rw [htaken, hreceived, ← htaken', hclosings, ← hadmit'] at hadmit
  have haccepted : accepted (calls rs) = accepted (calls ts) := congrArg Prod.snd hadmit
  refine ⟨?_, decodes (loop_run h), decodes (loop_run h')⟩
  rw [hpublished, hpublished', haccepted]

def Settled (v : Program × List Round) : Prop :=
  (calls v.2).all (fun (c : Call) => c.Default) ∧
    v.1.system.frames = [] ∧ v.1.system.messages = []

instance (v : Program × List Round) : Decidable (Settled v) := inferInstanceAs (Decidable (_ ∧ _ ∧ _))

theorem Settled.default {v : Program × List Round} (h : Settled v) : ∀ c ∈ calls v.2, c.Default :=
  fun c hc => of_decide_eq_true (List.all_eq_true.mp h.1 c hc)

theorem published_independent_late_frame : ∃ rs ts p q,
    Run Turned (start blank) rs p ∧ Run Turned (start blank) ts q ∧ rs.length ≠ ts.length ∧
    (published (calls rs)).map Append.message = [emptyBlock.drop 2, emptyBlock.drop 2] ∧
    (published (calls rs)).map Append.message = (published (calls ts)).map Append.message ∧
      Decodes blank (calls rs) p.system ∧ Decodes blank (calls ts) q.system := by
  obtain ⟨rs, p, hrun, hlook⟩ := exists_loop (p := start blank)
    [⟨[packetEvent (numberedFrame 1 1), packetEvent (numberedFrame 2 1)], 0, none⟩, ⟨[], 0, none⟩,
      ⟨[], 0, none⟩, ⟨[], 0, none⟩, ⟨[], 0, none⟩]
    (fun r => (decide (Settled r ∧ r.2.length = 5), (received (calls r.2)).map Packet.payload,
      closings (calls r.2), (published (calls r.2)).map Append.message))
    (v := (true, [numberedFrame 1 1, numberedFrame 2 1], [false, false],
      [emptyBlock.drop 2, emptyBlock.drop 2])) (by decide +kernel)
  obtain ⟨ts, q, hrun', hlook'⟩ := exists_loop (p := start blank)
    [⟨[packetEvent (numberedFrame 1 1)], 0, none⟩, ⟨[], 0, none⟩, ⟨[], 0, none⟩, ⟨[], 0, none⟩,
      ⟨[packetEvent (numberedFrame 2 1)], 0, none⟩, ⟨[], 0, none⟩]
    (fun r => (decide (Settled r ∧ r.2.length = 6), (received (calls r.2)).map Packet.payload,
      closings (calls r.2)))
    (v := (true, [numberedFrame 1 1, numberedFrame 2 1], [false, false])) (by decide +kernel)
  simp only [Prod.mk.injEq, decide_eq_true_eq] at hlook hlook'
  obtain ⟨⟨hsettled, hlength⟩, hreceived, hclosings, hpublished⟩ := hlook
  obtain ⟨⟨hsettled', hlength'⟩, hreceived', hclosings'⟩ := hlook'
  refine ⟨rs, ts, p, q, hrun, hrun', by omega, hpublished, ?_⟩
  exact published_independent hrun hrun' hsettled.default hsettled'.default
    (hreceived.trans hreceived'.symm) hsettled.2 hsettled'.2 (hclosings.trans hclosings'.symm)

def threeSessions : List (List UInt8) :=
  [numberedFrame 1 2, sessionFrame 1 (List.replicate 8 0), sessionFrame 0 (List.replicate 8 1),
    sessionFrame 0 (List.replicate 8 1), sessionFrame 0 (List.replicate 8 2)]

/-- The third frame ends the shutdown once the ring is drained, else the fourth does, and then the
last one is not filtered. -/
theorem backlog_shows : ∃ rs ts p q,
    Run Turned (start blank) rs p ∧ Run Turned (start blank) ts q ∧
    (∀ c ∈ calls rs, c.Default) ∧ (∀ c ∈ calls ts, c.Default) ∧
    (received (calls rs)).map Packet.payload = threeSessions ∧
    (received (calls ts)).map Packet.payload = threeSessions ∧
    (p.system.frames = [] ∧ p.system.messages = []) ∧
    (q.system.frames = [] ∧ q.system.messages = []) ∧
    (published (calls rs)).map Append.message ≠ (published (calls ts)).map Append.message := by
  obtain ⟨rs, p, hrun, hlook⟩ := exists_loop (p := start blank)
    [⟨(threeSessions.take 1).map packetEvent, 0, none⟩, ⟨[], 0, none⟩, ⟨[], 0, none⟩,
      ⟨((threeSessions.drop 1).take 1).map packetEvent, 0, none⟩, ⟨[], 0, none⟩, ⟨[], 0, none⟩,
      ⟨(threeSessions.drop 2).map packetEvent, 0, none⟩, ⟨[], 0, none⟩, ⟨[], 0, none⟩, ⟨[], 0, none⟩]
    (fun r => (decide (Settled r), (received (calls r.2)).map Packet.payload,
      (published (calls r.2)).length))
    (v := (true, threeSessions, 5)) (by decide +kernel)
  obtain ⟨ts, q, hrun', hlook'⟩ := exists_loop (p := start blank)
    [⟨(threeSessions.take 3).map packetEvent, 0, none⟩, ⟨[], 0, none⟩, ⟨[], 0, none⟩, ⟨[], 0, none⟩,
      ⟨[], 0, none⟩, ⟨[], 0, none⟩, ⟨[], 0, none⟩, ⟨[], 0, none⟩,
      ⟨(threeSessions.drop 3).map packetEvent, 0, none⟩, ⟨[], 0, none⟩, ⟨[], 0, none⟩]
    (fun r => (decide (Settled r), (received (calls r.2)).map Packet.payload,
      (published (calls r.2)).length))
    (v := (true, threeSessions, 6)) (by decide +kernel)
  simp only [Prod.mk.injEq, decide_eq_true_eq] at hlook hlook'
  obtain ⟨hsettled, hreceived, hlength⟩ := hlook
  obtain ⟨hsettled', hreceived', hlength'⟩ := hlook'
  refine ⟨rs, ts, p, q, hrun, hrun', hsettled.default, hsettled'.default, hreceived, hreceived',
    hsettled.2, hsettled'.2, fun hsame => ?_⟩
  have hlengths := congrArg List.length hsame
  rw [List.length_map, List.length_map, hlength, hlength'] at hlengths
  exact absurd hlengths (by decide)

end Independence

end UdpSm.UDPJubmoFrameReceiverImplementation
