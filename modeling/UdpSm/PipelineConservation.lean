import UdpSm.PipelineDecoding
import UdpSm.ReceiverCapacity

/-! From the wire to shared memory: what goes into a queue comes out of it, once and in order. -/
namespace UdpSm.ParserImplementation
open Lib

/-- The blocks at the start of `bs`, by their own length fields. -/
def splitBlocks : Nat → List UInt8 → List (List UInt8)
  | 0, _ => []
  | count+1, bs =>
    bs.take (2 + ofBe (bs.take 2)) :: splitBlocks count (bs.drop (2 + ofBe (bs.take 2)))

def messagesOf (F : List UInt8) : List (List UInt8) :=
  (splitBlocks (ofBe ((F.drop 18).take 2)) (F.drop 20)).map (List.drop 2)

theorem Block.splitBlocks {b : List UInt8} (h : Block b) (count : Nat) (rest : List UInt8) :
    splitBlocks (count + 1) (b ++ rest) = b :: ParserImplementation.splitBlocks count rest := by
  have h4 : 3 < b.length := (List.getElem?_eq_some_iff.mp h.headerVersion).1
  have htake : (b ++ rest).take 2 = b.take 2 := List.take_append_of_le_length (by omega)
  rw [ParserImplementation.splitBlocks, htake, ← h.length, List.take_left, List.drop_left]

theorem splitBlocks_flatten {blocks : List (List UInt8)} (h : ∀ b ∈ blocks, Block b) :
    splitBlocks blocks.length blocks.flatten = blocks := by
  induction blocks with
  | nil => rfl
  | cons b blocks ih =>
    rw [List.length_cons, List.flatten_cons, (h b (by simp)).splitBlocks,
      ih fun c hc => h c (List.mem_cons_of_mem b hc)]

theorem Grammar.messagesOf_eq {F : List UInt8} {blocks : List (List UInt8)} (h : Grammar F blocks) :
    messagesOf F = blocks.map (List.drop 2) := by
  rw [messagesOf, h.messageCount, h.split, splitBlocks_flatten h.blocks]

end UdpSm.ParserImplementation

namespace UdpSm.Pipeline
open Lib RingFIFOBuffer InserterImplementation
open ParserImplementation hiding iterate Context constructed
open NetworkReceiverImplementationEFVI (Packet packetEvent)

/-! The two queues at their other ends. -/

def Call.timing (c : Call) : Bool := c.before.common.flag flagGetTiming

def Call.consumed (c : Call) : List (List UInt8) :=
  match c.action with
  | .insert _ => c.before.messages.head?.toList
  | _ => []

def blocksFor (x : ParserImplementation.Context) (F : List UInt8) : List (List UInt8) :=
  if Accepted (ParserImplementation.received x F x.ring0) then
    frameBlocks (ParserImplementation.received x F x.ring0) else []

def Call.queued (c : Call) : List (List UInt8) :=
  c.taken.flatMap (blocksFor c.before.context)

/-- The packets that the receiver hands over, as they stand in ring buffer 0. -/
def Call.handed (c : Call) : List (List UInt8) := c.packets.map (NetworkReceiverImplementationEFVI.Packet.data c.timing)

def consumed (cs : List Call) : List (List UInt8) := cs.flatMap Call.consumed
def queued (cs : List Call) : List (List UInt8) := cs.flatMap Call.queued
def handed (cs : List Call) : List (List UInt8) := cs.flatMap Call.handed

section Parse
variable {s : System} {F : List UInt8}

theorem Call.taken_none (h : takenFrame s.context = none) : Call.taken ⟨s, .parse⟩ = [] := by
  simp only [Call.taken, h, Option.toList_none]

theorem Call.taken_some (h : takenFrame s.context = some F) : Call.taken ⟨s, .parse⟩ = [F] := by
  simp only [Call.taken, h, Option.toList_some]

theorem Call.queued_none (h : takenFrame s.context = none) : Call.queued ⟨s, .parse⟩ = [] := by
  rw [Call.queued, Call.taken_none h, List.flatMap_nil]

theorem Call.queued_some (h : takenFrame s.context = some F) :
    Call.queued ⟨s, .parse⟩ = blocksFor s.context F := by
  rw [Call.queued, Call.taken_some h, List.flatMap_singleton]

end Parse

section Step
variable {s s' : System} {c : Call}

theorem step_frames (hbefore : c.before = s) (hnext : Next s c.action s') :
    c.taken ++ s'.frames = s.frames ++ c.handed := by
  obtain ⟨before, action⟩ := c
  obtain rfl : before = s := hbefore
  cases hnext with
  | receive events total run jumbo ring0 hrun hframes => exact hframes
  | parse R x ht =>
    rw [Call.handed, Call.packets, List.map_nil, List.append_nil]
    cases ht with
    | idle hnone =>
      rw [Call.taken_none hnone]
      rfl
    | frame F ring0 hsome hrun hcapacity hlength hframes hring ht =>
      have hring0 : x.ring0 = ring0 := ht.kept.1
      rw [Call.taken_some hsome, System.frames, System.frames, hring0, hframes]
      rfl
  | idle => exact (List.append_nil _).symm
  | insert => exact (List.append_nil _).symm
  | writeTimestamp => exact (List.append_nil _).symm
  | readKeyboardInput => exact (List.append_nil _).symm

theorem step_messages (hwell : Well s) (hbefore : c.before = s) (hnext : Next s c.action s') :
    c.consumed ++ s'.messages = s.messages ++ c.queued := by
  obtain ⟨before, action⟩ := c
  obtain rfl : before = s := hbefore
  cases hnext with
  | receive => exact (List.append_nil _).symm
  | parse R x ht =>
    rw [Call.consumed, List.nil_append]
    cases ht with
    | idle hnone d n p hsnap hptr =>
      obtain ⟨R1, h1⟩ := hwell.ring1
      have hmessages : contents p = before.messages := (holds_of_kept h1 hsnap hptr).contents_eq
      rw [Call.queued_none hnone, List.append_nil]
      exact hmessages
    | frame F ring0 hsome hrun hcapacity hlength hframes hring ht =>
      have hmessages := ht.contents rfl
      rw [Call.queued_some hsome]
      change contents x.ring1.ringbuf = contents before.context.ring1.ringbuf ++
        if Accepted (ParserImplementation.received before.context F ring0) then
          frameBlocks (ParserImplementation.received before.context F ring0) else []
      rw [hmessages]
      split_ifs
      · rfl
      · exact (List.append_nil _).symm
  | idle now hnone =>
    rw [Call.consumed, Call.queued, Call.taken, hnone]
    exact hnone.trans rfl
  | insert now m ring hm =>
    simp only [Call.consumed, hm]
    exact (List.append_nil _).symm
  | writeTimestamp => exact (List.append_nil _).symm
  | readKeyboardInput => exact (List.append_nil _).symm

theorem accepted_eq (hwell : Well c.before) (hok : perform c.before c.action = .ok s') :
    c.accepted = c.taken.filter fun F =>
      Accepted (ParserImplementation.received c.before.context F c.before.context.ring0) := by
  obtain ⟨before, action⟩ := c
  cases action with
  | receive => rfl
  | insert => rfl
  | writeTimestamp => rfl
  | readKeyboardInput => rfl
  | parse =>
    obtain ⟨R0, h0⟩ := hwell.ring0
    obtain ⟨R, h1⟩ := hwell.ring1
    obtain ⟨x, hx, rfl⟩ := map_ok hok
    simp only [Call.accepted, Call.taken, hx]
    cases iterate_turned h0 h1 hx with
    | idle hnone => simp [hnone]
    | frame F ring0 hsome hrun hcapacity hlength hframes hring ht =>
      have hdiscard := ht.discard rfl
      have hkept := ht.kept.2.2.1
      have h36 : 36 ≤ x.parser.payloadBytesReceived ↔ 36 ≤
          (ParserImplementation.received before.context F ring0).parser.payloadBytesReceived.toNat := by
        rw [hkept]
        rfl
      have haccepted : x.parser.discardFrame = 0 ∧ 36 ≤ x.parser.payloadBytesReceived ↔
          Accepted (ParserImplementation.received before.context F before.context.ring0) := by
        rw [h36]
        constructor
        · rintro ⟨hzero, hlong⟩
          by_contra hno
          exact hdiscard.mpr ⟨hlong, hno⟩ hzero
        · intro ha
          refine ⟨?_, ha.1.1⟩
          by_contra hne
          exact (hdiscard.mp hne).2 ha
      simp only [hsome, Option.toList_some, haccepted]
      by_cases ha : Accepted (ParserImplementation.received before.context F before.context.ring0)
      · rw [if_pos ha, List.filter_cons_of_pos (by simpa using ha), List.filter_nil]
      · rw [if_neg ha, List.filter_cons_of_neg (by simpa using ha), List.filter_nil]

theorem published_eq (hwell : Well c.before) :
    c.published.map Append.message = c.consumed.map (payloadOf c.timing) := by
  obtain ⟨before, action⟩ := c
  cases action with
  | receive => rfl
  | parse => rfl
  | writeTimestamp => rfl
  | readKeyboardInput => rfl
  | insert now =>
    simp only [Call.published, Call.consumed]
    cases hm : before.messages with
    | nil => rfl
    | cons m q =>
      have hlength := hwell.messages m (by rw [hm]; simp)
      simp only [List.head?_cons, Option.toList_some, List.map_cons, List.map_nil]
      rw [appendFor_message _ _ (by omega)
        (Nat.le_trans hlength.2 (by decide : NetworkReceiverImplementationEFVI.jumboSize + 8 ≤ 65537))]
      rfl

theorem takenFrame_length (hwell : Well c.before) : ∀ F ∈ c.taken,
    F.length ≤ NetworkReceiverImplementationEFVI.jumboSize := by
  obtain ⟨before, action⟩ := c
  cases action with
  | receive => simp [Call.taken]
  | insert => simp [Call.taken]
  | writeTimestamp => simp [Call.taken]
  | readKeyboardInput => simp [Call.taken]
  | parse =>
    intro F hF
    have hhead : takenFrame before.context = some F := by simpa [Call.taken] using hF
    rw [takenFrame] at hhead
    split_ifs at hhead
    exact hwell.frames F (List.mem_of_mem_head? hhead)

theorem takenFrame_short (hwell : Well s) {F : List UInt8} (hF : takenFrame s.context = some F) :
    F.length < 2 ^ 29 :=
  Nat.lt_of_le_of_lt (takenFrame_length (c := ⟨s, .parse⟩) hwell F (by simp [Call.taken_some hF]))
    (by decide)

theorem queued_eq (hwell : Well c.before) (hok : perform c.before c.action = .ok s')
    (htiming : c.timing = false) : c.queued.map (List.drop 2) = c.accepted.flatMap messagesOf := by
  rw [accepted_eq hwell hok, Call.queued]
  have hlengths := takenFrame_length hwell
  generalize c.taken = Fs at hlengths
  induction Fs with
  | nil => rfl
  | cons F Fs ih =>
    have hn : F.length < 2 ^ 29 := Nat.lt_of_le_of_lt (hlengths F (by simp)) (by decide)
    have ih := ih fun G hG => hlengths G (List.mem_cons_of_mem F hG)
    rw [List.flatMap_cons, List.map_append, ih]
    by_cases ha : Accepted (ParserImplementation.received c.before.context F c.before.context.ring0)
    · obtain ⟨⟨blocks, hblocks⟩, -⟩ := (accepted_iff _ _ hn).mp ha
      have hflag : c.before.context.common.flag flagGetTiming = false := htiming
      have hpayload : payload (c.before.context.common.flag flagGetTiming) F = F := by
        rw [hflag, payload_untimed]
      rw [hpayload] at hblocks
      have h36 : 36 ≤ F.length := Nat.le_trans (by decide) hblocks.length_le
      rw [List.filter_cons_of_pos (by simpa using ha), List.flatMap_cons, blocksFor, if_pos ha,
        hblocks.frameBlocks_eq hn h36 htiming, hblocks.messagesOf_eq]
    · rw [List.filter_cons_of_neg (by simpa using ha), blocksFor, if_neg ha]
      rfl

end Step

section Run
variable {u : Unset} {cs : List Call} {s : System}

theorem run_calls (h : Run Step (initial u) cs s) :
    ∀ c ∈ cs, Well c.before ∧ ∃ s', perform c.before c.action = .ok s' := by
  refine (run_invariant (fun cs _ => ∀ c ∈ cs, Well c.before ∧
    ∃ s', perform c.before c.action = .ok s') (by simp) ?_ h).2
  intro cs s c s' hwell hcs hbefore hok _ d hd
  obtain hd | hd := List.mem_append.mp hd
  · exact hcs d hd
  · obtain rfl := List.mem_singleton.mp hd
    subst hbefore
    exact ⟨hwell, s', hok⟩

/-- What is taken from a queue, followed by what is left, is what was put in. -/
theorem run_queues (h : Run Step (initial u) cs s) :
    taken cs ++ s.frames = handed cs ∧ consumed cs ++ s.messages = queued cs := by
  refine (run_invariant (fun cs s => taken cs ++ s.frames = handed cs ∧
    consumed cs ++ s.messages = queued cs) ?_ ?_ h).2
  · rw [initial_frames, initial_messages]
    exact ⟨rfl, rfl⟩
  · rintro cs s c s' hwell ⟨hframes, hmessages⟩ hbefore - hnext
    have hframe := step_frames hbefore hnext
    have hmessage := step_messages hwell hbefore hnext
    simp only [taken, handed, consumed, queued, List.flatMap_append, List.flatMap_singleton]
      at hframes hmessages ⊢
    rw [List.append_assoc, hframe, ← List.append_assoc, hframes, List.append_assoc, hmessage,
      ← List.append_assoc, hmessages]
    exact ⟨rfl, rfl⟩

theorem published_untimed (h : Run Step (initial u) cs s) (htiming : ∀ c ∈ cs, c.timing = false) :
    (published cs).map Append.message = (consumed cs).map (List.drop 2) := by
  have hcalls := run_calls h
  rw [published, consumed, List.map_flatMap, List.map_flatMap]
  refine List.flatMap_congr fun c hc => ?_
  rw [published_eq (hcalls c hc).1, htiming c hc]
  exact List.map_congr_left fun m _ => if_neg fun h => by simp at h

theorem queued_untimed (h : Run Step (initial u) cs s) (htiming : ∀ c ∈ cs, c.timing = false) :
    (queued cs).map (List.drop 2) = (accepted cs).flatMap messagesOf := by
  have hcalls := run_calls h
  rw [queued, accepted, List.map_flatMap, List.flatMap_assoc]
  refine List.flatMap_congr fun c hc => ?_
  obtain ⟨hwell, s', hok⟩ := hcalls c hc
  exact queued_eq hwell hok (htiming c hc)

theorem handed_untimed (htiming : ∀ c ∈ cs, c.timing = false) :
    handed cs = (received cs).map Packet.payload := by
  rw [handed, received, List.map_flatMap]
  refine List.flatMap_congr fun c hc => ?_
  rw [Call.handed, htiming c hc]
  exact List.map_congr_left fun pkt _ => rfl

/-- With the timing flag off: what is published, followed by what still waits, is what the accepted
frames carry; what is parsed, followed by what still waits, is what came in. -/
theorem conservation (h : Run Step (initial u) cs s) (htiming : ∀ c ∈ cs, c.timing = false) :
    (published cs).map Append.message ++ s.messages.map (List.drop 2) =
      (accepted cs).flatMap messagesOf ∧
    taken cs ++ s.frames = (received cs).map Packet.payload ∧ Decodes u cs s := by
  obtain ⟨hframes, hmessages⟩ := run_queues h
  refine ⟨?_, by rw [hframes, handed_untimed htiming], decodes h⟩
  rw [published_untimed h htiming, ← List.map_append, hmessages, queued_untimed h htiming]

theorem conservation_one_message : ∃ cs s, Run Step (initial blank) cs s ∧
    (published cs).map Append.message = [emptyBlock.drop 2] ∧
    (published cs).map Append.message ++ s.messages.map (List.drop 2) =
      (accepted cs).flatMap messagesOf ∧
    taken cs ++ s.frames = (received cs).map Packet.payload ∧ Decodes blank cs s := by
  obtain ⟨cs, s, hrun, hlook⟩ := exists_run (s := initial blank)
    [.receive [packetEvent oneMessageFrame], .parse, .insert 0]
    (fun r => ((published r.2).map Append.message, r.2.all fun c => !c.timing))
    (v := ([emptyBlock.drop 2], true)) (by decide +kernel)
  obtain ⟨hpublished, hall⟩ := Prod.mk.inj hlook
  refine ⟨cs, s, hrun, hpublished, conservation hrun fun c hc => ?_⟩
  simpa using List.all_eq_true.mp hall c hc

end Run

end UdpSm.Pipeline
