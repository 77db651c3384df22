import UdpSm.ParserTiming
import UdpSm.PipelineLatency

/-! Whose time stamp the latency of a message is counted from. -/
namespace UdpSm.ParserImplementation
open Lib RingFIFOBuffer
open NetworkReceiverImplementationEFVI (Packet)

/-- A block, and the time stamp queued behind it. -/
abbrev Owned : Type := List UInt8 × Option UInt64

def Owned.bytes (o : Owned) : List UInt8 := o.1 ++ (o.2.map fun v => leBytes 8 v.toNat).getD []

def markLast (v : UInt64) : List (List UInt8) → List Owned
  | [] => []
  | [b] => [(b, some v)]
  | b :: bs => (b, none) :: markLast v bs

def blocksIn (F : List UInt8) : List (List UInt8) :=
  splitBlocks (ofBe ((F.drop 18).take 2)) (F.drop 20)

/-- The messages of a packet: only the last has the stamp of the packet. -/
def owned (pkt : Packet) : List Owned := markLast pkt.tscTimeStamp (blocksIn pkt.payload)

section Mark
variable {f : Nat → UInt8} {n o count : Nat} {v : UInt64}

theorem markLast_cons (v : UInt64) (b : List UInt8) {bs : List (List UInt8)} (h : bs ≠ []) :
    markLast v (b :: bs) = (b, none) :: markLast v bs := by
  cases bs with
  | nil => exact absurd rfl h
  | cons => rfl

theorem markLast_fst (v : UInt64) (bs : List (List UInt8)) : (markLast v bs).map Prod.fst = bs := by
  induction bs with
  | nil => rfl
  | cons b bs ih =>
    cases bs with
    | nil => rfl
    | cons b' bs => exact congrArg (b :: ·) ih

/-- The walk of a good frame takes the eight bytes behind the last block along. -/
theorem walk_mark (h : GoodBlocks f n count o) (hstamp : slice f (n, 8) = leBytes 8 v.toNat) :
    (walk true f n count o).map (slice f) =
      (markLast v ((walk false f n count o).map (slice f))).map Owned.bytes := by
  induction count generalizing o with
  | zero => rfl
  | succ count ih =>
    rw [walk_good h.1, walk, if_pos h.1, List.map_cons, ih h.2]
    cases count with
    | zero =>
      obtain rfl : o + declared f o = n := h.2
      have hlast : block true f (o + declared f o) (decide (0 = 0)) o = (o, declared f o + 8) := by
        simp [block, h.1]
      have hbytes : slice f (o, declared f o + 8) = Owned.bytes (slice f (o, declared f o), some v) := by
        rw [slice_add, hstamp]
        rfl
      rw [hlast, hbytes]
      rfl
    | succ count =>
      have hinner : block true f n (decide (count + 1 = 0)) o = (o, declared f o) := by simp [block]
      have hplain : slice f (o, declared f o) = Owned.bytes (slice f (o, declared f o), none) :=
        (List.append_nil _).symm
      have hmore : (walk false f n (count + 1) (o + declared f o)).map (slice f) ≠ [] := by
        rw [walk_good h.2.1]
        exact List.cons_ne_nil _ _
      rw [hinner, markLast_cons _ _ hmore, List.map_cons, ← hplain]

end Mark

section Frame
variable {x : Context} {pkt : Packet}

theorem blocksFor_packet (htiming : x.common.flag flagGetTiming = true)
    (hn : (pkt.data true).length < 2 ^ 29) (ha : Accepted (received x (pkt.data true) x.ring0)) :
    frameBlocks (received x (pkt.data true) x.ring0) = (owned pkt).map Owned.bytes ∧
      ∀ o ∈ owned pkt, Block o.1 := by
  obtain ⟨⟨blocks, hblocks⟩, -⟩ := (accepted_iff _ _ hn).mp ha
  have hdata : (pkt.data true).length = pkt.payload.length + 8 := by simp [Packet.data]
  have hlong := hblocks.length_le
  rw [htiming, payload_length] at hlong
  have hshort := Pipeline.frameLength_le true (pkt.data true).length
  have hpayload : payload (x.common.flag flagGetTiming) (pkt.data true) = pkt.payload := by
    rw [htiming]
    exact data_payload true (by omega)
  have hlength : frameLength (x.common.flag flagGetTiming) (pkt.data true).length =
      pkt.payload.length := by
    rw [← payload_length, hpayload]
  have hin : blocksIn pkt.payload = blocks := by
    rw [hpayload] at hblocks
    rw [blocksIn, hblocks.messageCount, hblocks.split, splitBlocks_flatten hblocks.blocks]
  obtain ⟨-, hgood, hwalk⟩ := hblocks.good (overwrite (pkt.data true) x.parser.parserReceivedDataPtr)
    (Nat.le_trans (by decide) hblocks.length_le)
  rw [payload_length, hlength] at hgood hwalk
  rw [payload, overwrite_take] at hgood hwalk
  have hdrop : (pkt.data true).drop pkt.payload.length = leBytes 8 pkt.tscTimeStamp.toNat ++ [] := by
    rw [List.append_nil]
    exact List.drop_left
  have hstamp := slice_overwrite x.parser.parserReceivedDataPtr hdrop
  rw [leBytes_length] at hstamp
  have hmarked := walk_mark hgood hstamp
  rw [hwalk, ← hin] at hmarked
  refine ⟨?_, ?_⟩
  · rw [frameBlocks, frameWalk, received_length x x.ring0 hn, hlength, ← htiming] at *
    exact hmarked
  · intro o ho
    refine hblocks.blocks o.1 ?_
    rw [← hin, ← markLast_fst pkt.tscTimeStamp (blocksIn pkt.payload)]
    exact List.mem_map_of_mem ho

end Frame

end UdpSm.ParserImplementation

namespace UdpSm.NetworkReceiverImplementationEFVI
open RingFIFOBuffer

def benchedEvent (timing : Bool) : EfEvent → List UInt64
  | .rx ev => if timing then [ev.tscTimeStamp] else []
  | _ => []

def benchedEvents (x : Context) : List EfEvent → List UInt64
  | [] => []
  | e :: es =>
    benchedEvent (x.common.flag flagGetTiming) e ++
      match handleEvent x e with
      | .error _ => []
      | .ok (rv, x) => if rv = 0 then benchedEvents x es else []

def benched (x : Context) (events : List EfEvent) : List UInt64 :=
  if x.receiver.initialized ∧ (getCapacity x.ring0).1 ≥ 16384 then
    benchedEvents { x with ring0 := (getCapacity x.ring0).2 } events
  else []

theorem benchEvent_stamp (timing : Bool) (t : Tsc) (e : EfEvent) :
    (benchEvent timing t e).tscTimeStamp = (benchedEvent timing e).getLast?.getD t.tscTimeStamp := by
  cases e with
  | rx ev =>
    rw [benchEvent, benchedEvent]
    split_ifs
    · exact UInt64.sub_add_cancel _ _
    · rfl
  | rxDiscard => rfl
  | other => rfl

theorem benchEvents_stamp (x : Context) (t : Tsc) (es : List EfEvent) :
    (benchEvents x t es).tscTimeStamp = (benchedEvents x es).getLast?.getD t.tscTimeStamp := by
  induction es generalizing x t with
  | nil => rfl
  | cons e es ih =>
    rw [benchEvents, benchedEvents, List.getLast?_append, Option.getD_or, ← benchEvent_stamp]
    cases handleEvent x e with
    | error h => rfl
    | ok r =>
      obtain ⟨rv, y⟩ := r
      simp only []
      split_ifs
      · exact ih y _
      · rfl

theorem iterateTsc_stamp (x : Context) (events : List EfEvent) (t : Tsc) :
    (iterateTsc x events t).tscTimeStamp = (benched x events).getLast?.getD t.tscTimeStamp := by
  rw [iterateTsc, benched]
  by_cases hinit : x.receiver.initialized = true
  · rw [if_pos hinit]
    change (if (getCapacity x.ring0).1 ≥ 16384 then
      benchEvents { x with ring0 := (getCapacity x.ring0).2 } t events else t).tscTimeStamp = _
    by_cases hcapacity : (getCapacity x.ring0).1 ≥ 16384
    · rw [if_pos hcapacity, if_pos ⟨hinit, hcapacity⟩]
      exact benchEvents_stamp _ t events
    · rw [if_neg hcapacity, if_neg fun h => hcapacity h.2]
      rfl
  · rw [if_neg hinit, if_neg fun h => hinit h.1]
    rfl

end UdpSm.NetworkReceiverImplementationEFVI

namespace UdpSm.Pipeline
open Lib RingFIFOBuffer InserterImplementation
open ParserImplementation hiding iterate Context constructed
open NetworkReceiverImplementationEFVI (Packet benched iterateTsc_stamp)

/-- A call that handles a packet, a frame or a message. -/
def Call.Busy (c : Call) : Prop := c.packets ≠ [] ∨ c.taken ≠ [] ∨ c.consumed ≠ []

instance (c : Call) : Decidable c.Busy := inferInstanceAs (Decidable (_ ∨ _))

def packetOf (F : List UInt8) : Packet :=
  ⟨F.take (F.length - 8), UInt64.ofNat (ofLe (F.drop (F.length - 8)))⟩

def measured (cs : List MeteredCall) : List MeteredCall := cs.filter fun c => c.call.consumed ≠ []

def MeteredCall.stamps (c : MeteredCall) : List UInt64 :=
  match c.action with
  | .receive events => benched c.before.system.received events
  | .insert _ => c.call.consumed.filterMap (stampBehind c.call.timing)
  | _ => []

def stamps (cs : List MeteredCall) : List UInt64 := cs.flatMap MeteredCall.stamps

/-- The message is `o`, and its latency counts from its own time stamp or else from the one that
the clock has. -/
structure Attributed (o : Owned) (c : MeteredCall) : Prop where
  message : c.call.published.map Append.message = [o.1.drop 2]
  latency : c.latency = some (c.cycles - o.2.getD c.before.meter.tsc.tscTimeStamp)

theorem packetOf_data (pkt : Packet) : packetOf (pkt.data true) = pkt := by
  have hlength : (pkt.data true).length - 8 = pkt.payload.length := by simp [Packet.data]
  have hdata : pkt.data true = pkt.payload ++ leBytes 8 pkt.tscTimeStamp.toNat := rfl
  have hstamp : pkt.tscTimeStamp.toNat < 256 ^ 8 := pkt.tscTimeStamp.toNat_lt
  rw [packetOf, hlength, hdata, List.take_left, List.drop_left, ofLe_leBytes,
    Nat.mod_eq_of_lt hstamp, UInt64.ofNat_toNat]

theorem map_packetOf_data (pkts : List Packet) :
    (pkts.map (Packet.data true)).map packetOf = pkts := by
  have hinverse : packetOf ∘ Packet.data true = id := funext packetOf_data
  rw [List.map_map, hinverse, List.map_id]

section Calls
variable {c : Call} {s' : System}

theorem queued_owned (hwell : Well c.before) (hok : perform c.before c.action = .ok s')
    (htiming : c.taken ≠ [] → c.timing = true) (hdata : ∀ F ∈ c.taken, ∃ pkt, F = Packet.data true pkt) :
    c.queued = c.accepted.flatMap (fun F => (owned (packetOf F)).map Owned.bytes) ∧
      ∀ F ∈ c.accepted, ∀ o ∈ owned (packetOf F), Block o.1 := by
  rw [accepted_eq hwell hok, Call.queued]
  have hlengths := takenFrame_length hwell
  by_cases hnone : c.taken = []
  · rw [hnone]
    exact ⟨rfl, by simp⟩
  have hflag : c.before.context.common.flag flagGetTiming = true := htiming hnone
  generalize c.taken = Fs at hlengths hdata
  induction Fs with
  | nil => exact ⟨rfl, by simp⟩
  | cons F Fs ih =>
    have hn : F.length < 2 ^ 29 := Nat.lt_of_le_of_lt (hlengths F (by simp)) (by decide)
    obtain ⟨pkt, rfl⟩ := hdata F (by simp)
    obtain ⟨ihqueued, ihblocks⟩ := ih (fun G hG => hlengths G (List.mem_cons_of_mem _ hG))
      fun G hG => hdata G (List.mem_cons_of_mem _ hG)
    rw [List.flatMap_cons, ihqueued, blocksFor]
    by_cases ha : Accepted (ParserImplementation.received c.before.context (pkt.data true)
      c.before.context.ring0)
    · obtain ⟨hblocks, hgood⟩ := blocksFor_packet hflag hn ha
      rw [List.filter_cons_of_pos (by simpa using ha), List.flatMap_cons, if_pos ha, hblocks,
        packetOf_data]
      refine ⟨rfl, fun G hG => ?_⟩
      obtain rfl | hG := List.mem_cons.mp hG
      · rw [packetOf_data]
        exact hgood
      · exact ihblocks G hG
    · rw [List.filter_cons_of_neg (by simpa using ha), if_neg ha]
      exact ⟨rfl, ihblocks⟩

theorem handed_timed {cs : List Call} (hon : ∀ c ∈ cs, c.Busy → c.timing = true) :
    handed cs = (received cs).map (Packet.data true) := by
  rw [handed, received, List.map_flatMap]
  refine List.flatMap_congr fun c hc => ?_
  by_cases hnone : c.packets = []
  · rw [Call.handed, hnone]
    rfl
  · rw [Call.handed, hon c hc (.inl hnone)]

theorem accepted_sublist {u : Unset} {cs : List Call} {s : System} (h : Run Step (initial u) cs s) :
    (accepted cs).Sublist (taken cs) := by
  have hcalls := run_calls h
  rw [accepted, taken]
  clear h
  induction cs with
  | nil => exact List.Sublist.refl _
  | cons c cs ih =>
    obtain ⟨hwell, s', hok⟩ := hcalls c (by simp)
    rw [List.flatMap_cons, List.flatMap_cons, accepted_eq hwell hok]
    exact List.filter_sublist.append (ih fun d hd => hcalls d (List.mem_cons_of_mem c hd))

end Calls

section Run
variable {u : Unset} {cs : List Call} {s : System}

/-- With the timing flag set for all that is handled: the accepted packets, and their messages in
the second queue. -/
theorem accepted_packets (h : Run Step (initial u) cs s) (hon : ∀ c ∈ cs, c.Busy → c.timing = true) :
    ((accepted cs).map packetOf).Sublist (received cs) ∧
      ((accepted cs).map packetOf).map (Packet.data true) = accepted cs ∧
      consumed cs ++ s.messages = (((accepted cs).map packetOf).flatMap owned).map Owned.bytes ∧
      ∀ o ∈ ((accepted cs).map packetOf).flatMap owned, Block o.1 := by
  have hcalls := run_calls h
  obtain ⟨hframes, hmessages⟩ := run_queues h
  rw [handed_timed hon] at hframes
  have hdata : ∀ F ∈ taken cs, ∃ pkt, F = Packet.data true pkt := by
    intro F hF
    have hmem : F ∈ (received cs).map (Packet.data true) := hframes ▸ List.mem_append_left _ hF
    obtain ⟨pkt, -, rfl⟩ := List.mem_map.mp hmem
    exact ⟨pkt, rfl⟩
  have hsublist : (accepted cs).Sublist ((received cs).map (Packet.data true)) :=
    (accepted_sublist h).trans (hframes ▸ List.sublist_append_left _ _)
  have hqueued : ∀ c ∈ cs, c.queued =
      c.accepted.flatMap (fun F => (owned (packetOf F)).map Owned.bytes) ∧
        ∀ F ∈ c.accepted, ∀ o ∈ owned (packetOf F), Block o.1 := by
    intro c hc
    obtain ⟨hwell, s', hok⟩ := hcalls c hc
    exact queued_owned hwell hok (fun htaken => hon c hc (.inr (.inl htaken)))
      fun F hF => hdata F (List.mem_flatMap.mpr ⟨c, hc, hF⟩)
  refine ⟨?_, ?_, ?_, ?_⟩
  · have hmap := hsublist.map packetOf
    rwa [map_packetOf_data] at hmap
  · rw [List.map_map]
    refine (List.map_congr_left (g := id) fun F hF => ?_).trans (List.map_id _)
    obtain ⟨pkt, rfl⟩ := hdata F ((accepted_sublist h).subset hF)
    exact congrArg (Packet.data true) (packetOf_data pkt)
  · rw [hmessages, queued, List.map_flatMap, List.flatMap_map, accepted, List.flatMap_assoc]
    exact List.flatMap_congr fun c hc => (hqueued c hc).1
  · intro o ho
    obtain ⟨pkt, hpkt, ho⟩ := List.mem_flatMap.mp ho
    obtain ⟨F, hF, rfl⟩ := List.mem_map.mp hpkt
    obtain ⟨c, hc, hF⟩ := List.mem_flatMap.mp hF
    exact (hqueued c hc).2 F hF o ho

end Run

/-! The messages and their latencies. -/

theorem forall₂_singletons {α β γ : Type} {f : α → β} {g : γ → List β} {R : α → γ → Prop}
    {xs : List α} {ys : List γ} (h : xs.map f = ys.flatMap g) (hone : ∀ y ∈ ys, ∃ b, g y = [b])
    (hR : ∀ x ∈ xs, ∀ y ∈ ys, g y = [f x] → R x y) : List.Forall₂ R xs ys := by
  induction ys generalizing xs with
  | nil =>
    obtain rfl := List.map_eq_nil_iff.mp h
    exact .nil
  | cons y ys ih =>
    obtain ⟨b, hb⟩ := hone y (by simp)
    rw [List.flatMap_cons, hb, List.singleton_append] at h
    obtain ⟨x, xs, rfl, rfl, hrest⟩ := List.map_eq_cons_iff.mp h
    refine .cons (hR x (by simp) y (by simp) hb) ?_
    exact ih hrest (fun z hz => hone z (List.mem_cons_of_mem y hz))
      fun z hz w hw => hR z (List.mem_cons_of_mem x hz) w (List.mem_cons_of_mem y hw)

theorem stampBehind_bytes {o : Owned} (h : Block o.1) : stampBehind true o.bytes = o.2 := by
  obtain ⟨b, stamp⟩ := o
  have hlength : b.length = 2 + ofBe (b.take 2) := h.length
  have h4 := h.length_le
  cases stamp with
  | none =>
    have hbytes : Owned.bytes (b, none) = b := List.append_nil b
    rw [hbytes, stampBehind, if_neg fun hs => by omega]
  | some v =>
    have hbytes : Owned.bytes (b, some v) = b ++ leBytes 8 v.toNat := rfl
    have htake : (b ++ leBytes 8 v.toNat).take 2 = b.take 2 := List.take_append_of_le_length (by omega)
    have hall : (b ++ leBytes 8 v.toNat).length = b.length + 8 := by simp
    have hstamp : v.toNat < 256 ^ 8 := v.toNat_lt
    rw [hbytes, stampBehind, htake, hall, if_pos ⟨rfl, by omega⟩, Nat.add_sub_cancel, List.drop_left,
      ofLe_leBytes, Nat.mod_eq_of_lt hstamp, UInt64.ofNat_toNat]

theorem stamped_bytes {o : Owned} (h : Block o.1) : Stamped o.bytes o.1 := by
  obtain ⟨b, stamp⟩ := o
  refine ⟨h, ?_⟩
  cases stamp with
  | none => exact .inl (List.append_nil b)
  | some v => exact .inr ⟨leBytes 8 v.toNat, leBytes_length 8 _, rfl⟩

section Metered
variable {u : Unset} {x x0 : Meter} {qsort : Qsort UInt64} {readings : List (UInt64 × UInt64)}
variable {cs : List MeteredCall} {c : MeteredCall} {t : Metered}

theorem measured_singleton (hc : c.call.consumed ≠ []) : ∃ now m q,
    c.action = .insert now ∧ c.before.system.messages = m :: q ∧ c.call.consumed = [m] := by
  obtain ⟨⟨s, y⟩, action, cycles⟩ := c
  cases action with
  | insert now =>
    cases hm : s.messages with
    | nil => simp [MeteredCall.call, Call.consumed, hm] at hc
    | cons m q => exact ⟨now, m, q, rfl, rfl, by simp [MeteredCall.call, Call.consumed, hm]⟩
  | _ => exact absurd rfl hc

theorem attributed_of (hwell : Well c.before.system) (hstanding : c.before.meter.percentile.Standing)
    (htiming : c.call.timing = true) {o : Owned} (hblock : Block o.1)
    (hconsumed : c.call.consumed = [o.bytes]) : Attributed o c := by
  obtain ⟨now, m, q, haction, hmessages, hsingle⟩ := measured_singleton (c := c) (by simp [hconsumed])
  obtain rfl : m = o.bytes := List.singleton_inj.mp (hsingle.symm.trans hconsumed)
  refine ⟨?_, ?_⟩
  · have hpublished := published_eq (c := c.call) hwell
    rw [hpublished, hconsumed, htiming, List.map_singleton,
      (stamped_bytes hblock).payloadOf fun _ => rfl]
  · obtain ⟨⟨s, y⟩, action, cycles⟩ := c
    obtain rfl : action = .insert now := haction
    obtain ⟨-, -, -, hlatency, -⟩ := insert_timed mergeQsort cycles now hwell hstanding
      hmessages htiming
    rwa [stampBehind_bytes hblock] at hlatency

theorem consumed_measured (cs : List MeteredCall) :
    consumed (cs.map MeteredCall.call) = (measured cs).flatMap fun c => c.call.consumed := by
  rw [consumed, List.flatMap_map]
  induction cs with
  | nil => rfl
  | cons c cs ih =>
    rw [List.flatMap_cons, ih, measured, measured, List.filter_cons]
    by_cases hnone : c.call.consumed = []
    · simp [hnone]
    · simp [hnone]

theorem insert_stamp {s : System} {m' : Meter} {cycles now : UInt64} (hwell : Well s)
    (hstanding : x.percentile.Standing)
    (hm : performMeter qsort s cycles x (.insert now) = some m') : m'.tsc.tscTimeStamp =
      (MeteredCall.stamps ⟨⟨s, x⟩, .insert now, cycles⟩).getLast?.getD x.tsc.tscTimeStamp := by
  have hstamps : MeteredCall.stamps ⟨⟨s, x⟩, .insert now, cycles⟩ =
      s.messages.head?.toList.filterMap (stampBehind (s.common.flag flagGetTiming)) := rfl
  rw [hstamps]
  cases hq : s.messages with
  | nil =>
    obtain ⟨R, h1⟩ := hwell.ring1
    rw [hq] at h1
    rw [performMeter, iterateMeter_empty s.common s.inserter cycles x h1] at hm
    obtain rfl := Option.some.inj hm
    rfl
  | cons m q =>
    obtain ⟨h11, hmax, R, hring⟩ := hwell.head hq
    rw [performMeter, iterateMeter_cons s.common s.inserter cycles x hring h11 hmax] at hm
    have hlast : ((some m).toList.filterMap (stampBehind (s.common.flag flagGetTiming))).getLast? =
        stampBehind (s.common.flag flagGetTiming) m := by
      cases hstamp : stampBehind (s.common.flag flagGetTiming) m <;> simp [hstamp]
    rw [List.head?_cons, hlast]
    -- the collection leaves the time stamp alone, with the timing flag or without
    by_cases htiming : s.common.flag flagGetTiming = true
    · obtain ⟨p, -, hcollection, -⟩ := timingStatisticsCollection_on s.common cycles
        { x with tsc := stampedBy (s.common.flag flagGetTiming) m x.tsc } htiming hstanding
      rw [hcollection] at hm
      obtain rfl := Option.some.inj hm
      rfl
    · rw [timingStatisticsCollection_off s.common cycles _ (by simpa using htiming)] at hm
      obtain rfl := Option.some.inj hm
      rfl

theorem key_tsc {s : System} {m' : Meter} {cycles : UInt64} {key : Option Char}
    (hm : performMeter qsort s cycles x (.readKeyboardInput key) = some m') : m'.tsc = x.tsc := by
  unfold performMeter at hm
  split at hm
  case h_3 =>
    obtain ⟨r, -, rfl⟩ := Option.map_eq_some_iff.mp hm
    rfl
  case h_4 =>
    obtain rfl := Option.some.inj hm
    rfl
  case h_5 =>
    obtain rfl := Option.some.inj hm
    rfl
  all_goals simp_all

theorem meter_stamp {s : System} {m' : Meter} {cycles : UInt64} {a : Action} (hwell : Well s)
    (hstanding : x.percentile.Standing) (hm : performMeter qsort s cycles x a = some m') :
    m'.tsc.tscTimeStamp =
      (MeteredCall.stamps ⟨⟨s, x⟩, a, cycles⟩).getLast?.getD x.tsc.tscTimeStamp := by
  cases a with
  | receive events =>
    obtain rfl := Option.some.inj hm
    exact iterateTsc_stamp s.received events x.tsc
  | insert now => exact insert_stamp hwell hstanding hm
  | readKeyboardInput key => exact congrArg Tsc.tscTimeStamp (key_tsc hm)
  | _ =>
    obtain rfl := Option.some.inj hm
    rfl

theorem stamps_run (hx : x0.constructed qsort readings = some x)
    (h : Run (Metered.Step qsort) ⟨initial u, x⟩ cs t) :
    t.meter.tsc.tscTimeStamp = (stamps cs).getLast?.getD x.tsc.tscTimeStamp := by
  have hstanding := (recorded_constructed (s := initial u) hx).standing
  refine (Run.invariant (fun cs t => Well t.system ∧ t.meter.percentile.Standing ∧
    t.meter.tsc.tscTimeStamp = (stamps cs).getLast?.getD x.tsc.tscTimeStamp)
    ⟨well_initial u, hstanding, rfl⟩ ?_ h).2.2
  rintro cs t ⟨_, a, cycles⟩ t' ⟨hwell, hstanding, hstamp⟩ hstep
  obtain ⟨hwell', hstanding', -⟩ := hstep.next hwell hstanding
  obtain ⟨rfl, hok⟩ := hstep
  obtain ⟨-, hmeter⟩ := Metered.perform_ok hok
  refine ⟨hwell', hstanding', ?_⟩
  rw [stamps, List.flatMap_append, List.flatMap_singleton, List.getLast?_append, Option.getD_or,
    meter_stamp hwell hstanding hmeter, hstamp]
  rfl

/-- With the timing flag set for all that is handled: the messages taken are those of the accepted
packets, in order, and only the last message of a packet is measured from the packet's own time
stamp; the others are measured from the time stamp that was set last, by whatever packet. -/
theorem latency_run (hx : x0.constructed qsort readings = some x)
    (h : Run (Metered.Step qsort) ⟨initial u, x⟩ cs t)
    (hon : ∀ c ∈ cs, c.call.Busy → c.call.timing = true) :
    (∃ pkts : List Packet, pkts.Sublist (received (cs.map MeteredCall.call)) ∧
      pkts.map (Packet.data true) = accepted (cs.map MeteredCall.call) ∧
      ∃ os, os <+: pkts.flatMap owned ∧ List.Forall₂ Attributed os (measured cs)) ∧
    ∀ before c after, cs = before ++ c :: after → c.before.meter.tsc.tscTimeStamp =
      (stamps before).getLast?.getD x.tsc.tscTimeStamp := by
  refine ⟨?_, ?_⟩
  · obtain ⟨hsublist, hback, hmessages, hblocks⟩ := accepted_packets (calls_run h) (by
      intro d hd
      obtain ⟨c, hc, rfl⟩ := List.mem_map.mp hd
      exact hon c hc)
    obtain ⟨os, hos, hconsumed⟩ := List.prefix_map_iff.mp (hmessages ▸ List.prefix_append _ _)
    refine ⟨_, hsublist, hback, os, hos, ?_⟩
    rw [consumed_measured] at hconsumed
    refine forall₂_singletons hconsumed.symm ?_ ?_
    · intro c hc
      obtain ⟨-, hsome⟩ := List.mem_filter.mp hc
      obtain ⟨now, m, q, -, -, hsingle⟩ := measured_singleton (c := c) (by simpa using hsome)
      exact ⟨m, hsingle⟩
    · intro o ho c hc hsingle
      obtain ⟨hc, -⟩ := List.mem_filter.mp hc
      obtain ⟨before, after, rfl⟩ := List.append_of_mem hc
      obtain ⟨_, t', hrun, rfl, -⟩ := h.before
      refine attributed_of (well_metered hrun) (standing_run hx hrun) ?_
        (hblocks o (hos.subset ho)) hsingle
      exact hon c (by simp) (.inr (.inr (by rw [hsingle]; simp)))
  · rintro before c after rfl
    obtain ⟨_, t', hrun, rfl, -⟩ := h.before
    exact stamps_run hx hrun

def eventAt (v : UInt64) (payload : List UInt8) : NetworkReceiverImplementationEFVI.EfEvent :=
  .rx
    { rqId := 0
      sop := true
      cont := false
      bytes := NetworkReceiverImplementationEFVI.udpHeaderLen + UInt32.ofNat payload.length
      rxPtr := fun i => payload.getD (i - NetworkReceiverImplementationEFVI.udpHeaderLen.toNat) 0
      tscTimeStamp := v }

def twoMessageFrame : List UInt8 := frameOf 0 (List.replicate 8 0) 1 [emptyBlock, emptyBlock]

theorem latency_run_two : ∃ x cs t, Run (Metered.Step mergeQsort) ⟨initial blank, x⟩ cs t ∧
    received (cs.map MeteredCall.call) = [⟨twoMessageFrame, 100⟩, ⟨oneMessageFrame, 300⟩] ∧
    List.Forall₂ Attributed [(emptyBlock, none), (emptyBlock, some 100)] (measured cs) ∧
    ∀ before c after, cs = before ++ c :: after → c.before.meter.tsc.tscTimeStamp =
      (stamps before).getLast?.getD x.tsc.tscTimeStamp := by
  obtain ⟨calls, s, hrun, hlook⟩ := exists_run (s := initial blank)
    [.readKeyboardInput (some 'T'), .receive [eventAt 100 twoMessageFrame], .parse,
      .receive [eventAt 300 oneMessageFrame], .insert 0, .insert 0]
    (fun r => ((received r.2).map fun pkt => (pkt.payload, pkt.tscTimeStamp), accepted r.2,
      (r.2.filter fun c => c.consumed ≠ []).length,
      decide (∀ c ∈ r.2, c.Busy → c.timing = true)))
    (v := ([(twoMessageFrame, 100), (oneMessageFrame, 300)],
      [Packet.data true ⟨twoMessageFrame, 100⟩], 2, true)) (by decide +kernel)
  simp only [Prod.mk.injEq, decide_eq_true_eq] at hlook
  obtain ⟨hreceived, haccepted, htwo, hon⟩ := hlook
  obtain ⟨x, hx⟩ := exists_constructed mergeQsort [(100, 140), (300, 330)]
    ⟨default, Percentile.blank⟩
  obtain ⟨cs, m, hmetered, rfl, -⟩ := exists_metered hx hrun 500
  obtain ⟨⟨pkts, -, hback, os, hos, hall⟩, hstamps⟩ := latency_run hx hmetered
    fun c hc => hon c.call (List.mem_map_of_mem hc)
  have hpkts : pkts = [⟨twoMessageFrame, 100⟩] := by
    have hmap := congrArg (List.map packetOf) (hback.trans haccepted)
    rwa [map_packetOf_data, List.map_singleton, packetOf_data] at hmap
  have howned : [(⟨twoMessageFrame, 100⟩ : Packet)].flatMap owned =
      [(emptyBlock, none), (emptyBlock, some 100)] := by decide +kernel
  have hlength : (measured cs).length = 2 := by
    rw [List.filter_map, List.length_map] at htwo
    exact htwo
  rw [hpkts, howned] at hos
  obtain rfl := hos.eq_of_length (hall.length_eq.trans hlength)
  refine ⟨_, cs, _, hmetered, ?_, hall, hstamps⟩
  have hmap := congrArg (List.map fun e : List UInt8 × UInt64 => (⟨e.1, e.2⟩ : Packet)) hreceived
  rw [List.map_map] at hmap
  exact (List.map_id _).symm.trans hmap

end Metered

end UdpSm.Pipeline
