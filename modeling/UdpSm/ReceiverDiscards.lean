import UdpSm.ReceiverBounds

/-! Packets of which a fragment is discarded: what becomes of those behind them. -/
namespace UdpSm.NetworkReceiverImplementationEFVI
open Lib Memory RingFIFOBuffer

structure Discard where
  rqId : UInt32
  common : CommonData
  ring0 : Ringbuffer

def Discard.delivery (d : Discard) : Delivery := ⟨.rxDiscard d.rqId, d.common, d.ring0⟩

/-- A packet as its events report it: to its last fragment, or up to a discard. -/
inductive Sent where
  | complete (fragments : List Arrival) (last : Arrival)
  | cut (fragments : List Arrival) (discarded : Discard)

def Sent.accepted : Sent → List Arrival
  | .complete fs a => fs ++ [a]
  | .cut fs _ => fs

def Sent.deliveries : Sent → List Delivery
  | .complete fs a => fs.map Arrival.delivery ++ [a.delivery]
  | .cut fs d => fs.map Arrival.delivery ++ [d.delivery]

def Continued (num : UInt32) (start : Bool) : List Arrival → Prop
  | [] => True
  | a :: arrivals =>
    (a.ev.rqId < num ∧ a.ev.sop = start ∧ a.ev.cont = true) ∧ Continued num false arrivals

/-- The ids and flags that the interface reports. -/
def Sent.Reported (num : UInt32) : Sent → Prop
  | .complete fs a =>
    Continued num true fs ∧ a.ev.rqId < num ∧ a.ev.sop = fs.isEmpty ∧ a.ev.cont = false
  | .cut fs d => Continued num true fs ∧ d.rqId < num

def fragmentData (rxPrefixLen : UInt32) (packet : Option (Nat × Int)) (ev : RxEvent) : List UInt8 :=
  (List.range (total rxPrefixLen ev - counted packet).toNat).map fun i =>
    ev.rxPtr (if ev.sop then i + udpHeaderLen.toNat else i)

def payload (rxPrefixLen : UInt32) : Option (Nat × Int) → List Arrival → List UInt8
  | _, [] => []
  | packet, a :: arrivals => fragmentData rxPrefixLen packet a.ev ++
      payload rxPrefixLen (nextPacket rxPrefixLen packet a.ev) arrivals

/-- What the events of a packet have to put into ring buffer 0: the last one the whole packet. -/
def Sent.added (rxPrefixLen : UInt32) : Sent → List (List (List UInt8))
  | .complete fs a => fs.map (fun _ => []) ++
      [[Packet.data a.timing ⟨payload rxPrefixLen none (fs ++ [a]), a.ev.tscTimeStamp⟩]]
  | .cut fs _ => fs.map (fun _ => []) ++ [[]]

def Sent.Stranded : Sent → Prop
  | .complete _ _ => False
  | .cut fs _ => fs ≠ []

/-- The counts of every packet are within the bounds, and behind a packet that has been cut after an
accepted fragment no event is accepted any more. -/
def Harmless (rxPrefixLen : UInt32) : List Sent → Prop
  | [] => True
  | w :: ws => Within rxPrefixLen none w.accepted ∧ (w.Stranded → ∀ v ∈ ws, v.accepted = []) ∧
      Harmless rxPrefixLen ws

def Succeeds (r : Receiver) (ds : List Delivery) (added : List (List (List UInt8))) : Prop :=
  ∃ r', Handles r ds added r'

section Events
variable {r r' : Receiver} {d : Delivery} {ds es : List Delivery}
  {m : List (List UInt8)} {ms added more : List (List (List UInt8))}

theorem Succeeds.head (h : Succeeds r (d :: ds) (m :: ms)) : ∃ x,
    handleEvent (d.context r) d.event = .ok (0, x) ∧ Succeeds x.receiver ds ms := by
  obtain ⟨r', h⟩ := h
  cases h with
  | cons hok _ hrest => exact ⟨_, hok, r', hrest⟩

theorem Handles.handleAll (h : Handles r ds added r') (es : List Delivery) :
    handleAll r (ds ++ es) = NetworkReceiverImplementationEFVI.handleAll r' es := by
  induction h with
  | nil => rfl
  | cons hok _ _ ih => rw [List.cons_append, handleAll_ok hok, ih]

theorem Succeeds.never_spins (h : Succeeds r ds added) : handleAll r ds ≠ .error .spins := by
  obtain ⟨r', h⟩ := h
  have hall := h.handleAll []
  rw [List.append_nil] at hall
  rw [hall]
  exact nofun

theorem Handles.rest (h : Handles r ds added r') (hsum : Succeeds r (ds ++ es) (added ++ more)) :
    Succeeds r' es more := by
  induction h with
  | nil => exact hsum
  | cons hok _ _ ih =>
    obtain ⟨x, hx, hrest⟩ := hsum.head
    cases hok.symm.trans hx
    exact ih hrest

theorem handle_discard {d : Discard} (hid : d.rqId < r.num) :
    handleEvent (d.delivery.context r) d.delivery.event = .ok (0, d.delivery.context r) := by
  change (if d.rqId < r.num then _ else _) = _
  rw [if_pos hid]

end Events

/-! The fragments of one packet. -/

structure Collected (bs : List UInt8) (packet : Option (Nat × Int)) (j : Jumbo) : Prop where
  tracks : Tracks packet j
  bytes : j.data.load 0 (counted packet).toNat = bs

def packetAfter (rxPrefixLen : UInt32) : Option (Nat × Int) → List Arrival → Option (Nat × Int)
  | packet, [] => packet
  | packet, a :: arrivals => packetAfter rxPrefixLen (nextPacket rxPrefixLen packet a.ev) arrivals

section Fragments
variable {r : Receiver} {bs : List UInt8} {packet : Option (Nat × Int)} {ev : RxEvent}
  {fs gs : List Arrival} {num rxPrefixLen : UInt32}

theorem payload_append : payload rxPrefixLen packet (fs ++ gs) = payload rxPrefixLen packet fs ++
    payload rxPrefixLen (packetAfter rxPrefixLen packet fs) gs := by
  induction fs generalizing packet with
  | nil => rfl
  | cons a fs ih =>
    rw [List.cons_append, payload, payload, ih, List.append_assoc]
    rfl

theorem nextPacket_continued (rxPrefixLen : UInt32) (hcont : ev.cont = true)
    (packet : Option (Nat × Int)) :
    (nextPacket rxPrefixLen packet ev).isSome = true := by
  rw [nextPacket, if_pos hcont]
  rfl

theorem packetAfter_isSome (h : Continued num (!packet.isSome) fs) :
    (packetAfter rxPrefixLen packet fs).isSome = (packet.isSome || !fs.isEmpty) := by
  induction fs generalizing packet with
  | nil => simp [packetAfter]
  | cons a fs ih =>
    have hsome := nextPacket_continued rxPrefixLen h.1.2.2 packet
    rw [packetAfter, ih (by rw [hsome]; exact h.2), hsome]
    simp

theorem within_append (h : Continued num (!packet.isSome) fs) :
    Within rxPrefixLen packet (fs ++ gs) ↔ Within rxPrefixLen packet fs ∧
      Within rxPrefixLen (packetAfter rxPrefixLen packet fs) gs := by
  induction fs generalizing packet with
  | nil => exact (and_iff_right trivial).symm
  | cons a fs ih =>
    have hsome := nextPacket_continued rxPrefixLen h.1.2.2 packet
    have hturn : a.ev.sop ≠ packet.isSome := by
      rw [h.1.2.1]
      exact Bool.not_ne_self _
    have hfs : Continued num (!(nextPacket rxPrefixLen packet a.ev).isSome) fs := by
      rw [hsome]
      exact h.2
    have hrest := ih hfs
    rw [List.cons_append, Within, Within, packetAfter, hrest]
    exact ⟨fun hw => ⟨fun _ => ⟨(hw hturn).1, (hw hturn).2.1⟩, (hw hturn).2.2⟩,
      fun hw _ => ⟨(hw.1 hturn).1, (hw.1 hturn).2, hw.2⟩⟩

theorem Collected.fragment (h : Collected bs packet r.jumbo) (hturn : ev.sop ≠ packet.isSome)
    {timing : Bool} (hsafe : Safe timing r ev) :
    r.jumbo.data.load 0 (fragOffset r ev) ++ fragBytes r ev =
      bs ++ fragmentData r.rxPrefixLen packet ev := by
  obtain ⟨-, hoffset, -⟩ := h.tracks.fragment hturn
  have hexact := hsafe.length
  have hcount : fragOffset r ev = (counted packet).toNat := by omega
  have hlength : (fragLength r ev).toNat = (total r.rxPrefixLen ev - counted packet).toNat := by
    unfold total
    omega
  rw [hcount, h.bytes, fragBytes, hlength]
  rfl

theorem Collected.stored (h : Collected bs packet r.jumbo) (hturn : ev.sop ≠ packet.isSome)
    {timing : Bool} (hsafe : Safe timing r ev) (hcont : ev.cont = true) :
    Collected (bs ++ fragmentData r.rxPrefixLen packet ev) (nextPacket r.rxPrefixLen packet ev)
      (NetworkReceiverImplementationEFVI.stored r ev) := by
  have hnext := h.tracks.next hturn hsafe hcont
  obtain ⟨-, hload⟩ := stored_payload hsafe.fits.1
  refine ⟨hnext, ?_⟩
  rw [nextPacket, if_pos hcont] at hnext ⊢
  have hbytes := (hnext.counts _ rfl).2.1
  have hcount : (NetworkReceiverImplementationEFVI.stored r ev).payloadBytes.toNat =
      (counted (some (nextIndex packet, total r.rxPrefixLen ev))).toNat := by
    change _ = (total r.rxPrefixLen ev).toNat
    omega
  rw [← hcount, hload, h.fragment hturn hsafe]

theorem Collected.continued (h : Collected bs packet r.jumbo)
    (hfs : Continued r.num (!packet.isSome) fs) (hwithin : Within r.rxPrefixLen packet fs) : ∃ j,
    Handles r (fs.map Arrival.delivery) (fs.map fun _ => []) { r with jumbo := j } ∧
      Collected (bs ++ payload r.rxPrefixLen packet fs) (packetAfter r.rxPrefixLen packet fs) j := by
  induction fs generalizing r bs packet with
  | nil =>
    refine ⟨r.jumbo, .nil r, ?_⟩
    rw [payload, List.append_nil]
    exact h
  | cons a fs ih =>
    obtain ⟨⟨hid, hsop, hcont⟩, hrest⟩ := hfs
    have hturn : a.ev.sop ≠ packet.isSome := by
      rw [hsop]
      exact Bool.not_ne_self _
    obtain ⟨hevent, hwithin⟩ := hwithin hturn
    have hsafe := (h.tracks.safe_iff hturn a.timing).mpr hevent
    have hkept := handle_kept (x := a.context r) h.tracks.arrays hid
      (by rw [← h.tracks.inPkt] at hturn; exact hturn) hsafe.fits.1 hcont
    obtain ⟨j, hhandles, hcollected⟩ := ih
      (r := { r with jumbo := NetworkReceiverImplementationEFVI.stored r a.ev })
      (h.stored hturn hsafe hcont) (by rw [nextPacket_continued _ hcont]; exact hrest) hwithin
    refine ⟨j, .cons hkept (List.append_nil _).symm hhandles, ?_⟩
    rw [payload, ← List.append_assoc]
    exact hcollected

end Fragments

/-! Whole packets. -/
section Run
variable {r : Receiver} {w : Sent} {ws : List Sent} {fs : List Arrival} {a : Arrival} {d : Discard}
  {ds : List Delivery} {m : List (List UInt8)} {ms : List (List (List UInt8))}

theorem Collected.complete (h : Collected [] none r.jumbo)
    (hw : (Sent.complete fs a).Reported r.num) (hring : ∃ R q, Holds a.ring0 R q)
    (hwithin : Within r.rxPrefixLen none (fs ++ [a]))
    (hspins : handleAll r ((Sent.complete fs a).deliveries ++ ds) ≠ .error .spins) : ∃ j,
    Handles r (Sent.complete fs a).deliveries ((Sent.complete fs a).added r.rxPrefixLen)
      { r with jumbo := j } ∧ Collected [] none j := by
  obtain ⟨hfs, hid, hsop, hlast⟩ := hw
  obtain ⟨hwithin, hwithin'⟩ := (within_append hfs).mp hwithin
  obtain ⟨j, hhandles, hcollected⟩ := h.continued hfs hwithin
  have hsome : (packetAfter r.rxPrefixLen none fs).isSome = !fs.isEmpty := packetAfter_isSome hfs
  have hturn : a.ev.sop ≠ (packetAfter r.rxPrefixLen none fs).isSome := by
    rw [hsome, hsop]
    exact (Bool.not_ne_self _).symm
  have hsafe := (hcollected.tracks.safe_iff (r := { r with jumbo := j }) hturn a.timing).mpr
    (hwithin' hturn).1
  rw [Sent.deliveries, List.append_assoc, hhandles.handleAll] at hspins
  obtain hstop | ⟨ring0, hok, hcontents⟩ := handle_completed (x := a.context { r with jumbo := j })
    hcollected.tracks.arrays hid (by rw [← hcollected.tracks.inPkt] at hturn; exact hturn) hsafe.fits.1
    hsafe.fits.2 hlast hring
  · exact absurd (handleAll_spins (d := a.delivery) hstop ds) hspins
  · have hdata := hcollected.fragment (r := { r with jumbo := j }) hturn hsafe
    have hpayload : payload r.rxPrefixLen none (fs ++ [a]) =
        (finishedPacket { r with jumbo := j } a.ev).payload := by
      rw [payload_append, payload, payload, List.append_nil]
      exact hdata.symm
    have hfinished := hcollected.tracks.finished (r := { r with jumbo := j }) hlast a.timing
    rw [nextPacket, if_neg (by rw [hlast]; decide)] at hfinished
    refine ⟨_, hhandles.append (.cons hok ?_ (.nil _)), hfinished, rfl⟩
    rw [hpayload]
    exact hcontents

theorem Collected.cut (h : Collected [] none r.jumbo) (hw : (Sent.cut fs d).Reported r.num)
    (hwithin : Within r.rxPrefixLen none fs) : ∃ j,
    Handles r (Sent.cut fs d).deliveries ((Sent.cut fs d).added r.rxPrefixLen)
      { r with jumbo := j } ∧
      Collected (payload r.rxPrefixLen none fs) (packetAfter r.rxPrefixLen none fs) j := by
  obtain ⟨j, hhandles, hcollected⟩ := h.continued hw.1 hwithin
  have hdiscard := handle_discard (r := { r with jumbo := j }) hw.2
  exact ⟨j, hhandles.append (.cons hdiscard (List.append_nil _).symm (.nil _)), hcollected⟩

theorem succeeds_of_quiet (hws : ∀ w ∈ ws, w.Reported r.num) (hquiet : ∀ w ∈ ws, w.accepted = []) :
    Succeeds r (ws.flatMap Sent.deliveries) (ws.flatMap (Sent.added r.rxPrefixLen)) := by
  induction ws with
  | nil => exact ⟨r, .nil r⟩
  | cons w ws ih =>
    have hw := hws w (by simp)
    have hnone := hquiet w (by simp)
    obtain ⟨r', hrest⟩ := ih (fun v hv => hws v (List.mem_cons_of_mem w hv))
      fun v hv => hquiet v (List.mem_cons_of_mem w hv)
    cases w with
    | complete fs a => exact absurd hnone (by simp [Sent.accepted])
    | cut fs d =>
      change fs = [] at hnone
      subst hnone
      exact ⟨r', .cons (handle_discard hw.2) (List.append_nil _).symm hrest⟩

theorem Collected.succeeds (h : Collected [] none r.jumbo) (hws : ∀ w ∈ ws, w.Reported r.num)
    (hrings : ∀ w ∈ ws, ∀ a ∈ w.accepted, ∃ R q, Holds a.ring0 R q)
    (hspins : handleAll r (ws.flatMap Sent.deliveries) ≠ .error .spins)
    (hharmless : Harmless r.rxPrefixLen ws) :
    Succeeds r (ws.flatMap Sent.deliveries) (ws.flatMap (Sent.added r.rxPrefixLen)) := by
  induction ws generalizing r with
  | nil => exact ⟨r, .nil r⟩
  | cons w ws ih =>
    obtain ⟨hwithin, hcut, hharmless⟩ := hharmless
    have hw := hws w (by simp)
    have hws' : ∀ v ∈ ws, v.Reported r.num := fun v hv => hws v (List.mem_cons_of_mem w hv)
    have hrings' : ∀ v ∈ ws, ∀ a ∈ v.accepted, ∃ R q, Holds a.ring0 R q := fun v hv =>
      hrings v (List.mem_cons_of_mem w hv)
    rw [List.flatMap_cons] at hspins
    cases w with
    | complete fs a =>
      obtain ⟨j, hhandles, hidle⟩ := h.complete hw (hrings (.complete fs a) (by simp) a (by simp [Sent.accepted]))
        hwithin hspins
      rw [hhandles.handleAll] at hspins
      obtain ⟨r', hrest⟩ := ih (r := { r with jumbo := j }) hidle hws' hrings' hspins hharmless
      exact ⟨r', hhandles.append hrest⟩
    | cut fs d =>
      obtain ⟨j, hhandles, hcollected⟩ := h.cut hw hwithin
      rw [hhandles.handleAll] at hspins
      cases fs with
      | nil =>
        obtain ⟨r', hrest⟩ := ih (r := { r with jumbo := j }) hcollected hws' hrings' hspins hharmless
        exact ⟨r', hhandles.append hrest⟩
      | cons b fs =>
        obtain ⟨r', hrest⟩ := succeeds_of_quiet (r := { r with jumbo := j }) hws' (hcut nofun)
        exact ⟨r', hhandles.append hrest⟩

end Run

/-! Discards in a fresh receiver. -/

end UdpSm.NetworkReceiverImplementationEFVI
