import UdpSm.ReceiverReassembly

/-! Reassembly within `jumbo_t`: the byte counts for which every store stays inside it. -/
namespace UdpSm.NetworkReceiverImplementationEFVI
open Lib Memory RingFIFOBuffer

structure Arrival where
  ev : RxEvent
  common : CommonData
  ring0 : Ringbuffer

def Arrival.delivery (a : Arrival) : Delivery := ⟨.rx a.ev, a.common, a.ring0⟩
def Arrival.context (a : Arrival) (r : Receiver) : Context := ⟨a.common, r, a.ring0⟩
def Arrival.timing (a : Arrival) : Bool := a.common.flag flagGetTiming

/-- What the event stores lies inside `jumbo_t`, and the length of its fragment is the difference of
the counts. -/
structure Safe (timing : Bool) (r : Receiver) (ev : RxEvent) : Prop where
  nFrags : (stored r ev).nFrags.toNat < maxPktFrags
  data : fragOffset r ev + (fragLength r ev).toNat ≤ jumboSize
  timestamp : StampFits timing r ev
  length : ((fragLength r ev).toNat : Int) =
    ev.bytes.toNat - r.rxPrefixLen.toNat - udpHeaderLen.toNat - fragOffset r ev

def SafeRun (r : Receiver) : List Arrival → Prop
  | [] => True
  | a :: arrivals =>
    (a.ev.sop ≠ r.jumbo.inPkt → Safe a.timing r a.ev) ∧
      ∀ x, handleRxEventAccept (a.context r) a.ev = .ok (0, x) → SafeRun x.receiver arrivals

/-! The counts alone. A packet under way is the index of its last fragment, and the bytes counted up
to its end. -/

def nextIndex (packet : Option (Nat × Int)) : Nat := packet.elim 0 fun p => p.1 + 1
def counted (packet : Option (Nat × Int)) : Int := packet.elim 0 fun p => p.2

def total (rxPrefixLen : UInt32) (ev : RxEvent) : Int :=
  ev.bytes.toNat - rxPrefixLen.toNat - udpHeaderLen.toNat

def stampBytes (timing : Bool) (ev : RxEvent) : Int := if ev.cont = false ∧ timing = true then 8 else 0

/-- At most seven fragments, and counts that do not shrink and leave room for the time stamp. -/
structure EventWithin (rxPrefixLen : UInt32) (packet : Option (Nat × Int)) (timing : Bool)
    (ev : RxEvent) : Prop where
  index : nextIndex packet < maxPktFrags
  least : counted packet ≤ total rxPrefixLen ev
  most : total rxPrefixLen ev + stampBytes timing ev ≤ jumboSize

instance (rxPrefixLen : UInt32) (packet : Option (Nat × Int)) (timing : Bool) (ev : RxEvent) :
    Decidable (EventWithin rxPrefixLen packet timing ev) :=
  decidable_of_iff
    (nextIndex packet < maxPktFrags ∧ counted packet ≤ total rxPrefixLen ev ∧
      total rxPrefixLen ev + stampBytes timing ev ≤ jumboSize)
    ⟨fun h => ⟨h.1, h.2.1, h.2.2⟩, fun h => ⟨h.index, h.least, h.most⟩⟩

def nextPacket (rxPrefixLen : UInt32) (packet : Option (Nat × Int)) (ev : RxEvent) :
    Option (Nat × Int) :=
  if ev.cont then some (nextIndex packet, total rxPrefixLen ev) else none

/-- So it is for every event, up to the first whose start flag is wrong. -/
def Within (rxPrefixLen : UInt32) : Option (Nat × Int) → List Arrival → Prop
  | _, [] => True
  | packet, a :: arrivals =>
    a.ev.sop ≠ packet.isSome → EventWithin rxPrefixLen packet a.timing a.ev ∧
      Within rxPrefixLen (nextPacket rxPrefixLen packet a.ev) arrivals

def Within.decide (rxPrefixLen : UInt32) :
    (packet : Option (Nat × Int)) → (arrivals : List Arrival) →
      Decidable (Within rxPrefixLen packet arrivals)
  | _, [] => isTrue trivial
  | packet, a :: arrivals =>
    have := Within.decide rxPrefixLen (nextPacket rxPrefixLen packet a.ev) arrivals
    inferInstanceAs (Decidable (_ → _ ∧ _))

instance (rxPrefixLen : UInt32) (packet : Option (Nat × Int)) (arrivals : List Arrival) :
    Decidable (Within rxPrefixLen packet arrivals) := Within.decide rxPrefixLen packet arrivals

structure Tracks (packet : Option (Nat × Int)) (j : Jumbo) : Prop where
  arrays : Arrays j
  inPkt : j.inPkt = packet.isSome
  counts : ∀ p ∈ packet, j.nFrags.toNat = p.1 ∧ (j.payloadBytes.toNat : Int) = p.2 ∧
    p.1 < maxPktFrags

section Step
variable {r : Receiver} {ev : RxEvent} {packet : Option (Nat × Int)} {a : Arrival}

theorem toNat_sub_int (a b : UInt32) : ((a - b).toNat : Int) = ((a.toNat : Int) - b.toNat) % 4294967296 := by
  have ha := a.toNat_lt
  have hb := b.toNat_lt
  rw [UInt32.toNat_sub]
  omega

theorem Tracks.fragment (h : Tracks packet r.jumbo) (hturn : ev.sop ≠ packet.isSome) :
    (fragIndex r ev).toNat = nextIndex packet ∧ (fragOffset r ev : Int) = counted packet ∧
      ((fragLength r ev).toNat : Int) = (total r.rxPrefixLen ev - counted packet) % 4294967296 := by
  have hheader := toNat_sub_int (ev.bytes - r.rxPrefixLen) udpHeaderLen
  have hcount := toNat_sub_int ev.bytes r.rxPrefixLen
  cases packet with
  | none =>
    have hsop : ev.sop = true := by simpa using hturn
    rw [fragIndex, fragOffset, fragLength, if_pos hsop, if_pos hsop, if_pos hsop]
    refine ⟨rfl, rfl, ?_⟩
    rw [hheader, hcount]
    change _ = (total r.rxPrefixLen ev - 0) % 4294967296
    unfold total
    omega
  | some p =>
    obtain ⟨hindex, hbytes, hlt⟩ := h.counts p rfl
    have hsop : ¬ev.sop = true := by simpa using hturn
    have hlength := toNat_sub_int (ev.bytes - r.rxPrefixLen - udpHeaderLen) r.jumbo.payloadBytes
    rw [fragIndex, fragOffset, fragLength, if_neg hsop, if_neg hsop, if_neg hsop]
    refine ⟨?_, hbytes, ?_⟩
    · rw [UInt32.toNat_add]
      change (r.jumbo.nFrags.toNat + 1) % 4294967296 = p.1 + 1
      unfold maxPktFrags at hlt
      omega
    · rw [hlength, hheader, hcount]
      change _ = (total r.rxPrefixLen ev - p.2) % 4294967296
      unfold total
      omega

/-- An event is safe exactly if its count is within the bounds. -/
theorem Tracks.safe_iff (h : Tracks packet r.jumbo) (hturn : ev.sop ≠ packet.isSome) (timing : Bool) :
    Safe timing r ev ↔ EventWithin r.rxPrefixLen packet timing ev := by
  obtain ⟨hindex, hoffset, hlength⟩ := h.fragment hturn
  have htotal : total r.rxPrefixLen ev =
      ev.bytes.toNat - r.rxPrefixLen.toNat - udpHeaderLen.toNat := rfl
  constructor
  · intro hsafe
    have hdata := hsafe.data
    have hexact := hsafe.length
    rw [← htotal, hoffset] at hexact
    refine ⟨by rw [← hindex]; exact hsafe.nFrags, by omega, ?_⟩
    unfold stampBytes
    split_ifs with hstamp
    · have hroom := hsafe.timestamp hstamp.1 hstamp.2
      omega
    · omega
  · intro hwithin
    have hleast := hwithin.least
    have hmost := hwithin.most
    have hstamp : 0 ≤ stampBytes timing ev := by unfold stampBytes; split_ifs <;> decide
    have hzero : 0 ≤ counted packet := by rw [← hoffset]; exact Int.natCast_nonneg _
    have hsize : (jumboSize : Int) = 9000 := rfl
    have hexact : ((fragLength r ev).toNat : Int) = total r.rxPrefixLen ev - counted packet := by
      rw [hlength]
      exact Int.emod_eq_of_lt (by omega) (by omega)
    refine ⟨?_, by omega, ?_, ?_⟩
    · change (fragIndex r ev).toNat < maxPktFrags
      rw [hindex]
      exact hwithin.index
    · intro hlast hset
      rw [stampBytes, if_pos ⟨hlast, hset⟩] at hmost
      omega
    · rw [← htotal, hoffset, hexact]

theorem Safe.fits {timing : Bool} (h : Safe timing r ev) : FragFits r ev ∧ StampFits timing r ev :=
  ⟨⟨h.nFrags, h.data⟩, h.timestamp⟩

theorem Tracks.next (h : Tracks packet r.jumbo) (hturn : ev.sop ≠ packet.isSome) {timing : Bool}
    (hsafe : Safe timing r ev) (hcont : ev.cont = true) :
    Tracks (nextPacket r.rxPrefixLen packet ev) (stored r ev) := by
  have hexact := hsafe.length
  obtain ⟨hindex, -, -⟩ := h.fragment hturn
  rw [nextPacket, if_pos hcont]
  refine ⟨stored_arrays h.arrays, ?_, ?_⟩
  · change (ev.sop || r.jumbo.inPkt) = true
    rw [h.inPkt]
    cases hsop : ev.sop with
    | true => rfl
    | false =>
      rw [hsop] at hturn
      exact eq_true_of_ne_false hturn.symm
  · intro p hp
    obtain rfl := Option.some.inj hp
    refine ⟨hindex, ?_, by rw [← hindex]; exact hsafe.nFrags⟩
    rw [(stored_payload hsafe.fits.1).1]
    change _ = total r.rxPrefixLen ev
    unfold total
    omega

theorem Tracks.finished (h : Tracks packet r.jumbo) (hlast : ev.cont = false) (timing : Bool) :
    Tracks (nextPacket r.rxPrefixLen packet ev)
      (NetworkReceiverImplementationEFVI.finished timing r ev) := by
  rw [nextPacket, if_neg (by rw [hlast]; decide)]
  exact ⟨finished_arrays timing h.arrays, rfl, nofun⟩

theorem Tracks.handle (h : Tracks packet r.jumbo) (hid : a.ev.rqId < r.num)
    (hturn : a.ev.sop ≠ packet.isSome) (hsafe : Safe a.timing r a.ev)
    (hring : ∃ R q, Holds a.ring0 R q) :
    handleRxEventAccept (a.context r) a.ev = .error .spins ∨ ∃ x,
      handleRxEventAccept (a.context r) a.ev = .ok (0, x) ∧
      x.receiver = { r with jumbo := x.receiver.jumbo } ∧
      Tracks (nextPacket r.rxPrefixLen packet a.ev) x.receiver.jumbo := by
  have hstart : a.ev.sop ≠ r.jumbo.inPkt := by rwa [h.inPkt]
  obtain ⟨hfits, hstamp⟩ := hsafe.fits
  cases hcont : a.ev.cont with
  | true =>
    have hkept := handle_kept (x := a.context r) h.arrays hid hstart hfits hcont
    exact .inr ⟨_, hkept, rfl, h.next hturn hsafe hcont⟩
  | false =>
    obtain hspins | ⟨ring0, hok, -⟩ :=
      handle_completed (x := a.context r) h.arrays hid hstart hfits hstamp hcont hring
    · exact .inl hspins
    · exact .inr ⟨_, hok, rfl, h.finished hcont a.timing⟩

end Step

section Run
variable {r : Receiver} {packet : Option (Nat × Int)} {arrivals : List Arrival}

theorem Tracks.safeRun (h : Tracks packet r.jumbo) (hids : ∀ a ∈ arrivals, a.ev.rqId < r.num)
    (hrings : ∀ a ∈ arrivals, ∃ R q, Holds a.ring0 R q)
    (hwithin : Within r.rxPrefixLen packet arrivals) : SafeRun r arrivals := by
  induction arrivals generalizing r packet with
  | nil => trivial
  | cons a arrivals ih =>
    have hid := hids a (by simp)
    by_cases hturn : a.ev.sop = packet.isSome
    · have hrefused := handle_refused (x := a.context r) hid (hturn.trans h.inPkt.symm)
      refine ⟨fun hne => absurd (hturn.trans h.inPkt.symm) hne, ?_⟩
      intro x hok
      cases hrefused.symm.trans hok
    · have hsafe := (h.safe_iff hturn a.timing).mpr (hwithin hturn).1
      refine ⟨fun _ => hsafe, ?_⟩
      intro x hok
      obtain hspins | ⟨y, hy, hreceiver, hnext⟩ := h.handle hid hturn hsafe (hrings a (by simp))
      · cases hspins.symm.trans hok
      · cases hy.symm.trans hok
        rw [hreceiver]
        exact ih (r := { r with jumbo := x.receiver.jumbo }) hnext
          (fun b hb => hids b (List.mem_cons_of_mem a hb))
          (fun b hb => hrings b (List.mem_cons_of_mem a hb)) (hwithin hturn).2

theorem Tracks.within (h : Tracks packet r.jumbo) (hids : ∀ a ∈ arrivals, a.ev.rqId < r.num)
    (hrings : ∀ a ∈ arrivals, ∃ R q, Holds a.ring0 R q)
    (hspins : handleAll r (arrivals.map Arrival.delivery) ≠ .error .spins)
    (hsafe : SafeRun r arrivals) : Within r.rxPrefixLen packet arrivals := by
  induction arrivals generalizing r packet with
  | nil => trivial
  | cons a arrivals ih =>
    have hid := hids a (by simp)
    intro hturn
    have hsafe' : Safe a.timing r a.ev := hsafe.1 (by rwa [h.inPkt])
    refine ⟨(h.safe_iff hturn a.timing).mp hsafe', ?_⟩
    rw [List.map_cons] at hspins
    obtain hstop | ⟨x, hok, hx, hnext⟩ := h.handle hid hturn hsafe' (hrings a (by simp))
    · exact absurd (handleAll_spins (d := a.delivery) hstop _) hspins
    · rw [handleAll_ok (d := a.delivery) hok] at hspins
      have hrest := hsafe.2 x hok
      rw [hx] at hspins hrest
      exact ih (r := { r with jumbo := x.receiver.jumbo }) hnext
        (fun b hb => hids b (List.mem_cons_of_mem a hb))
        (fun b hb => hrings b (List.mem_cons_of_mem a hb)) hspins hrest

theorem tracks_idle (harrays : Arrays r.jumbo) (hidle : r.jumbo.inPkt = false) :
    Tracks none r.jumbo :=
  ⟨harrays, hidle, nofun⟩

/-- Reassembly stays within `jumbo_t` as long as the counts do, and in a run that no `Write` holds
up only then. -/
theorem reassembly_within (harrays : Arrays r.jumbo) (hidle : r.jumbo.inPkt = false)
    (hids : ∀ a ∈ arrivals, a.ev.rqId < r.num) (hrings : ∀ a ∈ arrivals, ∃ R q, Holds a.ring0 R q) :
    (Within r.rxPrefixLen none arrivals → SafeRun r arrivals) ∧
      (handleAll r (arrivals.map Arrival.delivery) ≠ .error .spins →
        SafeRun r arrivals → Within r.rxPrefixLen none arrivals) :=
  ⟨(tracks_idle harrays hidle).safeRun hids hrings,
    (tracks_idle harrays hidle).within hids hrings⟩

end Run

/-! Events of a fresh receiver, each with an empty ring. -/

def arrivalOf (start last : Bool) (flags : UInt32) (bytes : UInt32) : Arrival :=
  { ev :=
      { rqId := 0
        sop := start
        cont := !last
        bytes := bytes
        rxPtr := fun _ => 7
        tscTimeStamp := 0 }
    common := { ParserImplementation.connected with configurationFlags := flags }
    ring0 := (ringInitialize ringBufferSize).2 }

theorem rings_initial {arrivals : List Arrival}
    (h : ∀ a ∈ arrivals, a.ring0 = (ringInitialize ringBufferSize).2) :
    ∀ a ∈ arrivals, ∃ R q, Holds a.ring0 R q := by
  intro a ha
  rw [h a ha]
  exact ⟨0, [], holds_initial⟩

def twoArrivals : List Arrival :=
  [arrivalOf true false flagGetTiming 52, arrivalOf false true flagGetTiming 60]

theorem reassembly_within_two_fragments : Within 0 none twoArrivals ∧
    SafeRun blankReceiver twoArrivals := by
  have hids : ∀ a ∈ twoArrivals, a.ev.rqId < blankReceiver.num := by decide
  have hrings : ∀ a ∈ twoArrivals, ∃ R q, Holds a.ring0 R q :=
    rings_initial (by simp [twoArrivals, arrivalOf])
  have hspins : handleAll blankReceiver (twoArrivals.map Arrival.delivery) ≠ .error .spins :=
    never_spins (by decide +kernel)
  have hboth := reassembly_within (r := blankReceiver) ⟨rfl, rfl, rfl⟩ rfl hids hrings
  have hsafe := hboth.1 (by decide)
  exact ⟨hboth.2 hspins hsafe, hsafe⟩

def eightArrivals : List Arrival :=
  arrivalOf true false 0 43 :: List.replicate 7 (arrivalOf false false 0 43)

/-- A count below the header, a packet with no room left for its time stamp, an eighth fragment. -/
theorem leaves_jumbo : ¬SafeRun blankReceiver [arrivalOf true true 0 41] ∧
    ¬SafeRun blankReceiver [arrivalOf true true flagGetTiming 9042] ∧
    ¬SafeRun blankReceiver eightArrivals := by
  refine ⟨?_, ?_, ?_⟩
  · intro hsafe
    have hlength := (hsafe.1 (by decide)).length
    revert hlength
    decide
  · intro hsafe
    have hstamp := (hsafe.1 (by decide)).timestamp
    revert hstamp
    decide
  · intro hsafe
    have hspins : handleAll blankReceiver (eightArrivals.map Arrival.delivery) ≠ .error .spins :=
      never_spins (by decide +kernel)
    have hids : ∀ a ∈ eightArrivals, a.ev.rqId < blankReceiver.num := by decide
    have hrings : ∀ a ∈ eightArrivals, ∃ R q, Holds a.ring0 R q :=
      rings_initial (by simp [eightArrivals, arrivalOf])
    have hwithin := (tracks_idle (r := blankReceiver) ⟨rfl, rfl, rfl⟩ rfl).within hids hrings hspins hsafe
    revert hwithin
    decide

end UdpSm.NetworkReceiverImplementationEFVI
