import UdpSm.ReceiverPackets
import UdpSm.ParserCapacity

/-! When the retry loops of the receiver end: what a batch takes of ring buffer 0. -/
namespace UdpSm.NetworkReceiverImplementationEFVI
open Lib RingFIFOBuffer
open ParserImplementation (footprint footprint_mod)

section Room
variable {x : Context} {R : Nat} {q : List (List UInt8)}

theorem iterate_spins_iff (hinit : x.receiver.initialized = true)
    (h : (getCapacity x.ring0).1 ≥ 16384) (es : List EfEvent) :
    iterate x es = .error .spins ↔ handleEvents x es = .error .spins := by
  rw [iterate_of_capacity hinit h]
  cases handleEvents x es with
  | error h => simp [Except.map]
  | ok r => exact iff_of_false nofun nofun

theorem fits_iff (h : Holds x.ring0 R q) (ms : List (List UInt8)) :
    Fits x.ring0 (queueEnd x.ring0.ptr.size R q) ms ↔ (∀ m ∈ ms, m ≠ []) ∧
      (footprint x.ring0.ptr.size x.ring0.writeIndex.toNat (sizes ms) : Int) ≤
        (getCapacity x.ring0).1 := by
  have hle := le_advanceAll x.ring0.ptr.size (queueEnd x.ring0.ptr.size R q) (sizes ms)
  rw [h.writeIndex, Int.toNat_natCast, footprint_mod, h.getCapacity_eq, Fits, writeLimit, footprint]
  exact and_congr_right fun _ => by omega

/-- With the guard passed, no write of a batch is retried forever exactly when none of its packets
is empty and they fit the free bytes. -/
theorem iterate_never_spins_iff (hr : Sized x.receiver.jumbo) (h : Holds x.ring0 R q)
    (hinit : x.receiver.initialized = true) (hguard : (getCapacity x.ring0).1 ≥ 16384)
    (es : List EfEvent) :
    iterate x es ≠ .error .spins ↔ (∀ m ∈ handed x es, m ≠ []) ∧
      (footprint x.ring0.ptr.size x.ring0.writeIndex.toNat (sizes (handed x es)) : Int) ≤
        (getCapacity x.ring0).1 := by
  rw [ne_eq, iterate_spins_iff hinit hguard, ← fits_iff h]
  exact handleEvents_spins_iff hr h es

end Room

/-! A receiver right after its initialization, and packets of a single event. -/

def blankJumbo : Jumbo :=
  constructed
    { inPkt := true
      bufIds := ⟨maxPktFrags, fun _ => 0⟩
      fragDataLen := ⟨maxPktFrags, fun _ => 0⟩
      nFrags := 0
      payloadBytes := 0
      data := ⟨jumboSize, fun _ => 0⟩ }

def blankReceiver : Receiver :=
  { initialized := true, rxPrefixLen := 0, num := (1 : UInt32) <<< 15, jumbo := blankJumbo }

def packetEvent (payload : List UInt8) : EfEvent :=
  .rx
    { rqId := 0
      sop := true
      cont := false
      bytes := udpHeaderLen + UInt32.ofNat payload.length
      rxPtr := fun i => payload.getD (i - udpHeaderLen.toNat) 0
      tscTimeStamp := 0 }

def blank : Context :=
  { common := ParserImplementation.connected
    receiver := blankReceiver
    ring0 := (ringInitialize ringBufferSize).2 }

theorem blank_guard : (getCapacity blank.ring0).1 ≥ 16384 := by
  change (getCapacity (ringInitialize ringBufferSize).2).1 ≥ 16384
  decide +kernel

theorem iterate_never_spins_one_packet :
    (getCapacity blank.ring0).1 ≥ 16384 ∧ handed blank [packetEvent [7]] = [[7]] ∧
      iterate blank [packetEvent [7]] ≠ .error .spins := by
  have hhanded : handed blank [packetEvent [7]] = [[7]] := by decide +kernel
  refine ⟨blank_guard, hhanded, (iterate_never_spins_iff (x := blank) rfl holds_initial rfl blank_guard _).mpr ?_⟩
  rw [hhanded]
  exact ⟨by simp, by decide +kernel⟩

/-- `Write` refuses an empty packet of a fresh ring, and goes on refusing it. -/
theorem empty_packet_spins : ∃ es, (getCapacity blank.ring0).1 ≥ 16384 ∧ es.length = 1 ∧
    handed blank es = [[]] ∧ iterate blank es = .error .spins := by
  have hhanded : handed blank [packetEvent []] = [[]] := by decide +kernel
  refine ⟨[packetEvent []], blank_guard, rfl, hhanded, (iterate_spins_iff (x := blank) rfl blank_guard _).mpr ?_⟩
  by_contra hne
  have hfits := (handleEvents_spins_iff (x := blank) rfl holds_initial _).mp hne
  rw [hhanded] at hfits
  exact hfits.1 [] (by simp) rfl

/-! A receiver between packets. -/

structure Ready (r : Receiver) : Prop where
  initialized : r.initialized = true
  rxPrefixLen : r.rxPrefixLen = 0
  num : 0 < r.num
  inPkt : r.jumbo.inPkt = false
  bufIds : 1 ≤ r.jumbo.bufIds.size
  fragDataLen : 1 ≤ r.jumbo.fragDataLen.size
  data : Sized r.jumbo

section Ready
variable {x : Context} {r : Receiver} {F : List UInt8} {R : Nat} {q : List (List UInt8)}

theorem Ready.outcome (h : Ready r) (hF : F.length ≤ jumboSize) : ∃ j,
    outcome false r (packetEvent F) = .completed j ⟨F, 0⟩ ∧ Ready { r with jumbo := j } := by
  have hlength : (udpHeaderLen + UInt32.ofNat F.length - 0 - udpHeaderLen).toNat = F.length := by
    have hsmall : (UInt32.ofNat F.length).toNat = F.length := by
      rw [UInt32.toNat_ofNat']
      exact Nat.mod_eq_of_lt (Nat.lt_of_le_of_lt hF (by decide))
    rw [UInt32.sub_zero, UInt32.add_comm, UInt32.add_sub_cancel, hsmall]
  have hbytes : (List.range F.length).map
      (fun i => F.getD (i + udpHeaderLen.toNat - udpHeaderLen.toNat) 0) = F := by
    simp only [Nat.add_sub_cancel]
    exact getD_range F
  have hids := Memory.storeAt_natCast r.jumbo.bufIds 0 [(0 : UInt32)] (by simpa using h.bufIds)
  have hlens := Memory.storeAt_natCast r.jumbo.fragDataLen 0
    [udpHeaderLen + UInt32.ofNat F.length - 0 - udpHeaderLen] (by simpa using h.fragDataLen)
  have hdata := Memory.storeAt_natCast r.jumbo.data 0 F (by
    rw [h.data, Nat.zero_add]
    exact hF)
  have hload := Memory.load_store_self r.jumbo.data 0 F
  have hstart : true ≠ r.jumbo.inPkt := by
    rw [h.inPkt]
    decide
  simp only [NetworkReceiverImplementationEFVI.outcome, packetEvent, if_pos h.num, if_neg hstart,
    storeFragment, h.rxPrefixLen, if_true, hlength, hbytes, Option.bind_eq_bind]
  rw [Nat.cast_zero] at hids hlens hdata
  simp only [hids, hlens, hdata, Option.bind_some, Bool.false_eq_true, if_false, appendTimestamp,
    hlength, hload]
  exact ⟨_, rfl, h.initialized, rfl, h.num, rfl, h.bufIds, h.fragDataLen, h.data⟩

theorem Ready.iterate (h : Ready x.receiver) (hring : Holds x.ring0 R q)
    (htiming : x.common.flag flagGetTiming = false) (h1 : F ≠ []) (hF : F.length ≤ jumboSize)
    (hguard : (getCapacity x.ring0).1 ≥ 16384)
    (hroom : (advance x.ring0.ptr.size (queueEnd x.ring0.ptr.size R q) (padded F.length) : Int) ≤
      writeLimit x.ring0 (queueEnd x.ring0.ptr.size R q)) : ∃ j ring0,
    NetworkReceiverImplementationEFVI.iterate x [packetEvent F] = .ok (delivered x j ring0) ∧
      Ready { x.receiver with jumbo := j } ∧ ring0.ptr.size = x.ring0.ptr.size ∧
      Holds ring0 R (q ++ [F]) := by
  obtain ⟨j, houtcome, hready⟩ := h.outcome hF
  obtain ⟨ring0, hwrite, hsize, -, hholds⟩ := holds_writeMessage hring h1
    (Nat.lt_of_le_of_lt hF (by decide)) hroom
  have hhandled := handleEvent_handled h.data (packetEvent F)
  rw [htiming, houtcome] at hhandled
  refine ⟨j, ring0, ?_, hready, hsize, hholds⟩
  generalize hevent : handleEvent x (packetEvent F) = e at hhandled
  cases hhandled with
  | completed j pkt hj hlength =>
    rw [htiming] at hevent
    change _ = (writeMessage x.ring0 F).map _ at hevent
    rw [hwrite] at hevent
    rw [iterate_of_capacity h.initialized hguard, handleEvents, hevent]
    rfl

end Ready

end UdpSm.NetworkReceiverImplementationEFVI
