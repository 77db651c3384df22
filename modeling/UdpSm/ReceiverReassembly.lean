import UdpSm.ReceiverCapacity
import UdpSm.ReceiverTiming

/-! Packets that arrive in fragments: what the events of each come to. -/
namespace UdpSm.NetworkReceiverImplementationEFVI
open Lib Memory RingFIFOBuffer

/-! Where the fragment of an event goes. -/

def fragIndex (r : Receiver) (ev : RxEvent) : UInt32 := if ev.sop then 0 else r.jumbo.nFrags + 1

def fragOffset (r : Receiver) (ev : RxEvent) : Nat :=
  if ev.sop then 0 else r.jumbo.payloadBytes.toNat

def fragLength (r : Receiver) (ev : RxEvent) : UInt32 :=
  if ev.sop then ev.bytes - r.rxPrefixLen - udpHeaderLen
  else ev.bytes - r.rxPrefixLen - udpHeaderLen - r.jumbo.payloadBytes

structure Arrays (j : Jumbo) : Prop where
  bufIds : j.bufIds.size = maxPktFrags
  fragDataLen : j.fragDataLen.size = maxPktFrags
  data : Sized j

def fragBytes (r : Receiver) (ev : RxEvent) : List UInt8 :=
  (List.range (fragLength r ev).toNat).map fun i =>
    ev.rxPtr (if ev.sop then i + udpHeaderLen.toNat else i)

def stored (r : Receiver) (ev : RxEvent) : Jumbo :=
  { inPkt := ev.sop || r.jumbo.inPkt
    bufIds := r.jumbo.bufIds.store (fragIndex r ev).toNat [ev.rqId]
    fragDataLen := r.jumbo.fragDataLen.store (fragIndex r ev).toNat [fragLength r ev]
    nFrags := fragIndex r ev
    payloadBytes := if ev.sop then fragLength r ev else r.jumbo.payloadBytes + fragLength r ev
    data := r.jumbo.data.store (fragOffset r ev) (fragBytes r ev) }

/-- The fragment has a place of its own and ends within `data`. -/
def FragFits (r : Receiver) (ev : RxEvent) : Prop :=
  (fragIndex r ev).toNat < maxPktFrags ∧ fragOffset r ev + (fragLength r ev).toNat ≤ jumboSize

instance (r : Receiver) (ev : RxEvent) : Decidable (FragFits r ev) :=
  inferInstanceAs (Decidable (_ ∧ _))

section Store
variable {r : Receiver} {ev : RxEvent}

theorem fragBytes_length (r : Receiver) (ev : RxEvent) :
    (fragBytes r ev).length = (fragLength r ev).toNat := by
  rw [fragBytes, List.length_map, List.length_range]

theorem storeFragment_eq (hr : Arrays r.jumbo) :
    storeFragment r ev = if FragFits r ev then some (stored r ev) else none := by
  have hids := storeAt_eq r.jumbo.bufIds (fragIndex r ev).toNat [ev.rqId]
  have hlens := storeAt_eq r.jumbo.fragDataLen (fragIndex r ev).toNat [fragLength r ev]
  have hdata := storeAt_eq r.jumbo.data (fragOffset r ev) (fragBytes r ev)
  rw [hr.bufIds, List.length_singleton] at hids
  rw [hr.fragDataLen, List.length_singleton] at hlens
  rw [hr.data, fragBytes_length] at hdata
  have hunfold : storeFragment r ev =
      (r.jumbo.bufIds.storeAt ((fragIndex r ev).toNat : Int) [ev.rqId]).bind fun bufIds =>
        (r.jumbo.fragDataLen.storeAt ((fragIndex r ev).toNat : Int) [fragLength r ev]).bind
          fun fragDataLen =>
            (r.jumbo.data.storeAt (fragOffset r ev : Int) (fragBytes r ev)).bind fun data =>
              some { stored r ev with bufIds := bufIds, fragDataLen := fragDataLen, data := data } := by
    unfold storeFragment stored fragBytes fragOffset fragIndex fragLength
    cases ev.sop <;> rfl
  rw [hunfold, hids, hlens, hdata]
  by_cases hindex : (fragIndex r ev).toNat + 1 ≤ maxPktFrags
  · by_cases hroom : fragOffset r ev + (fragLength r ev).toNat ≤ jumboSize
    · rw [if_pos hindex, if_pos hindex, if_pos hroom, if_pos ⟨hindex, hroom⟩]
      rfl
    · rw [if_pos hindex, if_pos hindex, if_neg hroom, if_neg fun hfits => hroom hfits.2]
      rfl
  · have hno : ¬FragFits r ev := fun hfits => hindex hfits.1
    rw [if_neg hindex, if_neg hindex, if_neg hno]
    rfl

theorem stored_arrays (hr : Arrays r.jumbo) : Arrays (stored r ev) := ⟨hr.bufIds, hr.fragDataLen, hr.data⟩

theorem stored_payload (hfits : FragFits r ev) :
    (stored r ev).payloadBytes.toNat = fragOffset r ev + (fragLength r ev).toNat ∧
      (stored r ev).data.load 0 (stored r ev).payloadBytes.toNat =
        r.jumbo.data.load 0 (fragOffset r ev) ++ fragBytes r ev := by
  have hbytes : (stored r ev).payloadBytes.toNat = fragOffset r ev + (fragLength r ev).toNat := by
    have hroom := hfits.2
    unfold stored
    unfold fragOffset at hroom ⊢
    by_cases hsop : ev.sop = true
    · rw [if_pos hsop, if_pos hsop, Nat.zero_add]
    · rw [if_neg hsop] at hroom
      rw [if_neg hsop, if_neg hsop, UInt32.toNat_add]
      exact Nat.mod_eq_of_lt (by change _ + _ < 4294967296; unfold jumboSize at hroom; omega)
  refine ⟨hbytes, ?_⟩
  have hself := load_store_self r.jumbo.data (fragOffset r ev) (fragBytes r ev)
  rw [fragBytes_length] at hself
  rw [hbytes, load_add, Nat.zero_add]
  change (r.jumbo.data.store (fragOffset r ev) (fragBytes r ev)).load 0 (fragOffset r ev) ++
    (r.jumbo.data.store (fragOffset r ev) (fragBytes r ev)).load _ _ = _
  rw [hself, load_store_disjoint _ _ _ _ _ (.inl (by omega))]

def StampFits (timing : Bool) (r : Receiver) (ev : RxEvent) : Prop :=
  ev.cont = false → timing = true → fragOffset r ev + (fragLength r ev).toNat + 8 ≤ jumboSize

instance (timing : Bool) (r : Receiver) (ev : RxEvent) : Decidable (StampFits timing r ev) :=
  inferInstanceAs (Decidable (_ → _ → _))

def finished (timing : Bool) (r : Receiver) (ev : RxEvent) : Jumbo :=
  { stored r ev with
    inPkt := false
    data :=
      if timing then
        (stored r ev).data.store (stored r ev).payloadBytes.toNat (leBytes 8 ev.tscTimeStamp.toNat)
      else (stored r ev).data }

def finishedPacket (r : Receiver) (ev : RxEvent) : Packet :=
  ⟨r.jumbo.data.load 0 (fragOffset r ev) ++ fragBytes r ev, ev.tscTimeStamp⟩

theorem finished_arrays (timing : Bool) (hr : Arrays r.jumbo) : Arrays (finished timing r ev) := by
  refine ⟨hr.bufIds, hr.fragDataLen, ?_⟩
  unfold finished
  split_ifs <;> exact hr.data

/-- An event in its turn is stored, or ends the program at the first store that does not fit. -/
theorem outcome_rx (timing : Bool) (hr : Arrays r.jumbo) (hid : ev.rqId < r.num)
    (hstart : ev.sop ≠ r.jumbo.inPkt) : outcome timing r (.rx ev) =
      if FragFits r ev ∧ StampFits timing r ev then
        if ev.cont then .kept (stored r ev)
        else .completed (finished timing r ev) (finishedPacket r ev)
      else .halted := by
  simp only [outcome, if_pos hid, if_neg hstart, storeFragment_eq hr]
  by_cases hfits : FragFits r ev
  · obtain ⟨hbytes, hload⟩ := stored_payload hfits
    simp only [if_pos hfits]
    by_cases hcont : ev.cont = true
    · have hstamp : StampFits timing r ev := fun hlast => absurd hcont (by rw [hlast]; decide)
      rw [if_pos hcont, if_pos hcont, if_pos ⟨hfits, hstamp⟩]
    · have hlast : ev.cont = false := by simpa using hcont
      rw [if_neg hcont, if_neg hcont, hload]
      cases timing with
      | false =>
        have hstamp : StampFits false r ev := fun _ hset => Bool.noConfusion hset
        rw [if_pos ⟨hfits, hstamp⟩]
        rfl
      | true =>
        have hstore := storeAt_eq (stored r ev).data (stored r ev).payloadBytes.toNat
          (leBytes 8 ev.tscTimeStamp.toNat)
        rw [leBytes_length, (stored_arrays hr).data] at hstore
        simp only [appendTimestamp, if_true, hstore]
        by_cases hroom : (stored r ev).payloadBytes.toNat + 8 ≤ jumboSize
        · have hstamp : StampFits true r ev := fun _ _ => by rwa [hbytes] at hroom
          have hboth : FragFits r ev ∧ StampFits true r ev := ⟨hfits, hstamp⟩
          simp only [if_pos hroom, if_pos hboth]
          rfl
        · have hno : ¬(FragFits r ev ∧ StampFits true r ev) := fun hboth =>
            hroom (by rw [hbytes]; exact hboth.2 hlast rfl)
          simp only [if_neg hroom, if_neg hno]
          rfl
  · have hno : ¬(FragFits r ev ∧ StampFits timing r ev) := fun hboth => hfits hboth.1
    simp only [if_neg hfits, if_neg hno]

end Store

section Handle
variable {x : Context} {ev : RxEvent}

theorem handled_rx (harrays : Arrays x.receiver.jumbo) (hid : ev.rqId < x.receiver.num)
    (hturn : ev.sop ≠ x.receiver.jumbo.inPkt) : Handled x
      (if FragFits x.receiver ev ∧ StampFits (x.common.flag flagGetTiming) x.receiver ev then
        if ev.cont then .kept (stored x.receiver ev)
        else .completed (finished (x.common.flag flagGetTiming) x.receiver ev)
          (finishedPacket x.receiver ev)
      else .halted) (handleEvent x (.rx ev)) := by
  have hhandled := handleEvent_handled (x := x) harrays.data (.rx ev)
  rwa [outcome_rx (x.common.flag flagGetTiming) harrays hid hturn] at hhandled

theorem handle_kept (harrays : Arrays x.receiver.jumbo) (hid : ev.rqId < x.receiver.num)
    (hturn : ev.sop ≠ x.receiver.jumbo.inPkt) (hfits : FragFits x.receiver ev)
    (hcont : ev.cont = true) : handleEvent x (.rx ev) =
      .ok (0, { x with receiver.jumbo := stored x.receiver ev }) := by
  have hstamp : StampFits (x.common.flag flagGetTiming) x.receiver ev := fun hlast =>
    absurd hcont (by rw [hlast]; decide)
  have hhandled := handled_rx harrays hid hturn
  rw [if_pos ⟨hfits, hstamp⟩, if_pos hcont] at hhandled
  generalize handleEvent x (.rx ev) = result at hhandled
  cases hhandled with
  | kept j hj => rfl

theorem writeMessage_returns {p : Ringbuffer} {R : Nat} {q : List (List UInt8)} {m : List UInt8}
    (h : Holds p R q) (hlength : m.length < 2 ^ 29) : writeMessage p m = .error .spins ∨
      ∃ p', writeMessage p m = .ok p' ∧ contents p' = contents p ++ [m] := by
  by_cases hroom : m ≠ [] ∧ (advance p.ptr.size (queueEnd p.ptr.size R q) (padded m.length) : Int) ≤
      writeLimit p (queueEnd p.ptr.size R q)
  · obtain ⟨p', hok, -, -, hp'⟩ := holds_writeMessage h hroom.1 hlength hroom.2
    exact .inr ⟨p', hok, by rw [hp'.contents_eq, h.contents_eq]⟩
  · exact .inl (writeMessage_spins h hlength hroom)

theorem handle_completed (harrays : Arrays x.receiver.jumbo) (hid : ev.rqId < x.receiver.num)
    (hturn : ev.sop ≠ x.receiver.jumbo.inPkt) (hfits : FragFits x.receiver ev)
    (hstamp : StampFits (x.common.flag flagGetTiming) x.receiver ev) (hlast : ev.cont = false)
    (hring : ∃ R q, Holds x.ring0 R q) : handleEvent x (.rx ev) = .error .spins ∨ ∃ ring0,
      handleEvent x (.rx ev) = .ok (0,
        delivered x (finished (x.common.flag flagGetTiming) x.receiver ev) ring0) ∧
      contents ring0 = contents x.ring0 ++
        [(finishedPacket x.receiver ev).data (x.common.flag flagGetTiming)] := by
  obtain ⟨R, q, hring⟩ := hring
  have hhandled := handled_rx harrays hid hturn
  rw [if_pos ⟨hfits, hstamp⟩, if_neg (by rw [hlast]; decide)] at hhandled
  generalize handleEvent x (.rx ev) = result at hhandled
  cases hhandled with
  | completed j pkt hj hlength =>
    obtain hspins | ⟨ring0, hok, hcontents⟩ := writeMessage_returns (p := x.ring0) hring
      (Nat.lt_of_le_of_lt hlength (by decide))
    · rw [hspins]
      exact .inl rfl
    · rw [hok]
      exact .inr ⟨ring0, rfl, hcontents⟩

theorem handle_refused (hid : ev.rqId < x.receiver.num) (hturn : ev.sop = x.receiver.jumbo.inPkt) :
    handleEvent x (.rx ev) = .ok (-1, x) := by
  simp only [handleEvent, handleRxEventAccept, if_pos hid, if_pos hturn]

end Handle

/-! Events one after another, each with the flags and the ring it finds. -/

structure Delivery where
  event : EfEvent
  common : CommonData
  ring0 : Ringbuffer

def Delivery.context (d : Delivery) (r : Receiver) : Context := ⟨d.common, r, d.ring0⟩

/-- Up to the first error, as `IterateInternalEFVI` does. -/
def handleAll (r : Receiver) : List Delivery → Except Halt (Int × Receiver)
  | [] => .ok (0, r)
  | d :: ds =>
    match handleEvent (d.context r) d.event with
    | .error h => .error h
    | .ok (rv, x) => if rv = 0 then handleAll x.receiver ds else .ok (rv, x.receiver)

def spins : Except Halt (Int × Receiver) → Bool
  | .error .spins => true
  | _ => false

theorem never_spins {x : Except Halt (Int × Receiver)} (h : spins x = false) : x ≠ .error .spins := by
  intro hspins
  rw [hspins] at h
  cases h

/-- Every event is handled with result 0 and puts these messages into ring buffer 0. -/
inductive Handles : Receiver → List Delivery → List (List (List UInt8)) → Receiver → Prop where
  | nil (r : Receiver) : Handles r [] [] r
  | cons {r r' : Receiver} {d : Delivery} {ds : List Delivery} {x : Context}
      {added : List (List UInt8)} {rest : List (List (List UInt8))}
      (hok : handleEvent (d.context r) d.event = .ok (0, x))
      (hring : contents x.ring0 = contents d.ring0 ++ added) (hrest : Handles x.receiver ds rest r') :
      Handles r (d :: ds) (added :: rest) r'

structure Fragment where
  data : List UInt8
  ev : RxEvent
  common : CommonData
  ring0 : Ringbuffer

def Fragment.delivery (f : Fragment) : Delivery := ⟨.rx f.ev, f.common, f.ring0⟩

def Fragment.timing (f : Fragment) : Bool := f.common.flag flagGetTiming

structure Fragment.Reports (r : Receiver) (f : Fragment) (collected : Nat) (start last : Bool) :
    Prop where
  rqId : f.ev.rqId < r.num
  sop : f.ev.sop = start
  cont : f.ev.cont = !last
  bytes : f.ev.bytes.toNat = r.rxPrefixLen.toNat + (collected + f.data.length)
  rxPtr : ∀ i, (h : i < f.data.length) → f.ev.rxPtr i = f.data[i]

def Reported (r : Receiver) (collected : Nat) (start : Bool) : List Fragment → Prop
  | [] => True
  | f :: fs => f.Reports r collected start fs.isEmpty ∧ Reported r (collected + f.data.length) false fs

def bytesOf (w : List Fragment) : List UInt8 := w.flatMap Fragment.data

/-- A packet that the receiver has to take. -/
structure WellFormed (r : Receiver) (w : List Fragment) : Prop where
  reported : Reported r 0 true w
  nonempty : w ≠ []
  count : w.length ≤ maxPktFrags
  header : ∀ f ∈ w.head?, udpHeaderLen.toNat ≤ f.data.length
  size : udpHeaderLen.toNat + 1 ≤ (bytesOf w).length ∧
    (bytesOf w).length ≤ udpHeaderLen.toNat + 8992

/-- What each event of a packet puts into ring buffer 0: the last one the packet without its first
42 bytes, with the time stamp behind it if the timing flag is set, the others nothing. -/
def reassembled (collected : List UInt8) (fs : List Fragment) : List (List (List UInt8)) :=
  (fs.dropLast.map fun _ => []) ++ fs.getLast?.toList.map fun f =>
    [Packet.data f.timing
      ⟨(collected ++ bytesOf fs).drop udpHeaderLen.toNat, f.ev.tscTimeStamp⟩]

/-- A packet of which `k` fragments with the bytes `bs` have been stored. -/
structure Pending (bs : List UInt8) (k : Nat) (j : Jumbo) : Prop where
  arrays : Arrays j
  inPkt : j.inPkt = decide (k ≠ 0)
  start : k = 0 → bs = []
  nFrags : k ≠ 0 → j.nFrags.toNat + 1 = k
  payloadBytes : k ≠ 0 → j.payloadBytes.toNat + udpHeaderLen.toNat = bs.length
  payload : k ≠ 0 → j.data.load 0 j.payloadBytes.toNat = bs.drop udpHeaderLen.toNat

section Step
variable {r : Receiver} {f : Fragment} {bs : List UInt8} {k : Nat} {last : Bool}

theorem Fragment.Reports.length (hf : f.Reports r bs.length (decide (k = 0)) last)
    (hmin : udpHeaderLen.toNat ≤ (bs ++ f.data).length) :
    (f.ev.bytes - r.rxPrefixLen - udpHeaderLen).toNat =
      (bs ++ f.data).length - udpHeaderLen.toNat := by
  have hbytes := hf.bytes
  rw [← List.length_append] at hbytes
  have hcount : (f.ev.bytes - r.rxPrefixLen).toNat = (bs ++ f.data).length := by
    rw [UInt32.toNat_sub_of_le _ _ (by rw [UInt32.le_iff_toNat_le]; omega)]
    omega
  rw [UInt32.toNat_sub_of_le _ _ (by rw [UInt32.le_iff_toNat_le]; omega), hcount]

theorem Fragment.Reports.range (hf : f.Reports r bs.length (decide (k = 0)) last) (o : Nat) :
    (List.range (f.data.length - o)).map (fun i => f.ev.rxPtr (i + o)) = f.data.drop o := by
  apply List.ext_getElem (by simp)
  intro i hi hi'
  rw [List.length_drop] at hi'
  have hptr := hf.rxPtr (i + o) (by omega)
  simp only [List.getElem_map, List.getElem_range, List.getElem_drop, hptr]
  congr 1
  omega

theorem Pending.fragment (h : Pending bs k r.jumbo)
    (hf : f.Reports r bs.length (decide (k = 0)) last) (hk : k < maxPktFrags)
    (hmin : udpHeaderLen.toNat ≤ (bs ++ f.data).length) :
    (fragIndex r f.ev).toNat = k ∧
      fragOffset r f.ev + (fragLength r f.ev).toNat = (bs ++ f.data).length - udpHeaderLen.toNat ∧
      r.jumbo.data.load 0 (fragOffset r f.ev) ++ fragBytes r f.ev =
        (bs ++ f.data).drop udpHeaderLen.toNat := by
  have hsum := hf.length hmin
  by_cases hzero : k = 0
  · obtain rfl := h.start hzero
    have hsop : f.ev.sop = true := by rw [hf.sop]; simpa using hzero
    rw [List.nil_append] at hsum
    refine ⟨?_, ?_, ?_⟩
    · rw [fragIndex, if_pos hsop, hzero]
      rfl
    · rw [fragOffset, fragLength, if_pos hsop, if_pos hsop, hsum, Nat.zero_add, List.nil_append]
    · simp only [fragOffset, fragBytes, fragLength, if_pos hsop, hsum]
      rw [hf.range]
      rfl
  · have hsop : ¬f.ev.sop = true := by rw [hf.sop]; simpa using hzero
    have hframes := h.nFrags hzero
    have hpayload := h.payloadBytes hzero
    have hload := h.payload hzero
    have hlength : (fragLength r f.ev).toNat = f.data.length := by
      rw [fragLength, if_neg hsop, UInt32.toNat_sub_of_le _ _, hsum, List.length_append]
      · omega
      · rw [UInt32.le_iff_toNat_le, hsum, List.length_append]
        omega
    refine ⟨?_, ?_, ?_⟩
    · rw [fragIndex, if_neg hsop, UInt32.toNat_add]
      change (r.jumbo.nFrags.toNat + 1) % 4294967296 = k
      unfold maxPktFrags at hk
      omega
    · rw [fragOffset, if_neg hsop, hlength, List.length_append]
      omega
    · have hrange := hf.range 0
      rw [Nat.sub_zero, List.drop_zero] at hrange
      rw [fragOffset, if_neg hsop, hload, List.drop_append_of_le_length (by omega), fragBytes, hlength]
      simp only [if_neg hsop]
      exact congrArg (_ ++ ·) hrange

theorem Pending.fits (h : Pending bs k r.jumbo)
    (hf : f.Reports r bs.length (decide (k = 0)) last) (hk : k < maxPktFrags)
    (hmin : udpHeaderLen.toNat ≤ (bs ++ f.data).length)
    (hmax : (bs ++ f.data).length ≤ udpHeaderLen.toNat + 8992) (timing : Bool) :
    FragFits r f.ev ∧ StampFits timing r f.ev := by
  obtain ⟨hindex, hlength, -⟩ := h.fragment hf hk hmin
  have hsize : 8992 + 8 = jumboSize := rfl
  refine ⟨⟨?_, ?_⟩, fun _ _ => ?_⟩
  · rw [hindex]
    exact hk
  · rw [hlength]
    omega
  · rw [hlength]
    omega

theorem Pending.turn (h : Pending bs k r.jumbo)
    (hf : f.Reports r bs.length (decide (k = 0)) last) : f.ev.sop ≠ r.jumbo.inPkt := by
  rw [hf.sop, h.inPkt]
  by_cases hzero : k = 0
  · simp [hzero]
  · simp [hzero]

theorem Pending.stored (h : Pending bs k r.jumbo)
    (hf : f.Reports r bs.length (decide (k = 0)) last) (hk : k < maxPktFrags)
    (hmin : udpHeaderLen.toNat ≤ (bs ++ f.data).length)
    (hmax : (bs ++ f.data).length ≤ udpHeaderLen.toNat + 8992) :
    Pending (bs ++ f.data) (k + 1) (NetworkReceiverImplementationEFVI.stored r f.ev) := by
  obtain ⟨hindex, hlength, hdata⟩ := h.fragment hf hk hmin
  obtain ⟨hbytes, hload⟩ := stored_payload (h.fits hf hk hmin hmax false).1
  refine ⟨stored_arrays h.arrays, ?_, ?_, ?_, ?_, ?_⟩
  · have hturn := h.turn hf
    change (f.ev.sop || r.jumbo.inPkt) = decide (k + 1 ≠ 0)
    rw [decide_eq_true (Nat.succ_ne_zero k)]
    cases hsop : f.ev.sop with
    | true => rfl
    | false =>
      rw [hsop] at hturn
      simpa using hturn.symm
  · exact fun hzero => absurd hzero (Nat.succ_ne_zero k)
  · intro _
    change (fragIndex r f.ev).toNat + 1 = k + 1
    rw [hindex]
  · intro _
    rw [hbytes, hlength]
    omega
  · intro _
    rw [hload, hdata]

theorem Pending.finished (h : Pending bs k r.jumbo) (timing : Bool) (ev : RxEvent) :
    Pending [] 0 (NetworkReceiverImplementationEFVI.finished timing r ev) :=
  ⟨finished_arrays timing h.arrays, rfl, fun _ => rfl, fun hne => absurd rfl hne,
    fun hne => absurd rfl hne, fun hne => absurd rfl hne⟩

theorem Pending.handle_inner (h : Pending bs k r.jumbo)
    (hf : f.Reports r bs.length (decide (k = 0)) false) (hk : k < maxPktFrags)
    (hmin : udpHeaderLen.toNat ≤ (bs ++ f.data).length)
    (hmax : (bs ++ f.data).length ≤ udpHeaderLen.toNat + 8992) :
    handleEvent (f.delivery.context r) f.delivery.event = .ok (0,
      { f.delivery.context r with
        receiver.jumbo := NetworkReceiverImplementationEFVI.stored r f.ev }) := by
  exact handle_kept (x := f.delivery.context r) h.arrays hf.rqId (h.turn hf)
    (h.fits hf hk hmin hmax f.timing).1 (by rw [hf.cont]; rfl)

theorem Pending.handle_last (h : Pending bs k r.jumbo)
    (hf : f.Reports r bs.length (decide (k = 0)) true) (hk : k < maxPktFrags)
    (hmin : udpHeaderLen.toNat ≤ (bs ++ f.data).length)
    (hmax : (bs ++ f.data).length ≤ udpHeaderLen.toNat + 8992)
    (hring : ∃ R q, Holds f.ring0 R q) :
    handleEvent (f.delivery.context r) f.delivery.event = .error .spins ∨ ∃ ring0,
      handleEvent (f.delivery.context r) f.delivery.event = .ok (0,
        delivered (f.delivery.context r)
          (NetworkReceiverImplementationEFVI.finished f.timing r f.ev) ring0) ∧
      contents ring0 = contents f.ring0 ++ [Packet.data f.timing
        ⟨(bs ++ f.data).drop udpHeaderLen.toNat, f.ev.tscTimeStamp⟩] := by
  obtain ⟨-, -, hdata⟩ := h.fragment hf hk hmin
  obtain ⟨hfits, hstamp⟩ := h.fits hf hk hmin hmax f.timing
  have hcompleted := handle_completed (x := f.delivery.context r) h.arrays hf.rqId (h.turn hf) hfits
    hstamp (by rw [hf.cont]; rfl) hring
  change _ ∨ ∃ ring0, _ ∧ _ = _ ++ [(finishedPacket r f.ev).data f.timing] at hcompleted
  rw [finishedPacket, hdata] at hcompleted
  exact hcompleted

theorem Reported.jumbo {collected : Nat} {start : Bool} {fs : List Fragment}
    (h : Reported r collected start fs) (j : Jumbo) : Reported { r with jumbo := j } collected start fs := by
  induction fs generalizing collected start with
  | nil => exact h
  | cons f fs ih => exact ⟨⟨h.1.rqId, h.1.sop, h.1.cont, h.1.bytes, h.1.rxPtr⟩, ih h.2⟩

theorem handleAll_ok {d : Delivery} {x : Context}
    (hok : handleEvent (d.context r) d.event = .ok (0, x)) (ds : List Delivery) :
    handleAll r (d :: ds) = handleAll x.receiver ds := by
  simp only [handleAll, hok, if_true]

theorem handleAll_spins {d : Delivery} (hspins : handleEvent (d.context r) d.event = .error .spins)
    (ds : List Delivery) : handleAll r (d :: ds) = .error .spins := by
  simp only [handleAll, hspins]

end Step

section Run
variable {r : Receiver} {bs : List UInt8} {k : Nat} {fs : List Fragment} {ds : List Delivery}

def deliveries (fs : List Fragment) : List Delivery := fs.map Fragment.delivery

theorem Handles.append {r r' r'' : Receiver} {ds es : List Delivery}
    {added rest : List (List (List UInt8))} (h : Handles r ds added r') (h' : Handles r' es rest r'') :
    Handles r (ds ++ es) (added ++ rest) r'' := by
  induction h with
  | nil => exact h'
  | cons hok hring _ ih => exact .cons hok hring (ih h')

theorem reassembled_last (f : Fragment) : reassembled bs [f] =
    [[Packet.data f.timing ⟨(bs ++ f.data).drop udpHeaderLen.toNat, f.ev.tscTimeStamp⟩]] := by
  simp [reassembled, bytesOf]

theorem reassembled_cons (f g : Fragment) : reassembled bs (f :: g :: fs) =
    [] :: reassembled (bs ++ f.data) (g :: fs) := by
  simp [reassembled, bytesOf, List.append_assoc]

theorem Pending.handles (h : Pending bs k r.jumbo) (hne : fs ≠ [])
    (hreported : Reported r bs.length (decide (k = 0)) fs) (hcount : k + fs.length ≤ maxPktFrags)
    (hheader : ∀ f ∈ fs.head?, udpHeaderLen.toNat ≤ (bs ++ f.data).length)
    (hmax : (bs ++ bytesOf fs).length ≤ udpHeaderLen.toNat + 8992)
    (hrings : ∀ f ∈ fs, ∃ R q, Holds f.ring0 R q)
    (hspins : handleAll r (deliveries fs ++ ds) ≠ .error .spins) : ∃ j,
    Handles r (deliveries fs) (reassembled bs fs) { r with jumbo := j } ∧ Pending [] 0 j ∧
      handleAll r (deliveries fs ++ ds) = handleAll { r with jumbo := j } ds := by
  induction fs generalizing bs k r with
  | nil => exact absurd rfl hne
  | cons f fs ih =>
    have hf := hreported.1
    have hmin := hheader f rfl
    have hring := hrings f (by simp)
    rw [bytesOf, List.flatMap_cons, ← List.append_assoc] at hmax
    have hmax' : (bs ++ f.data).length ≤ udpHeaderLen.toNat + 8992 := by
      rw [List.length_append] at hmax
      omega
    rw [List.length_cons] at hcount
    cases fs with
    | nil =>
      obtain hstop | ⟨ring0, hok, hcontents⟩ := h.handle_last hf (by omega) hmin hmax' hring
      · exact absurd (handleAll_spins hstop ds) hspins
      · rw [reassembled_last]
        exact ⟨_, .cons hok hcontents (.nil _), h.finished f.timing f.ev, handleAll_ok hok ds⟩
    | cons g fs =>
      have hok := h.handle_inner hf (by omega) hmin hmax'
      have hnext := h.stored hf (by omega) hmin hmax'
      have hrest : handleAll r (deliveries (f :: g :: fs) ++ ds) =
          handleAll { r with jumbo := NetworkReceiverImplementationEFVI.stored r f.ev }
            (deliveries (g :: fs) ++ ds) := handleAll_ok hok _
      rw [hrest] at hspins
      have hreported' := hreported.2.jumbo (NetworkReceiverImplementationEFVI.stored r f.ev)
      rw [← List.length_append, ← decide_eq_false (Nat.succ_ne_zero k)] at hreported'
      obtain ⟨j, hhandles, hpending, hall⟩ := ih
        (r := { r with jumbo := NetworkReceiverImplementationEFVI.stored r f.ev }) hnext (by simp)
        hreported' (by omega) (fun e _ => by rw [List.length_append]; omega) hmax
        (fun e he => hrings e (List.mem_cons_of_mem f he)) hspins
      rw [reassembled_cons]
      refine ⟨j, .cons hok (List.append_nil _).symm hhandles, hpending, ?_⟩
      rw [hrest, hall]

theorem WellFormed.handles {w : List Fragment} (hw : WellFormed r w) (h : Pending [] 0 r.jumbo)
    (hrings : ∀ f ∈ w, ∃ R q, Holds f.ring0 R q)
    (hspins : handleAll r (deliveries w ++ ds) ≠ .error .spins) : ∃ j,
    Handles r (deliveries w) (reassembled [] w) { r with jumbo := j } ∧ Pending [] 0 j ∧
      handleAll r (deliveries w ++ ds) = handleAll { r with jumbo := j } ds := by
  refine h.handles hw.nonempty hw.reported ?_ hw.header ?_ hrings hspins
  · rw [Nat.zero_add]
    exact hw.count
  · exact hw.size.2

theorem WellFormed.jumbo {w : List Fragment} (hw : WellFormed r w) (j : Jumbo) :
    WellFormed { r with jumbo := j } w :=
  ⟨hw.reported.jumbo j, hw.nonempty, hw.count, hw.header, hw.size⟩

theorem pending_idle (harrays : Arrays r.jumbo) (hidle : r.jumbo.inPkt = false) :
    Pending [] 0 r.jumbo :=
  ⟨harrays, hidle, fun _ => rfl, fun hne => absurd rfl hne, fun hne => absurd rfl hne,
    fun hne => absurd rfl hne⟩

theorem handles_packets {ws : List (List Fragment)} (h : Pending [] 0 r.jumbo)
    (hws : ∀ w ∈ ws, WellFormed r w) (hrings : ∀ w ∈ ws, ∀ f ∈ w, ∃ R q, Holds f.ring0 R q)
    (hspins : handleAll r (ws.flatMap deliveries) ≠ .error .spins) : ∃ r',
    Handles r (ws.flatMap deliveries) (ws.flatMap (reassembled [])) r' := by
  induction ws generalizing r with
  | nil => exact ⟨r, .nil r⟩
  | cons w ws ih =>
    rw [List.flatMap_cons] at hspins
    obtain ⟨j, hhandles, hpending, hall⟩ := (hws w (by simp)).handles h (hrings w (by simp)) hspins
    rw [hall] at hspins
    obtain ⟨r', hrest⟩ := ih (r := { r with jumbo := j }) hpending
      (fun v hv => (hws v (List.mem_cons_of_mem w hv)).jumbo j)
      (fun v hv => hrings v (List.mem_cons_of_mem w hv)) hspins
    exact ⟨r', hhandles.append hrest⟩

/-- Well-formed packets, one after another: every event returns 0, and the last one of each packet
puts the packet into ring buffer 0. -/
theorem reassembly_exact {ws : List (List Fragment)} (harrays : Arrays r.jumbo)
    (hidle : r.jumbo.inPkt = false) (hws : ∀ w ∈ ws, WellFormed r w)
    (hrings : ∀ w ∈ ws, ∀ f ∈ w, ∃ R q, Holds f.ring0 R q)
    (hspins : handleAll r (ws.flatMap deliveries) ≠ .error .spins) : ∃ r',
    Handles r (ws.flatMap deliveries) (ws.flatMap (reassembled [])) r' :=
  handles_packets (pending_idle harrays hidle) hws hrings hspins

/-! A packet in two fragments. -/

def fragmentOf (collected : Nat) (start last : Bool) (data : List UInt8) : Fragment :=
  { data := data
    ev :=
      { rqId := 0
        sop := start
        cont := !last
        bytes := UInt32.ofNat (collected + data.length)
        rxPtr := fun i => data.getD i 0
        tscTimeStamp := 0 }
    common := ParserImplementation.connected
    ring0 := (ringInitialize ringBufferSize).2 }

theorem reports_fragmentOf {collected : Nat} {data : List UInt8}
    (h : collected + data.length < 2 ^ 32) (start last : Bool) :
    (fragmentOf collected start last data).Reports blankReceiver collected start last := by
  refine ⟨by change (0 : UInt32) < blankReceiver.num; decide, rfl, rfl, ?_, ?_⟩
  · change (UInt32.ofNat (collected + data.length)).toNat = 0 + (collected + data.length)
    rw [UInt32.toNat_ofNat', Nat.zero_add]
    exact Nat.mod_eq_of_lt h
  · intro i hi
    have hi' : i < data.length := hi
    change data.getD i 0 = data[i]
    rw [List.getD_eq_getElem?_getD, List.getElem?_eq_getElem hi', Option.getD_some]

def twoFragments : List Fragment :=
  [fragmentOf 0 true false (List.replicate 44 7), fragmentOf 44 false true [1, 2]]

theorem wellFormed_twoFragments : WellFormed blankReceiver twoFragments :=
  ⟨⟨reports_fragmentOf (by decide) true false, reports_fragmentOf (by decide) false true, trivial⟩,
    by decide, by decide, by decide, by decide⟩

theorem reassembly_exact_two_fragments : ∃ r',
    reassembled [] twoFragments = [[], [[7, 7, 1, 2]]] ∧
      Handles blankReceiver (deliveries twoFragments) (reassembled [] twoFragments) r' := by
  have hspins : handleAll blankReceiver ([twoFragments].flatMap deliveries) ≠ .error .spins :=
    never_spins (by decide +kernel)
  obtain ⟨r', hhandles⟩ : ∃ r', Handles blankReceiver ([twoFragments].flatMap deliveries)
      ([twoFragments].flatMap (reassembled [])) r' := reassembly_exact
    ⟨rfl, rfl, rfl⟩ rfl (by simpa using wellFormed_twoFragments) (by
      intro w hw f hf
      obtain rfl := List.mem_singleton.mp hw
      refine ⟨0, [], ?_⟩
      simp only [twoFragments, List.mem_cons, List.not_mem_nil, or_false] at hf
      obtain rfl | rfl := hf
      · exact holds_initial
      · exact holds_initial) hspins
  exact ⟨r', by decide, by simpa using hhandles⟩

end Run

end UdpSm.NetworkReceiverImplementationEFVI
