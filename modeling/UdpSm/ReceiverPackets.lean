import UdpSm.NetworkReceiverImplementationEFVI
import UdpSm.RingTransaction

/-! The packets that a batch of events completes, and what becomes of ring buffer 0. -/
namespace UdpSm.NetworkReceiverImplementationEFVI
open Lib RingFIFOBuffer

/-- A completed packet: its payload, and the time stamp of its last event. -/
structure Packet where
  payload : List UInt8
  tscTimeStamp : UInt64

def Packet.data (timing : Bool) (pkt : Packet) : List UInt8 :=
  if timing then pkt.payload ++ leBytes 8 pkt.tscTimeStamp.toNat else pkt.payload

/-- What an event comes to, apart from ring buffer 0. -/
inductive Outcome where
  | halted
  | refused
  | kept (jumbo : Jumbo)
  | completed (jumbo : Jumbo) (packet : Packet)

def outcome (timing : Bool) (r : Receiver) : EfEvent → Outcome
  | .rx ev =>
    if ev.rqId < r.num then
      if ev.sop = r.jumbo.inPkt then .refused
      else
        match storeFragment r ev with
        | none => .halted
        | some j =>
          if ev.cont then .kept j
          else
            match appendTimestamp timing j ev.tscTimeStamp with
            | none => .halted
            | some (j', _) => .completed { j' with inPkt := false }
                ⟨j.data.load 0 j.payloadBytes.toNat, ev.tscTimeStamp⟩
    else .refused
  | .rxDiscard rqId => if rqId < r.num then .kept r.jumbo else .halted
  | .other => .refused

/-- The packets completed by a batch, up to the event that ends it. -/
def packets (timing : Bool) (r : Receiver) : List EfEvent → List Packet
  | [] => []
  | e :: es =>
    match outcome timing r e with
    | .halted => []
    | .refused => []
    | .kept j => packets timing { r with jumbo := j } es
    | .completed j pkt => pkt :: packets timing { r with jumbo := j } es

def Sized (j : Jumbo) : Prop := j.data.size = jumboSize

section Fragments
variable {r : Receiver} {j j' : Jumbo} {timing : Bool}

theorem storeFragment_sized {ev : RxEvent} (hr : Sized r.jumbo) (h : storeFragment r ev = some j) :
    Sized j ∧ j.payloadBytes.toNat ≤ jumboSize := by
  rw [storeFragment] at h
  split_ifs at h
  · simp only [Option.bind_eq_bind, Option.bind_eq_some_iff] at h
    obtain ⟨_, -, _, -, data, hdata, hj⟩ := h
    obtain rfl := Option.some.inj hj
    obtain ⟨-, hle, rfl⟩ := Memory.storeAt_some hdata
    rw [List.length_map, List.length_range, hr] at hle
    exact ⟨hr, by simpa using hle⟩
  · simp only [Option.bind_eq_bind, Option.bind_eq_some_iff] at h
    obtain ⟨_, -, _, -, data, hdata, hj⟩ := h
    obtain rfl := Option.some.inj hj
    obtain ⟨-, hle, rfl⟩ := Memory.storeAt_some hdata
    rw [List.length_map, List.length_range, hr] at hle
    refine ⟨hr, Nat.le_trans ?_ (Int.ofNat_le.mp hle)⟩
    exact Nat.le_trans (Nat.le_of_eq (UInt32.toNat_add _ _)) (Nat.mod_le _ _)

theorem appendTimestamp_data {tsc : UInt64} {length : UInt32} (hj : Sized j)
    (hbound : j.payloadBytes.toNat ≤ jumboSize)
    (h : appendTimestamp timing j tsc = some (j', length)) :
    Sized j' ∧ (List.range length.toNat).map j'.data.cell =
      Packet.data timing ⟨j.data.load 0 j.payloadBytes.toNat, tsc⟩ ∧ length.toNat ≤ jumboSize := by
  have hload : ∀ (m : Memory UInt8) n, m.load 0 n = (List.range n).map m.cell := fun m n => by
    simp [Memory.load]
  rw [appendTimestamp] at h
  split_ifs at h with ht
  · simp only [Option.bind_eq_bind, Option.bind_eq_some_iff] at h
    obtain ⟨data, hdata, hpair⟩ := h
    obtain ⟨rfl, rfl⟩ := Prod.mk.inj (Option.some.inj hpair)
    obtain ⟨-, hle, rfl⟩ := Memory.storeAt_some hdata
    rw [leBytes_length, hj] at hle
    have hlength : (j.payloadBytes + 8).toNat = j.payloadBytes.toNat + 8 := by
      rw [UInt32.toNat_add]
      exact Nat.mod_eq_of_lt (by change _ + 8 < _; unfold jumboSize at hle; omega)
    refine ⟨hj, ?_, by rw [hlength]; omega⟩
    have hstamp := Memory.load_store_self j.data j.payloadBytes.toNat (leBytes 8 tsc.toNat)
    rw [leBytes_length] at hstamp
    rw [← hload, hlength, Memory.load_add, Nat.zero_add, Int.toNat_natCast, hstamp,
      Memory.load_store_disjoint _ _ _ _ _ (.inl (by omega)), Packet.data, if_pos ht]
  · obtain ⟨rfl, rfl⟩ := Prod.mk.inj (Option.some.inj h)
    refine ⟨hj, ?_, hbound⟩
    rw [Packet.data, if_neg ht, hload]

end Fragments

def writeMessage (p : Ringbuffer) (m : List UInt8) : Except Halt Ringbuffer :=
  writeUntilAccepted p (fun i => m.getD i 0) (UInt32.ofNat m.length)

def delivered (x : Context) (j : Jumbo) (ring0 : Ringbuffer) : Context :=
  { x with
    common.totalNumberOfReceivedMessages := x.common.totalNumberOfReceivedMessages + 1
    receiver.jumbo := j
    ring0 := ring0 }

inductive Handled (x : Context) : Outcome → Except Halt (Int × Context) → Prop where
  | halted : Handled x .halted (.error .outOfBounds)
  | refused : Handled x .refused (.ok (-1, x))
  | kept (j : Jumbo) (hj : Sized j) :
      Handled x (.kept j) (.ok (0, { x with receiver.jumbo := j }))
  | completed (j : Jumbo) (pkt : Packet) (hj : Sized j)
      (hlength : (pkt.data (x.common.flag flagGetTiming)).length ≤ jumboSize) :
      Handled x (.completed j pkt)
        ((writeMessage x.ring0 (pkt.data (x.common.flag flagGetTiming))).map
          fun ring0 => (0, delivered x j ring0))

theorem writeUntilAccepted_range (p : Ringbuffer) (data : Nat → UInt8) (length : UInt32) :
    writeUntilAccepted p data length =
      writeMessage p ((List.range length.toNat).map data) := by
  have hlength : UInt32.ofNat ((List.range length.toNat).map data).length = length := by simp
  have hdata : (List.range length.toNat).map data = (List.range length.toNat).map
      (fun i => ((List.range length.toNat).map data).getD i 0) := by
    apply List.map_congr_left
    intro i hi
    simp [List.mem_range.mp hi]
  rw [writeMessage, hlength]
  simp only [writeUntilAccepted, write, ← hdata]

theorem handleEvent_handled {x : Context} (hr : Sized x.receiver.jumbo) (e : EfEvent) :
    Handled x (outcome (x.common.flag flagGetTiming) x.receiver e) (handleEvent x e) := by
  cases e with
  | rx ev =>
    simp only [outcome, handleEvent, handleRxEventAccept]
    by_cases hid : ev.rqId < x.receiver.num
    · by_cases hstate : ev.sop = x.receiver.jumbo.inPkt
      · simp only [if_pos hid, if_pos hstate]
        exact .refused
      simp only [if_pos hid, if_neg hstate]
      cases hstore : storeFragment x.receiver ev with
      | none => exact .halted
      | some j =>
        obtain ⟨hj, hbound⟩ := storeFragment_sized hr hstore
        by_cases hcont : ev.cont = true
        · simp only [if_pos hcont]
          exact .kept j hj
        simp only [if_neg hcont]
        cases happend : appendTimestamp (x.common.flag flagGetTiming) j ev.tscTimeStamp with
        | none => exact .halted
        | some r =>
          obtain ⟨hj', hdata, hlength⟩ := appendTimestamp_data hj hbound happend
          have hpacket := Handled.completed (x := x) { r.1 with inPkt := false } _ hj'
            (by rw [← hdata, List.length_map, List.length_range]; exact hlength)
          simp only [writeUntilAccepted_range, hdata]
          cases hw : writeMessage x.ring0 (Packet.data (x.common.flag flagGetTiming)
              ⟨j.data.load 0 j.payloadBytes.toNat, ev.tscTimeStamp⟩) with
          | error h => rwa [hw] at hpacket
          | ok ring0 => rwa [hw] at hpacket
    · simp only [if_neg hid]
      exact .refused
  | rxDiscard rqId =>
    simp only [outcome, handleEvent, handleRxEventDiscard]
    split_ifs
    · exact .kept x.receiver.jumbo hr
    · exact .halted
  | other => exact .refused


/-! Ring buffer 0 after a batch. -/
section Ring
variable {p p' : Ringbuffer} {R : Nat} {q : List (List UInt8)} {m : List UInt8}

/-- Where the messages of a ring go, and whether they fit. -/
def Fits (p : Ringbuffer) (w : Nat) (ms : List (List UInt8)) : Prop :=
  (∀ m ∈ ms, m ≠ []) ∧ (advanceAll p.ptr.size w (sizes ms) : Int) ≤ writeLimit p w

theorem getD_range (m : List UInt8) : (List.range m.length).map (fun i => m.getD i 0) = m := by
  apply List.ext_getElem (by simp)
  intro i _ hi
  simp [hi]

theorem holds_writeMessage (h : Holds p R q) (hm : m ≠ []) (hlength : m.length < 2 ^ 29)
    (hr : (advance p.ptr.size (queueEnd p.ptr.size R q) (padded m.length) : Int) ≤
      writeLimit p (queueEnd p.ptr.size R q)) :
    ∃ p', writeMessage p m = .ok p' ∧ p'.ptr.size = p.ptr.size ∧
      writeLimit p' (queueEnd p.ptr.size R (q ++ [m])) = writeLimit p (queueEnd p.ptr.size R q) ∧
      Holds p' R (q ++ [m]) := by
  obtain ⟨hword, -⟩ := length_word hlength
  have h1 : 1 ≤ m.length := List.length_pos_iff.mpr hm
  have hwrite := h.writeUntilAccepted_ok (fun i => m.getD i 0) (UInt32.ofNat m.length)
    (by rwa [hword]) (by rwa [hword]) (by rwa [hword])
  rw [hword, getD_range, ← queueEnd_append] at hwrite
  exact hwrite

theorem writeMessage_spins (h : Holds p R q) (hlength : m.length < 2 ^ 29)
    (hno : ¬(m ≠ [] ∧ (advance p.ptr.size (queueEnd p.ptr.size R q) (padded m.length) : Int) ≤
      writeLimit p (queueEnd p.ptr.size R q))) : writeMessage p m = .error .spins := by
  obtain ⟨hword, -⟩ := length_word hlength
  by_cases hm : m = []
  · subst hm
    change writeUntilAccepted p _ 0 = _
    simp only [writeUntilAccepted, write_empty, if_true]
  · exact h.writeUntilAccepted_spins _ _ (by rwa [hword]) (by rw [hword]; exact fun hr => hno ⟨hm, hr⟩)

theorem fits_cons (hsize : p'.ptr.size = p.ptr.size) (w : Nat)
    (hlimit : writeLimit p' (advance p.ptr.size w (padded m.length)) = writeLimit p w) (hm : m ≠ [])
    (ms : List (List UInt8)) :
    Fits p w (m :: ms) ↔ Fits p' (advance p.ptr.size w (padded m.length)) ms := by
  unfold Fits
  rw [hlimit, hsize]
  simp [sizes, hm]

theorem fits_head {w : Nat} {ms : List (List UInt8)} (h : Fits p w (m :: ms)) :
    m ≠ [] ∧ (advance p.ptr.size w (padded m.length) : Int) ≤ writeLimit p w := by
  have hle := le_advanceAll p.ptr.size (advance p.ptr.size w (padded m.length)) (sizes ms)
  refine ⟨h.1 m (by simp), Int.le_trans (Int.ofNat_le.mpr hle) ?_⟩
  simpa [sizes] using h.2

end Ring

section Batch
variable {x : Context} {R : Nat} {q : List (List UInt8)}

def handed (x : Context) (es : List EfEvent) : List (List UInt8) :=
  (packets (x.common.flag flagGetTiming) x.receiver es).map
    (Packet.data (x.common.flag flagGetTiming))

/-- A batch never spins exactly when all its packets have bytes and fit the ring. -/
theorem handleEvents_spins_iff (hr : Sized x.receiver.jumbo) (h : Holds x.ring0 R q)
    (es : List EfEvent) : handleEvents x es ≠ .error .spins ↔
      Fits x.ring0 (queueEnd x.ring0.ptr.size R q) (handed x es) := by
  induction es generalizing x q with
  | nil =>
    have hlimit : (queueEnd x.ring0.ptr.size R q : Int) ≤
        writeLimit x.ring0 (queueEnd x.ring0.ptr.size R q) := by
      have hb := h.bound
      unfold writeLimit
      omega
    simpa [handleEvents, handed, packets, Fits, sizes] using hlimit
  | cons e es ih =>
    have hfirst := handleEvent_handled hr e
    have hnil : Fits x.ring0 (queueEnd x.ring0.ptr.size R q) [] := by
      have hb := h.bound
      unfold Fits writeLimit
      simp only [sizes, List.map_nil, advanceAll_nil]
      exact ⟨by simp, by omega⟩
    simp only [handleEvents, handed, packets]
    generalize outcome (x.common.flag flagGetTiming) x.receiver e = o at hfirst ⊢
    generalize handleEvent x e = result at hfirst ⊢
    cases hfirst with
    | halted => simpa using hnil
    | refused => simpa using hnil
    | kept j hj => exact ih (x := { x with receiver.jumbo := j }) hj h
    | completed j pkt hj hlength =>
      by_cases hroom : pkt.data (x.common.flag flagGetTiming) ≠ [] ∧
          (advance x.ring0.ptr.size (queueEnd x.ring0.ptr.size R q)
            (padded (pkt.data (x.common.flag flagGetTiming)).length) : Int) ≤
            writeLimit x.ring0 (queueEnd x.ring0.ptr.size R q)
      · obtain ⟨ring0, hw, hsize, hlimit, h'⟩ := holds_writeMessage h hroom.1
          (Nat.lt_of_le_of_lt hlength (by decide)) hroom.2
        have hrest := ih (x := delivered x j ring0) hj h'
        rw [queueEnd_append] at hlimit
        simp only [hw, List.map_cons]
        rw [fits_cons hsize _ hlimit hroom.1]
        change handleEvents (delivered x j ring0) es ≠ _ ↔ _
        rw [hrest]
        change Fits ring0 (queueEnd ring0.ptr.size R _) _ ↔ _
        rw [hsize, queueEnd_append]
        rfl
      · rw [writeMessage_spins h (Nat.lt_of_le_of_lt hlength (by decide)) hroom]
        refine iff_of_false (fun hne => hne rfl) fun hfits => ?_
        rw [List.map_cons] at hfits
        exact hroom (fits_head hfits)

theorem handleEvents_ok (hr : Sized x.receiver.jumbo) (h : Holds x.ring0 R q) {es : List EfEvent}
    {rv : Int} {x' : Context} (hok : handleEvents x es = .ok (rv, x')) : ∃ total jumbo ring0,
      x' =
        { common := { x.common with totalNumberOfReceivedMessages := total }
          receiver := { x.receiver with jumbo := jumbo }
          ring0 := ring0 } ∧
      Sized jumbo ∧ Holds ring0 R (q ++ handed x es) := by
  induction es generalizing x q with
  | nil =>
    obtain ⟨-, rfl⟩ := Prod.mk.inj (Except.ok.inj hok)
    exact ⟨_, _, _, rfl, hr, by simpa [handed, packets] using h⟩
  | cons e es ih =>
    have hfirst := handleEvent_handled hr e
    simp only [handleEvents, handed, packets] at hok ⊢
    generalize outcome (x.common.flag flagGetTiming) x.receiver e = o at hfirst ⊢
    generalize handleEvent x e = result at hfirst hok
    cases hfirst with
    | halted => cases hok
    | refused =>
      obtain ⟨-, rfl⟩ := Prod.mk.inj (Except.ok.inj hok)
      exact ⟨_, _, _, rfl, hr, by simpa using h⟩
    | kept j hj =>
      obtain ⟨total, jumbo, ring0, heq, hrest⟩ := ih (x := { x with receiver.jumbo := j }) hj h hok
      exact ⟨total, jumbo, ring0, heq, hrest⟩
    | completed j pkt hj hlength =>
      by_cases hroom : pkt.data (x.common.flag flagGetTiming) ≠ [] ∧
          (advance x.ring0.ptr.size (queueEnd x.ring0.ptr.size R q)
            (padded (pkt.data (x.common.flag flagGetTiming)).length) : Int) ≤
            writeLimit x.ring0 (queueEnd x.ring0.ptr.size R q)
      · obtain ⟨u, hw, -, -, h'⟩ := holds_writeMessage h hroom.1
          (Nat.lt_of_le_of_lt hlength (by decide)) hroom.2
        simp only [hw] at hok
        obtain ⟨total, jumbo, ring0, heq, hsized, hholds⟩ := ih (x := delivered x j u) hj h' hok
        rw [List.append_assoc] at hholds
        exact ⟨total, jumbo, ring0, heq, hsized, hholds⟩
      · rw [writeMessage_spins h (Nat.lt_of_le_of_lt hlength (by decide)) hroom] at hok
        cases hok

theorem handed_bound (hr : Sized x.receiver.jumbo) (es : List EfEvent) :
    ∀ m ∈ handed x es, m.length ≤ jumboSize := by
  induction es generalizing x with
  | nil => simp [handed, packets]
  | cons e es ih =>
    have hfirst := handleEvent_handled hr e
    simp only [handed, packets]
    generalize outcome (x.common.flag flagGetTiming) x.receiver e = o at hfirst ⊢
    generalize handleEvent x e = result at hfirst
    cases hfirst with
    | halted => simp
    | refused => simp
    | kept j hj => exact ih (x := { x with receiver.jumbo := j }) hj
    | completed j pkt hj hlength =>
      intro m hm
      cases hm with
      | head => exact hlength
      | tail _ hm => exact ih (x := { x with receiver.jumbo := j }) hj m hm

end Batch

/-! One call of `Iterate`. -/
section Iterate
variable {x x' : Context} {R : Nat} {q : List (List UInt8)}

def polled (x : Context) (es : List EfEvent) : List Packet :=
  if x.receiver.initialized ∧ (getCapacity x.ring0).1 ≥ 16384 then
    packets (x.common.flag flagGetTiming) x.receiver es
  else []

theorem iterate_of_capacity (hinit : x.receiver.initialized = true)
    (h : (getCapacity x.ring0).1 ≥ 16384) (es : List EfEvent) :
    iterate x es = (handleEvents x es).map finishEvents := by
  have hring : (getCapacity x.ring0).2 = x.ring0 := if_neg (Int.not_lt.mpr h)
  simp only [iterate, hring]
  rw [if_pos hinit, if_pos h]

theorem iterate_ok (hr : Sized x.receiver.jumbo) (h : Holds x.ring0 R q) {es : List EfEvent}
    (hok : iterate x es = .ok x') : ∃ total run jumbo ring0,
      x' =
        { common :=
            { x.common with totalNumberOfReceivedMessages := total, applicationRunFlag := run }
          receiver := { x.receiver with jumbo := jumbo }
          ring0 := ring0 } ∧
      (run = true → x.common.applicationRunFlag = true) ∧ Sized jumbo ∧
      Holds ring0 R (q ++ (polled x es).map (Packet.data (x.common.flag flagGetTiming))) := by
  by_cases hinit : x.receiver.initialized = true
  · by_cases hcapacity : (getCapacity x.ring0).1 ≥ 16384
    · rw [iterate_of_capacity hinit hcapacity] at hok
      cases hevents : handleEvents x es with
      | error e => simp [hevents, Except.map] at hok
      | ok r =>
        obtain ⟨rv, u⟩ := r
        obtain ⟨total, jumbo, ring0, rfl, hsized, hholds⟩ := handleEvents_ok hr h hevents
        rw [hevents] at hok
        obtain rfl := Except.ok.inj hok
        rw [polled, if_pos ⟨hinit, hcapacity⟩]
        unfold finishEvents
        split_ifs
        · exact ⟨total, false, jumbo, ring0, rfl, fun hf => absurd hf Bool.false_ne_true, hsized, hholds⟩
        · exact ⟨total, _, jumbo, ring0, rfl, id, hsized, hholds⟩
    · simp only [iterate] at hok
      rw [if_pos hinit, if_neg hcapacity] at hok
      obtain rfl := Except.ok.inj hok
      rw [polled, if_neg fun hc => hcapacity hc.2]
      exact ⟨_, _, _, _, rfl, id, hr, by simpa using h.getCapacity⟩
  · simp only [iterate] at hok
    rw [if_neg hinit] at hok
    obtain rfl := Except.ok.inj hok
    rw [polled, if_neg fun hc => hinit hc.1]
    exact ⟨_, _, _, _, rfl, id, hr, by simpa using h⟩

theorem polled_bound (hr : Sized x.receiver.jumbo) (es : List EfEvent) :
    ∀ pkt ∈ polled x es, (pkt.data (x.common.flag flagGetTiming)).length ≤ jumboSize := by
  unfold polled
  split_ifs
  · intro pkt hpkt
    exact handed_bound hr es _ (List.mem_map_of_mem hpkt)
  · simp

end Iterate

end UdpSm.NetworkReceiverImplementationEFVI
