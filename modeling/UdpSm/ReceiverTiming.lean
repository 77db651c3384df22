import UdpSm.ReceiverPackets

/-! The receiver with the timing flag and without: the packets are the same. -/
namespace UdpSm.NetworkReceiverImplementationEFVI
open Lib Memory RingFIFOBuffer

/-- Receivers at the same point of the same packet; what lies behind the payload may differ. -/
structure Alike (r r' : Receiver) : Prop where
  initialized : r'.initialized = r.initialized
  rxPrefixLen : r'.rxPrefixLen = r.rxPrefixLen
  num : r'.num = r.num
  inPkt : r'.jumbo.inPkt = r.jumbo.inPkt
  payload : r.jumbo.inPkt = true → r'.jumbo.payloadBytes = r.jumbo.payloadBytes ∧
    r'.jumbo.data.load 0 r.jumbo.payloadBytes.toNat = r.jumbo.data.load 0 r.jumbo.payloadBytes.toNat

inductive OutcomeAlike (r r' : Receiver) : Outcome → Outcome → Prop where
  | halted (o : Outcome) : OutcomeAlike r r' .halted o
  | halted' (o : Outcome) : OutcomeAlike r r' o .halted
  | refused : OutcomeAlike r r' .refused .refused
  | kept (j j' : Jumbo) (h : Alike { r with jumbo := j } { r' with jumbo := j' }) :
      OutcomeAlike r r' (.kept j) (.kept j')
  | completed (j j' : Jumbo) (pkt pkt' : Packet) (hpayload : pkt'.payload = pkt.payload)
      (h : Alike { r with jumbo := j } { r' with jumbo := j' }) :
      OutcomeAlike r r' (.completed j pkt) (.completed j' pkt')

section Fragments
variable {r r' : Receiver} {j j' : Jumbo} {ev : RxEvent}

theorem storeFragment_load (hr : Sized r.jumbo) (hstart : ev.sop ≠ r.jumbo.inPkt)
    (h : storeFragment r ev = some j) : j.inPkt = true ∧
      j.payloadBytes = (if ev.sop then ev.bytes - r.rxPrefixLen - udpHeaderLen
        else r.jumbo.payloadBytes +
          (ev.bytes - r.rxPrefixLen - udpHeaderLen - r.jumbo.payloadBytes)) ∧
      j.data.load 0 j.payloadBytes.toNat = if ev.sop then
          (List.range (ev.bytes - r.rxPrefixLen - udpHeaderLen).toNat).map
            fun i => ev.rxPtr (i + udpHeaderLen.toNat)
        else r.jumbo.data.load 0 r.jumbo.payloadBytes.toNat ++
          (List.range (ev.bytes - r.rxPrefixLen - udpHeaderLen - r.jumbo.payloadBytes).toNat).map
            ev.rxPtr := by
  rw [storeFragment] at h
  by_cases hsop : ev.sop = true
  · rw [if_pos hsop] at h ⊢
    simp only [Option.bind_eq_bind, Option.bind_eq_some_iff] at h
    obtain ⟨_, -, _, -, data, hdata, hj⟩ := h
    obtain rfl := Option.some.inj hj
    obtain ⟨-, -, rfl⟩ := Memory.storeAt_some hdata
    refine ⟨rfl, rfl, ?_⟩
    rw [if_pos hsop]
    have hload := load_store_self r.jumbo.data 0
      ((List.range (ev.bytes - r.rxPrefixLen - udpHeaderLen).toNat).map
        fun i => ev.rxPtr (i + udpHeaderLen.toNat))
    rw [List.length_map, List.length_range] at hload
    exact hload
  · rw [if_neg hsop] at h ⊢
    simp only [Option.bind_eq_bind, Option.bind_eq_some_iff] at h
    obtain ⟨_, -, _, -, data, hdata, hj⟩ := h
    obtain rfl := Option.some.inj hj
    obtain ⟨-, hle, rfl⟩ := Memory.storeAt_some hdata
    have hinside : r.jumbo.inPkt = true := by
      cases hin : r.jumbo.inPkt with
      | true => rfl
      | false => exact absurd (by simpa [hin] using hsop) hstart
    refine ⟨hinside, rfl, ?_⟩
    rw [if_neg hsop]
    rw [List.length_map, List.length_range, hr] at hle
    generalize ev.bytes - r.rxPrefixLen - udpHeaderLen - r.jumbo.payloadBytes = length at hle ⊢
    have hsum : (r.jumbo.payloadBytes + length).toNat = r.jumbo.payloadBytes.toNat + length.toNat := by
      rw [UInt32.toNat_add]
      exact Nat.mod_eq_of_lt (by change _ + _ < 4294967296; unfold jumboSize at hle; omega)
    have hload := load_store_self r.jumbo.data r.jumbo.payloadBytes.toNat
      ((List.range length.toNat).map ev.rxPtr)
    rw [List.length_map, List.length_range] at hload
    change (r.jumbo.data.store _ _).load 0 (r.jumbo.payloadBytes + length).toNat = _
    rw [hsum, load_add, Nat.zero_add, Int.toNat_natCast, hload,
      load_store_disjoint _ _ _ _ _ (.inl (by omega))]

theorem Alike.storeFragment (h : Alike r r') (hr : Sized r.jumbo) (hr' : Sized r'.jumbo)
    (hstart : ev.sop ≠ r.jumbo.inPkt) (hj : storeFragment r ev = some j)
    (hj' : NetworkReceiverImplementationEFVI.storeFragment r' ev = some j') :
    j.inPkt = true ∧ j'.inPkt = true ∧ j'.payloadBytes = j.payloadBytes ∧
      j'.data.load 0 j.payloadBytes.toNat = j.data.load 0 j.payloadBytes.toNat := by
  obtain ⟨hin, hbytes, hload⟩ := storeFragment_load hr hstart hj
  obtain ⟨hin', hbytes', hload'⟩ := storeFragment_load hr' (h.inPkt.symm ▸ hstart) hj'
  rw [h.rxPrefixLen] at hbytes' hload'
  have hsame : j'.payloadBytes = j.payloadBytes ∧
      j'.data.load 0 j'.payloadBytes.toNat = j.data.load 0 j.payloadBytes.toNat := by
    rw [hload, hload', hbytes, hbytes']
    by_cases hsop : ev.sop = true
    · rw [if_pos hsop, if_pos hsop, if_pos hsop, if_pos hsop]
      exact ⟨rfl, rfl⟩
    · have hinside : r.jumbo.inPkt = true := by
        cases hpkt : r.jumbo.inPkt with
        | true => rfl
        | false => exact absurd (by simpa [hpkt] using hsop) hstart
      obtain ⟨hpayload, hdata⟩ := h.payload hinside
      rw [if_neg hsop, if_neg hsop, if_neg hsop, if_neg hsop, hpayload, hdata]
      exact ⟨rfl, rfl⟩
  exact ⟨hin, hin', hsame.1, by rw [← hsame.2, hsame.1]⟩

/-- Only the time stamp of the first can find no room. -/
theorem Alike.outcome (h : Alike r r') (hr : Sized r.jumbo) (hr' : Sized r'.jumbo) (timing : Bool)
    (e : EfEvent) : OutcomeAlike r r' (outcome timing r e)
      (NetworkReceiverImplementationEFVI.outcome false r' e) := by
  cases e with
  | rx ev =>
    simp only [NetworkReceiverImplementationEFVI.outcome, h.num, h.inPkt]
    by_cases hid : ev.rqId < r.num
    · by_cases hstart : ev.sop = r.jumbo.inPkt
      · simp only [if_pos hid, if_pos hstart]
        exact .refused
      simp only [if_pos hid, if_neg hstart]
      cases hj : NetworkReceiverImplementationEFVI.storeFragment r ev with
      | none => exact .halted _
      | some j =>
        cases hj' : NetworkReceiverImplementationEFVI.storeFragment r' ev with
        | none => exact .halted' _
        | some j' =>
          obtain ⟨hin, hin', hbytes, hload⟩ := h.storeFragment hr hr' hstart hj hj'
          by_cases hcont : ev.cont = true
          · simp only [if_pos hcont]
            exact .kept j j' ⟨h.initialized, h.rxPrefixLen, h.num, hin'.trans hin.symm,
              fun _ => ⟨hbytes, hload⟩⟩
          · simp only [if_neg hcont]
            cases happend : appendTimestamp timing j ev.tscTimeStamp with
            | none => exact .halted _
            | some v =>
              have happend' : appendTimestamp false j' ev.tscTimeStamp =
                  some (j', j'.payloadBytes) := rfl
              simp only [happend']
              refine .completed _ _ _ _ ?_ ⟨h.initialized, h.rxPrefixLen, h.num, rfl, fun hno => Bool.noConfusion hno⟩
              change j'.data.load 0 j'.payloadBytes.toNat = _
              rw [hbytes, hload]
    · simp only [if_neg hid]
      exact .refused
  | rxDiscard rqId =>
    simp only [NetworkReceiverImplementationEFVI.outcome, h.num]
    split_ifs
    · exact .kept _ _ h
    · exact .halted _
  | other => exact .refused

end Fragments

section Batch
variable {x x' y y' : Context} {R R' : Nat} {q q' : List (List UInt8)}

theorem handleEvents_alike (h : Alike x.receiver x'.receiver) (hr : Sized x.receiver.jumbo)
    (hr' : Sized x'.receiver.jumbo) (htiming : x'.common.flag flagGetTiming = false)
    {es : List EfEvent} {rv rv' : Int} (hok : handleEvents x es = .ok (rv, y))
    (hok' : handleEvents x' es = .ok (rv', y')) : rv' = rv ∧ Alike y.receiver y'.receiver ∧
      (packets false x'.receiver es).map Packet.payload =
        (packets (x.common.flag flagGetTiming) x.receiver es).map Packet.payload := by
  induction es generalizing x x' with
  | nil =>
    obtain ⟨rfl, rfl⟩ := Prod.mk.inj (Except.ok.inj hok)
    obtain ⟨rfl, rfl⟩ := Prod.mk.inj (Except.ok.inj hok')
    exact ⟨rfl, h, rfl⟩
  | cons e es ih =>
    have hfirst := handleEvent_handled hr e
    have hfirst' := handleEvent_handled hr' e
    have halike := h.outcome hr hr' (x.common.flag flagGetTiming) e
    rw [htiming] at hfirst'
    simp only [handleEvents, packets] at hok hok' ⊢
    generalize outcome (x.common.flag flagGetTiming) x.receiver e = o at hfirst halike ⊢
    generalize outcome false x'.receiver e = o' at hfirst' halike ⊢
    generalize handleEvent x e = result at hfirst hok
    generalize handleEvent x' e = result' at hfirst' hok'
    cases halike with
    | halted => cases hfirst; cases hok
    | halted' => cases hfirst'; cases hok'
    | refused =>
      cases hfirst
      cases hfirst'
      obtain ⟨rfl, rfl⟩ := Prod.mk.inj (Except.ok.inj hok)
      obtain ⟨rfl, rfl⟩ := Prod.mk.inj (Except.ok.inj hok')
      exact ⟨rfl, h, rfl⟩
    | kept j j' hj =>
      cases hfirst with
      | kept _ hsized =>
        cases hfirst' with
        | kept _ hsized' =>
          have hnext : Alike { x with receiver.jumbo := j }.receiver
            { x' with receiver.jumbo := j' }.receiver := hj
          exact ih hnext hsized hsized' htiming hok hok'
    | completed j j' pkt pkt' hpayload hj =>
      cases hfirst with
      | completed _ _ hsized hlength =>
        cases hfirst' with
        | completed _ _ hsized' hlength' =>
          cases hw : writeMessage x.ring0 (pkt.data (x.common.flag flagGetTiming)) with
          | error e => simp [hw, Except.map] at hok
          | ok ring0 =>
            cases hw' : writeMessage x'.ring0 (pkt'.data (x'.common.flag flagGetTiming)) with
            | error e => simp [hw', Except.map] at hok'
            | ok ring0' =>
              simp only [hw, hw', Except.map] at hok hok'
              have hnext : Alike (delivered x j ring0).receiver (delivered x' j' ring0').receiver := hj
              obtain ⟨hrv, hend, hpackets⟩ := ih hnext hsized hsized' htiming hok hok'
              refine ⟨hrv, hend, ?_⟩
              rw [List.map_cons, List.map_cons, hpayload]
              exact congrArg _ hpackets

theorem iterate_closed {es : List EfEvent}
    (h : ¬(x.receiver.initialized = true ∧ (getCapacity x.ring0).1 ≥ 16384))
    (hok : iterate x es = .ok y) : y.receiver = x.receiver ∧ y.common = x.common := by
  simp only [iterate] at hok
  split_ifs at hok with hinit hcapacity
  · exact absurd ⟨hinit, hcapacity⟩ h
  · obtain rfl := Except.ok.inj hok
    exact ⟨rfl, rfl⟩
  · obtain rfl := Except.ok.inj hok
    exact ⟨rfl, rfl⟩

theorem iterate_alike (h : Alike x.receiver x'.receiver) (hr : Sized x.receiver.jumbo)
    (hr' : Sized x'.receiver.jumbo) (h0 : Holds x.ring0 R q) (h0' : Holds x'.ring0 R' q')
    (htiming : x'.common.flag flagGetTiming = false)
    (hguard : (getCapacity x'.ring0).1 ≥ 16384 ↔ (getCapacity x.ring0).1 ≥ 16384)
    (hrun : x'.common.applicationRunFlag = x.common.applicationRunFlag) {es : List EfEvent}
    (hok : iterate x es = .ok y) (hok' : iterate x' es = .ok y') : Alike y.receiver y'.receiver ∧
      y'.common.applicationRunFlag = y.common.applicationRunFlag ∧
      (polled x' es).map Packet.payload = (polled x es).map Packet.payload := by
  by_cases hopen : x.receiver.initialized = true ∧ (getCapacity x.ring0).1 ≥ 16384
  · obtain ⟨hinit, hcapacity⟩ := hopen
    have hinit' := h.initialized.trans hinit
    have hcapacity' := hguard.mpr hcapacity
    rw [iterate_of_capacity hinit hcapacity] at hok
    rw [iterate_of_capacity hinit' hcapacity'] at hok'
    cases hevents : handleEvents x es with
    | error e => simp [hevents, Except.map] at hok
    | ok r =>
      cases hevents' : handleEvents x' es with
      | error e => simp [hevents', Except.map] at hok'
      | ok r' =>
        obtain ⟨rv, u⟩ := r
        obtain ⟨rv', u'⟩ := r'
        obtain ⟨rfl, hend, hpackets⟩ := handleEvents_alike h hr hr' htiming hevents hevents'
        obtain ⟨total, jumbo, ring0, rfl, -, -⟩ := handleEvents_ok hr h0 hevents
        obtain ⟨total', jumbo', ring0', rfl, -, -⟩ := handleEvents_ok hr' h0' hevents'
        rw [hevents] at hok
        rw [hevents'] at hok'
        obtain rfl := Except.ok.inj hok
        obtain rfl := Except.ok.inj hok'
        rw [polled, polled, if_pos ⟨hinit', hcapacity'⟩, if_pos ⟨hinit, hcapacity⟩, htiming]
        refine ⟨?_, ?_, hpackets⟩
        · unfold finishEvents
          split_ifs
          · exact hend
          · exact hend
        · unfold finishEvents
          split_ifs
          · rfl
          · exact hrun
  · have hclosed' : ¬(x'.receiver.initialized = true ∧ (getCapacity x'.ring0).1 ≥ 16384) := by
      rw [h.initialized, hguard]
      exact hopen
    obtain ⟨hreceiver, hcommon⟩ := iterate_closed hopen hok
    obtain ⟨hreceiver', hcommon'⟩ := iterate_closed hclosed' hok'
    rw [polled, polled, if_neg hclosed', if_neg hopen, hreceiver, hreceiver', hcommon, hcommon']
    exact ⟨h, hrun, rfl⟩

end Batch

end UdpSm.NetworkReceiverImplementationEFVI
