import UdpSm.Pipeline

/-! What one call can do to the two queues, and that every reachable state keeps them in order. -/
namespace UdpSm.Pipeline
open Lib RingFIFOBuffer InserterImplementation
open ParserImplementation hiding iterate Context constructed
open NetworkReceiverImplementationEFVI (Jumbo Receiver EfEvent Packet Sized jumboSize)

/-- Both rings hold their queues, of frames and messages that the buffers behind them can take. -/
structure Well (s : System) : Prop where
  ring0 : ∃ R, Holds s.context.ring0 R s.frames
  ring1 : ∃ R, Holds s.context.ring1.ringbuf R s.messages
  frames : ∀ F ∈ s.frames, F.length ≤ jumboSize
  messages : ∀ m ∈ s.messages, 30 ≤ m.length ∧ m.length ≤ jumboSize + 8
  jumbo : Sized s.receiver.jumbo

inductive Next (s : System) : Action → System → Prop where
  | receive (events : List EfEvent) (total : UInt64) (run : Bool) (jumbo : Jumbo)
      (ring0 : Ringbuffer) (hrun : run = true → s.common.applicationRunFlag = true)
      (hframes : contents ring0 =
        s.frames ++ (NetworkReceiverImplementationEFVI.polled s.received events).map (Packet.data (s.common.flag flagGetTiming))) :
      Next s (.receive events)
        { s with
          context.common.totalNumberOfReceivedMessages := total
          context.common.applicationRunFlag := run
          context.ring0 := ring0
          receiver.jumbo := jumbo }
  | parse (R : Nat) (x : ParserImplementation.Context) (ht : Turned s.context R s.messages x) :
      Next s .parse { s with context := x }
  | idle (now : UInt64) (hnone : s.messages = []) :
      Next s (.insert now)
        { s with
          inserter := (timed s.common now [] s.inserter).1
          file := s.file.applyAll (turnStores s.common now [] s.inserter) }
  | insert (now : UInt64) (m : List UInt8) (ring : Ringbuffer) (hm : s.messages = m :: contents ring) :
      Next s (.insert now)
        { s with
          context.ring1.ringbuf := ring
          inserter := (timed s.common now m s.inserter).1
          file := s.file.applyAll (turnStores s.common now m s.inserter) }
  | writeTimestamp (now : UInt64) :
      Next s (.writeTimestamp now)
        { s with
          inserter := (writeTimestampToSharedMemory s.common now s.inserter).1
          file := s.file.applyAll (writeTimestampToSharedMemory s.common now s.inserter).2 }
  | readKeyboardInput (key : Option Char) (flags : UInt32) (threshold : Int)
      (hkey : KeyboardReadInput.readKeyboardInput s.common key =
        { s.common with configurationFlags := flags, configThreshold := threshold }) :
      Next s (.readKeyboardInput key)
        { s with
          context.common.configurationFlags := flags
          context.common.configThreshold := threshold }

theorem sizes_of_good {f : Nat → UInt8} {n count o : Nat} (h : GoodBlocks f n count o) (timing : Bool) :
    ∀ a ∈ walk timing f n count o, 30 ≤ a.2 ∧ a.2 ≤ n + 8 := by
  induction count generalizing o with
  | zero => simp [walk]
  | succ count ih =>
    intro a ha
    rw [walk, if_pos h.1] at ha
    cases ha with
    | head =>
      have h28 : 28 ≤ (headerLength f o).toNat := by
        cases h.1.2.2.1 with
        | inl h32 => rw [h32]; decide
        | inr h28 => rw [h28]; decide
      have hl := h.1.1
      have hn := h.1.2.1
      unfold block
      simp only []
      split_ifs <;> omega
    | tail _ ha => exact ih h.2 a ha

theorem frameBlocks_sizes {y : ParserImplementation.Context} (h : Good y) :
    ∀ m ∈ frameBlocks y, 30 ≤ m.length ∧ m.length ≤ y.parser.payloadBytesReceived.toNat + 8 := by
  intro m hm
  obtain ⟨a, ha, rfl⟩ := List.mem_map.mp hm
  rw [slice, List.length_map, List.length_range]
  exact sizes_of_good h _ a ha

theorem frameLength_le (timing : Bool) (n : Nat) : frameLength timing n ≤ n := by
  unfold frameLength
  split_ifs <;> omega

theorem map_ok {α β : Type} {f : α → β} {e : Except Halt α} {b : β} (h : e.map f = .ok b) :
    ∃ a, e = .ok a ∧ f a = b := by
  cases e with
  | error e => cases h
  | ok a => exact ⟨a, rfl, Except.ok.inj h⟩

theorem ok_of_toOption {α : Type} {e : Except Halt α} {a : α} (h : e.toOption = some a) : e = .ok a := by
  cases e with
  | error e => cases h
  | ok a => exact congrArg Except.ok (Option.some.inj h)

theorem performAll_run {s t : System} {as : List Action} {cs : List Call}
    (h : performAll s as = .ok (t, cs)) : Run Step s cs t ∧ cs.map Call.action = as := by
  induction as generalizing s cs with
  | nil =>
    obtain ⟨rfl, rfl⟩ := Prod.mk.inj (Except.ok.inj h)
    exact ⟨.nil, rfl⟩
  | cons a as ih =>
    rw [performAll] at h
    cases hok : perform s a with
    | error e => simp [hok] at h
    | ok s' =>
      simp only [hok] at h
      obtain ⟨r, hr, heq⟩ := map_ok h
      obtain ⟨rfl, rfl⟩ := Prod.mk.inj heq
      have hfirst : Run Step s [⟨s, a⟩] s' := Run.single ⟨rfl, hok⟩
      obtain ⟨hrest, hactions⟩ := ih hr
      exact ⟨hfirst.append hrest, congrArg (a :: ·) hactions⟩

theorem exists_run {α : Type} {s : System} (as : List Action) (look : System × List Call → α) {v : α}
    (h : (performAll s as).toOption.map look = some v) :
    ∃ cs t, Run Step s cs t ∧ look (t, cs) = v := by
  obtain ⟨r, hr, hlook⟩ := Option.map_eq_some_iff.mp h
  exact ⟨r.2, r.1, (performAll_run (ok_of_toOption hr)).1, hlook⟩

theorem exists_perform {α : Type} {s : System} (as : List Action) (a : Action)
    (look : System → System → α) {v : α}
    (h : ((performAll s as).toOption.bind fun r => (perform r.1 a).toOption.map (look r.1)) = some v) :
    ∃ cs t t', Run Step s cs t ∧ perform t a = .ok t' ∧ look t t' = v := by
  obtain ⟨r, hr, haction⟩ := Option.bind_eq_some_iff.mp h
  obtain ⟨t', ht, hlook⟩ := Option.map_eq_some_iff.mp haction
  exact ⟨r.2, r.1, t', (performAll_run (ok_of_toOption hr)).1, ok_of_toOption ht, hlook⟩

section Step
variable {s s' : System} {a : Action}

theorem Well.receive (h : Well s) {events : List EfEvent}
    (hok : perform s (.receive events) = .ok s') : Well s' ∧ Next s (.receive events) s' := by
  obtain ⟨R, h0⟩ := h.ring0
  obtain ⟨x, hx, rfl⟩ := map_ok hok
  obtain ⟨total, run, jumbo, ring0, rfl, hrun, hsized, hholds⟩ :=
    NetworkReceiverImplementationEFVI.iterate_ok (x := s.received) h.jumbo h0 hx
  have hframes := hholds.contents_eq
  refine ⟨⟨⟨R, ?_⟩, h.ring1, ?_, h.messages, hsized⟩, ?_⟩
  · rw [System.frames, hframes]
    exact hholds
  · intro F hF
    rw [System.frames, hframes] at hF
    obtain hF | hF := List.mem_append.mp hF
    · exact h.frames F hF
    · obtain ⟨pkt, hpkt, rfl⟩ := List.mem_map.mp hF
      exact NetworkReceiverImplementationEFVI.polled_bound (x := s.received) h.jumbo events pkt hpkt
  · exact .receive events total run jumbo ring0 hrun hframes

theorem Well.parse (h : Well s) (hok : perform s .parse = .ok s') : Well s' ∧ Next s .parse s' := by
  obtain ⟨R0, h0⟩ := h.ring0
  obtain ⟨R, h1⟩ := h.ring1
  obtain ⟨x, hx, rfl⟩ := map_ok hok
  have hturned := iterate_turned h0 h1 hx
  refine ⟨?_, .parse R x hturned⟩
  cases hturned with
  | idle hnone d n p hsnap hptr =>
    have hp := holds_of_kept h1 hsnap hptr
    have hmessages : contents p = s.messages := hp.contents_eq
    refine ⟨⟨R0, h0⟩, ⟨R, ?_⟩, h.frames, ?_, h.jumbo⟩
    · rw [System.messages, hmessages]
      exact hp
    · rw [System.messages, hmessages]
      exact h.messages
  | frame F ring0 hsome hrun hcapacity hlength hframes hring ht =>
    have hqueue := ht.holds h1
    have hmessages := hqueue.contents_eq
    refine ⟨?_, ⟨R, ?_⟩, ?_, ?_, h.jumbo⟩
    · rw [System.frames, ht.kept.1]
      exact hring
    · rw [System.messages, hmessages]
      exact hqueue
    · intro G hG
      rw [System.frames, ht.kept.1] at hG
      exact h.frames G (by rw [System.frames, hframes]; exact List.mem_cons_of_mem F hG)
    · intro m hm
      rw [System.messages, hmessages] at hm
      split_ifs at hm with haccepted
      · obtain hm | hm := List.mem_append.mp hm
        · exact h.messages m hm
        · obtain ⟨hmin, hmax⟩ := frameBlocks_sizes haccepted.2 m hm
          rw [received_length _ _ hlength] at hmax
          have hle := frameLength_le (s.context.common.flag flagGetTiming) F.length
          have hF : F.length ≤ jumboSize := h.frames F (by rw [System.frames, hframes]; simp)
          exact ⟨hmin, by omega⟩
      · exact h.messages m hm

theorem Well.insert (h : Well s) {now : UInt64} (hok : perform s (.insert now) = .ok s') :
    Well s' ∧ Next s (.insert now) s' := by
  obtain ⟨R, h1⟩ := h.ring1
  cases hq : s.messages with
  | nil =>
    rw [hq] at h1
    simp only [perform, iterate_empty s.common now s.inserter h1] at hok
    obtain rfl := Except.ok.inj hok
    exact ⟨⟨h.ring0, h.ring1, h.frames, h.messages, h.jumbo⟩, .idle now hq⟩
  | cons m q =>
    rw [hq] at h1
    obtain ⟨ring, hiterate, -, hrest⟩ := iterate_cons s.common now s.inserter h1
    have hcontents := hrest.contents_eq
    simp only [perform, hiterate] at hok
    obtain rfl := Except.ok.inj hok
    have hring : ∃ R, Holds ring R (contents ring) := ⟨_, hcontents.symm ▸ hrest⟩
    refine ⟨⟨h.ring0, hring, h.frames, ?_, h.jumbo⟩, .insert now m ring (by rw [hq, hcontents])⟩
    intro n hn
    rw [System.messages, hcontents] at hn
    exact h.messages n (by rw [hq]; exact List.mem_cons_of_mem m hn)

/-- What a call does, and that it keeps the rings in order. -/
theorem Well.next (h : Well s) (hok : perform s a = .ok s') : Well s' ∧ Next s a s' := by
  cases a with
  | receive events => exact h.receive hok
  | parse => exact h.parse hok
  | insert now => exact h.insert hok
  | writeTimestamp now =>
    obtain rfl := Except.ok.inj hok
    exact ⟨⟨h.ring0, h.ring1, h.frames, h.messages, h.jumbo⟩, .writeTimestamp now⟩
  | readKeyboardInput key =>
    obtain ⟨flags, threshold, hkey⟩ := KeyboardReadInput.readKeyboardInput_kept s.common key
    obtain rfl := Except.ok.inj hok
    rw [hkey]
    exact ⟨⟨h.ring0, h.ring1, h.frames, h.messages, h.jumbo⟩,
      .readKeyboardInput key flags threshold hkey⟩

end Step

theorem initial_frames (u : Unset) : (initial u).frames = [] := holds_initial.contents_eq
theorem initial_messages (u : Unset) : (initial u).messages = [] := holds_initial.contents_eq

theorem well_initial (u : Unset) : Well (initial u) := by
  constructor
  · exact ⟨0, by rw [initial_frames]; exact holds_initial⟩
  · exact ⟨0, by rw [initial_messages]; exact holds_initial⟩
  · simp [initial_frames]
  · simp [initial_messages]
  · rfl

theorem run_invariant {u : Unset} {cs : List Call} {s : System} (Inv : List Call → System → Prop)
    (h0 : Inv [] (initial u))
    (hstep : ∀ cs s c s', Well s → Inv cs s → c.before = s → perform s c.action = .ok s' →
      Next s c.action s' → Inv (cs ++ [c]) s')
    (h : Run Step (initial u) cs s) : Well s ∧ Inv cs s := by
  refine Run.invariant (fun cs s => Well s ∧ Inv cs s) ⟨well_initial u, h0⟩ ?_ h
  rintro cs s c s' ⟨hwell, hinv⟩ ⟨hbefore, hok⟩
  obtain ⟨hwell', hnext⟩ := hwell.next hok
  exact ⟨hwell', hstep cs s c s' hwell hinv hbefore hok hnext⟩

end UdpSm.Pipeline
