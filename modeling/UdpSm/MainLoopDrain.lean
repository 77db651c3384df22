import UdpSm.ParserCapacity
import UdpSm.PipelineConservation
import UdpSm.PipelineSequence
import UdpSm.UDPJubmoFrameReceiverImplementation

/-! The main loop in a session when nothing more comes in: it empties both queues. -/
namespace UdpSm.ParserImplementation
open Lib RingFIFOBuffer

/-- A frame for which the room behind the guard of the parser always suffices. -/
def Modest (timing : Bool) (F : List UInt8) : Prop :=
  (payload timing F).length < 36 ∨
    (payload timing F).length ≤ 2048 ∧ ∃ blocks, Grammar (payload timing F) blocks

section Modest
variable {x : Context} {F : List UInt8} {ring0 : Ringbuffer} {R R0 : Nat} {q q0 : List (List UInt8)}

theorem walk_length_le (timing : Bool) (f : Nat → UInt8) (n count o : Nat) :
    (walk timing f n count o).length ≤ count := by
  induction count generalizing o with
  | zero => exact Nat.le_refl 0
  | succ count ih =>
    have hrest := ih (o + declared f o)
    rw [walk, List.length_cons]
    split_ifs
    · omega
    · simp

theorem frameBlocks_length_le (hn : F.length < 2 ^ 29) (ha : Accepted (received x F ring0)) :
    (frameBlocks (received x F ring0)).length ≤ ofBe ((F.drop 18).take 2) := by
  have h36 := ha.1.1
  have hle : frameLength (x.common.flag flagGetTiming) F.length ≤ F.length := by
    unfold frameLength
    split_ifs <;> omega
  rw [received_length x ring0 hn] at h36
  obtain ⟨-, hcount⟩ := header_fields x.parser.parserReceivedDataPtr (F := F) (by omega)
  rw [frameBlocks, List.length_map, hcount]
  exact walk_length_le ..

theorem Modest.room (h : Modest (x.common.flag flagGetTiming) F) (hn : F.length < 2 ^ 29)
    (hp : Parsed (received x F ring0)) (hring : Holds x.ring1.ringbuf R q)
    (hguard : (getCapacity x.ring1.ringbuf).1 ≥ 16384) :
    Room (received x F ring0) (queueEnd x.ring1.ringbuf.ptr.size R q) := by
  have hlength := received_length x ring0 hn
  have h36 : 36 ≤ frameLength (x.common.flag flagGetTiming) F.length := hlength ▸ hp.1
  obtain hshort | ⟨hsmall, hgrammar⟩ := h
  · rw [payload_length] at hshort
    omega
  · rw [payload_length] at hsmall
    have hgood := ((good_iff_grammar x ring0 hn h36).mpr hgrammar).2
    have hle := hgood.footprint_le x.ring1.ringbuf.ptr.size
      (queueEnd x.ring1.ringbuf.ptr.size R q)
    rw [hlength] at hle
    rw [hring.getCapacity_eq] at hguard
    change (advanceAll x.ring1.ringbuf.ptr.size _ _ : Int) ≤ writeLimit x.ring1.ringbuf _
    rw [writeLimit]
    omega

theorem iterate_returns_or_spins (h0 : Holds x.ring0 R0 q0) (h : Holds x.ring1.ringbuf R q) :
    (∃ x', (iterate x).2 = .ok x') ∨ (iterate x).2 = .error .spins ∧
      ∃ F ∈ q0, ¬Modest (x.common.flag flagGetTiming) F := by
  by_cases hguard : (getCapacity x.ring1.ringbuf).1 ≥ 16384
  · rw [iterate_of_capacity hguard]
    by_cases hrun : Running x
    · cases q0 with
      | nil =>
        obtain ⟨d, n, heq⟩ := iterateInternal_idle h0
        exact .inl ⟨_, heq⟩
      | cons F q0 =>
        obtain ⟨ring0, hread, -, -⟩ := h0.read_cons
        obtain ⟨h1, hn⟩ := h0.lengths F (by simp)
        by_cases hroom : Parsed (received x F ring0) →
            Room (received x F ring0) (queueEnd x.ring1.ringbuf.ptr.size R q)
        · exact .inl ((iterateInternal_returns hrun hread h1 hn h).mpr hroom)
        · obtain ⟨hp, hfull⟩ := Classical.not_imp.mp hroom
          exact .inr ⟨iterateInternal_spins hrun hread h1 hn h hp hfull, F, by simp,
            fun hmodest => hfull (hmodest.room hn hp h hguard)⟩
    · have hrun' : ¬(x.common.applicationRunFlag = true ∧ x.common.commonFlagConnected = true) := hrun
      refine .inl ⟨{ x with parser.discardFrame := 0 }, ?_⟩
      simp only [iterateInternal, if_neg hrun']
  · refine .inl ⟨{ x with ring1.ringbuf := (getCapacity x.ring1.ringbuf).2 }, ?_⟩
    simp only [iterate]
    rw [if_neg hguard]

end Modest

end UdpSm.ParserImplementation

namespace UdpSm.KeyboardReadInput

theorem toggle_timing (c : CommonData) {mask : UInt32} (hmask : mask &&& flagGetTiming = 0) :
    (toggle c mask).flag flagGetTiming = c.flag flagGetTiming := by
  rw [CommonData.flag, CommonData.flag]
  simp only [toggle, xor_and, hmask, UInt32.xor_zero]

theorem readKeyboardInput_timing (c : CommonData) {key : Option Char} (hkey : key ≠ some 'T') :
    (readKeyboardInput c key).flag flagGetTiming = c.flag flagGetTiming := by
  unfold readKeyboardInput
  split
  case h_11 => exact absurd rfl hkey
  all_goals first | rfl | exact toggle_timing c (by decide)

end UdpSm.KeyboardReadInput

namespace UdpSm.Pipeline
open Lib RingFIFOBuffer
open ParserImplementation hiding iterate Context constructed

/-- The turns that the two queues ask for: one for each message that waits, and for each frame one
and those of the messages that it announces. -/
def System.owed (s : System) : Nat :=
  s.messages.length + (s.frames.map fun F => 1 + ofBe ((F.drop 18).take 2)).sum

/-- The program runs and is connected, and ring buffer 1 has room for a frame when it is empty. -/
structure Serving (s : System) : Prop where
  well : Well s
  size : 16384 ≤ s.context.ring1.ringbuf.ptr.size
  running : Running s.context

section Calls
variable {s s' : System} {a : Action} {now : UInt64}

theorem ring1_size (hwell : Well s) (hok : perform s a = .ok s') :
    s'.context.ring1.ringbuf.ptr.size = s.context.ring1.ringbuf.ptr.size := by
  obtain ⟨R0, h0⟩ := hwell.ring0
  obtain ⟨R, h1⟩ := hwell.ring1
  cases a with
  | receive events =>
    obtain ⟨x, -, rfl⟩ := map_ok hok
    rfl
  | parse =>
    obtain ⟨x, hx, rfl⟩ := map_ok hok
    cases iterate_turned h0 h1 hx with
    | idle hnone d n p hsnap hptr => exact congrArg Memory.size hptr
    | frame F ring0 hsome hrun hcapacity hlength hframes hring ht => exact ht.kept.2.2.2.1
  | insert now =>
    cases hq : s.messages with
    | nil =>
      rw [hq] at h1
      simp only [perform, InserterImplementation.iterate_empty s.common now s.inserter h1] at hok
      obtain rfl := Except.ok.inj hok
      rfl
    | cons m q =>
      rw [hq] at h1
      obtain ⟨ring, hiterate, hptr, -⟩ := InserterImplementation.iterate_cons s.common now s.inserter h1
      simp only [perform, hiterate] at hok
      obtain rfl := Except.ok.inj hok
      exact congrArg Memory.size hptr
  | writeTimestamp now =>
    obtain rfl := Except.ok.inj hok
    rfl
  | readKeyboardInput key =>
    obtain rfl := Except.ok.inj hok
    rfl

theorem serving_size {u : Unset} {cs : List Call} (h : Run Step (initial u) cs s) :
    16384 ≤ s.context.ring1.ringbuf.ptr.size := by
  refine (run_invariant (fun _ s => 16384 ≤ s.context.ring1.ringbuf.ptr.size) ?_ ?_ h).2
  · have hsize : (initial u).context.ring1.ringbuf.ptr.size = 2097152 := initial_ring.2.2
    rw [hsize]
    decide
  · intro cs s c s' hwell hsize hbefore hok hnext
    rwa [ring1_size hwell hok]

theorem Serving.insert (h : Serving s) (now : UInt64) : ∃ s', perform s (.insert now) = .ok s' ∧
    Serving s' ∧ s'.common = s.common ∧ s'.frames = s.frames ∧ s'.messages = s.messages.tail := by
  obtain ⟨R, h1⟩ := h.well.ring1
  have hreturns : ∃ s', perform s (.insert now) = .ok s' := by
    cases hq : s.messages with
    | nil =>
      rw [hq] at h1
      simp only [perform, InserterImplementation.iterate_empty s.common now s.inserter h1]
      exact ⟨_, rfl⟩
    | cons m q =>
      rw [hq] at h1
      obtain ⟨ring, hiterate, -, -⟩ := InserterImplementation.iterate_cons s.common now s.inserter h1
      simp only [perform, hiterate]
      exact ⟨_, rfl⟩
  obtain ⟨s', hok⟩ := hreturns
  obtain ⟨hwell, hnext⟩ := h.well.next hok
  have hsize := ring1_size h.well hok
  refine ⟨s', hok, ?_⟩
  cases hnext with
  | idle now hnone => exact ⟨⟨hwell, hsize ▸ h.size, h.running⟩, rfl, rfl, by rw [hnone]; exact hnone⟩
  | insert now m ring hm => exact ⟨⟨hwell, hsize ▸ h.size, h.running⟩, rfl, rfl, by rw [hm]; rfl⟩

theorem Serving.receive (h : Serving s) : ∃ s', perform s (.receive []) = .ok s' ∧ Serving s' ∧
    s'.common = s.common ∧ s'.frames = s.frames ∧ s'.messages = s.messages := by
  have hreturns : ∃ ring0, perform s (.receive []) = .ok { s with context.ring0 := ring0 } := by
    simp only [perform, NetworkReceiverImplementationEFVI.iterate]
    split_ifs
    · exact ⟨_, rfl⟩
    · exact ⟨_, rfl⟩
    · exact ⟨_, rfl⟩
  obtain ⟨ring0, hok⟩ := hreturns
  obtain ⟨hwell, hnext⟩ := h.well.next hok
  have hframes := step_frames (c := ⟨s, .receive []⟩) rfl hnext
  have hnothing : Call.handed ⟨s, .receive []⟩ = [] := by
    simp only [Call.handed, Call.packets, NetworkReceiverImplementationEFVI.polled]
    split_ifs <;> rfl
  rw [hnothing, List.append_nil] at hframes
  exact ⟨_, hok, ⟨hwell, h.size, h.running⟩, rfl, hframes, rfl⟩

theorem Serving.parse (h : Serving s) :
    perform s .parse = .error .spins ∧ (∃ F ∈ s.frames, ¬Modest (s.common.flag flagGetTiming) F) ∨
    ∃ s', perform s .parse = .ok s' ∧ Serving s' ∧
      s'.common.configurationFlags = s.common.configurationFlags := by
  obtain ⟨R0, h0⟩ := h.well.ring0
  obtain ⟨R, h1⟩ := h.well.ring1
  obtain ⟨x, hx⟩ | ⟨hspins, hlarge⟩ := iterate_returns_or_spins h0 h1
  · have hok : perform s .parse = .ok { s with context := x } := by
      rw [perform, hx]
      rfl
    obtain ⟨hrun, hconnected, hflags⟩ : x.common.applicationRunFlag = s.common.applicationRunFlag ∧
        x.common.commonFlagConnected = s.common.commonFlagConnected ∧
        x.common.configurationFlags = s.common.configurationFlags := by
      cases iterate_turned h0 h1 hx with
      | idle hnone d n p hsnap hptr => exact ⟨rfl, rfl, rfl⟩
      | frame F ring0 hsome hrun hcapacity hlength hframes hring ht =>
        obtain ⟨-, -, -, -, hrun, hconnected, hflags, -⟩ := ht.kept
        exact ⟨hrun, hconnected, hflags⟩
    refine .inr ⟨_, hok, ⟨(h.well.next hok).1, ?_, hrun.trans h.running.1,
      hconnected.trans h.running.2⟩, hflags⟩
    rw [ring1_size h.well hok]
    exact h.size
  · refine .inl ⟨?_, hlarge⟩
    rw [perform, hspins]
    rfl

/-- The parser takes a frame for the blocks that it announced, and takes one if nothing waits for
the inserter. -/
theorem Serving.parse_owed (h : Serving s) (hok : perform s .parse = .ok s') :
    s'.owed ≤ s.owed ∧ (s.messages = [] → s'.owed ≤ s.owed - 1) ∧
      ∀ F ∈ s'.frames, F ∈ s.frames := by
  have hnext := (h.well.next hok).2
  have hframes : Call.taken ⟨s, .parse⟩ ++ s'.frames = s.frames ++ [] :=
    step_frames (c := ⟨s, .parse⟩) rfl hnext
  have hmessages : s'.messages = s.messages ++ Call.queued ⟨s, .parse⟩ :=
    step_messages (c := ⟨s, .parse⟩) h.well rfl hnext
  rw [List.append_nil] at hframes
  cases hF : takenFrame s.context with
  | none =>
    rw [Call.taken_none hF, List.nil_append] at hframes
    rw [Call.queued_none hF, List.append_nil] at hmessages
    have howed : s'.owed = s.owed := by rw [System.owed, System.owed, hframes, hmessages]
    refine ⟨Nat.le_of_eq howed, fun hempty => ?_, fun F hF => hframes ▸ hF⟩
    have hsize := h.size
    obtain ⟨R, h1⟩ := h.well.ring1
    have hidle := h1.idle hempty
    have hcapacity : (getCapacity s.context.ring1.ringbuf).1 ≥ 16384 := by
      rw [h1.getCapacity_eq, hidle]
      omega
    rw [takenFrame, if_pos ⟨hcapacity, h.running⟩] at hF
    have hnone : s.frames = [] := List.head?_eq_none_iff.mp hF
    rw [howed, System.owed, hempty, hnone]
    exact Nat.le_refl 0
  | some F =>
    have hn := takenFrame_short h.well hF
    have hblocks : (blocksFor s.context F).length ≤ ofBe ((F.drop 18).take 2) := by
      unfold blocksFor
      split_ifs with ha
      · exact frameBlocks_length_le hn ha
      · exact Nat.zero_le _
    rw [Call.taken_some hF] at hframes
    rw [Call.queued_some hF] at hmessages
    have howed : s'.owed + 1 ≤ s.owed := by
      rw [System.owed, System.owed, hmessages, ← hframes]
      simp only [List.length_append, List.map_append, List.map_cons, List.map_nil, List.sum_append,
        List.sum_cons, List.sum_nil]
      omega
    refine ⟨by omega, fun _ => by omega, fun G hG => ?_⟩
    rw [← hframes]
    exact List.mem_append_right _ hG

theorem Serving.readKeyboardInput (h : Serving s) {key : Option Char} (hkey : key ≠ some 'T') :
    ∃ s', perform s (.readKeyboardInput key) = .ok s' ∧ Serving s' ∧ s'.frames = s.frames ∧
      s'.messages = s.messages ∧
      s'.common.flag flagGetTiming = s.common.flag flagGetTiming := by
  obtain ⟨flags, threshold, hkept⟩ := KeyboardReadInput.readKeyboardInput_kept s.common key
  have hflag := KeyboardReadInput.readKeyboardInput_timing s.common hkey
  have hwell := (h.well.next (a := .readKeyboardInput key) rfl).1
  refine ⟨_, rfl, ⟨hwell, h.size, ?_⟩, rfl, rfl, hflag⟩
  change (KeyboardReadInput.readKeyboardInput s.common key).applicationRunFlag = true ∧
    (KeyboardReadInput.readKeyboardInput s.common key).commonFlagConnected = true
  rw [hkept]
  exact h.running

end Calls

end UdpSm.Pipeline

namespace UdpSm.UDPJubmoFrameReceiverImplementation
open Lib Pipeline InserterImplementation
open ParserImplementation (Modest emptyBlock block_emptyBlock grammar_frameOf oneMessageFrame
  payload_untimed)
open NetworkReceiverImplementationEFVI (packetEvent)

section Quiet
variable {u : Unset} {rs : List Round} {p : Program} {t : Turn} {ts : List Turn}

theorem quiet_turn (h : Serving p.system) (hin : p.streamState = .inSession) (hquiet : t.events = [])
    (hkey : t.key ≠ some 'T') :
    iterate p t = .error .spins ∧
      (∃ F ∈ p.system.frames, ¬Modest (p.system.common.flag flagGetTiming) F) ∨
    ∃ p' cs, iterate p t = .ok (p', cs) ∧ p'.streamState = .inSession ∧ Serving p'.system ∧
      p'.system.owed ≤ p.system.owed - 1 ∧ (∀ F ∈ p'.system.frames, F ∈ p.system.frames) ∧
      p'.system.common.flag flagGetTiming = p.system.common.flag flagGetTiming := by
  obtain ⟨s, streamState⟩ := p
  obtain rfl : streamState = .inSession := hin
  have h : Serving s := h
  have hrun : s.common.applicationRunFlag = true ∧ s.common.commonFlagConnected = true := h.running
  obtain ⟨s1, h1, hs1, hcommon1, hframes1, hmessages1⟩ := h.insert t.now
  obtain ⟨s2, h2, hs2, hcommon2, hframes2, hmessages2⟩ := hs1.receive
  have hcommon := hcommon2.trans hcommon1
  have hframes := hframes2.trans hframes1
  simp only [iterate, if_pos hrun, performAll, h1, hquiet, h2]
  obtain ⟨hspins, F, hF, hlarge⟩ | ⟨s3, h3, hs3, hflags⟩ := hs2.parse
  · refine .inl ⟨?_, F, hframes ▸ hF, hcommon ▸ hlarge⟩
    rw [hspins]
    rfl
  · obtain ⟨s4, h4, hs4, hframes4, hmessages4, htiming⟩ := hs3.readKeyboardInput hkey
    obtain ⟨hle, hless, hsub⟩ := hs2.parse_owed h3
    simp only [h3, h4]
    refine .inr ⟨_, _, rfl, rfl, hs4, ?_, fun F hF => hframes ▸ hsub F (hframes4 ▸ hF), ?_⟩
    · have howed4 : s4.owed = s3.owed := by rw [System.owed, System.owed, hframes4, hmessages4]
      have howed2 : s2.owed = s.owed - min 1 s.messages.length := by
        rw [System.owed, System.owed, hframes, hmessages2.trans hmessages1, List.length_tail]
        omega
      change s4.owed ≤ s.owed - 1
      cases hq : s.messages with
      | nil =>
        have hempty : s2.messages = [] := by rw [hmessages2.trans hmessages1, hq]; rfl
        have hless := hless hempty
        rw [hq] at howed2
        simp only [List.length_nil] at howed2
        omega
      | cons m q =>
        rw [hq] at howed2
        simp only [List.length_cons] at howed2
        omega
    · rw [htiming]
      change (s3.common.configurationFlags &&& flagGetTiming != 0) = _
      rw [hflags, hcommon]
      rfl

theorem quiet_turns (h : Serving p.system) (hin : p.streamState = .inSession)
    (hquiet : ∀ t ∈ ts, t.events = []) (hkeys : ∀ t ∈ ts, t.key ≠ some 'T') :
    iterateAll p ts = .error .spins ∧
      (∃ F ∈ p.system.frames, ¬Modest (p.system.common.flag flagGetTiming) F) ∨
    ∃ p' rs, iterateAll p ts = .ok (p', rs) ∧ Serving p'.system ∧
      p'.system.owed ≤ p.system.owed - ts.length := by
  induction ts generalizing p with
  | nil => exact .inr ⟨p, [], rfl, h, Nat.le_refl _⟩
  | cons t ts ih =>
    rw [iterateAll]
    obtain ⟨hspins, hlarge⟩ | ⟨p', cs, hok, hin', h', howed, hsub, htiming⟩ :=
      quiet_turn h hin (hquiet t (by simp)) (hkeys t (by simp))
    · exact .inl ⟨by rw [hspins], hlarge⟩
    · simp only [hok]
      obtain ⟨hspins, F, hF, hlarge⟩ | ⟨p'', rs, hall, h'', hrest⟩ := ih h' hin'
        (fun t ht => hquiet t (List.mem_cons_of_mem _ ht))
        fun t ht => hkeys t (List.mem_cons_of_mem _ ht)
      · exact .inl ⟨by rw [hspins]; rfl, F, hsub F hF, htiming ▸ hlarge⟩
      · refine .inr ⟨p'', _, by rw [hall]; rfl, h'', ?_⟩
        rw [List.length_cons]
        omega

theorem owed_zero {s : System} (h : s.owed = 0) : s.frames = [] ∧ s.messages = [] := by
  unfold System.owed at h
  constructor
  · cases hF : s.frames with
    | nil => rfl
    | cons F frames =>
      rw [hF, List.map_cons, List.sum_cons] at h
      omega
  · exact List.length_eq_zero_iff.mp (by omega)

/-- In a session in which nothing more comes in, turns enough for what waits empty both queues, and
each queued message has its record then; short of that only a frame that is not modest can stop
the loop. -/
theorem quiet_turns_drain (h : Run Turned (start u) rs p) (hin : p.streamState = .inSession)
    (hrun : p.system.common.applicationRunFlag = true)
    (hconnected : p.system.common.commonFlagConnected = true) (hquiet : ∀ t ∈ ts, t.events = [])
    (hkeys : ∀ t ∈ ts, t.key ≠ some 'T') (hlong : p.system.owed ≤ ts.length) :
    iterateAll p ts = .error .spins ∧
      (∃ F ∈ p.system.frames, ¬Modest (p.system.common.flag flagGetTiming) F) ∨
    ∃ p' rs', iterateAll p ts = .ok (p', rs') ∧ p'.system.frames = [] ∧ p'.system.messages = [] ∧
      taken (calls (rs ++ rs')) = handed (calls (rs ++ rs')) ∧
      consumed (calls (rs ++ rs')) = queued (calls (rs ++ rs')) ∧
      (published (calls (rs ++ rs'))).length = (queued (calls (rs ++ rs'))).length := by
  have hloop := loop_run h
  have hserving : Serving p.system := by
    refine ⟨?_, serving_size hloop, hrun, hconnected⟩
    exact (run_invariant (fun _ _ => True) trivial (fun _ _ _ _ _ _ _ _ _ => trivial) hloop).1
  obtain hspins | ⟨p', rs', hok, -, howed⟩ := quiet_turns hserving hin hquiet hkeys
  · exact .inl hspins
  · obtain ⟨hframes, hmessages⟩ := owed_zero (s := p'.system) (by omega)
    have hwhole := loop_run (h.append (iterateAll_run hok))
    obtain ⟨htaken, hconsumed⟩ := run_queues hwhole
    rw [hframes, List.append_nil] at htaken
    rw [hmessages, List.append_nil] at hconsumed
    refine .inr ⟨p', rs', hok, hframes, hmessages, htaken, hconsumed, ?_⟩
    rw [← hconsumed, published, consumed, List.length_flatMap, List.length_flatMap]
    exact congrArg List.sum (List.map_congr_left fun c _ => published_length c)

theorem quiet_turns_drain_two_frames : ∃ rs p p' rs', Run Turned (start blank) rs p ∧
    p.system.frames = [oneMessageFrame] ∧ p.system.messages = [emptyBlock] ∧
    iterateAll p (List.replicate 3 ⟨[], 0, none⟩) = .ok (p', rs') ∧
    p'.system.frames = [] ∧ p'.system.messages = [] ∧
    (published (calls (rs ++ rs'))).length = (queued (calls (rs ++ rs'))).length := by
  obtain ⟨rs, p, hrun, hlook⟩ := exists_loop (p := start blank)
    [⟨[packetEvent oneMessageFrame, packetEvent oneMessageFrame], 0, none⟩, ⟨[], 0, none⟩,
      ⟨[], 0, none⟩]
    (fun r => (r.1.streamState, [r.1.system.common.applicationRunFlag,
      r.1.system.common.commonFlagConnected, r.1.system.common.flag flagGetTiming],
      r.1.system.frames, r.1.system.messages))
    (v := (.inSession, [true, true, false], [oneMessageFrame], [emptyBlock])) (by decide +kernel)
  simp only [Prod.mk.injEq, List.cons.injEq, and_true] at hlook
  obtain ⟨hin, ⟨happlication, hconnected, htiming⟩, hframes, hmessages⟩ := hlook
  have howed : p.system.owed = 3 := by
    rw [System.owed, hframes, hmessages]
    decide
  have hmodest : Modest false oneMessageFrame := by
    refine .inr ⟨by decide, [emptyBlock], ?_⟩
    rw [payload_untimed]
    refine grammar_frameOf 0 1 rfl (by decide) (by decide) fun b hb => ?_
    rw [List.mem_singleton.mp hb]
    exact block_emptyBlock
  have hlong : p.system.owed ≤ (List.replicate 3 (⟨[], 0, none⟩ : Turn)).length := by
    rw [howed]
    decide
  have hdrains := quiet_turns_drain hrun hin happlication hconnected
    (fun t ht => by rw [List.eq_of_mem_replicate ht])
    (fun t ht => by rw [List.eq_of_mem_replicate ht]; simp) hlong
  obtain ⟨-, F, hF, hlarge⟩ | ⟨p', rs', hok, hframes', hmessages', -, -, hlength⟩ := hdrains
  · rw [hframes] at hF
    rw [htiming, List.mem_singleton.mp hF] at hlarge
    exact absurd hmodest hlarge
  · exact ⟨rs, p, p', rs', hrun, hframes, hmessages, hok, hframes', hmessages', hlength⟩

end Quiet

end UdpSm.UDPJubmoFrameReceiverImplementation
