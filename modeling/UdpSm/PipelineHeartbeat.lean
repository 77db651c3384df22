import UdpSm.Lib.Ticker
import UdpSm.PipelineLayout

/-! The heartbeat in the control block, over the readings of the clock in a run. -/
namespace UdpSm.InserterImplementation
open Lib Memory InserterByteOrder

def heartbeatPeriod : UInt64 := 1000

/-- `ReadWriterHeartbeatTime` returns `b`. -/
def HeartbeatIs (b : UInt64) (m : Memory UInt8) : Prop :=
  (FieldStore.template 8 writerHeartbeatTime b.toBitVec).ReadBack m

/-- The clock is read only while the application runs. -/
def reading (c : CommonData) (now : UInt64) : List UInt64 :=
  if c.applicationRunFlag then [now] else []

section Timer
variable (c : CommonData) (now : UInt64) (m : List UInt8) (s : Inserter) (file : Memory UInt8)

theorem writeTimestampToSharedMemory_timer :
    (writeTimestampToSharedMemory c now s).1.millisecondsSinceEpoch =
      (reading c now).foldl (tick heartbeatPeriod) s.millisecondsSinceEpoch ∧
    (writeTimestampToSharedMemory c now s).1.secondsSinceProgramStart = s.secondsSinceProgramStart +
      UInt64.ofNat (firings heartbeatPeriod s.millisecondsSinceEpoch (reading c now)).length := by
  unfold writeTimestampToSharedMemory reading
  by_cases hrun : c.applicationRunFlag = true
  · by_cases hdue : now - s.millisecondsSinceEpoch ≥ 1000
    · have hfires : heartbeatPeriod ≤ now - s.millisecondsSinceEpoch := hdue
      rw [if_pos ⟨hrun, hdue⟩, if_pos hrun, List.foldl_cons, List.foldl_nil, tick, if_pos hfires,
        firings, if_pos hfires]
      exact ⟨rfl, rfl⟩
    · have hno : ¬heartbeatPeriod ≤ now - s.millisecondsSinceEpoch := hdue
      rw [if_neg fun h => hdue h.2, if_pos hrun, List.foldl_cons, List.foldl_nil, tick, if_neg hno,
        firings, if_neg hno]
      exact ⟨rfl, (UInt64.add_zero _).symm⟩
  · rw [if_neg fun h => hrun h.1, if_neg hrun]
    exact ⟨rfl, (UInt64.add_zero _).symm⟩

theorem writeTimestampToSharedMemory_heartbeat (hsize : sharedMemoryDataPosition ≤ file.size)
    {b : UInt64} (hb : b ∈ (firings heartbeatPeriod s.millisecondsSinceEpoch
      (reading c now)).getLast?) :
    HeartbeatIs b (file.applyAll (writeTimestampToSharedMemory c now s).2) := by
  unfold reading at hb
  unfold writeTimestampToSharedMemory
  split_ifs at hb with hrun
  · rw [firings] at hb
    split_ifs at hb with hfires
    · obtain rfl : now = b := by simpa [firings] using hb
      have hdue : now - s.millisecondsSinceEpoch ≥ 1000 := hfires
      rw [if_pos ⟨hrun, hdue⟩, applyAll_cons, applyAll_cons, applyAll_nil]
      have hself : HeartbeatIs now (file.apply
          (FieldStore.template 8 writerHeartbeatTime now.toBitVec).store) :=
        FieldStore.readBack_self (FieldStore.perform_eq _ hsize)
      refine FieldStore.readBack_beside (t := .uint64 writerMaxSequence s.maxSequenceValue) hself
        (FieldStore.perform_eq _ hsize) ?_
      exact .inl (by decide : writerHeartbeatTimePosition + 8 ≤ writerMaxSequencePosition)
    · simp [firings] at hb
  · simp [firings] at hb

theorem writeTimestampToSharedMemory_silent
    (h : firings heartbeatPeriod s.millisecondsSinceEpoch (reading c now) = []) :
    (writeTimestampToSharedMemory c now s).2 = [] := by
  unfold reading at h
  unfold writeTimestampToSharedMemory
  by_cases hrun : c.applicationRunFlag = true
  · by_cases hdue : now - s.millisecondsSinceEpoch ≥ 1000
    · have hfires : heartbeatPeriod ≤ now - s.millisecondsSinceEpoch := hdue
      rw [if_pos hrun, firings, if_pos hfires] at h
      cases h
    · rw [if_neg fun h => hdue h.2]
  · rw [if_neg fun h => hrun h.1]

theorem framed_timer : (framed c m s).1.millisecondsSinceEpoch = s.millisecondsSinceEpoch ∧
    (framed c m s).1.secondsSinceProgramStart = s.secondsSinceProgramStart := by
  have hmilliseconds := taken_kept Inserter.millisecondsSinceEpoch (fun _ _ _ _ => rfl) c m s
  have hseconds := taken_kept Inserter.secondsSinceProgramStart (fun _ _ _ _ => rfl) c m s
  rw [framed, handleSharedMemoryFrames_kept c Inserter.millisecondsSinceEpoch (fun _ => rfl)
      (fun _ => rfl) (fun _ _ => rfl), handleSharedMemoryFrames_kept c
      Inserter.secondsSinceProgramStart (fun _ => rfl) (fun _ => rfl) (fun _ _ => rfl), flagged_eq]
  exact ⟨hmilliseconds, hseconds⟩

theorem turn_behind : ∀ st ∈ (flagged c m s).2 ++ (framed c m s).2,
    writerSessionIdPosition ≤ st.address := by
  intro st hst
  obtain hst | hst := List.mem_append.mp hst
  · have hflag := flagged_stores c m s st hst
    simp only [flagStores, List.mem_cons, List.not_mem_nil, or_false] at hflag
    obtain rfl | rfl := hflag
    · exact (by decide : writerSessionIdPosition ≤ writerFlagsPosition)
    · exact Nat.le_refl _
  · exact Nat.le_trans (by decide) (handleSharedMemoryFrames_address c _ st hst)

theorem HeartbeatIs.applyAll {b : UInt64} {file : Memory UInt8} (h : HeartbeatIs b file)
    {sts : List (Store UInt8)} (hbehind : ∀ st ∈ sts, writerSessionIdPosition ≤ st.address) :
    HeartbeatIs b (file.applyAll sts) := by
  refine FieldStore.readBack_congr h (applyAll_size file sts) fun i _ hi => ?_
  refine applyAll_outside file fun st hst => .inl ?_
  have hend : writerHeartbeatTimePosition + 8 ≤ writerSessionIdPosition := by decide
  exact Nat.lt_of_lt_of_le hi (Nat.le_trans hend (hbehind st hst))

end Timer

end UdpSm.InserterImplementation

namespace UdpSm.Pipeline
open Lib Memory RingFIFOBuffer InserterImplementation InserterByteOrder
open ParserImplementation (connected)

def Call.readings (c : Call) : List UInt64 :=
  match c.action with
  | .insert now => reading c.before.common now
  | .writeTimestamp now => reading c.before.common now
  | _ => []

def readings (cs : List Call) : List UInt64 := cs.flatMap Call.readings

/-- The readings that are stored as heartbeats; the clock of the first is compared with what the
constructor left unset. -/
def heartbeats (u : Unset) (cs : List Call) : List UInt64 :=
  firings heartbeatPeriod u.inserter.millisecondsSinceEpoch (readings cs)

/-- The object and the file after the readings `ts`, given the time of the last heartbeat. -/
structure Beating (time seconds : UInt64) (ts : List UInt64) (s s' : System) : Prop where
  last : s'.inserter.millisecondsSinceEpoch = ts.foldl (tick heartbeatPeriod) time
  seconds : s'.inserter.secondsSinceProgramStart =
    seconds + UInt64.ofNat (firings heartbeatPeriod time ts).length
  stored : ∀ b ∈ (firings heartbeatPeriod time ts).getLast?, HeartbeatIs b s'.file
  kept : firings heartbeatPeriod time ts = [] → ∀ b, HeartbeatIs b s.file → HeartbeatIs b s'.file

section Step
variable {s s' : System} {c : Call}

theorem beating_quiet (hfile : s'.file = s.file) (hinserter : s'.inserter = s.inserter) :
    Beating s.inserter.millisecondsSinceEpoch s.inserter.secondsSinceProgramStart [] s s' := by
  refine ⟨?_, ?_, ?_, ?_⟩
  · rw [hinserter]
    rfl
  · rw [hinserter]
    exact (UInt64.add_zero _).symm
  · simp [firings]
  · intro _ b hb
    rwa [hfile]

theorem turn_beating {now : UInt64} {m : List UInt8} (hsize : sharedMemoryDataPosition ≤ s.file.size)
    (hinserter : s'.inserter = (timed s.common now m s.inserter).1)
    (hfile : s'.file = s.file.applyAll (turnStores s.common now m s.inserter)) :
    Beating s.inserter.millisecondsSinceEpoch s.inserter.secondsSinceProgramStart
      (reading s.common now) s s' := by
  obtain ⟨hmilliseconds, hframed⟩ := framed_timer s.common m s.inserter
  obtain ⟨hlast, hseconds⟩ :=
    writeTimestampToSharedMemory_timer s.common now (framed s.common m s.inserter).1
  have hbehind := turn_behind s.common m s.inserter
  rw [hmilliseconds] at hlast hseconds
  rw [hframed] at hseconds
  rw [turnStores, applyAll_append] at hfile
  refine ⟨hinserter ▸ hlast, hinserter ▸ hseconds, fun b hb => ?_, fun hnone b hb => ?_⟩
  · rw [hfile]
    refine writeTimestampToSharedMemory_heartbeat s.common now _ _ ?_ (hmilliseconds ▸ hb)
    rwa [applyAll_size]
  · rw [hfile, timed, writeTimestampToSharedMemory_silent s.common now _ (hmilliseconds ▸ hnone)]
    exact hb.applyAll hbehind

theorem step_beating (hsize : sharedMemoryDataPosition ≤ s.file.size) (hbefore : c.before = s)
    (hwell : Well s) (hok : perform s c.action = .ok s') :
    Beating s.inserter.millisecondsSinceEpoch s.inserter.secondsSinceProgramStart c.readings s s' := by
  obtain ⟨before, action⟩ := c
  obtain rfl : before = s := hbefore
  cases action with
  | receive events =>
    obtain ⟨x, -, rfl⟩ := map_ok hok
    exact beating_quiet rfl rfl
  | parse =>
    obtain ⟨x, -, rfl⟩ := map_ok hok
    exact beating_quiet rfl rfl
  | readKeyboardInput key =>
    obtain rfl := Except.ok.inj hok
    exact beating_quiet rfl rfl
  | writeTimestamp now =>
    obtain ⟨hlast, hseconds⟩ :=
      writeTimestampToSharedMemory_timer before.common now before.inserter
    obtain rfl := Except.ok.inj hok
    refine ⟨hlast, hseconds, fun b hb => ?_, fun hnone b hb => ?_⟩
    · exact writeTimestampToSharedMemory_heartbeat _ now _ _ hsize hb
    · change HeartbeatIs b (before.file.applyAll _)
      rwa [writeTimestampToSharedMemory_silent _ now _ hnone]
  | insert now =>
    cases (hwell.next hok).2 with
    | idle now hnone => exact turn_beating hsize rfl rfl
    | insert now m ring hm => exact turn_beating hsize rfl rfl

end Step

section Run
variable {u : Unset} {cs : List Call} {s : System}

theorem Beating.trans {time seconds : UInt64} {ts ts' : List UInt64} {s t v : System}
    (h : Beating time seconds ts s t)
    (h' : Beating t.inserter.millisecondsSinceEpoch t.inserter.secondsSinceProgramStart ts' t v) :
    Beating time seconds (ts ++ ts') s v := by
  have hlast := h'.last
  have hseconds := h'.seconds
  have hstored := h'.stored
  have hkept := h'.kept
  rw [h.last] at hlast hseconds hstored hkept
  refine ⟨by rw [hlast, List.foldl_append], ?_, fun b hb => ?_, fun hnone b hb => ?_⟩
  · rw [hseconds, h.seconds, firings_append, List.length_append, UInt64.ofNat_add, UInt64.add_assoc]
  · rw [firings_append, List.getLast?_append] at hb
    cases hnew : (firings heartbeatPeriod (ts.foldl (tick heartbeatPeriod) time) ts').getLast? with
    | none =>
      rw [hnew, Option.none_or] at hb
      exact hkept (List.getLast?_eq_none_iff.mp hnew) b (h.stored b hb)
    | some d =>
      rw [hnew, Option.some_or] at hb
      obtain rfl := Option.mem_some_iff.mp hb
      exact hstored d hnew
  · rw [firings_append, List.append_eq_nil_iff] at hnone
    exact hkept hnone.2 b (h.kept hnone.1 b hb)

theorem run_beating (hsize : u.file.size = sharedMemoryAllocationSize)
    (h : Run Step (initial u) cs s) :
    Beating u.inserter.millisecondsSinceEpoch 0 (readings cs) (initial u) s := by
  have hinside : ∀ t : System, Intact u t.file → sharedMemoryDataPosition ≤ t.file.size := by
    intro t ht
    have hinitial : (initial u).file.size = u.file.size := applyAll_size u.file _
    rw [ht.1, hinitial, hsize]
    decide
  refine (run_invariant (fun cs s => Intact u s.file ∧
    Beating u.inserter.millisecondsSinceEpoch 0 (readings cs) (initial u) s) ?_ ?_ h).2.2
  · exact ⟨⟨rfl, fun _ _ => rfl⟩, beating_quiet (s := initial u) rfl rfl⟩
  · rintro cs s c s' hwell ⟨hintact, hbeating⟩ hbefore hok -
    have hstep := hbeating.trans (step_beating (hinside s hintact) hbefore hwell hok)
    subst hbefore
    refine ⟨?_, ?_⟩
    · rw [perform_file hok]
      exact hintact.applyAll (stores_placed c)
    · rwa [readings, List.flatMap_append, List.flatMap_singleton]

/-- The heartbeat of a run, whatever the clock does: the field is read as the last heartbeat, the
seconds count them, they are at least a second apart, and after a reading of the clock the last is
less than a second behind it (a clock set back makes a heartbeat at once). -/
theorem heartbeat_run (hsize : u.file.size = sharedMemoryAllocationSize)
    (h : Run Step (initial u) cs s) :
    (∀ b ∈ (heartbeats u cs).getLast?, writerHeartbeatTime.read (some s.file) = some b.toBitVec) ∧
    s.inserter.secondsSinceProgramStart = UInt64.ofNat (heartbeats u cs).length ∧
    (u.inserter.millisecondsSinceEpoch :: heartbeats u cs).IsChain (fun a b => 1000 ≤ b - a) ∧
    ∀ now ∈ (readings cs).getLast?,
      now - (heartbeats u cs).getLastD u.inserter.millisecondsSinceEpoch < 1000 := by
  have hbeating := run_beating hsize h
  refine ⟨hbeating.stored, ?_, firings_spaced _, fun now hnow => ?_⟩
  · rw [hbeating.seconds, UInt64.zero_add]
    rfl
  · obtain ⟨ts, hts⟩ := List.getLast?_eq_some_iff.mp hnow
    have hself : ¬heartbeatPeriod ≤ now - now := by
      rw [UInt64.sub_self]
      decide
    rw [heartbeats, ← foldl_tick, hts, List.foldl_append, List.foldl_cons, List.foldl_nil]
    exact UInt64.not_le.mp (tick_fresh hself)

theorem heartbeat_run_back : ∃ cs s, Run Step (initial blank) cs s ∧
    readings cs = [5000, 5500, 4000] ∧ s.inserter.secondsSinceProgramStart = 2 ∧
    writerHeartbeatTime.read (some s.file) = some (4000 : UInt64).toBitVec := by
  obtain ⟨cs, s, hrun, hlook⟩ := exists_run (s := initial blank)
    [.writeTimestamp 5000, .writeTimestamp 5500, .writeTimestamp 4000]
    (fun r => (readings r.2, heartbeats blank r.2)) (v := ([5000, 5500, 4000], [5000, 4000]))
    (by decide +kernel)
  obtain ⟨hreadings, hbeats⟩ := Prod.mk.inj hlook
  obtain ⟨hfield, hseconds, -, -⟩ := heartbeat_run (u := blank) rfl hrun
  rw [hbeats] at hfield hseconds
  exact ⟨cs, s, hrun, hreadings, hseconds, hfield 4000 rfl⟩

end Run

end UdpSm.Pipeline
