import UdpSm.PercentileTable
import UdpSm.PipelineSession
import UdpSm.Tsc

/-! The clock and the table of percentiles in the pipeline, and what a call does to them. -/
namespace UdpSm
open Lib

structure Meter where
  tsc : Tsc
  percentile : Percentile

def Meter.constructed (qsort : Qsort UInt64) (readings : List (UInt64 × UInt64)) (x : Meter) :
    Option Meter :=
  (x.percentile.constructed qsort).map (⟨x.tsc.measureTscOverhead readings, ·⟩)

end UdpSm

namespace UdpSm.NetworkReceiverImplementationEFVI
open RingFIFOBuffer

/-- `BenchStart` at the start of `HandleRxEventAccept`; the counter is what makes the time stamp of
the event. -/
def benchEvent (timing : Bool) (t : Tsc) : EfEvent → Tsc
  | .rx ev => if timing then t.benchStart (ev.tscTimeStamp - t.tscOverheadCycles) else t
  | _ => t

def benchEvents (x : Context) (t : Tsc) : List EfEvent → Tsc
  | [] => t
  | e :: es =>
    let t := benchEvent (x.common.flag flagGetTiming) t e
    match handleEvent x e with
    | .error _ => t
    | .ok (rv, x) => if rv = 0 then benchEvents x t es else t

def iterateTsc (x : Context) (events : List EfEvent) (t : Tsc) : Tsc :=
  if x.receiver.initialized then
    let (capacity, ring0) := getCapacity x.ring0
    let x := { x with ring0 := ring0 }
    if capacity ≥ 16384 then benchEvents x t events else t
  else t

end UdpSm.NetworkReceiverImplementationEFVI

namespace UdpSm.InserterImplementation
open Lib

def takeTimestamp (c : CommonData) (numberOfPayloadBytes : UInt32) (s : Inserter) (t : Tsc) : Tsc :=
  if numberOfPayloadBytes > 2 then
    let length := ntohs (UInt16.ofNat (ofLe [s.receivedDataPtr 0, s.receivedDataPtr 1]))
    if c.flag flagGetTiming ∧ numberOfPayloadBytes.toNat = length.toNat + 8 + 2 then
      let numberOfPayloadBytes := numberOfPayloadBytes - 8
      t.setTimestamp (UInt64.ofNat
        (ofLe ((List.range 8).map fun i => s.receivedDataPtr (numberOfPayloadBytes.toNat + i))))
    else t
  else t

/-- A latency is shown or added to the table. -/
def timingStatisticsCollection (c : CommonData) (cycles : UInt64) (m : Meter) : Option Meter :=
  if c.flag flagGetTiming then
    let tsc := (m.tsc.benchEnd cycles).getLatency
    if c.flag flagShowTiming then some { m with tsc := tsc }
    else (m.percentile.addNanosecondTimeStampMeasurement tsc.tscLatencyValue).map (⟨tsc, ·⟩)
  else some m

/-- `iterate`, for what it does to the clock and the table. -/
def iterateMeter (c : CommonData) (cycles : UInt64) (ring : RingFIFOBuffer.Ringbuffer) (s : Inserter)
    (m : Meter) : Option Meter :=
  match RingFIFOBuffer.read ring with
  | none => none
  | some (rv, data, _) =>
    let s := { s with receivedDataPtr := overwrite data s.receivedDataPtr }
    let m := { m with tsc := takeTimestamp c (UInt32.ofInt rv) s m.tsc }
    let s := acceptMessage c (UInt32.ofInt rv) s
    if s.framingMetaDataTotalNumberOfMessageBytes > 0 then timingStatisticsCollection c cycles m
    else some m

/-! What a turn of the inserter does to the clock. -/

def stampBehind (timing : Bool) (m : List UInt8) : Option UInt64 :=
  if timing = true ∧ m.length = ofBe (m.take 2) + 10 then
    some (UInt64.ofNat (ofLe (m.drop (m.length - 8))))
  else none

def stampedBy (timing : Bool) (m : List UInt8) (t : Tsc) : Tsc :=
  t.setTimestamp ((stampBehind timing m).getD t.tscTimeStamp)

section Turn
variable {ring : RingFIFOBuffer.Ringbuffer} {R : Nat} {m : List UInt8} {q : List (List UInt8)}
variable (c : CommonData) (s : Inserter) (cycles : UInt64) (x : Meter)

theorem takeTimestamp_eq (h : 11 ≤ m.length) (hmax : m.length ≤ 65537) (t : Tsc) :
    takeTimestamp c (UInt32.ofInt (m.length : Int))
      { s with receivedDataPtr := overwrite m s.receivedDataPtr } t =
        stampedBy (c.flag flagGetTiming) m t := by
  have hlen : (UInt32.ofInt (m.length : Int)).toNat = m.length := uint32_ofInt_natCast (by omega)
  have htwo : UInt32.ofInt (m.length : Int) > 2 := by
    rw [gt_iff_lt, UInt32.lt_iff_toNat_lt, hlen]
    change 2 < m.length
    omega
  have hfield := length_field (m := m) (by omega) s.receivedDataPtr
  have hsub : (UInt32.ofInt (m.length : Int) - 8).toNat = m.length - 8 := by
    rw [UInt32.toNat_sub_of_le, hlen]
    · rfl
    · rw [UInt32.le_iff_toNat_le, hlen]
      change 8 ≤ m.length
      omega
  have hdrop : m.drop (m.length - 8) = m.drop (m.length - 8) ++ [] := (List.append_nil _).symm
  have hslice := ParserImplementation.slice_overwrite s.receivedDataPtr hdrop
  have height : (m.drop (m.length - 8)).length = 8 := by
    rw [List.length_drop]
    omega
  rw [height] at hslice
  simp only [takeTimestamp, if_pos htwo, hlen, hfield, stampedBy, stampBehind, hsub]
  split_ifs
  · exact congrArg (fun bytes => t.setTimestamp (UInt64.ofNat (ofLe bytes))) hslice
  · rfl

theorem iterateMeter_empty (h : RingFIFOBuffer.Holds ring R []) :
    iterateMeter c cycles ring s x = some x := by
  rw [iterateMeter, h.read_empty]
  rfl

theorem iterateMeter_cons (h : RingFIFOBuffer.Holds ring R (m :: q)) (h11 : 11 ≤ m.length)
    (hmax : m.length ≤ 65537) : iterateMeter c cycles ring s x =
      timingStatisticsCollection c cycles { x with tsc := stampedBy (c.flag flagGetTiming) m x.tsc } := by
  obtain ⟨ring', hread, -⟩ := h.read_cons
  have hbytes := (taken_bytes c s h11 hmax).2
  have hsome := (payloadOf_length (c.flag flagGetTiming) h11).1
  have hpos : (taken c m s).framingMetaDataTotalNumberOfMessageBytes > 0 := by
    rw [gt_iff_lt, UInt16.lt_iff_toNat_lt, hbytes]
    exact hsome
  rw [taken] at hpos
  simp only [iterateMeter, hread, if_pos hpos, takeTimestamp_eq c s h11 hmax]

theorem timingStatisticsCollection_on (htiming : c.flag flagGetTiming = true)
    (h : Percentile.Standing x.percentile) : ∃ p, Percentile.Standing p ∧
      timingStatisticsCollection c cycles x = some ⟨(x.tsc.benchEnd cycles).getLatency, p⟩ ∧
      if c.flag flagShowTiming then p = x.percentile
      else x.percentile.addNanosecondTimeStampMeasurement (cycles - x.tsc.tscTimeStamp) = some p := by
  simp only [timingStatisticsCollection, if_pos htiming]
  by_cases hshow : c.flag flagShowTiming = true
  · rw [if_pos hshow]
    exact ⟨x.percentile, h, rfl, (if_pos hshow).symm ▸ rfl⟩
  · obtain ⟨p, hadd, hp, -⟩ := h.add (cycles - x.tsc.tscTimeStamp)
    rw [if_neg hshow]
    refine ⟨p, hp, ?_, (if_neg hshow).symm ▸ hadd⟩
    change (x.percentile.addNanosecondTimeStampMeasurement (cycles - x.tsc.tscTimeStamp)).map _ = _
    rw [hadd]
    rfl

theorem timingStatisticsCollection_off (htiming : c.flag flagGetTiming = false) :
    timingStatisticsCollection c cycles x = some x := by
  rw [timingStatisticsCollection, htiming]
  rfl

end Turn

end UdpSm.InserterImplementation

namespace UdpSm.Pipeline
open Lib RingFIFOBuffer InserterImplementation
open ParserImplementation hiding iterate Context constructed
open NetworkReceiverImplementationEFVI (iterateTsc)

structure Metered where
  system : System
  meter : Meter

/-- `cycles` is what `BenchEnd` reads. -/
def performMeter (qsort : Qsort UInt64) (s : System) (cycles : UInt64) (m : Meter) :
    Action → Option Meter
  | .receive events => some { m with tsc := iterateTsc s.received events m.tsc }
  | .insert _ => iterateMeter s.common cycles s.context.ring1.ringbuf s.inserter m
  | .readKeyboardInput (some '%') =>
    (m.percentile.printPercentileTableValues Percentile.double qsort).map fun r => { m with percentile := r.2 }
  | .readKeyboardInput (some '#') => some { m with percentile := m.percentile.resetPercentileTableArray }
  | _ => some m

def Metered.perform (qsort : Qsort UInt64) (t : Metered) (a : Action) (cycles : UInt64) :
    Except Halt Metered :=
  match Pipeline.perform t.system a with
  | .error h => .error h
  | .ok s =>
    match performMeter qsort t.system cycles t.meter a with
    | none => .error .outOfBounds
    | some m => .ok ⟨s, m⟩

structure MeteredCall where
  before : Metered
  action : Action
  cycles : UInt64

def MeteredCall.call (c : MeteredCall) : Call := ⟨c.before.system, c.action⟩

def Metered.Step (qsort : Qsort UInt64) (t : Metered) (c : MeteredCall) (t' : Metered) : Prop :=
  c.before = t ∧ t.perform qsort c.action c.cycles = .ok t'

/-! What can be seen of a call. -/

def MeteredCall.latency (c : MeteredCall) : Option UInt64 :=
  match c.action with
  | .insert _ =>
    if c.call.timing = true ∧ c.call.consumed ≠ [] then
      (iterateMeter c.before.system.common c.cycles c.before.system.context.ring1.ringbuf
        c.before.system.inserter c.before.meter).map (·.tsc.tscLatencyValue)
    else none
  | _ => none

def MeteredCall.entry (c : MeteredCall) : Option (Entry UInt64) :=
  match c.action with
  | .insert _ => if c.before.system.common.flag flagShowTiming then none else c.latency.map .value
  | .readKeyboardInput (some '%') => some .shuffle
  | .readKeyboardInput (some '#') => some .empty
  | _ => none

def MeteredCall.lines (qsort : Qsort UInt64) (c : MeteredCall) : List (Float × UInt64) :=
  match c.action with
  | .readKeyboardInput (some '%') =>
    ((c.before.meter.percentile.printPercentileTableValues Percentile.double qsort).map Prod.fst).getD []
  | _ => []

def entries (cs : List MeteredCall) : List (Entry UInt64) := cs.filterMap MeteredCall.entry
def latencies (cs : List MeteredCall) : List UInt64 := cs.filterMap MeteredCall.latency

/-! What a call does to the table. -/

inductive MeterNext (qsort : Qsort UInt64) (c : MeteredCall) (m : Meter) : Prop where
  | kept (hentry : c.entry = none) (hm : m.percentile = c.before.meter.percentile)
  | value (v : UInt64) (hentry : c.entry = some (.value v)) (hlatency : c.latency = some v)
      (hm : c.before.meter.percentile.addNanosecondTimeStampMeasurement v = some m.percentile)
  | print (hentry : c.entry = some .shuffle)
      (hm : c.before.meter.percentile.printPercentileTableValues Percentile.double qsort =
        some (c.lines qsort, m.percentile))
  | reset (hentry : c.entry = some .empty)
      (hm : m.percentile = c.before.meter.percentile.resetPercentileTableArray)

section Next
variable {s : System} {x : Meter} {m : List UInt8} (qsort : Qsort UInt64) (cycles now : UInt64)

theorem Well.head (h : Well s) {q : List (List UInt8)} (hm : s.messages = m :: q) :
    11 ≤ m.length ∧ m.length ≤ 65537 ∧ ∃ R, Holds s.context.ring1.ringbuf R (m :: q) := by
  obtain ⟨R, h1⟩ := h.ring1
  rw [hm] at h1
  obtain ⟨hmin, hmax⟩ := h.messages m (by rw [hm]; simp)
  refine ⟨by omega, Nat.le_trans hmax ?_, R, h1⟩
  decide

/-- The clock after the turn of the inserter, and with it the latency. -/
theorem insert_timed (h : Well s) (hstanding : x.percentile.Standing) {q : List (List UInt8)}
    (hm : s.messages = m :: q) (htiming : s.common.flag flagGetTiming = true) :
    ∃ p, p.Standing ∧
      performMeter qsort s cycles x (.insert now) =
        some ⟨((stampedBy true m x.tsc).benchEnd cycles).getLatency, p⟩ ∧
      MeteredCall.latency ⟨⟨s, x⟩, .insert now, cycles⟩ =
        some (cycles - (stampBehind true m).getD x.tsc.tscTimeStamp) ∧
      if s.common.flag flagShowTiming then p = x.percentile
      else x.percentile.addNanosecondTimeStampMeasurement
        (cycles - (stampBehind true m).getD x.tsc.tscTimeStamp) = some p := by
  obtain ⟨h11, hmax, R, hring⟩ := h.head hm
  have hiterate := iterateMeter_cons s.common s.inserter cycles x hring h11 hmax
  rw [htiming] at hiterate
  obtain ⟨p, hp, hcollection, hadded⟩ := timingStatisticsCollection_on s.common cycles
    { x with tsc := stampedBy true m x.tsc } htiming hstanding
  refine ⟨p, hp, hiterate.trans hcollection, ?_, hadded⟩
  have hbusy : Call.timing ⟨s, .insert now⟩ = true ∧ Call.consumed ⟨s, .insert now⟩ ≠ [] := by
    refine ⟨htiming, ?_⟩
    simp [Call.consumed, hm]
  rw [MeteredCall.latency]
  exact (if_pos hbusy).trans (by rw [hiterate, hcollection]; rfl)

theorem insert_untimed (h : Well s) (hquiet : s.messages = [] ∨ s.common.flag flagGetTiming = false) :
    ∃ tsc, performMeter qsort s cycles x (.insert now) = some ⟨tsc, x.percentile⟩ ∧
      MeteredCall.latency ⟨⟨s, x⟩, .insert now, cycles⟩ = none := by
  have hnone : MeteredCall.latency ⟨⟨s, x⟩, .insert now, cycles⟩ = none := by
    rw [MeteredCall.latency]
    refine if_neg ?_
    rintro ⟨htiming, hconsumed⟩
    cases hquiet with
    | inl hempty => exact hconsumed (by simp [MeteredCall.call, Call.consumed, hempty])
    | inr hoff =>
      rw [MeteredCall.call, Call.timing, hoff] at htiming
      exact absurd htiming (by decide)
  cases hm : s.messages with
  | nil =>
    obtain ⟨R, h1⟩ := h.ring1
    rw [hm] at h1
    exact ⟨_, iterateMeter_empty s.common s.inserter cycles x h1, hnone⟩
  | cons m q =>
    obtain ⟨h11, hmax, R, hring⟩ := h.head hm
    have hoff := hquiet.resolve_left (by rw [hm]; simp)
    exact ⟨_, (iterateMeter_cons s.common s.inserter cycles x hring h11 hmax).trans
      (timingStatisticsCollection_off s.common cycles _ hoff), hnone⟩

theorem meter_insert (h : Well s) (hstanding : x.percentile.Standing) : ∃ m,
    performMeter qsort s cycles x (.insert now) = some m ∧ m.percentile.Standing ∧
      MeterNext qsort ⟨⟨s, x⟩, .insert now, cycles⟩ m := by
  by_cases hquiet : s.messages = [] ∨ s.common.flag flagGetTiming = false
  · obtain ⟨tsc, hperform, hnone⟩ := insert_untimed (x := x) qsort cycles now h hquiet
    refine ⟨_, hperform, hstanding, .kept ?_ rfl⟩
    simp only [MeteredCall.entry, hnone, Option.map_none, ite_self]
  · obtain ⟨hsome, hon⟩ := not_or.mp hquiet
    obtain ⟨m, q, hm⟩ := List.exists_cons_of_ne_nil hsome
    obtain ⟨p, hp, hperform, hlatency, hadded⟩ := insert_timed qsort cycles now h
      hstanding hm (by simpa using hon)
    refine ⟨_, hperform, hp, ?_⟩
    by_cases hshow : s.common.flag flagShowTiming = true
    · rw [if_pos hshow] at hadded
      refine .kept ?_ hadded
      simp only [MeteredCall.entry, hshow, if_true]
    · rw [if_neg hshow] at hadded
      refine .value _ ?_ hlatency hadded
      simp only [MeteredCall.entry, hlatency, Bool.not_eq_true] at hshow ⊢
      rw [hshow]
      rfl

/-- The measurements never stop the program. -/
theorem meter_next (h : Well s) (hstanding : x.percentile.Standing) (a : Action) : ∃ m,
    performMeter qsort s cycles x a = some m ∧ m.percentile.Standing ∧
      MeterNext qsort ⟨⟨s, x⟩, a, cycles⟩ m := by
  cases a with
  | receive events => exact ⟨_, rfl, hstanding, .kept rfl rfl⟩
  | parse => exact ⟨_, rfl, hstanding, .kept rfl rfl⟩
  | insert now => exact meter_insert qsort cycles now h hstanding
  | writeTimestamp now => exact ⟨_, rfl, hstanding, .kept rfl rfl⟩
  | readKeyboardInput key =>
    by_cases hprint : key = some '%'
    · subst hprint
      obtain ⟨r, hr, hstanding'⟩ := hstanding.print qsort
      refine ⟨⟨x.tsc, r.2⟩, ?_, hstanding', .print rfl ?_⟩
      · simp only [performMeter, hr, Option.map_some]
      · simp only [MeteredCall.lines, hr, Option.map_some, Option.getD_some]
    by_cases hreset : key = some '#'
    · subst hreset
      exact ⟨_, rfl, hstanding.reset, .reset rfl rfl⟩
    refine ⟨x, ?_, hstanding, .kept ?_ rfl⟩
    · unfold performMeter
      split <;> simp_all
    · unfold MeteredCall.entry
      split <;> simp_all

end Next

section Step
variable {u : Unset} {x : Meter} {qsort : Qsort UInt64} {cs : List MeteredCall} {c : MeteredCall}
variable {t t' : Metered} {a : Action} {cycles : UInt64}

theorem Metered.perform_ok (h : t.perform qsort a cycles = .ok t') :
    Pipeline.perform t.system a = .ok t'.system ∧
      performMeter qsort t.system cycles t.meter a = some t'.meter := by
  rw [Metered.perform] at h
  cases hsystem : Pipeline.perform t.system a with
  | error e => simp [hsystem] at h
  | ok s =>
    cases hmeter : performMeter qsort t.system cycles t.meter a with
    | none => simp [hsystem, hmeter] at h
    | some m =>
      simp only [hsystem, hmeter, Except.ok.injEq] at h
      obtain rfl := h
      exact ⟨rfl, rfl⟩

theorem Metered.Step.next (hwell : Well t.system) (hstanding : t.meter.percentile.Standing)
    (h : Metered.Step qsort t c t') :
    Well t'.system ∧ t'.meter.percentile.Standing ∧ MeterNext qsort c t'.meter := by
  obtain ⟨⟨s, x⟩, action, cycles⟩ := c
  obtain ⟨rfl, hok⟩ := h
  obtain ⟨hsystem, hmeter⟩ := Metered.perform_ok hok
  obtain ⟨m, hm, hstanding', hnext⟩ := meter_next qsort cycles hwell hstanding action
  obtain rfl : m = t'.meter := Option.some.inj (hm.symm.trans hmeter)
  exact ⟨(hwell.next hsystem).1, hstanding', hnext⟩

theorem calls_run (h : Run (Metered.Step qsort) ⟨initial u, x⟩ cs t) :
    Run Step (initial u) (cs.map MeteredCall.call) t.system := by
  refine Run.invariant (fun cs t => Run Step (initial u) (cs.map MeteredCall.call) t.system) .nil ?_ h
  rintro cs t c t' hrun ⟨rfl, hok⟩
  rw [List.map_append]
  exact hrun.snoc ⟨rfl, (Metered.perform_ok hok).1⟩

end Step

end UdpSm.Pipeline
