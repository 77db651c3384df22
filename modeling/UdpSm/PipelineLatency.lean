import UdpSm.PipelineMeter

/-! The latencies measured over a run, and the table that they leave. -/
namespace UdpSm.Pipeline
open Lib RingFIFOBuffer InserterImplementation
open ParserImplementation hiding iterate Context constructed
open NetworkReceiverImplementationEFVI (packetEvent)

/-- The table holds the first thousand latencies since it was last emptied. -/
structure Recorded (cs : List MeteredCall) (t : Metered) : Prop where
  standing : t.meter.percentile.Standing
  measurements : t.meter.percentile.measurements.Perm
    ((sinceEmpty (entries cs)).take numPercentileMeasurements)

section Run
variable {u : Unset} {x x0 : Meter} {qsort : Qsort UInt64} {readings : List (UInt64 × UInt64)}
variable {cs : List MeteredCall} {c : MeteredCall} {t t' : Metered} {a : Action} {cycles : UInt64}

theorem entries_snoc (cs : List MeteredCall) (c : MeteredCall) :
    sinceEmpty (entries (cs ++ [c])) = c.entry.elim (sinceEmpty (entries cs))
      (Entry.after (sinceEmpty (entries cs))) := by
  have hsnoc : entries (cs ++ [c]) = entries cs ++ c.entry.toList := filterMap_snoc _ cs c
  rw [hsnoc, sinceEmpty_append]
  cases c.entry <;> rfl

theorem MeteredCall.entry_value {v : UInt64} (h : c.entry = some (.value v)) : c.latency = some v := by
  unfold MeteredCall.entry at h
  split at h
  · split_ifs at h
    obtain ⟨w, hw, hv⟩ := Option.map_eq_some_iff.mp h
    obtain rfl := Entry.value.inj hv
    exact hw
  all_goals simp at h

theorem sinceEmpty_latencies : ∀ v ∈ sinceEmpty (entries cs), v ∈ latencies cs := by
  induction cs using List.reverseRecOn with
  | nil => exact fun v hv => absurd hv List.not_mem_nil
  | append_singleton cs c ih =>
    intro v hv
    rw [entries_snoc] at hv
    rw [latencies, List.filterMap_append, List.mem_append]
    cases hentry : c.entry with
    | none =>
      rw [hentry] at hv
      exact .inl (ih v hv)
    | some e =>
      rw [hentry, Option.elim_some] at hv
      cases e with
      | value w =>
        cases List.mem_append.mp hv with
        | inl hv => exact .inl (ih v hv)
        | inr hv =>
          obtain rfl := List.mem_singleton.mp hv
          exact .inr (by simp [MeteredCall.entry_value hentry])
      | empty => exact absurd hv List.not_mem_nil
      | shuffle => exact .inl (ih v hv)

theorem Recorded.near (h : Recorded cs t) (hnear : Percentile.Near (latencies cs)) :
    Percentile.Near t.meter.percentile.measurements :=
  hnear.mono fun v hv => sinceEmpty_latencies v (List.mem_of_mem_take (h.measurements.subset hv))

theorem near_of_append {ds : List MeteredCall} (h : Percentile.Near (latencies (cs ++ ds))) :
    Percentile.Near (latencies cs) := by
  rw [latencies, List.filterMap_append] at h
  exact h.mono (List.subset_append_left _ _)

theorem Recorded.next (h : Recorded cs c.before) (hsorts : qsort.Sorts)
    (hnear : Percentile.Near (latencies cs)) {m : Meter} (hm : m.percentile.Standing)
    (hnext : MeterNext qsort c m) {s : System} : Recorded (cs ++ [c]) ⟨s, m⟩ := by
  have hstored := h.near hnear
  refine ⟨hm, ?_⟩
  rw [entries_snoc]
  cases hnext with
  | kept hentry hkept =>
    rw [hentry, hkept]
    exact h.measurements
  | value v hentry hlatency hadd =>
    obtain ⟨p, hp, -, hrecords⟩ := h.standing.add v
    rw [hp] at hadd
    rw [hentry, ← Option.some.inj hadd]
    exact hrecords.perm_take h.measurements
  | print hentry hprint =>
    obtain ⟨-, hrecords⟩ := h.standing.table hsorts hstored h.measurements hprint
    rw [hentry]
    exact hrecords.perm_take h.measurements
  | reset hentry hreset =>
    have hempty : m.percentile.measurements = [] := by
      rw [hreset]
      rfl
    rw [hentry, hempty]
    exact Records.empty.perm_take h.measurements

theorem exists_constructed (qsort : Qsort UInt64) (readings : List (UInt64 × UInt64)) (x0 : Meter) :
    ∃ x, x0.constructed qsort readings = some x := by
  obtain ⟨p, hp, -⟩ := Percentile.constructed_standing qsort x0.percentile
  exact ⟨⟨x0.tsc.measureTscOverhead readings, p⟩, by rw [Meter.constructed, hp]; rfl⟩

theorem recorded_constructed (hx : x0.constructed qsort readings = some x) {s : System} :
    Recorded [] ⟨s, x⟩ := by
  obtain ⟨p, hp, hstanding, hempty⟩ := Percentile.constructed_standing qsort x0.percentile
  rw [Meter.constructed, hp] at hx
  obtain rfl := Option.some.inj hx
  exact ⟨hstanding, hempty ▸ List.Perm.refl []⟩

theorem well_metered (h : Run (Metered.Step qsort) ⟨initial u, x⟩ cs t) : Well t.system :=
  well_of_run (calls_run h)

theorem standing_run (hx : x0.constructed qsort readings = some x)
    (h : Run (Metered.Step qsort) ⟨initial u, x⟩ cs t) : t.meter.percentile.Standing := by
  refine (Run.invariant (fun _ t => Well t.system ∧ t.meter.percentile.Standing)
    ⟨well_initial u, (recorded_constructed (s := initial u) hx).standing⟩ ?_ h).2
  rintro cs t c t' ⟨hwell, hstanding⟩ hstep
  obtain ⟨hwell', hstanding', -⟩ := hstep.next hwell hstanding
  exact ⟨hwell', hstanding'⟩

theorem metered_total (hx : x0.constructed qsort readings = some x)
    (h : Run (Metered.Step qsort) ⟨initial u, x⟩ cs t) {s : System}
    (hok : Pipeline.perform t.system a = .ok s) (cycles : UInt64) :
    ∃ m, t.perform qsort a cycles = .ok ⟨s, m⟩ := by
  obtain ⟨m, hm, -⟩ := meter_next qsort cycles (well_metered h) (standing_run hx h) a
  refine ⟨m, ?_⟩
  simp only [Metered.perform, hok, hm]

theorem recorded_run (hsorts : qsort.Sorts) (hx : x0.constructed qsort readings = some x)
    (h : Run (Metered.Step qsort) ⟨initial u, x⟩ cs t) (hnear : Percentile.Near (latencies cs)) :
    Recorded cs t := by
  have hall : (Well t.system ∧ t.meter.percentile.Standing) ∧
      (Percentile.Near (latencies cs) → Recorded cs t) := by
    have h0 : Recorded [] ⟨initial u, x⟩ := recorded_constructed hx
    refine Run.invariant (fun cs t => (Well t.system ∧ t.meter.percentile.Standing) ∧
      (Percentile.Near (latencies cs) → Recorded cs t))
      ⟨⟨well_initial u, h0.standing⟩, fun _ => h0⟩ ?_ h
    rintro cs t c t' ⟨⟨hwell, hstanding⟩, hrecorded⟩ hstep
    obtain ⟨hwell', hstanding', hnext⟩ := hstep.next hwell hstanding
    obtain rfl : c.before = t := hstep.1
    refine ⟨⟨hwell', hstanding'⟩, fun hnear => ?_⟩
    exact (hrecorded (near_of_append hnear)).next hsorts (near_of_append hnear) hstanding' hnext
  exact hall.2 hnear

/-- In every run the measurements leave the pipeline alone, the table holds the first thousand
latencies since it was last emptied, and what is printed of it are their percentiles. -/
theorem table_run (hsorts : qsort.Sorts) (hx : x0.constructed qsort readings = some x)
    (h : Run (Metered.Step qsort) ⟨initial u, x⟩ cs t) :
    (∀ a cycles s, Pipeline.perform t.system a = .ok s →
      ∃ m, t.perform qsort a cycles = .ok ⟨s, m⟩) ∧
    (Percentile.Near (latencies cs) → Recorded cs t ∧
      ∀ before c after, cs = before ++ c :: after → c.action = .readKeyboardInput (some '%') →
        Percentile.Table (sinceEmpty (entries before)) (c.lines qsort)) := by
  refine ⟨fun a cycles s hok => metered_total hx h hok cycles, fun hnear => ⟨?_, ?_⟩⟩
  · exact recorded_run hsorts hx h hnear
  rintro before ⟨v, a, cycles⟩ after rfl rfl
  have hbefore := near_of_append hnear
  obtain ⟨_, t', hrun, rfl, hok⟩ := h.before
  have hrecorded := recorded_run hsorts hx hrun hbefore
  obtain ⟨r, hr, -⟩ := hrecorded.standing.print qsort
  have hlines : MeteredCall.lines qsort ⟨v, .readKeyboardInput (some '%'), cycles⟩ = r.1 := by
    simp only [MeteredCall.lines, hr, Option.map_some, Option.getD_some]
  rw [hlines]
  exact (hrecorded.standing.table hsorts (hrecorded.near hbefore) hrecorded.measurements hr).1

/-! One message measured, and the keys to see it. -/

theorem exists_metered (hx : x0.constructed qsort readings = some x) {calls : List Call} {s : System}
    (h : Run Step (initial u) calls s) (cycles : UInt64) : ∃ cs m,
    Run (Metered.Step qsort) ⟨initial u, x⟩ cs ⟨s, m⟩ ∧ cs.map MeteredCall.call = calls ∧
      ∀ c ∈ cs, c.cycles = cycles := by
  induction h with
  | nil => exact ⟨[], x, .nil, rfl, by simp⟩
  | @snoc calls s s' call _ hstep ih =>
    obtain ⟨cs, m, hrun, hcalls, hcycles⟩ := ih
    obtain ⟨rfl, hok⟩ := hstep
    obtain ⟨m', hperform⟩ := metered_total hx hrun hok cycles
    refine ⟨cs ++ [⟨⟨call.before, m⟩, call.action, cycles⟩], m', hrun.snoc ⟨rfl, hperform⟩, ?_, ?_⟩
    · rw [List.map_append, hcalls]
      rfl
    · intro c hc
      cases List.mem_append.mp hc with
      | inl hc => exact hcycles c hc
      | inr hc =>
        obtain rfl := List.mem_singleton.mp hc
        rfl

theorem latencies_length (cs : List MeteredCall) : (latencies cs).length ≤
    ((cs.map MeteredCall.call).filter fun c => c.timing && !c.consumed.isEmpty).length := by
  induction cs with
  | nil => exact Nat.le_refl 0
  | cons c cs ih =>
    rw [latencies, List.filterMap_cons, List.map_cons, List.filter_cons]
    cases hlatency : c.latency with
    | none =>
      refine Nat.le_trans ih ?_
      split_ifs
      · exact Nat.le_succ _
      · exact Nat.le_refl _
    | some v =>
      unfold MeteredCall.latency at hlatency
      split at hlatency
      · split_ifs at hlatency with hbusy
        rw [if_pos (by simpa using hbusy)]
        exact Nat.succ_le_succ ih
      · cases hlatency

theorem near_of_length {vs : List UInt64} (h : vs.length ≤ 1) : Percentile.Near vs := by
  match vs, h with
  | [], _ => exact fun v hv => absurd hv List.not_mem_nil
  | [v], _ =>
    intro w hw z hz
    obtain rfl := List.mem_singleton.mp hw
    obtain rfl := List.mem_singleton.mp hz
    omega

theorem table_run_one : ∃ x cs t, Run (Metered.Step mergeQsort) ⟨initial blank, x⟩ cs t ∧
    (published (cs.map MeteredCall.call)).map Append.message = [emptyBlock.drop 2] ∧ Recorded cs t ∧
      ∀ before c after, cs = before ++ c :: after → c.action = .readKeyboardInput (some '%') →
        Percentile.Table (sinceEmpty (entries before)) (c.lines mergeQsort) := by
  obtain ⟨calls, s, hrun, hlook⟩ := exists_run (s := initial blank)
    [.readKeyboardInput (some 'T'), .receive [packetEvent oneMessageFrame], .parse, .insert 0,
      .readKeyboardInput (some '%')]
    (fun r => ((published r.2).map Append.message,
      (r.2.filter fun c => c.timing && !c.consumed.isEmpty).length))
    (v := ([emptyBlock.drop 2], 1)) (by decide +kernel)
  obtain ⟨hpublished, hbusy⟩ := Prod.mk.inj hlook
  obtain ⟨x, hx⟩ := exists_constructed mergeQsort [(100, 140), (300, 330)]
    ⟨default, Percentile.blank⟩
  obtain ⟨cs, m, hmetered, hcalls, -⟩ := exists_metered hx hrun 500
  have hlength := latencies_length cs
  rw [hcalls, hbusy] at hlength
  refine ⟨x, cs, _, hmetered, by rw [hcalls, hpublished], ?_⟩
  exact (table_run mergeQsort_sorts hx hmetered).2 (near_of_length hlength)

end Run

end UdpSm.Pipeline
