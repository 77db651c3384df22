import UdpSm.Lib.Recorder
import UdpSm.PercentileOrder

/-! The table that the constructor makes: what is added to it, and what is printed of it. -/
namespace UdpSm.Percentile
open Lib

/-- The lines printed after the values `us`: percentiles of the first thousand, if there are as many. -/
inductive Table (us : List UInt64) : List (Float × UInt64) → Prop where
  | short (h : us.length < numPercentileMeasurements) : Table us []
  | full (h : numPercentileMeasurements ≤ us.length) (lines : List (Float × UInt64))
      (hlength : lines.length = 10)
      (hlines : ∀ i, (hi : i < lines.length) → (lines[i]).1 = Float.ofNat (10 * (i + 1)) ∧
        IsOrderStatistic (us.take numPercentileMeasurements) (100 * (i + 1)) (lines[i]).2) :
      Table us lines

section Standing
variable {p : Percentile}

theorem constructed_standing (qsort : Qsort UInt64) (p : Percentile) :
    ∃ p', constructed qsort p = some p' ∧ Standing p' ∧ p'.measurements = [] := by
  obtain ⟨t, hadds, hn, hm, hcount⟩ := trial_full (n := numPercentiles)
    (m := numPercentileMeasurements) (by decide) le_rfl p
  have hten : numPercentiles = 10 := rfl
  have hthousand : (numPercentileMeasurements : Int) = 1000 := rfl
  have ht : Ready t := ⟨by omega, by omega, by omega, by omega, by omega⟩
  have hstanding : Standing t := ⟨ht, hn, hm⟩
  have hsorted : Ready (sorted qsort t) := ⟨ht.percentiles, ht.few, ht.limit, ht.count, ht.bound⟩
  refine ⟨(sorted qsort t).resetPercentileTableArray, ?_, ⟨hsorted.reset, hn, hm⟩, rfl⟩
  rw [constructed, initialize_eq (by decide) (by decide), hadds, Option.bind_some,
    ht.print qsort (by omega) (hstanding.inside (by omega))]
  rfl

theorem Standing.full_iff (h : Standing p) : p.maximumNumberOfMeasurementses ≤
    p.currentNumberOfMeasurementses ↔ numPercentileMeasurements ≤ p.measurements.length := by
  have hmaximum := h.maximum
  have hcount := h.ready.count
  rw [measurements_length]
  omega

theorem Standing.reset (h : Standing p) : Standing p.resetPercentileTableArray :=
  ⟨h.ready.reset, h.percentiles, h.maximum⟩

theorem Standing.add (h : Standing p) (v : UInt64) : ∃ p',
    addNanosecondTimeStampMeasurement v p = some p' ∧ Standing p' ∧
      Records numPercentileMeasurements p.measurements (.value v) p'.measurements := by
  have hcount := h.ready.count
  have hmaximum := h.maximum
  by_cases hfull : p.maximumNumberOfMeasurementses ≤ p.currentNumberOfMeasurementses
  · exact ⟨p, add_full hfull v, h, .full (h.full_iff.mp hfull)⟩
  · have hroom := mt h.full_iff.mpr hfull
    refine ⟨_, add_inside hcount (by omega) (by omega) v, ⟨⟨h.ready.percentiles, h.ready.few,
      h.ready.limit, ?_, ?_⟩, h.percentiles, hmaximum⟩, ?_⟩
    · change 0 ≤ p.currentNumberOfMeasurementses + 1
      omega
    · change p.currentNumberOfMeasurementses + 1 ≤ p.maximumNumberOfMeasurementses
      omega
    · rw [measurements_added hcount]
      exact .room (by omega)

theorem Standing.print (h : Standing p) (qsort : Qsort UInt64) : ∃ r,
    printPercentileTableValues double qsort p = some r ∧ Standing r.2 := by
  by_cases hfull : p.maximumNumberOfMeasurementses ≤ p.currentNumberOfMeasurementses
  · exact ⟨_, h.ready.print qsort hfull (h.inside hfull), ⟨h.ready.percentiles, h.ready.few, h.ready.limit,
      h.ready.count, h.ready.bound⟩, h.percentiles, h.maximum⟩
  · exact ⟨_, print_short qsort (by omega), h⟩

/-- Latencies that the comparator can tell apart. -/
def Near (vs : List UInt64) : Prop := ∀ v ∈ vs, ∀ w ∈ vs, w.toNat - v.toNat < 2 ^ 31

theorem Near.mono {vs ws : List UInt64} (h : Near ws) (hsub : vs ⊆ ws) : Near vs :=
  fun v hv w hw => h v (hsub hv) w (hsub hw)

theorem Near.agreesOn {vs : List UInt64} (h : Near vs) : AgreesOn compareValuesForSorting vs := by
  rw [agreesOn_iff]
  intro v hv w hw hlt
  have hnear := h v hv w hw
  have hpos := UInt64.lt_iff_toNat_lt.mp hlt
  unfold apart
  omega

theorem Standing.value (h : Standing p) {i : Nat} (hi : i < 10) :
    percentileValueAtIndex double p i = Float.ofNat (10 * (i + 1)) := by
  rw [← double_value i hi]
  simp only [percentileValueAtIndex, h.percentiles]
  rfl

theorem Standing.table (h : Standing p) {qsort : Qsort UInt64} (hsorts : qsort.Sorts)
    (hnear : Near p.measurements) {us : List UInt64}
    (hus : p.measurements.Perm (us.take numPercentileMeasurements)) {r : List (Float × UInt64) × Percentile}
    (hprint : printPercentileTableValues double qsort p = some r) :
    Table us r.1 ∧ Records numPercentileMeasurements p.measurements .shuffle r.2.measurements := by
  have hlength := hus.length_eq
  rw [List.length_take] at hlength
  by_cases hfull : p.maximumNumberOfMeasurementses ≤ p.currentNumberOfMeasurementses
  · have hlong := h.full_iff.mp hfull
    obtain ⟨hperm, hsorted⟩ := (Qsort.sorted_iff compare_self).mpr hnear.agreesOn qsort hsorts
    rw [← measurements_sorted] at hperm hsorted
    have hordered := h.ordered hfull qsort hperm hsorted
    rw [h.ready.print qsort hfull (h.inside hfull)] at hprint
    obtain rfl := Option.some.inj hprint
    have hten : ((List.range p.numberOfPercentiles.toNat).map (row double (sorted qsort p))).length =
        10 := by
      rw [hordered.length, h.percentiles]
      rfl
    refine ⟨.full (by omega) _ hten ?_, .shuffle hordered.perm⟩
    intro i hi
    obtain ⟨hvalue, hstatistic⟩ := hordered.statistic i hi
    rw [h.rank hfull] at hstatistic
    exact ⟨hvalue.trans (h.value (hten ▸ hi)), hstatistic.perm hus⟩
  · have hshort := mt h.full_iff.mpr hfull
    rw [print_short qsort (by omega)] at hprint
    obtain rfl := Option.some.inj hprint
    exact ⟨.short (by omega), .shuffle (List.Perm.refl _)⟩

end Standing

end UdpSm.Percentile
