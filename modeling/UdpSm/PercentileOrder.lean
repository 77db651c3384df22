import UdpSm.PercentileIndices

/-! When the table of percentiles is in order: what the comparator says of two latencies, and what
any `qsort` makes of an array of them. -/
namespace UdpSm

theorem int32_eq (x : Int) :
    int32 x = if x % 4294967296 < 2147483648 then x % 4294967296 else x % 4294967296 - 4294967296 := by
  unfold int32
  rw [BitVec.toInt_ofInt]
  rfl

instance linearOrderUInt64 : LinearOrder UInt64 where
  le_refl := UInt64.le_refl
  le_trans _ _ _ := UInt64.le_trans
  le_antisymm _ _ := UInt64.le_antisymm
  le_total := UInt64.le_total
  toDecidableLE := inferInstance
  lt_iff_le_not_ge v w := by
    rw [UInt64.lt_iff_toNat_lt, UInt64.le_iff_toNat_le, UInt64.le_iff_toNat_le]
    omega

namespace Percentile
open Lib Memory

/-! Two latencies. -/

/-- How far apart two latencies are, of which `int` keeps the last 32 bits. -/
def apart (v w : UInt64) : Nat := (w.toNat - v.toNat) % 2 ^ 32

structure SignRight (v w : UInt64) : Prop where
  below : compareValuesForSorting v w < 0 ↔ v < w
  equal : compareValuesForSorting v w = 0 ↔ v = w
  above : 0 < compareValuesForSorting v w ↔ w < v

theorem compare_self (v : UInt64) : compareValuesForSorting v v = 0 := by
  rw [compareValuesForSorting, UInt64.sub_self]
  exact int32_natCast (n := 0) (by decide)

theorem compare_smaller {v w : UInt64} (h : v < w) : compareValuesForSorting v w =
    if 2 ^ 31 < apart v w then 2 ^ 32 - (apart v w : Int) else -(apart v w : Int) := by
  have hlt := UInt64.lt_iff_toNat_lt.mp h
  have hw := w.toNat_lt
  have hsub : (v - w).toNat = 2 ^ 64 - (w.toNat - v.toNat) := by
    rw [UInt64.toNat_sub]
    omega
  rw [compareValuesForSorting, int32_eq, hsub, apart]
  split_ifs <;> omega

theorem compare_larger {v w : UInt64} (h : v < w) : compareValuesForSorting w v =
    if apart v w < 2 ^ 31 then (apart v w : Int) else apart v w - 2 ^ 32 := by
  have hlt := UInt64.lt_iff_toNat_lt.mp h
  have hw := w.toNat_lt
  have hsub : (w - v).toNat = w.toNat - v.toNat := by
    rw [UInt64.toNat_sub]
    omega
  rw [compareValuesForSorting, int32_eq, hsub, apart]
  split_ifs <;> omega

/-- The comparator is right about two latencies: they are equal, or their distance, less multiples of
2^32, is not 0 and is an `int` when taken in the order of the arguments. -/
def Comparable (v w : UInt64) : Prop :=
  v = w ∨ (v < w ∧ 0 < apart v w ∧ apart v w ≤ 2 ^ 31) ∨ (w < v ∧ 0 < apart w v ∧ apart w v < 2 ^ 31)

theorem signRight_iff (v w : UInt64) : SignRight v w ↔ Comparable v w := by
  unfold Comparable
  obtain hlt | rfl | hgt := lt_trichotomy v w
  · have hsmaller := compare_smaller hlt
    have hmod : apart v w < 2 ^ 32 := Nat.mod_lt _ (by decide)
    simp only [hlt, hlt.ne, hlt.not_gt, true_and, false_and, or_false, false_or]
    constructor
    · rintro ⟨hbelow, -, -⟩
      have hneg := hbelow.mpr hlt
      rw [hsmaller] at hneg
      split_ifs at hneg <;> omega
    · rintro ⟨hpos, hle⟩
      rw [if_neg (by omega)] at hsmaller
      refine ⟨iff_of_true (by omega) hlt, iff_of_false (by omega) hlt.ne, ?_⟩
      exact iff_of_false (by omega) hlt.not_gt
  · have hself := compare_self v
    refine iff_of_true ⟨?_, iff_of_true hself rfl, ?_⟩ (.inl rfl)
    · exact iff_of_false (by omega) (lt_irrefl v)
    · exact iff_of_false (by omega) (lt_irrefl v)
  · have hlarger := compare_larger hgt
    have hmod : apart w v < 2 ^ 32 := Nat.mod_lt _ (by decide)
    simp only [hgt, hgt.ne', hgt.not_gt, true_and, false_and, false_or]
    constructor
    · rintro ⟨-, -, habove⟩
      have hpos := habove.mpr hgt
      rw [hlarger] at hpos
      split_ifs at hpos <;> omega
    · rintro ⟨hpos, hle⟩
      rw [if_pos hle] at hlarger
      refine ⟨iff_of_false (by omega) hgt.not_gt, iff_of_false (by omega) hgt.ne', ?_⟩
      exact iff_of_true (by omega) hgt

theorem agreesOn_iff (xs : List UInt64) : AgreesOn compareValuesForSorting xs ↔
    ∀ v ∈ xs, ∀ w ∈ xs, v < w → 0 < apart v w ∧ apart v w < 2 ^ 31 := by
  have hpair : ∀ {v w : UInt64}, v < w →
      (compareValuesForSorting v w < 0 ∧ 0 < compareValuesForSorting w v ↔
        0 < apart v w ∧ apart v w < 2 ^ 31) := by
    intro v w hlt
    have hmod : apart v w < 2 ^ 32 := Nat.mod_lt _ (by decide)
    rw [compare_smaller hlt, compare_larger hlt]
    split_ifs <;> omega
  constructor
  · intro h v hv w hw hlt
    exact (hpair hlt).mp (h v hv w hw hlt)
  · intro h v hv w hw hlt
    exact (hpair hlt).mpr (h v hv w hw hlt)

/-! Full tables of the sizes that the constructor sets. -/

structure Standing (p : Percentile) : Prop where
  ready : Ready p
  percentiles : p.numberOfPercentiles = numPercentiles
  maximum : p.maximumNumberOfMeasurementses = numPercentileMeasurements

def fullTable (value : Nat → UInt64) : Percentile :=
  ⟨⟨⟨numPercentileMeasurements, value⟩, rfl⟩, numPercentileMeasurements, numPercentileMeasurements,
    numPercentiles⟩

def rank (p : Percentile) (i : Nat) : Nat :=
  ((i + 1) * p.currentNumberOfMeasurementses / p.numberOfPercentiles).toNat

/-- What printing a table `p` is for: `r` is the lines and the object afterwards. -/
structure Ordered (p : Percentile) (r : List (Float × UInt64) × Percentile) : Prop where
  perm : r.2.measurements.Perm p.measurements
  sorted : r.2.measurements.Pairwise (· ≤ ·)
  rest : ∀ j, p.currentNumberOfMeasurementses.toNat ≤ j →
    r.2.measurementArray.cell j = p.measurementArray.cell j
  length : r.1.length = p.numberOfPercentiles.toNat
  statistic : ∀ i, (hi : i < r.1.length) → (r.1[i]).1 = percentileValueAtIndex double p i ∧
    IsOrderStatistic p.measurements (p.rank i) (r.1[i]).2
  nondecreasing : (r.1.map Prod.snd).Pairwise (· ≤ ·)

section Table
variable {p : Percentile}

theorem double_index : ∀ i < 10, percentileIndex double (fullTable fun _ => 0) i = 100 * (i + 1) - 1 := by
  decide +kernel

theorem double_value : ∀ i < 10,
    percentileValueAtIndex double (fullTable fun _ => 0) i = Float.ofNat (10 * (i + 1)) := by
  decide +kernel

theorem Standing.count (h : Standing p)
    (hfull : p.maximumNumberOfMeasurementses ≤ p.currentNumberOfMeasurementses) :
    p.currentNumberOfMeasurementses = numPercentileMeasurements :=
  Int.le_antisymm (h.maximum ▸ h.ready.bound) (h.maximum ▸ hfull)

/-- For these sizes the rounding cancels out. -/
theorem Standing.index (h : Standing p)
    (hfull : p.maximumNumberOfMeasurementses ≤ p.currentNumberOfMeasurementses) {i : Nat}
    (hi : (i : Int) < p.numberOfPercentiles) : percentileIndex double p i = 100 * (i + 1) - 1 := by
  have hten : numPercentiles = 10 := rfl
  rw [h.percentiles] at hi
  rw [← double_index i (by omega)]
  simp only [percentileIndex, percentileValueAtIndex, h.percentiles, h.count hfull]
  rfl

theorem Standing.inside (h : Standing p)
    (hfull : p.maximumNumberOfMeasurementses ≤ p.currentNumberOfMeasurementses) : Inside double p := by
  intro i hi
  have hten : numPercentiles = 10 := rfl
  have hthousand : (numPercentileMeasurements : Int) = 1000 := rfl
  have hcount := h.count hfull
  have hpercentiles := h.percentiles
  rw [h.index hfull hi]
  omega

theorem Standing.rank (h : Standing p)
    (hfull : p.maximumNumberOfMeasurementses ≤ p.currentNumberOfMeasurementses) (i : Nat) :
    p.rank i = 100 * (i + 1) := by
  have hten : numPercentiles = 10 := rfl
  have hthousand : (numPercentileMeasurements : Int) = 1000 := rfl
  rw [Percentile.rank, h.count hfull, h.percentiles, hten, hthousand]
  omega

theorem Standing.row_eq (h : Standing p)
    (hfull : p.maximumNumberOfMeasurementses ≤ p.currentNumberOfMeasurementses) (qsort : Qsort UInt64)
    {i : Nat} (hi : (i : Int) < p.numberOfPercentiles) :
    ∃ k, p.rank i = k + 1 ∧ ∃ hk : k < (sorted qsort p).measurements.length,
      row double (sorted qsort p) i =
        (percentileValueAtIndex double p i, (sorted qsort p).measurements[k]) := by
  obtain ⟨hlow, hhigh⟩ := h.inside hfull i hi
  have hindex := h.index hfull hi
  have hk : (percentileIndex double p i).toNat < (sorted qsort p).measurements.length := by
    rw [measurements_length]
    change _ < p.currentNumberOfMeasurementses.toNat
    omega
  refine ⟨(percentileIndex double p i).toNat, ?_, hk, ?_⟩
  · rw [h.rank hfull]
    omega
  · have hcell := load_getElem _ _ _ _ hk
    rw [Nat.zero_add] at hcell
    exact congrArg _ hcell.symm

theorem Standing.ordered (h : Standing p)
    (hfull : p.maximumNumberOfMeasurementses ≤ p.currentNumberOfMeasurementses) (qsort : Qsort UInt64)
    (hperm : (sorted qsort p).measurements.Perm p.measurements)
    (hsorted : (sorted qsort p).measurements.Pairwise (· ≤ ·)) :
    Ordered p ((List.range p.numberOfPercentiles.toNat).map (row double (sorted qsort p)), sorted qsort p) where
  perm := hperm
  sorted := hsorted
  rest j hj := by
    refine cell_store_outside _ _ _ _ (.inr ?_)
    rw [qsort.length_sort, measurements_length]
    omega
  length := by simp
  statistic i hi := by
    rw [List.length_map, List.length_range] at hi
    obtain ⟨k, hrank, hk, hrow⟩ := h.row_eq hfull qsort (i := i) (by omega)
    simp only [List.getElem_map, List.getElem_range, hrow, hrank, true_and]
    exact (isOrderStatistic_getElem hsorted hk).perm hperm
  nondecreasing := by
    refine List.pairwise_map.mpr (List.pairwise_map.mpr ?_)
    refine List.Pairwise.imp_of_mem ?_ List.pairwise_lt_range
    intro i j hi hj hij
    have hi' := List.mem_range.mp hi
    have hj' := List.mem_range.mp hj
    obtain ⟨k, hrank, hk, hrow⟩ := h.row_eq hfull qsort (i := i) (by omega)
    obtain ⟨l, hrank', hl, hrow'⟩ := h.row_eq hfull qsort (i := j) (by omega)
    have hi := h.rank hfull i
    have hj := h.rank hfull j
    rw [hrow, hrow']
    exact getElem_le_getElem hsorted (by omega) hl

/-- For every two latencies the comparator is right exactly if they are comparable; and every
`qsort` puts the table in order exactly if each two of its measurements are comparable both ways
round. -/
theorem table_ordered (p : Percentile) (h : Standing p)
    (hfull : p.maximumNumberOfMeasurementses ≤ p.currentNumberOfMeasurementses) :
    (∀ v w : UInt64, SignRight v w ↔ Comparable v w) ∧
      ((∀ qsort : Qsort UInt64, qsort.Sorts →
          ∃ r, printPercentileTableValues double qsort p = some r ∧ Ordered p r) ↔
        ∀ v ∈ p.measurements, ∀ w ∈ p.measurements, v < w → 0 < apart v w ∧ apart v w < 2 ^ 31) := by
  refine ⟨signRight_iff, ?_⟩
  rw [← agreesOn_iff, ← Qsort.sorted_iff compare_self]
  constructor
  · intro hall qsort hsorts
    obtain ⟨r, hprint, hordered⟩ := hall qsort hsorts
    rw [h.ready.print qsort hfull (h.inside hfull)] at hprint
    obtain rfl := Option.some.inj hprint
    rw [← measurements_sorted]
    exact ⟨hordered.perm, hordered.sorted⟩
  · intro hall qsort hsorts
    obtain ⟨hperm, hsorted⟩ := hall qsort hsorts
    rw [← measurements_sorted] at hperm hsorted
    exact ⟨_, h.ready.print qsort hfull (h.inside hfull), h.ordered hfull qsort hperm hsorted⟩

end Table

theorem standing_fullTable (value : Nat → UInt64) : Standing (fullTable value) where
  ready :=
    { percentiles := (by decide : 0 < numPercentiles)
      few := (by decide : numPercentiles ≤ numPercentileMeasurements)
      limit := Int.le_refl _
      count := Int.natCast_nonneg numPercentileMeasurements
      bound := Int.le_refl _ }
  percentiles := rfl
  maximum := rfl

theorem mem_fullTable {value : Nat → UInt64} {v : UInt64} :
    v ∈ (fullTable value).measurements ↔ ∃ i, i < 1000 ∧ value i = v := by
  have hload : (fullTable value).measurements = (List.range 1000).map fun i => value (0 + i) := rfl
  simp only [hload, List.mem_map, List.mem_range, Nat.zero_add]

theorem table_ordered_test : ∃ r,
    printPercentileTableValues double mergeQsort (fullTable UInt64.ofNat) = some r ∧
      Ordered (fullTable UInt64.ofNat) r := by
  refine (table_ordered (fullTable UInt64.ofNat) (standing_fullTable _) (Int.le_refl _)).2.mpr ?_
    mergeQsort mergeQsort_sorts
  intro v hv w hw hlt
  obtain ⟨i, hi, rfl⟩ := mem_fullTable.mp hv
  obtain ⟨j, hj, rfl⟩ := mem_fullTable.mp hw
  rw [UInt64.lt_iff_toNat_lt] at hlt
  unfold apart
  rw [UInt64.toNat_ofNat', UInt64.toNat_ofNat'] at *
  omega

/-- 999 latencies of 100 cycles, and one for which the clock is 5 cycles short of the time stamp,
which has the overhead added to it. -/
def wrapped (i : Nat) : UInt64 := if i = 999 then getLatency 95 100 else 100

theorem ordersOn_wrapped : OrdersOn compareValuesForSorting (fullTable wrapped).measurements := by
  have hvalues : ∀ v ∈ (fullTable wrapped).measurements, v = getLatency 95 100 ∨ v = 100 := by
    intro v hv
    obtain ⟨i, -, rfl⟩ := mem_fullTable.mp hv
    unfold wrapped
    split_ifs
    · exact .inl rfl
    · exact .inr rfl
  have h1 : compareValuesForSorting (getLatency 95 100) 100 = -105 := by decide +kernel
  have h2 : compareValuesForSorting 100 (getLatency 95 100) = 105 := by decide +kernel
  constructor
  · intro v hv w hw
    obtain rfl | rfl := hvalues v hv <;> obtain rfl | rfl := hvalues w hw <;>
      simp [h1, h2, compare_self]
  · intro v hv w hw z hz
    obtain rfl | rfl := hvalues v hv <;> obtain rfl | rfl := hvalues w hw <;>
      obtain rfl | rfl := hvalues z hz <;> simp [h1, h2, compare_self]

/-- The largest latency comes out first, whatever the `qsort`. -/
theorem wrapped_latency_first : ¬SignRight (getLatency 95 100) 100 ∧
    ∀ qsort : Qsort UInt64, qsort.Sorts →
      ¬∃ r, printPercentileTableValues double qsort (fullTable wrapped) = some r ∧
        Ordered (fullTable wrapped) r := by
  have hcompare : compareValuesForSorting (getLatency 95 100) 100 < 0 := by decide +kernel
  have hlt : (100 : UInt64) < getLatency 95 100 := by decide
  refine ⟨fun hright => absurd (hright.below.mp hcompare) (by decide), ?_⟩
  rintro qsort hsorts ⟨r, hprint, hordered⟩
  have hstanding := standing_fullTable wrapped
  rw [hstanding.ready.print qsort (Int.le_refl _) (hstanding.inside (Int.le_refl _))] at hprint
  obtain rfl := Option.some.inj hprint
  have hsorted := hordered.sorted
  rw [measurements_sorted] at hsorted
  exact hsorts.not_sorted ordersOn_wrapped (mem_fullTable.mpr ⟨0, by decide, rfl⟩)
    (mem_fullTable.mpr ⟨999, by decide, rfl⟩) hlt hcompare hsorted

end Percentile
end UdpSm
