import UdpSm.Percentile

/-! The indices used on `MeasurementArray`: what each call does to the measurements, and that a
table of suitable sizes never leaves the array. -/
namespace UdpSm.Percentile
open Lib Memory

def measurements (p : Percentile) : List UInt64 :=
  p.measurementArray.load 0 p.currentNumberOfMeasurementses.toNat

/-- The sizes of a table are such that its indices are right. -/
structure Ready (p : Percentile) : Prop where
  percentiles : 0 < p.numberOfPercentiles
  few : p.numberOfPercentiles ≤ p.maximumNumberOfMeasurementses
  limit : p.maximumNumberOfMeasurementses ≤ numPercentileMeasurements
  count : 0 ≤ p.currentNumberOfMeasurementses
  bound : p.currentNumberOfMeasurementses ≤ p.maximumNumberOfMeasurementses

def added (v : UInt64) (p : Percentile) : Percentile :=
  { p with
    measurementArray :=
      ⟨p.measurementArray.toMemory.store p.currentNumberOfMeasurementses.toNat [v],
        p.measurementArray.size_eq⟩
    currentNumberOfMeasurementses := p.currentNumberOfMeasurementses + 1 }

section Add
variable {p : Percentile}

theorem add_full (h : p.maximumNumberOfMeasurementses ≤ p.currentNumberOfMeasurementses)
    (v : UInt64) : addNanosecondTimeStampMeasurement v p = some p := by
  rw [addNanosecondTimeStampMeasurement, if_neg (by omega)]

theorem add_inside (h0 : 0 ≤ p.currentNumberOfMeasurementses)
    (h : p.currentNumberOfMeasurementses < p.maximumNumberOfMeasurementses)
    (hin : p.currentNumberOfMeasurementses < numPercentileMeasurements) (v : UInt64) :
    addNanosecondTimeStampMeasurement v p = some (added v p) := by
  have hsize : (numPercentileMeasurements : Int) = 1000 := rfl
  have hstore : 0 ≤ p.currentNumberOfMeasurementses ∧
      p.currentNumberOfMeasurementses + (([v] : List UInt64).length : Int) ≤
        numPercentileMeasurements := by
    rw [List.length_singleton]
    omega
  rw [addNanosecondTimeStampMeasurement, if_pos h, MeasurementArray.storeAt, if_pos hstore,
    Option.map_some, int32_of_range (by omega) (by omega)]
  rfl

theorem add_outside (h : p.currentNumberOfMeasurementses < p.maximumNumberOfMeasurementses)
    (hout : numPercentileMeasurements ≤ p.currentNumberOfMeasurementses) (v : UInt64) :
    addNanosecondTimeStampMeasurement v p = none := by
  have hstore : ¬(0 ≤ p.currentNumberOfMeasurementses ∧
      p.currentNumberOfMeasurementses + (([v] : List UInt64).length : Int) ≤
        numPercentileMeasurements) := by
    rw [List.length_singleton]
    omega
  rw [addNanosecondTimeStampMeasurement, if_pos h, MeasurementArray.storeAt, if_neg hstore,
    Option.map_none]

theorem measurements_added (h0 : 0 ≤ p.currentNumberOfMeasurementses) (v : UInt64) :
    (added v p).measurements = p.measurements ++ [v] := by
  have hnext : (p.currentNumberOfMeasurementses + 1).toNat =
      p.currentNumberOfMeasurementses.toNat + 1 := by omega
  simp only [measurements, added, hnext]
  rw [load_add, load_store_disjoint _ _ _ _ _ (.inl (by omega)), Nat.zero_add]
  exact congrArg _ (load_store_self _ _ [v])

theorem adds_inside (vs : List UInt64) (h0 : 0 ≤ p.currentNumberOfMeasurementses)
    (h : p.currentNumberOfMeasurementses + vs.length ≤ p.maximumNumberOfMeasurementses)
    (hin : p.currentNumberOfMeasurementses + vs.length ≤ numPercentileMeasurements) :
    ∃ p', vs.foldlM (fun p v => addNanosecondTimeStampMeasurement v p) p = some p' ∧
      p'.numberOfPercentiles = p.numberOfPercentiles ∧
      p'.maximumNumberOfMeasurementses = p.maximumNumberOfMeasurementses ∧
      p'.currentNumberOfMeasurementses = p.currentNumberOfMeasurementses + vs.length ∧
      p'.measurements = p.measurements ++ vs := by
  induction vs generalizing p with
  | nil => exact ⟨p, rfl, rfl, rfl, by simp, by simp⟩
  | cons v vs ih =>
    rw [List.length_cons] at h hin
    obtain ⟨p', hadds, hn, hm, hcount, hvalues⟩ := ih (p := added v p)
      (by change 0 ≤ p.currentNumberOfMeasurementses + 1; omega)
      (by change p.currentNumberOfMeasurementses + 1 + _ ≤ p.maximumNumberOfMeasurementses; omega)
      (by change p.currentNumberOfMeasurementses + 1 + _ ≤ _; omega)
    refine ⟨p', ?_, hn, hm, ?_, ?_⟩
    · rw [List.foldlM_cons, add_inside h0 (by omega) (by omega)]
      exact hadds
    · rw [hcount, List.length_cons]
      change p.currentNumberOfMeasurementses + 1 + _ = _
      omega
    · rw [hvalues, measurements_added h0, List.append_assoc]
      rfl

theorem adds_outside {vs : List UInt64} (h0 : 0 ≤ p.currentNumberOfMeasurementses)
    (h : p.currentNumberOfMeasurementses + vs.length ≤ p.maximumNumberOfMeasurementses)
    (hsize : p.currentNumberOfMeasurementses ≤ numPercentileMeasurements)
    (hout : numPercentileMeasurements < p.currentNumberOfMeasurementses + vs.length) :
    vs.foldlM (fun p v => addNanosecondTimeStampMeasurement v p) p = none := by
  induction vs generalizing p with
  | nil => simp only [List.length_nil] at hout; omega
  | cons v vs ih =>
    rw [List.length_cons] at h hout
    rw [List.foldlM_cons]
    by_cases hin : p.currentNumberOfMeasurementses < numPercentileMeasurements
    · rw [add_inside h0 (by omega) hin]
      refine ih ?_ ?_ ?_ ?_
      · change 0 ≤ p.currentNumberOfMeasurementses + 1
        omega
      · change p.currentNumberOfMeasurementses + 1 + _ ≤ p.maximumNumberOfMeasurementses
        omega
      · change p.currentNumberOfMeasurementses + 1 ≤ _
        omega
      · change _ < p.currentNumberOfMeasurementses + 1 + _
        omega
    · rw [add_outside (by omega) (by omega)]
      rfl

end Add

section Print
variable {α : Type} {a : Arithmetic α} {p : Percentile}

theorem percentileIndex_eq (h : 0 < p.numberOfPercentiles) (i : Nat) : percentileIndex exact p i =
    (i + 1) * p.currentNumberOfMeasurementses / p.numberOfPercentiles - 1 := by
  have hn : ((p.numberOfPercentiles.toNat : Nat) : Int) = p.numberOfPercentiles := by omega
  have hvalue : percentileValueAtIndex exact p i / 100 * p.currentNumberOfMeasurementses =
      (((i + 1) * p.currentNumberOfMeasurementses : Int) : Rat) / (p.numberOfPercentiles.toNat : Nat) := by
    simp only [percentileValueAtIndex, exact]
    conv_lhs => rw [← hn]
    push_cast
    ring
  have hfloor := Rat.floor_intCast_div_natCast ((i + 1) * p.currentNumberOfMeasurementses)
    p.numberOfPercentiles.toNat
  rw [hn] at hfloor
  change (percentileValueAtIndex exact p i / 100 * p.currentNumberOfMeasurementses).floor - 1 = _
  rw [hvalue]
  exact congrArg (· - 1) hfloor

/-- Every line of the table is about one of the measurements. -/
def Inside (a : Arithmetic α) (p : Percentile) : Prop :=
  ∀ i : Nat, (i : Int) < p.numberOfPercentiles →
    0 ≤ percentileIndex a p i ∧ percentileIndex a p i < p.currentNumberOfMeasurementses

theorem Ready.inside (h : Ready p)
    (hfull : p.maximumNumberOfMeasurementses ≤ p.currentNumberOfMeasurementses) : Inside exact p := by
  intro i hi
  have hn := h.percentiles
  have hfew := h.few
  have hcount := h.count
  rw [percentileIndex_eq hn]
  have hlow : p.numberOfPercentiles ≤ (i + 1) * p.currentNumberOfMeasurementses := by nlinarith
  have hhigh : (i + 1) * p.currentNumberOfMeasurementses ≤
      p.currentNumberOfMeasurementses * p.numberOfPercentiles := by nlinarith
  have h1 : 1 ≤ (i + 1) * p.currentNumberOfMeasurementses / p.numberOfPercentiles :=
    (Int.le_ediv_iff_mul_le hn).mpr (by rwa [Int.one_mul])
  have h2 := Int.ediv_le_of_le_mul hn hhigh
  omega

def row (a : Arithmetic α) (p : Percentile) (i : Nat) : α × UInt64 :=
  (percentileValueAtIndex a p i, p.measurementArray.cell (percentileIndex a p i).toNat)

theorem line_inside {i : Nat} (h0 : 0 ≤ percentileIndex a p i)
    (h : percentileIndex a p i < numPercentileMeasurements) : line a p i = some (row a p i) := by
  have hin : 0 ≤ percentileIndex a p i ∧
      percentileIndex a p i + (1 : Nat) ≤ p.measurementArray.size := by
    rw [p.measurementArray.size_eq]
    omega
  rw [line, loadAt, if_pos hin]
  rfl

theorem line_outside {i : Nat} (h : percentileIndex a p i < 0) : line a p i = none := by
  rw [line, loadAt, if_neg (by omega)]
  rfl

theorem mapM_some {α β : Type} {f : α → Option β} {g : α → β} {l : List α}
    (h : ∀ x ∈ l, f x = some (g x)) : l.mapM f = some (l.map g) := by
  induction l with
  | nil => rfl
  | cons x l ih =>
    rw [List.mapM_cons, h x List.mem_cons_self, ih fun y hy => h y (List.mem_cons_of_mem x hy)]
    rfl

def sorted (qsort : Qsort UInt64) (p : Percentile) : Percentile :=
  { p with
    measurementArray :=
      ⟨p.measurementArray.toMemory.store 0 (qsort.sort compareValuesForSorting p.measurements),
        p.measurementArray.size_eq⟩ }

theorem measurements_length (p : Percentile) :
    p.measurements.length = p.currentNumberOfMeasurementses.toNat := load_length _ _ _

theorem measurements_sorted (qsort : Qsort UInt64) (p : Percentile) :
    (sorted qsort p).measurements = qsort.sort compareValuesForSorting p.measurements := by
  have hlength := qsort.length_sort compareValuesForSorting p.measurements
  rw [measurements_length] at hlength
  have hload := load_store_self p.measurementArray.toMemory 0
    (qsort.sort compareValuesForSorting p.measurements)
  rw [hlength] at hload
  exact hload

theorem print_short (qsort : Qsort UInt64)
    (h : p.currentNumberOfMeasurementses < p.maximumNumberOfMeasurementses) :
    printPercentileTableValues a qsort p = some ([], p) := by
  rw [printPercentileTableValues, if_neg (by omega)]

theorem print_full (qsort : Qsort UInt64) (h0 : 0 ≤ p.currentNumberOfMeasurementses)
    (hsize : p.currentNumberOfMeasurementses ≤ numPercentileMeasurements)
    (hfull : p.maximumNumberOfMeasurementses ≤ p.currentNumberOfMeasurementses) :
    printPercentileTableValues a qsort p =
      ((List.range p.numberOfPercentiles.toNat).mapM (line a (sorted qsort p))).map
        fun lines => (lines, sorted qsort p) := by
  have hthousand : (numPercentileMeasurements : Int) = 1000 := rfl
  have hcount : (UInt64.ofInt p.currentNumberOfMeasurementses).toNat =
      p.currentNumberOfMeasurementses.toNat := by
    have hnat : p.currentNumberOfMeasurementses = (p.currentNumberOfMeasurementses.toNat : Nat) := by
      omega
    rw [hnat]
    exact uint64_ofInt_natCast (by omega)
  have hload : p.measurementArray.loadAt 0 p.currentNumberOfMeasurementses.toNat =
      some p.measurements := by
    rw [loadAt, if_pos (by rw [p.measurementArray.size_eq]; omega)]
    rfl
  have hstore : p.measurementArray.storeAt 0 (qsort.sort compareValuesForSorting p.measurements) =
      some (sorted qsort p).measurementArray := by
    rw [MeasurementArray.storeAt,
      if_pos (by rw [qsort.length_sort, measurements_length]; omega)]
    rfl
  rw [printPercentileTableValues, if_pos hfull, hcount]
  simp only [Option.bind_eq_bind, hload, hstore, Option.bind_some]
  exact Option.map_eq_bind.symm

theorem Ready.print (h : Ready p) (qsort : Qsort UInt64)
    (hfull : p.maximumNumberOfMeasurementses ≤ p.currentNumberOfMeasurementses)
    (hinside : Inside a p) : printPercentileTableValues a qsort p =
      some ((List.range p.numberOfPercentiles.toNat).map (row a (sorted qsort p)), sorted qsort p) := by
  have hbound := h.bound
  have hlimit := h.limit
  have hpercentiles := h.percentiles
  rw [print_full qsort h.count (by omega) hfull, mapM_some (g := row a (sorted qsort p))]
  · rfl
  · intro i hi
    have hindex := hinside i (by have := List.mem_range.mp hi; omega)
    have hsame : percentileIndex a (sorted qsort p) i = percentileIndex a p i := rfl
    exact line_inside (by omega) (by omega)

end Print

/-! Sequences of calls. -/

inductive Call where
  | addNanosecondTimeStampMeasurement (measuredValue : UInt64)
  | printPercentileTableValues
  | resetPercentileTableArray

def call {α : Type} (a : Arithmetic α) (qsort : Qsort UInt64) (p : Percentile) :
    Call → Option Percentile
  | .addNanosecondTimeStampMeasurement v => addNanosecondTimeStampMeasurement v p
  | .printPercentileTableValues => (printPercentileTableValues a qsort p).map Prod.snd
  | .resetPercentileTableArray => some p.resetPercentileTableArray

section Run
variable {p : Percentile} {n m : Int}

theorem Ready.reset (h : Ready p) : Ready p.resetPercentileTableArray where
  percentiles := h.percentiles
  few := h.few
  limit := h.limit
  count := Int.le_refl 0
  bound := Int.le_trans h.count h.bound

theorem Ready.call (h : Ready p) (qsort : Qsort UInt64) (c : Call) :
    ∃ p', Percentile.call exact qsort p c = some p' ∧ Ready p' := by
  have hcount := h.count
  have hlimit := h.limit
  cases c with
  | addNanosecondTimeStampMeasurement v =>
    by_cases hlt : p.currentNumberOfMeasurementses < p.maximumNumberOfMeasurementses
    · refine ⟨_, add_inside hcount hlt (by omega) v, h.percentiles, h.few, hlimit, ?_, ?_⟩
      · change 0 ≤ p.currentNumberOfMeasurementses + 1
        omega
      · change p.currentNumberOfMeasurementses + 1 ≤ p.maximumNumberOfMeasurementses
        omega
    · exact ⟨p, add_full (by omega) v, h⟩
  | printPercentileTableValues =>
    by_cases hlt : p.currentNumberOfMeasurementses < p.maximumNumberOfMeasurementses
    · exact ⟨p, by rw [Percentile.call, print_short qsort hlt]; rfl, h⟩
    · refine ⟨sorted qsort p, by rw [Percentile.call, h.print qsort (by omega) (h.inside (by omega))]; rfl, ?_⟩
      exact ⟨h.percentiles, h.few, hlimit, hcount, h.bound⟩
  | resetPercentileTableArray => exact ⟨_, rfl, h.reset⟩

theorem Ready.calls (h : Ready p) (qsort : Qsort UInt64) (cs : List Call) :
    ∃ p', cs.foldlM (Percentile.call exact qsort) p = some p' ∧ Ready p' := by
  induction cs generalizing p with
  | nil => exact ⟨p, rfl, h⟩
  | cons c cs ih =>
    obtain ⟨p', hcall, hp'⟩ := h.call qsort c
    obtain ⟨u, hcalls, hu⟩ := ih hp'
    exact ⟨u, by rw [List.foldlM_cons, hcall]; exact hcalls, hu⟩

def sized (n m : Int) (p : Percentile) : Percentile :=
  { p.resetPercentileTableArray with numberOfPercentiles := n, maximumNumberOfMeasurementses := m }

/-- The trial measurements of the initialisation: 0 and on. -/
def trial (m : Int) : List UInt64 := (List.range m.toNat).map UInt64.ofNat

theorem trial_length (hm : 0 < m) : ((trial m).length : Int) = m := by
  rw [trial, List.length_map, List.length_range]
  omega

theorem initialize_eq {α : Type} {a : Arithmetic α} (hn : 0 < n) (hm : 0 < m) (qsort : Qsort UInt64)
    (p : Percentile) : initializePercentileTable a qsort n m p =
      ((trial m).foldlM (fun p v => addNanosecondTimeStampMeasurement v p) (sized n m p)).bind
        fun p => (printPercentileTableValues a qsort p).map fun r =>
          (r.1, r.2.resetPercentileTableArray) := by
  rw [initializePercentileTable, if_pos ⟨hn, hm⟩]
  simp only [Option.bind_eq_bind, Option.map_eq_bind]
  rfl

theorem trial_full (hm : 0 < m) (hlimit : m ≤ numPercentileMeasurements) (p : Percentile) :
    ∃ p', (trial m).foldlM (fun p v => addNanosecondTimeStampMeasurement v p) (sized n m p) = some p' ∧
      p'.numberOfPercentiles = n ∧ p'.maximumNumberOfMeasurementses = m ∧
      p'.currentNumberOfMeasurementses = m := by
  have hlength := trial_length hm
  have hzero : (sized n m p).currentNumberOfMeasurementses = 0 := rfl
  obtain ⟨p', hadds, hn', hm', hcount, -⟩ := adds_inside (p := sized n m p) (trial m)
    (Int.le_refl 0) (by rw [hzero, hlength, Int.zero_add]; rfl) (by omega)
  exact ⟨p', hadds, hn', hm', by omega⟩

theorem initialize_ready (hn : 0 < n) (hfew : n ≤ m) (hlimit : m ≤ numPercentileMeasurements)
    (qsort : Qsort UInt64) (p : Percentile) :
    ∃ lines p', initializePercentileTable exact qsort n m p = some (lines, p') ∧ Ready p' := by
  have hm : 0 < m := by omega
  obtain ⟨t, hadds, hn', hm', hcount⟩ := trial_full (n := n) hm hlimit p
  have ht : Ready t := ⟨by omega, by omega, by omega, by omega, by omega⟩
  refine ⟨_, _, by rw [initialize_eq hn hm, hadds, Option.bind_some, ht.print qsort (by omega)
    (ht.inside (by omega))]; rfl, ?_⟩
  exact Ready.reset ⟨ht.percentiles, ht.few, ht.limit, ht.count, ht.bound⟩

/-- Too many measurements end behind the array, too many percentiles before it. -/
theorem initialize_none (hn : 0 < n) (hm : 0 < m)
    (hout : ¬(m ≤ numPercentileMeasurements ∧ n ≤ m)) (qsort : Qsort UInt64) (p : Percentile) :
    initializePercentileTable exact qsort n m p = none := by
  rw [initialize_eq hn hm]
  have hlength := trial_length hm
  have hzero : (sized n m p).currentNumberOfMeasurementses = 0 := rfl
  by_cases hlimit : m ≤ numPercentileMeasurements
  · obtain ⟨t, hadds, hn', hm', hcount⟩ := trial_full (n := n) hm hlimit p
    have hfirst : percentileIndex exact (sorted qsort t) 0 < 0 := by
      change percentileIndex exact t 0 < 0
      rw [percentileIndex_eq (by omega), hn', hcount, Nat.cast_zero, Int.zero_add, Int.one_mul,
        Int.ediv_eq_zero_of_lt (by omega) (by omega)]
      decide
    have hrange : List.range n.toNat = 0 :: (List.range (n.toNat - 1)).map Nat.succ := by
      rw [← List.range_succ_eq_map]
      congr 1
      omega
    rw [hadds, Option.bind_some, print_full qsort (by omega) (by omega) (by omega), hn', hrange,
      List.mapM_cons, line_outside hfirst]
    rfl
  · rw [adds_outside (Int.le_refl 0) (by rw [hzero, hlength, Int.zero_add]; rfl) (by omega) (by omega)]
    rfl

/-- With sizes that the initialisation lets pass, every index of every sequence of calls is inside
the array exactly if there are no more percentiles than measurements, and no more measurements than
the array holds. -/
theorem indices_in_range (hn : 0 < n) (hm : 0 < m) (qsort : Qsort UInt64) (p : Percentile) :
    (∀ cs : List Call, ((initializePercentileTable exact qsort n m p).bind fun r =>
      cs.foldlM (call exact qsort) r.2).isSome) ↔ m ≤ numPercentileMeasurements ∧ n ≤ m := by
  constructor
  · intro h
    by_contra hout
    have hnil := h []
    rw [initialize_none hn hm hout] at hnil
    simp at hnil
  · rintro ⟨hlimit, hfew⟩ cs
    obtain ⟨lines, p', hinit, hp'⟩ := initialize_ready hn hfew hlimit qsort p
    obtain ⟨u, hcalls, -⟩ := hp'.calls qsort cs
    rw [hinit, Option.bind_some, hcalls]
    rfl

def blank : Percentile := ⟨⟨⟨numPercentileMeasurements, fun _ => 0⟩, rfl⟩, 0, 0, 0⟩

theorem indices_in_range_constructed :
    ((initializePercentileTable exact mergeQsort numPercentiles numPercentileMeasurements blank).bind fun r =>
      [Call.addNanosecondTimeStampMeasurement 7, .printPercentileTableValues].foldlM
        (call exact mergeQsort) r.2).isSome :=
  (indices_in_range (by decide) (by decide) mergeQsort blank).mpr ⟨by decide, by decide⟩ _

/-- 20 percentiles of 10 measurements, and one measurement more than there is room for. -/
theorem sizes_unchecked :
    ¬(∀ cs : List Call, ((initializePercentileTable exact mergeQsort 20 10 blank).bind fun r =>
      cs.foldlM (call exact mergeQsort) r.2).isSome) ∧
    ¬(∀ cs : List Call, ((initializePercentileTable exact mergeQsort 10 1001 blank).bind fun r =>
      cs.foldlM (call exact mergeQsort) r.2).isSome) := by
  constructor
  · intro h
    have hnil := h []
    rw [initialize_none (by decide) (by decide) (by decide)] at hnil
    simp at hnil
  · intro h
    have hnil := h []
    rw [initialize_none (by decide) (by decide) (by decide)] at hnil
    simp at hnil

/-- With the numbers of the source the first of 37 percentiles of 37 measurements is before the array. -/
example : percentileIndex double { blank with currentNumberOfMeasurementses := 37, numberOfPercentiles := 37 }
    0 = -1 := by decide +kernel

end Run
end UdpSm.Percentile
