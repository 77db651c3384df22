import UdpSm.Utils
import UdpSm.Lib.Memory
import UdpSm.Lib.Qsort
import Mathlib.Data.Rat.Floor

/-! `Percentile.cpp`: the latencies measured, and the table of their percentiles. Every index of
`MeasurementArray` is checked, so `none` means one outside. -/
namespace UdpSm
open Lib Memory

def numPercentiles : Int := 10
def numPercentileMeasurements : Nat := 1000

/-- The array is a member of the object, so its size is fixed. -/
structure MeasurementArray extends Memory UInt64 where
  size_eq : size = numPercentileMeasurements

def MeasurementArray.storeAt (a : MeasurementArray) (i : Int) (xs : List UInt64) :
    Option MeasurementArray :=
  if 0 ≤ i ∧ i + xs.length ≤ numPercentileMeasurements then
    some ⟨a.toMemory.store i.toNat xs, a.size_eq⟩
  else none

structure Percentile where
  measurementArray : MeasurementArray
  currentNumberOfMeasurementses : Int
  maximumNumberOfMeasurementses : Int
  numberOfPercentiles : Int

namespace Percentile

/-- The arithmetic of the percentages. -/
structure Arithmetic (α : Type) where
  ofInt : Int → α
  mul : α → α → α
  div : α → α → α
  toInt : α → Int

/-- The numbers of the source, which are rounded after every operation. -/
def double : Arithmetic Float where
  ofInt := Float.ofInt
  mul x y := x * y
  div x y := x / y
  -- `(int)`, of numbers that are not negative
  toInt x := x.toUInt32.toNat

def exact : Arithmetic Rat where
  ofInt n := n
  mul x y := x * y
  div x y := x / y
  toInt := Rat.floor

def resetPercentileTableArray (p : Percentile) : Percentile :=
  { p with currentNumberOfMeasurementses := 0 }

def addNanosecondTimeStampMeasurement (measuredValue : UInt64) (p : Percentile) :
    Option Percentile :=
  if p.currentNumberOfMeasurementses < p.maximumNumberOfMeasurementses then
    (p.measurementArray.storeAt p.currentNumberOfMeasurementses [measuredValue]).map fun array =>
      { p with
        measurementArray := array
        currentNumberOfMeasurementses := int32 (p.currentNumberOfMeasurementses + 1) }
  else some p

def getLatency (tscEndCycles tscTimeStamp : UInt64) : UInt64 := tscEndCycles - tscTimeStamp

/-- The difference of two `uint64_t`, returned as an `int`. -/
def compareValuesForSorting (v w : UInt64) : Int := int32 (v - w).toNat

section Print
variable {α : Type} (a : Arithmetic α)

def percentileValueAtIndex (p : Percentile) (i : Nat) : α :=
  a.div (a.mul (a.ofInt (i + 1)) (a.ofInt 100)) (a.ofInt p.numberOfPercentiles)

def percentileIndex (p : Percentile) (i : Nat) : Int :=
  a.toInt (a.mul (a.div (percentileValueAtIndex a p i) (a.ofInt 100))
    (a.ofInt p.currentNumberOfMeasurementses)) - 1

def line (p : Percentile) (i : Nat) : Option (α × UInt64) :=
  (p.measurementArray.loadAt (percentileIndex a p i) 1).bind fun cell =>
    cell.head?.map fun valueAtIndex => (percentileValueAtIndex a p i, valueAtIndex)

def printPercentileTableValues (qsort : Qsort UInt64) (p : Percentile) :
    Option (List (α × UInt64) × Percentile) :=
  if p.maximumNumberOfMeasurementses ≤ p.currentNumberOfMeasurementses then do
    -- the count goes to `qsort` as a `size_t`
    let count := (UInt64.ofInt p.currentNumberOfMeasurementses).toNat
    let values ← p.measurementArray.loadAt 0 count
    let array ← p.measurementArray.storeAt 0 (qsort.sort compareValuesForSorting values)
    let p := { p with measurementArray := array }
    let lines ← (List.range p.numberOfPercentiles.toNat).mapM (line a p)
    some (lines, p)
  else some ([], p)

def initializePercentileTable (qsort : Qsort UInt64)
    (numberOfPercentiles maximumNumberOfMeasurementses : Int) (p : Percentile) :
    Option (List (α × UInt64) × Percentile) :=
  if numberOfPercentiles > 0 ∧ maximumNumberOfMeasurementses > 0 then do
    let p := { p.resetPercentileTableArray with
      numberOfPercentiles := numberOfPercentiles
      maximumNumberOfMeasurementses := maximumNumberOfMeasurementses }
    let values := (List.range maximumNumberOfMeasurementses.toNat).map UInt64.ofNat
    let p ← values.foldlM (fun p i => addNanosecondTimeStampMeasurement i p) p
    let (lines, p) ← printPercentileTableValues a qsort p
    some (lines, p.resetPercentileTableArray)
  else some ([], p)

end Print

def constructed (qsort : Qsort UInt64) (p : Percentile) : Option Percentile :=
  (initializePercentileTable double qsort numPercentiles numPercentileMeasurements p).map Prod.snd

end Percentile
end UdpSm
