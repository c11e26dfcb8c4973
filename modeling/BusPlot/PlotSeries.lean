import BusPlot.Library.HalvingSearch
import Mathlib.Data.Int.Notation
import Mathlib.Tactic.Common

/-!
# One plotted variable

A dot keeps the clock reading in microseconds and the thirty-two bits of the
received number; the code stores both as doubles, the first divided by a million.
There is no result where a vector would be built from a range that ends before it
begins. Strings are their bytes.
-/

set_option autoImplicit false

namespace BusPlot.PlotSeries

structure Dot where
  time : ℤ
  value : UInt32
  deriving DecidableEq, Repr

@[ext]
structure Series where
  data : List Dot
  label : List UInt8
  deriving DecidableEq, Repr

def builtRange {α : Type*} (data : List α) (rangeBegin rangeEnd : ℕ) : Option (ℕ × ℕ) :=
  if rangeBegin = data.length then none else some (rangeBegin, rangeEnd)

def build {α : Type*} (data : List α) : Option (ℕ × ℕ) → Option (List α)
  | none => some []
  | some r => if r.1 ≤ r.2 then some ((data.take r.2).drop r.1) else none

theorem build_range {α : Type*} (data : List α) (rangeBegin rangeEnd : ℕ)
    (h : rangeBegin ≤ rangeEnd) :
    build data (builtRange data rangeBegin rangeEnd) =
      some ((data.take rangeEnd).drop rangeBegin) := by
  unfold builtRange
  by_cases hend : rangeBegin = data.length
  · rw [if_pos hend, hend, List.drop_eq_nil_of_le (List.length_take_le' _ _), build]
  · rw [if_neg hend, build, if_pos h]

theorem build_map {α β : Type*} (f : α → β) (data : List α) (r : Option (ℕ × ℕ)) :
    build (data.map f) r = (build data r).map (List.map f) := by
  cases r with
  | none => rfl
  | some r =>
    rw [build, build, ← List.map_take, ← List.map_drop]
    split <;> rfl

theorem build_subset {α : Type*} (data : List α) (r : Option (ℕ × ℕ)) (dots : List α)
    (h : build data r = some dots) (d : α) (hd : d ∈ dots) : d ∈ data := by
  cases r with
  | none =>
    cases h
    cases hd
  | some r =>
    rw [build] at h
    split at h
    · cases h
      exact List.mem_of_mem_take (List.mem_of_mem_drop hd)
    · cases h

namespace Series

def make (label : List UInt8) : Series := ⟨[], label⟩

def addData (s : Series) (data : Dot) : Series := { s with data := s.data ++ [data] }

def setLabel (s : Series) (label : List UInt8) : Series := { s with label := label }

def rangeBegin (s : Series) (beginTime : ℤ) : ℕ :=
  HalvingSearch.search (fun d => decide (d.time < beginTime)) s.data

def rangeEnd (s : Series) (endTime : ℤ) : ℕ :=
  HalvingSearch.search (fun d => decide (¬ endTime < d.time)) s.data

def range (s : Series) (beginTime endTime : ℤ) : Option (ℕ × ℕ) :=
  builtRange s.data (s.rangeBegin beginTime) (s.rangeEnd endTime)

def generateDots (s : Series) (beginTime endTime : ℤ) : Option (List Dot) :=
  build s.data (s.range beginTime endTime)

@[simp] theorem make_data (label : List UInt8) : (make label).data = [] := rfl
@[simp] theorem make_label (label : List UInt8) : (make label).label = label := rfl
@[simp] theorem addData_data (s : Series) (d : Dot) : (s.addData d).data = s.data ++ [d] := rfl
@[simp] theorem addData_label (s : Series) (d : Dot) : (s.addData d).label = s.label := rfl
@[simp] theorem setLabel_data (s : Series) (l : List UInt8) : (s.setLabel l).data = s.data := rfl
@[simp] theorem setLabel_label (s : Series) (l : List UInt8) : (s.setLabel l).label = l := rfl

end Series

end BusPlot.PlotSeries
