import BusPlot.SeriesWindow
import BusPlot.ChartReplay

/-!
# What is drawn

The lines that `RenderPlot` hands to the plot and the rows of `RenderTable`, with
the sparkline of each. Both walk the map in its own order, which is nobody's
business; what a walk finds under a key is the series of that variable. There is
no result where a null pointer would be followed or a vector built backwards.
Times are microseconds, shifted into the time zone as whole hours.
-/

set_option autoImplicit false

namespace BusPlot.PlotDrawing
open BusPlot.PlotSeries BusPlot.PlotChart BusPlot.Handlers BusPlot.ChartReplay
open BusPlot.SeriesOrder BusPlot.RenderWindow BusPlot.SeriesWindow HalvingSearch

def tmHour (time offset : ℤ) : ℤ := (time+offset)/3600%24

def timeZoneDiff (offset : ℤ) : ℤ := tmHour (60*60*11) offset-tmHour (60*60*11) 0

def microseconds (hours : ℤ) : ℤ := hours*3600000000

def shift (timeZoneDiff : ℤ) (dot : Dot) : Dot :=
  { dot with time := dot.time+microseconds timeZoneDiff }

def xMin (timeZoneDiff timeLimit timeNow : ℤ) : ℤ := timeNow-timeLimit+microseconds timeZoneDiff
def xMax (timeZoneDiff timeNow : ℤ) : ℤ := timeNow+microseconds timeZoneDiff

structure Line where
  label : List UInt8
  dots : List Dot
  deriving DecidableEq, Repr

def drawn (timeZoneDiff timeLimit timeNow : ℤ) (series : Series) : Option (Option (List Dot)) :=
  (series.generateDots (timeNow-timeLimit) timeNow).map fun buffer =>
    if buffer.isEmpty then none else some (buffer.map (shift timeZoneDiff))

def renderPlot (c : Chart) (beginPlot : Bool) (timeZoneDiff timeLimit timeNow : ℤ) :
    Option (List Line) :=
  if beginPlot then
    (c.series.entries.mapM fun item =>
      (c.deref item.2).bind fun series =>
        (drawn timeZoneDiff timeLimit timeNow series).map fun dots =>
          dots.map (Line.mk series.label)).map fun lines => lines.filterMap id
  else some []

def sparkline (beginPlot : Bool) (timeZoneDiff timeLimit timeNow : ℤ) (series : Series) :
    Option (Option (List Dot)) :=
  if beginPlot then drawn timeZoneDiff timeLimit timeNow series else some none

structure Row where
  id : ℕ
  label : List UInt8
  value : Option UInt32
  spark : Option (List Dot)
  deriving DecidableEq, Repr

structure Cell where
  timeNow : ℤ
  beginPlot : Bool

def renderTable (c : Chart) (beginTable : Bool) (timeZoneDiff timeLimit : ℤ) (cells : ℕ → Cell) :
    Option (List Row) :=
  if beginTable then
    c.series.entries.zipIdx.mapM fun item =>
      (c.deref item.1.2).bind fun series =>
        (sparkline (cells item.2).beginPlot timeZoneDiff timeLimit (cells item.2).timeNow series).map
          (Row.mk item.2 series.label (series.data.getLast?.map (·.value)))
  else some []

def window (timeLimit timeNow : ℤ) (data : List Dot) : List Dot :=
  data.filter fun d => timeNow-timeLimit ≤ d.time ∧ d.time ≤ timeNow

def picture (timeZoneDiff timeLimit timeNow : ℤ) (data : List Dot) : Option (List Dot) :=
  if window timeLimit timeNow data = [] then none
  else some ((window timeLimit timeNow data).map (shift timeZoneDiff))

theorem drawn_picture (s : Series) (hs : InOrder s.data) (timeZoneDiff timeLimit timeNow : ℤ)
    (h : 0 ≤ timeLimit) :
    drawn timeZoneDiff timeLimit timeNow s =
      some (picture timeZoneDiff timeLimit timeNow s.data) := by
  rw [drawn, generateDots_filter s hs _ _ (by omega), Option.map_some, picture, window]
  simp only [List.isEmpty_iff]

theorem picture_inside (timeZoneDiff timeLimit timeNow : ℤ) (data dots : List Dot)
    (h : picture timeZoneDiff timeLimit timeNow data = some dots) :
    dots ≠ [] ∧ ∀ d ∈ dots, xMin timeZoneDiff timeLimit timeNow ≤ d.time ∧
      d.time ≤ xMax timeZoneDiff timeNow := by
  unfold picture at h
  split at h
  · cases h
  · rename_i hne
    cases h
    refine ⟨by simpa using hne, fun d hd => ?_⟩
    obtain ⟨e, he, rfl⟩ := List.mem_map.mp hd
    have hwindow := (List.mem_filter.mp he).2
    simp only [decide_eq_true_eq] at hwindow
    simp only [shift, xMin, xMax]
    omega

theorem deref_entry (c : Chart) (hc : c.Linked) (item : Σ _ : UInt16, SharedPtr)
    (h : item ∈ c.series.entries) :
    ∃ s, c.deref item.2 = some s ∧ c.view item.1 = some s := by
  have hlookup : c.series.lookup item.1 = some item.2 := AList.mem_lookup_iff.mpr h
  obtain ⟨i, hi, -⟩ := hc.alive item.1 item.2 hlookup
  rw [hi] at hlookup
  obtain ⟨s, hs, hview⟩ := c.view_linked hc item.1 i hlookup
  refine ⟨s, ?_, hview⟩
  rw [hi]
  exact hs

theorem mapM_some {α β : Type} (xs : List α) (f : α → Option β) (g : α → β)
    (h : ∀ x ∈ xs, f x = some (g x)) : xs.mapM f = some (xs.map g) := by
  induction xs with
  | nil => rfl
  | cons x xs ih => simp [h x (by simp), ih fun y hy => h y (by simp [hy])]

def rowOf (timeZoneDiff timeLimit : ℤ) (cells : ℕ → Cell) (c : Chart) (v : UInt16) (id : ℕ) : Row :=
  let s := (c.view v).getD (.make [])
  ⟨id, s.label, s.data.getLast?.map (·.value),
    if (cells id).beginPlot then picture timeZoneDiff timeLimit (cells id).timeNow s.data else none⟩

theorem sparkline_picture (s : Series) (hs : InOrder s.data) (beginPlot : Bool)
    (timeZoneDiff timeLimit timeNow : ℤ) (h : 0 ≤ timeLimit) :
    sparkline beginPlot timeZoneDiff timeLimit timeNow s =
      some (if beginPlot then picture timeZoneDiff timeLimit timeNow s.data else none) := by
  cases beginPlot with
  | true => exact drawn_picture s hs timeZoneDiff timeLimit timeNow h
  | false => rfl

theorem renderTable_rows (c : Chart) (hc : c.Linked) (ho : EverySeriesInOrder c)
    (timeZoneDiff timeLimit : ℤ) (cells : ℕ → Cell) (h : 0 ≤ timeLimit) :
    renderTable c true timeZoneDiff timeLimit cells =
      some (c.series.keys.zipIdx.map fun k =>
        rowOf timeZoneDiff timeLimit cells c k.1 k.2) := by
  have hitem : ∀ item ∈ c.series.entries.zipIdx, ((c.deref item.1.2).bind fun series =>
      (sparkline (cells item.2).beginPlot timeZoneDiff timeLimit (cells item.2).timeNow series).map
        (Row.mk item.2 series.label (series.data.getLast?.map (·.value)))) =
          some (rowOf timeZoneDiff timeLimit cells c item.1.1 item.2) := by
    intro item hitem
    obtain ⟨s, hs, hview⟩ := deref_entry c hc item.1 (List.fst_mem_of_mem_zipIdx hitem)
    rw [hs, Option.bind_some, sparkline_picture s (ho item.1.1 s hview) _ _ _ _ h, Option.map_some,
      rowOf, hview]
    rfl
  have hkeys : c.series.keys = c.series.entries.map Sigma.fst := rfl
  rw [renderTable, if_pos rfl, mapM_some _ _ _ hitem, hkeys, List.zipIdx_map, List.map_map]
  rfl

end BusPlot.PlotDrawing
