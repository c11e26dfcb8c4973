import BusPlot.RenderWindow

/-!
# What `GenerateDots` returns

One call on samples that stand in time order. The times are exact counts of
microseconds here; the doubles that the code keeps of them are a module of their own.
-/

set_option autoImplicit false

namespace BusPlot.SeriesWindow
open BusPlot.PlotSeries BusPlot.SeriesOrder BusPlot.RenderWindow HalvingSearch

theorem generateDots_filter (s : Series) (hs : InOrder s.data) (beginTime endTime : ℤ)
    (h : beginTime ≤ endTime+1) :
    s.generateDots beginTime endTime =
      some (s.data.filter fun d => beginTime ≤ d.time ∧ d.time ≤ endTime) := by
  have hweaker : ∀ d ∈ s.data, decide (d.time < beginTime) = true →
      decide (¬ endTime < d.time) = true := by
    intro d _ hd
    simp only [decide_eq_true_eq] at hd ⊢
    omega
  have hle : s.rangeBegin beginTime ≤ s.rangeEnd endTime := search_mono _ _ _ hweaker
  rw [Series.generateDots, Series.range, build_range s.data _ _ hle, Series.rangeEnd,
    Series.rangeBegin, between_searches _ _ _ (begin_partitioned s.data hs beginTime)
      (end_partitioned s.data hs endTime) hweaker]
  congr 1
  apply List.filter_congr
  intro d _
  rw [Bool.eq_iff_iff]
  simp

/-- On sorted samples a call returns those of the window, both ends included,
and a call at any point of the life of a series does not change it. -/
theorem generateDots_window (s : Series) (hs : InOrder s.data) (beginTime endTime : ℤ)
    (h : beginTime ≤ endTime) :
    s.generateDots beginTime endTime =
        some (s.data.filter fun d => beginTime ≤ d.time ∧ d.time ≤ endTime) ∧
      ∀ setBack w w', w.series = s → step setBack w .generateDots = some w' → w'.series = s := by
  constructor
  · exact generateDots_filter s hs beginTime endTime (by omega)
  · rintro setBack w w' rfl hstep
    obtain ⟨f, -, rfl⟩ := Option.map_eq_some_iff.mp hstep
    rfl

def sameTime : Series := ⟨[⟨5, 1⟩, ⟨5, 2⟩, ⟨8, 3⟩], []⟩

theorem generateDots_window_sameTime :
    sameTime.generateDots 5 5 = some [⟨5, 1⟩, ⟨5, 2⟩] ∧
      ∀ setBack w w', w.series = sameTime → step setBack w .generateDots = some w' →
        w'.series = sameTime :=
  generateDots_window sameTime (by simp [sameTime, InOrder]) 5 5 (by decide)

end BusPlot.SeriesWindow
