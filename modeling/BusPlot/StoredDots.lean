import BusPlot.SeriesWindow
import BusPlot.Library.DoubleRounding

/-!
# What is stored of the dots

The doubles of a series, and `GenerateDots` on them as the code has it: a time is
scaled to microseconds, which rounds it, and compared with a converted count. The
samples may be in any order, and a time need not be a number. A time that the update
handler took from the clock is the count of its microseconds divided by a million.
From 2^50 microseconds to 2^31 seconds, between the years 2005 and 2038, scaling gives
the count back; outside it can go wrong by less than one microsecond.
-/

set_option autoImplicit false

namespace BusPlot.StoredDots
open BusPlot.PlotSeries BusPlot.PlotChart BusPlot.Handlers BusPlot.SeriesOrder BusPlot.SeriesWindow
open HalvingSearch DoubleRounding

structure StoredDot where
  time : Float
  value : Float

structure StoredSeries where
  data : List StoredDot

namespace StoredSeries

def scaledTime (d : StoredDot) : Float := d.time * DoubleOrder.ofInt 1000000

def rangeBegin (s : StoredSeries) (beginTime : ℤ) : ℕ :=
  search (fun d => decide (scaledTime d < DoubleOrder.ofInt beginTime)) s.data

def rangeEnd (s : StoredSeries) (endTime : ℤ) : ℕ :=
  search (fun d => decide (¬ DoubleOrder.ofInt endTime < scaledTime d)) s.data

def range (s : StoredSeries) (beginTime endTime : ℤ) : Option (ℕ × ℕ) :=
  builtRange s.data (s.rangeBegin beginTime) (s.rangeEnd endTime)

def generateDots (s : StoredSeries) (beginTime endTime : ℤ) : Option (List StoredDot) :=
  build s.data (s.range beginTime endTime)

end StoredSeries

/-- A scaled time before the begin is not behind the end; one that is not a number
is neither. -/
theorem stored_searches_ordered (s : StoredSeries) (beginTime endTime : ℤ)
    (h : beginTime ≤ endTime) : s.rangeBegin beginTime ≤ s.rangeEnd endTime := by
  apply search_mono
  intro d _ hd
  simp only [decide_eq_true_eq] at hd ⊢
  exact DoubleOrder.not_between _ beginTime endTime h hd

/-- Whatever doubles a series keeps and in whatever order, the searches stand the
right way round inside the data, and a call returns what lies between them. -/
theorem generateDots_slice (s : StoredSeries) (beginTime endTime : ℤ) (h : beginTime ≤ endTime) :
    s.rangeBegin beginTime ≤ s.rangeEnd endTime ∧ s.rangeEnd endTime ≤ s.data.length ∧
      ∃ before dots behind, s.data = before ++ (dots ++ behind) ∧
        before.length = s.rangeBegin beginTime ∧
        before.length+dots.length = s.rangeEnd endTime ∧
        s.generateDots beginTime endTime = some dots := by
  have hle := stored_searches_ordered s beginTime endTime h
  have hlen : s.rangeEnd endTime ≤ s.data.length := search_le _ _
  refine ⟨hle, hlen, s.data.take (s.rangeBegin beginTime),
    (s.data.take (s.rangeEnd endTime)).drop (s.rangeBegin beginTime),
    s.data.drop (s.rangeEnd endTime), ?_, ?_, ?_, build_range s.data _ _ hle⟩
  · rw [← List.append_assoc]
    have hbefore : s.data.take (s.rangeBegin beginTime) =
        (s.data.take (s.rangeEnd endTime)).take (s.rangeBegin beginTime) := by
      rw [List.take_take, Nat.min_eq_left hle]
    rw [hbefore, List.take_append_drop, List.take_append_drop]
  · rw [List.length_take]
    omega
  · rw [List.length_take, List.length_drop, List.length_take]
    omega

def unsorted : StoredSeries :=
  ⟨[⟨0.000005, 1⟩, ⟨0.0/0.0, 2⟩, ⟨0.0000035, 3⟩, ⟨0.000123, 4⟩, ⟨0.0000045, 5⟩]⟩

theorem generateDots_slice_unsorted :
    unsorted.rangeBegin 4 ≤ unsorted.rangeEnd 6 ∧ unsorted.rangeEnd 6 ≤ unsorted.data.length ∧
      ∃ before dots behind, unsorted.data = before ++ (dots ++ behind) ∧
        before.length = unsorted.rangeBegin 4 ∧
        before.length+dots.length = unsorted.rangeEnd 6 ∧
        unsorted.generateDots 4 6 = some dots :=
  generateDots_slice unsorted 4 6 (by decide)

def widened (value : UInt32) : Float :=
  match (Float32.ofBits value).toModel.unpack with
  | .finite sign m e _ => .ofModel (.pack (Float.Model.UnpackedFloat.round .binary64 sign m e))
  | unpacked => .ofModel (.pack unpacked)

def stored (d : Dot) : StoredDot :=
  ⟨DoubleOrder.ofInt d.time / DoubleOrder.ofInt 1000000, widened d.value⟩

def storedSeries (s : Series) : StoredSeries := ⟨s.data.map stored⟩

theorem generateDots_stored (s : Series) (beginTime endTime firstTime lastTime : ℤ)
    (hbegin : ∀ d ∈ s.data,
      (StoredSeries.scaledTime (stored d) < DoubleOrder.ofInt beginTime ↔ d.time < firstTime))
    (hend : ∀ d ∈ s.data,
      (DoubleOrder.ofInt endTime < StoredSeries.scaledTime (stored d) ↔ lastTime < d.time)) :
    (storedSeries s).generateDots beginTime endTime =
      (s.generateDots firstTime lastTime).map (List.map stored) := by
  have hfirst : (storedSeries s).rangeBegin beginTime = s.rangeBegin firstTime := by
    rw [StoredSeries.rangeBegin, storedSeries, search_map]
    exact search_congr _ _ _ fun d hd => by simp only [hbegin d hd]
  have hlast : (storedSeries s).rangeEnd endTime = s.rangeEnd lastTime := by
    rw [StoredSeries.rangeEnd, storedSeries, search_map]
    exact search_congr _ _ _ fun d hd => by simp only [hend d hd]
  have hrange : (storedSeries s).range beginTime endTime = s.range firstTime lastTime := by
    rw [StoredSeries.range, Series.range, hfirst, hlast, builtRange, builtRange, storedSeries,
      List.length_map]
  rw [StoredSeries.generateDots, Series.generateDots, hrange]
  exact build_map stored s.data _

theorem generateDots_exact (s : Series)
    (h : ∀ d ∈ s.data, 2^50 < d.time ∧ d.time < 2^31*1000000) (beginTime endTime : ℤ) :
    (storedSeries s).generateDots beginTime endTime =
      (s.generateDots beginTime endTime).map (List.map stored) := by
  have hscaled : ∀ d ∈ s.data, ∀ b : ℤ,
      (StoredSeries.scaledTime (stored d) < DoubleOrder.ofInt b ↔ d.time < b) ∧
        (DoubleOrder.ofInt b < StoredSeries.scaledTime (stored d) ↔ b < d.time) := by
    rintro d hd b
    obtain ⟨hlow, hhigh⟩ := h d hd
    obtain ⟨n, hn⟩ := Int.eq_ofNat_of_zero_le (by omega : 0 ≤ d.time)
    rw [StoredSeries.scaledTime, stored, hn]
    exact scaled_exact_lt_iff n 1000000 b (by omega) (by omega) (by decide)
  exact generateDots_stored s beginTime endTime beginTime endTime
    (fun d hd => (hscaled d hd beginTime).1) fun d hd => (hscaled d hd endTime).2

theorem series_samples (log : List Message) (c : Chart) (h : handleAll .empty log = some c)
    (v : UInt16) (s : Series) (hv : c.view v = some s) : s.data = samples v log := by
  have hdata := handleAll_data log c h v
  rw [hv] at hdata
  rw [← replayed_data, ← hdata]
  rfl

theorem series_stamps (log : List Message) (c : Chart) (h : handleAll .empty log = some c)
    (v : UInt16) (s : Series) (hv : c.view v = some s) (range : ℤ → Prop)
    (hstamps : ∀ req now, .updateVariable req now ∈ log → range now) :
    ∀ d ∈ s.data, range d.time := by
  rintro d hd
  rw [series_samples log c h v s hv] at hd
  obtain ⟨pre, req, post, rfl, -, -, -⟩ := (mem_samples v log d).mp hd
  exact hstamps req d.time (by simp)

/-- Whatever the handlers have stored of readings between the two bounds, the doubles
select what the exact counts do. -/
theorem chart_dots_exact (log : List Message) (c : Chart) (h : handleAll .empty log = some c)
    (hstamps : ∀ req now, .updateVariable req now ∈ log → 2^50 < now ∧ now < 2^31*1000000)
    (v : UInt16) (s : Series) (hv : c.view v = some s) (beginTime endTime : ℤ) :
    (storedSeries s).generateDots beginTime endTime =
        (s.generateDots beginTime endTime).map (List.map stored) ∧
      (InOrder (samples v log) → beginTime ≤ endTime →
        (storedSeries s).generateDots beginTime endTime =
          some (((samples v log).filter fun d =>
            beginTime ≤ d.time ∧ d.time ≤ endTime).map stored)) := by
  have hsame := generateDots_exact s (series_stamps log c h v s hv _ hstamps) beginTime endTime
  refine ⟨hsame, fun hs hle => ?_⟩
  rw [← series_samples log c h v s hv] at hs ⊢
  rw [hsame, generateDots_filter s hs beginTime endTime (by omega), Option.map_some]

def today : List Message :=
  [.updateVariable ⟨7, 1⟩ 1753000000000122, .updateVariable ⟨7, 2⟩ 1753000000000123,
    .updateVariable ⟨9, 5⟩ 1753000000000125, .updateVariable ⟨9, 6⟩ 1753000000000121,
    .updateVariable ⟨7, 3⟩ 1753000000000123, .updateVariable ⟨7, 4⟩ 1753000000000124]

def todaySeries : Series :=
  ⟨[⟨1753000000000122, 1⟩, ⟨1753000000000123, 2⟩, ⟨1753000000000123, 3⟩, ⟨1753000000000124, 4⟩],
    varLabel 7⟩

def setBackSeries : Series := ⟨[⟨1753000000000125, 5⟩, ⟨1753000000000121, 6⟩], varLabel 9⟩

theorem chart_dots_exact_today :
    ∃ c, handleAll .empty today = some c ∧
      c.view 7 = some todaySeries ∧ c.view 9 = some setBackSeries ∧
      (storedSeries todaySeries).generateDots 1753000000000123 1753000000000123 =
        some [stored ⟨1753000000000123, 2⟩, stored ⟨1753000000000123, 3⟩] ∧
      (storedSeries setBackSeries).generateDots 1753000000000120 1753000000000123 =
        (setBackSeries.generateDots 1753000000000120 1753000000000123).map (List.map stored) := by
  have hstamps : ∀ req now, Message.updateVariable req now ∈ today →
      2^50 < now ∧ now < 2^31*1000000 := by
    rintro req now hmem
    simp only [today, List.mem_cons, Message.updateVariable.injEq, List.not_mem_nil,
      or_false] at hmem
    omega
  have horder : InOrder (samples 7 today) :=
    (by simp [todaySeries, InOrder] : InOrder todaySeries.data)
  refine ⟨_, rfl, rfl, rfl, ?_, ?_⟩
  · exact (chart_dots_exact today _ rfl hstamps 7 todaySeries rfl _ _).2 horder (le_refl _)
  · exact (chart_dots_exact today _ rfl hstamps 9 setBackSeries rfl _ _).1

section edges
variable (beginTime endTime : ℤ)

def firstTime : ℤ :=
  if StoredSeries.scaledTime (stored ⟨beginTime, 0⟩) < DoubleOrder.ofInt beginTime then beginTime+1
  else beginTime

def lastTime : ℤ :=
  if DoubleOrder.ofInt endTime < StoredSeries.scaledTime (stored ⟨endTime, 0⟩) then endTime-1
  else endTime

theorem firstTime_bounds : beginTime ≤ firstTime beginTime ∧ firstTime beginTime ≤ beginTime+1 := by
  unfold firstTime
  split <;> omega

theorem lastTime_bounds : endTime-1 ≤ lastTime endTime ∧ lastTime endTime ≤ endTime := by
  unfold lastTime
  split <;> omega

theorem times_ordered (h : beginTime ≤ endTime) : firstTime beginTime ≤ lastTime endTime+1 := by
  have hfirst := firstTime_bounds beginTime
  have hlast := lastTime_bounds endTime
  rcases h.lt_or_eq with hlt | rfl
  · omega
  · unfold firstTime
    split
    · rename_i hbegin
      rw [lastTime, if_neg (DoubleOrder.lt_asymm _ _ hbegin)]
    · omega

theorem stored_lt_iff (d : Dot) (h : 0 < d.time ∧ d.time < 2^52) (b : ℤ) (hb : d.time ≠ b) :
    (StoredSeries.scaledTime (stored d) < DoubleOrder.ofInt b ↔ d.time < b) ∧
      (DoubleOrder.ofInt b < StoredSeries.scaledTime (stored d) ↔ b < d.time) := by
  obtain ⟨n, hn⟩ := Int.eq_ofNat_of_zero_le h.1.le
  rw [StoredSeries.scaledTime, stored, hn]
  exact scaled_lt_iff n 1000000 b (by omega) (by omega) (by decide) (by decide) (hn ▸ hb)

theorem before_firstTime (d : Dot) (h : 0 < d.time ∧ d.time < 2^52) :
    StoredSeries.scaledTime (stored d) < DoubleOrder.ofInt beginTime ↔
      d.time < firstTime beginTime := by
  unfold firstTime
  by_cases hd : d.time = beginTime
  · subst hd
    split
    · rename_i hbegin
      exact iff_of_true hbegin (by omega)
    · rename_i hbegin
      exact iff_of_false hbegin (by omega)
  · rw [(stored_lt_iff d h beginTime hd).1]
    split <;> omega

theorem behind_lastTime (d : Dot) (h : 0 < d.time ∧ d.time < 2^52) :
    DoubleOrder.ofInt endTime < StoredSeries.scaledTime (stored d) ↔ lastTime endTime < d.time := by
  unfold lastTime
  by_cases hd : d.time = endTime
  · subst hd
    split
    · rename_i hend
      exact iff_of_true hend (by omega)
    · rename_i hend
      exact iff_of_false hend (by omega)
  · rw [(stored_lt_iff d h endTime hd).2]
    split <;> omega

theorem generateDots_edges (s : Series) (hs : InOrder s.data)
    (h : ∀ d ∈ s.data, 0 < d.time ∧ d.time < 2^52) (hle : beginTime ≤ endTime) :
    (beginTime ≤ firstTime beginTime ∧ firstTime beginTime ≤ beginTime+1) ∧
      (endTime-1 ≤ lastTime endTime ∧ lastTime endTime ≤ endTime) ∧
        (storedSeries s).generateDots beginTime endTime =
          some ((s.data.filter fun d =>
            firstTime beginTime ≤ d.time ∧ d.time ≤ lastTime endTime).map stored) := by
  refine ⟨firstTime_bounds beginTime, lastTime_bounds endTime, ?_⟩
  rw [generateDots_stored s beginTime endTime (firstTime beginTime) (lastTime endTime)
      (fun d hd => before_firstTime beginTime d (h d hd))
      fun d hd => behind_lastTime endTime d (h d hd),
    generateDots_filter s hs _ _ (times_ordered beginTime endTime hle), Option.map_some]

end edges

def early : Series := ⟨[⟨249, 1⟩, ⟨251, 2⟩, ⟨252, 3⟩, ⟨253, 4⟩], []⟩

theorem generateDots_edges_early :
    firstTime 251 = 252 ∧ lastTime 253 = 252 ∧
      (storedSeries early).generateDots 251 253 = some [stored ⟨252, 3⟩] := by
  have hfirst : firstTime 251 = 252 := by decide +kernel
  have hlast : lastTime 253 = 252 := by decide +kernel
  obtain ⟨-, -, hdots⟩ := generateDots_edges 251 253 early (by simp [early, InOrder])
    (by simp [early]) (by decide)
  rw [hfirst, hlast] at hdots
  exact ⟨hfirst, hlast, hdots⟩

end BusPlot.StoredDots
