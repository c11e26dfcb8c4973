import BusPlot.Handlers

/-!
# The handlers step by step

What a handler does to the chart, cut wherever another thread can come in
between: a lookup, the lock around an insertion, an erasure. `GetOrAddSeries`
looks up without the lock, and `RemoveSeries` never takes it. The call on the
series at the end touches neither the map nor the mutex of the chart.
-/

set_option autoImplicit false

namespace BusPlot.ChartSteps
open BusPlot.PlotSeries BusPlot.PlotChart BusPlot.Handlers

inductive Todo
  | find (seriesId : UInt16)
  | lock (seriesId : UInt16) (made : SharedPtr)
  | insert (seriesId : UInt16) (made : SharedPtr)
  | unlock (result : SharedPtr)
  | use (series : SharedPtr)
  | erase (seriesId : UInt16)
  deriving DecidableEq, Repr

def first : Message → Todo
  | .variableAlias req _ => .find req.variableId
  | .updateVariable req _ => .find req.variableId
  | .removeVariable req => .erase req.variableId

def act (c : Chart) : Todo → Chart × Option Todo
  | .find seriesId =>
    match c.series.lookup seriesId with
    | some p => (c, some (.use p))
    | none =>
      let made := c.makeShared (.make (varLabel seriesId))
      (made.1, some (.lock seriesId made.2))
  | .lock seriesId made => (c, some (.insert seriesId made))
  | .insert seriesId made =>
    let added := c.addSeriesPtr seriesId made
    (added.1, some (.unlock (if added.2 then made else none)))
  | .unlock result => (c, some (.use result))
  | .use _ => (c, none)
  | .erase seriesId => ((c.removeSeries seriesId).1, none)

def Todo.onChart : Todo → Bool
  | .use _ => false
  | _ => true

def finish : ℕ → Chart → Option Todo → Chart
  | n+1, c, some todo => finish n (act c todo).1 (act c todo).2
  | _, c, _ => c

theorem finish_find (c : Chart) (seriesId : UInt16) :
    finish 5 c (some (.find seriesId)) = (c.getOrAddSeries seriesId).1 := by
  cases h : c.series.lookup seriesId with
  | some p => simp [finish, act, h, Chart.getOrAddSeries]
  | none => simp [finish, act, h, Chart.getOrAddSeries, Chart.addSeries]

/-- The steps of a handler make of the map what the handler makes of it. -/
theorem finish_handle (c c' : Chart) (msg : Message) (h : handle c msg = some c') :
    (finish 5 c (some (first msg))).series = c'.series := by
  have kept : ∀ (c : Chart) (p : SharedPtr) (f : Series → Series), c.update p f = some c' →
      c'.series = c.series := by
    intro c p f hf
    obtain ⟨i, -, hi⟩ := Option.bind_eq_some_iff.mp hf
    split at hi
    · cases hi
      rfl
    · cases hi
  cases msg with
  | variableAlias req behind =>
    obtain ⟨label, -, hlabel⟩ := Option.bind_eq_some_iff.mp h
    rw [first, finish_find, kept _ _ _ hlabel]
  | updateVariable req now => rw [first, finish_find, kept _ _ _ h]
  | removeVariable req =>
    cases h
    rfl

theorem act_keys (c : Chart) (todo : Todo) (v : UInt16) :
    v ∈ (act c todo).1.series ↔
      match todo with
      | .insert seriesId _ => v = seriesId ∨ v ∈ c.series
      | .erase seriesId => v ≠ seriesId ∧ v ∈ c.series
      | _ => v ∈ c.series := by
  cases todo with
  | find seriesId =>
    simp only [act]
    split <;> rfl
  | lock seriesId made => rfl
  | insert seriesId made =>
    simp only [act, Chart.addSeriesPtr]
    split
    · rename_i hmem
      exact ⟨.inr, fun h => h.elim (fun hv => hv ▸ hmem) id⟩
    · exact AList.mem_insert c.series
  | unlock result => rfl
  | use series => rfl
  | erase seriesId => exact AList.mem_erase

end BusPlot.ChartSteps
