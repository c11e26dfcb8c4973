import BusPlot.PlotSeries
import Mathlib.Data.List.AList

/-!
# The chart

The map holds shared pointers, so a series can be reached from the map and from
a handle taken earlier. `heap` is every series made so far; a pointer is null or
a place in it. Nothing is freed: a series without a pointer to it is read by
nobody.
-/

set_option autoImplicit false

namespace BusPlot.PlotChart
open BusPlot.PlotSeries

abbrev SharedPtr := Option ℕ

structure Chart where
  series : AList fun _ : UInt16 => SharedPtr
  heap : List Series

def varLabel (seriesId : UInt16) : List UInt8 :=
  [0x76, 0x61, 0x72] ++ (Nat.toDigits 10 seriesId.toNat).map fun c => UInt8.ofNat c.toNat

namespace Chart

def empty : Chart := ⟨∅, []⟩

def makeShared (c : Chart) (s : Series) : Chart × SharedPtr :=
  ({ c with heap := c.heap ++ [s] }, some c.heap.length)

def addSeriesPtr (c : Chart) (seriesId : UInt16) (series : SharedPtr) : Chart × Bool :=
  if seriesId ∈ c.series then (c, false)
  else ({ c with series := c.series.insert seriesId series }, true)

def addSeries (c : Chart) (seriesId : UInt16) : Chart × SharedPtr :=
  let made := c.makeShared (.make (varLabel seriesId))
  let added := made.1.addSeriesPtr seriesId made.2
  (added.1, if added.2 then made.2 else none)

def getSeriesOrDefault (c : Chart) (seriesId : UInt16) : SharedPtr :=
  (c.series.lookup seriesId).getD none

def getOrAddSeries (c : Chart) (seriesId : UInt16) : Chart × SharedPtr :=
  match c.series.lookup seriesId with
  | none => c.addSeries seriesId
  | some p => (c, p)

def removeSeries (c : Chart) (seriesId : UInt16) : Chart × Bool :=
  ({ c with series := c.series.erase seriesId }, decide (seriesId ∈ c.series))

def deref (c : Chart) (p : SharedPtr) : Option Series := p.bind (c.heap[·]?)

/-- A member function called through a pointer; there is no result for a null
pointer. -/
def update (c : Chart) (p : SharedPtr) (f : Series → Series) : Option Chart :=
  p.bind fun i => if i < c.heap.length then some { c with heap := c.heap.modify i f } else none

def view (c : Chart) (seriesId : UInt16) : Option Series := (c.series.lookup seriesId).bind c.deref

structure Linked (c : Chart) : Prop where
  alive : ∀ v p, c.series.lookup v = some p → ∃ i, p = some i ∧ i < c.heap.length
  apart : ∀ v w i, c.series.lookup v = some (some i) → c.series.lookup w = some (some i) → v = w

theorem empty_linked : empty.Linked :=
  ⟨fun v p h => by simp [empty] at h, fun v w i h => by simp [empty] at h⟩

theorem empty_view (v : UInt16) : empty.view v = none := by
  simp [view, empty]

theorem view_linked (c : Chart) (hc : c.Linked) (v : UInt16) (i : ℕ)
    (h : c.series.lookup v = some (some i)) :
    ∃ s, c.heap[i]? = some s ∧ c.view v = some s := by
  obtain ⟨j, hj, hlt⟩ := hc.alive v _ h
  obtain rfl : i = j := by simpa using hj
  have hs : c.heap[i]? = some c.heap[i] := List.getElem?_eq_getElem hlt
  exact ⟨_, hs, by simp [view, deref, h, hs]⟩

theorem mem_iff_view (c : Chart) (hc : c.Linked) (v : UInt16) :
    v ∈ c.series ↔ (c.view v).isSome = true := by
  rw [← AList.lookup_isSome]
  cases h : c.series.lookup v with
  | none => simp [view, h]
  | some p =>
    obtain ⟨i, rfl, -⟩ := hc.alive v p h
    obtain ⟨s, -, hs⟩ := view_linked c hc v i h
    simp [hs]

theorem getSeriesOrDefault_null (c : Chart) (hc : c.Linked) (v : UInt16) :
    c.getSeriesOrDefault v = none ↔ v ∉ c.series := by
  rw [← AList.lookup_eq_none, getSeriesOrDefault]
  cases h : c.series.lookup v with
  | none => simp
  | some p =>
    obtain ⟨i, rfl, -⟩ := hc.alive v p h
    simp

def added (c : Chart) (seriesId : UInt16) : Chart :=
  ⟨c.series.insert seriesId (some c.heap.length), c.heap ++ [.make (varLabel seriesId)]⟩

theorem addSeries_new (c : Chart) (seriesId : UInt16) (h : c.series.lookup seriesId = none) :
    c.addSeries seriesId = (c.added seriesId, some c.heap.length) := by
  have hnot : seriesId ∉ c.series := AList.lookup_eq_none.mp h
  simp [addSeries, makeShared, addSeriesPtr, hnot, added]

theorem added_lookup (c : Chart) (seriesId v : UInt16) :
    (c.added seriesId).series.lookup v =
      if v = seriesId then some (some c.heap.length) else c.series.lookup v := by
  by_cases hv : v = seriesId
  · rw [if_pos hv, hv]
    exact AList.lookup_insert c.series
  · rw [if_neg hv]
    exact AList.lookup_insert_ne hv

theorem added_linked (c : Chart) (hc : c.Linked) (seriesId : UInt16) :
    (c.added seriesId).Linked := by
  have fresh : ∀ w, c.series.lookup w ≠ some (some c.heap.length) := by
    intro w hw
    obtain ⟨i, hi, hlt⟩ := hc.alive w _ hw
    cases hi
    omega
  have hlen : (c.added seriesId).heap.length = c.heap.length+1 := by simp [added]
  constructor
  · intro v p hp
    rw [added_lookup] at hp
    split at hp
    · cases hp
      exact ⟨c.heap.length, rfl, by omega⟩
    · obtain ⟨i, rfl, hlt⟩ := hc.alive v p hp
      exact ⟨i, rfl, by omega⟩
  · intro v w i hv hw
    rw [added_lookup] at hv hw
    by_cases hvi : v = seriesId <;> by_cases hwi : w = seriesId
    · rw [hvi, hwi]
    · rw [if_pos hvi] at hv
      rw [if_neg hwi] at hw
      cases hv
      exact absurd hw (fresh w)
    · rw [if_neg hvi] at hv
      rw [if_pos hwi] at hw
      cases hw
      exact absurd hv (fresh v)
    · rw [if_neg hvi] at hv
      rw [if_neg hwi] at hw
      exact hc.apart v w i hv hw

theorem added_view (c : Chart) (hc : c.Linked) (seriesId v : UInt16) :
    (c.added seriesId).view v =
      if v = seriesId then some (.make (varLabel seriesId)) else c.view v := by
  rw [view, added_lookup]
  split
  · simp [deref, added]
  · cases hp : c.series.lookup v with
    | none => simp [view, hp]
    | some p =>
      obtain ⟨i, rfl, hlt⟩ := hc.alive v p hp
      simp [view, deref, hp, added, List.getElem?_append_left hlt]

/-- `GetOrAddSeries` never gives a null pointer. It shows the series that was
there, or a new one under the name of the variable. -/
theorem getOrAddSeries_spec (c : Chart) (hc : c.Linked) (seriesId : UInt16) :
    ∃ i c', c.getOrAddSeries seriesId = (c', some i) ∧ c'.Linked ∧
      c'.series.lookup seriesId = some (some i) ∧
      ∀ v, c'.view v = if v = seriesId then
        some ((c.view seriesId).getD (.make (varLabel seriesId))) else c.view v := by
  cases h : c.series.lookup seriesId with
  | some p =>
    obtain ⟨i, rfl, -⟩ := hc.alive seriesId p h
    obtain ⟨s, -, hs⟩ := view_linked c hc seriesId i h
    refine ⟨i, c, by simp [getOrAddSeries, h], hc, h, fun v => ?_⟩
    split
    · rename_i hv
      simp [hv, hs]
    · rfl
  | none =>
    have hview : c.view seriesId = none := by simp [view, h]
    refine ⟨c.heap.length, c.added seriesId, ?_, added_linked c hc seriesId, ?_, fun v => ?_⟩
    · simp [getOrAddSeries, h, addSeries_new]
    · rw [added_lookup, if_pos rfl]
    · rw [added_view c hc, hview]
      rfl

/-- A call through the pointer of a variable changes the series of that
variable and no other. -/
theorem update_spec (c : Chart) (hc : c.Linked) (seriesId : UInt16) (i : ℕ)
    (h : c.series.lookup seriesId = some (some i)) (f : Series → Series) :
    ∃ c', c.update (some i) f = some c' ∧ c'.Linked ∧
      ∀ v, c'.view v = if v = seriesId then (c.view seriesId).map f else c.view v := by
  obtain ⟨j, hj, hlt⟩ := hc.alive seriesId _ h
  obtain rfl : i = j := by simpa using hj
  refine ⟨{ c with heap := c.heap.modify i f }, by simp [update, hlt], ⟨?_, hc.apart⟩, fun v => ?_⟩
  · intro v p hp
    obtain ⟨k, rfl, hk⟩ := hc.alive v p hp
    exact ⟨k, rfl, by simpa using hk⟩
  · split
    · rename_i hv
      subst hv
      simp [view, deref, h]
    · rename_i hv
      cases hp : c.series.lookup v with
      | none => simp [view, hp]
      | some p =>
        obtain ⟨k, rfl, -⟩ := hc.alive v p hp
        have hne : i ≠ k := fun hik => hv (hc.apart v seriesId k hp (hik ▸ h))
        simp [view, deref, hp, hne]

/-- What the handlers do with a variable: look it up or make it, and call a
member function of it. -/
theorem edit_spec (c : Chart) (hc : c.Linked) (seriesId : UInt16) (f : Series → Series) :
    ∃ c', (c.getOrAddSeries seriesId).1.update (c.getOrAddSeries seriesId).2 f = some c' ∧
      c'.Linked ∧ ∀ v, c'.view v = if v = seriesId then
        some (f ((c.view seriesId).getD (.make (varLabel seriesId)))) else c.view v := by
  obtain ⟨i, c1, hget, hc1, hlookup, hview1⟩ := getOrAddSeries_spec c hc seriesId
  obtain ⟨c2, hupdate, hc2, hview2⟩ := update_spec c1 hc1 seriesId i hlookup f
  refine ⟨c2, by rw [hget]; exact hupdate, hc2, fun v => ?_⟩
  rw [hview2 v, hview1 v, hview1 seriesId]
  split <;> simp

theorem removeSeries_spec (c : Chart) (hc : c.Linked) (seriesId : UInt16) :
    (c.removeSeries seriesId).1.Linked ∧
      ∀ v, (c.removeSeries seriesId).1.view v = if v = seriesId then none else c.view v := by
  have hlookup : ∀ v, (c.series.erase seriesId).lookup v =
      if v = seriesId then none else c.series.lookup v := by
    intro v
    split
    · rename_i hv
      rw [hv, AList.lookup_erase]
    · rename_i hv
      exact AList.lookup_erase_ne hv
  refine ⟨⟨?_, ?_⟩, fun v => ?_⟩
  · intro v p hp
    simp only [removeSeries, hlookup] at hp
    split at hp
    · cases hp
    · exact hc.alive v p hp
  · intro v w i hv hw
    simp only [removeSeries, hlookup] at hv hw
    split at hv
    · cases hv
    · split at hw
      · cases hw
      · exact hc.apart v w i hv hw
  · simp only [view, removeSeries, hlookup]
    split <;> rfl

end Chart

end BusPlot.PlotChart
