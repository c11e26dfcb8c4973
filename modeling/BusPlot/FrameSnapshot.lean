import BusPlot.PlotDrawing
import BusPlot.Library.PartialRun

/-!
# One frame, one moment

`RenderPlot` reads the clock once and then the series one after the other, while
the worker goes on storing samples. A call on a series is one step, for it holds
the mutex of that series. `RenderPlot` holds the mutex of the chart, which the
worker takes only for an id that is not in the map; it can add no series meanwhile.
To remove one it does not wait: the walk loses the series, and if it stands there it
is lost and draws nothing any more. The results are about runs in which that does
not happen and the clock is not set back.
-/

set_option autoImplicit false

namespace BusPlot.FrameSnapshot
open BusPlot.PlotSeries BusPlot.PlotChart BusPlot.SeriesOrder BusPlot.PlotDrawing PartialRun

inductive Worker
  | idle
  | found (series : SharedPtr)
  | stamped (series : SharedPtr) (now : ℤ)
  deriving DecidableEq

/-- A pass of `RenderPlot` with the series it has still to draw, and what
`BeginPlot` returned to it. `seen` and `pending` record the chart and the worker at
the reading of the clock. -/
structure Frame where
  timeNow : ℤ
  timeLimit : ℤ
  beginPlot : Bool
  lost : Bool
  todo : List (Σ _ : UInt16, SharedPtr)
  pictures : List (UInt16 × Option (List Dot))
  seen : Chart
  pending : Worker

structure Screen where
  clock : ℤ
  chart : Chart
  worker : Worker
  frame : Option Frame
  finished : List Frame

def start (clock : ℤ) : Screen := ⟨clock, .empty, .idle, none, []⟩

inductive Event
  | tick (now : ℤ)
  | find (seriesId : UInt16)
  | readClock
  | addData (value : UInt32)
  | setLabel (seriesId : UInt16) (label : List UInt8)
  | remove (seriesId : UInt16)
  | beginFrame (timeLimit : ℤ) (beginPlot : Bool)
  | draw
  | endFrame

def reaches (s : Screen) (seriesId : UInt16) : Bool :=
  s.worker = .idle ∧ (seriesId ∈ s.chart.series ∨ s.frame.isNone)

def begun (s : Screen) (timeLimit : ℤ) (beginPlot : Bool) : Frame :=
  ⟨s.clock, timeLimit, beginPlot, false, if beginPlot then s.chart.series.entries else [], [],
    s.chart, s.worker⟩

def Frame.erased (f : Frame) (seriesId : UInt16) : Frame :=
  { f with
    lost := f.lost || f.todo.head?.any fun item => item.1 = seriesId
    todo := f.todo.filter fun item => item.1 ≠ seriesId }

def step (timeZoneDiff : ℤ) (s : Screen) : Event → Option Screen
  | .tick now => some { s with clock := now }
  | .find seriesId =>
    if reaches s seriesId then
      let series := s.chart.getOrAddSeries seriesId
      some { s with chart := series.1, worker := .found series.2 }
    else none
  | .readClock =>
    match s.worker with
    | .found series => some { s with worker := .stamped series s.clock }
    | _ => none
  | .addData value =>
    match s.worker with
    | .stamped series now => (s.chart.update series (·.addData ⟨now, value⟩)).map fun c =>
      { s with chart := c, worker := .idle }
    | _ => none
  | .setLabel seriesId label =>
    if reaches s seriesId then
      let series := s.chart.getOrAddSeries seriesId
      (series.1.update series.2 (·.setLabel label)).map fun c => { s with chart := c }
    else none
  | .remove seriesId =>
    if s.worker = .idle then
      some { s with
        chart := (s.chart.removeSeries seriesId).1
        frame := s.frame.map (·.erased seriesId) }
    else none
  | .beginFrame timeLimit beginPlot =>
    if s.frame.isNone then some { s with frame := some (begun s timeLimit beginPlot) } else none
  | .draw =>
    s.frame.bind fun f =>
      match f.lost, f.todo with
      | true, _ => none
      | _, [] => none
      | false, item::rest =>
        (s.chart.deref item.2).bind fun series =>
          (drawn timeZoneDiff f.timeLimit f.timeNow series).map fun dots =>
            { s with
              frame := some { f with todo := rest, pictures := f.pictures ++ [(item.1, dots)] } }
  | .endFrame =>
    s.frame.bind fun f =>
      if f.lost = false ∧ f.todo = [] then
        some { s with frame := none, finished := s.finished ++ [f] }
      else none

/-- The clock is not set back, and no series in the chart is removed while a frame
is drawn. -/
def Calm (s : Screen) : Event → Prop
  | .tick now => s.clock ≤ now
  | .remove seriesId => seriesId ∈ s.chart.series → s.frame = none
  | _ => True

instance (s : Screen) (e : Event) : Decidable (Calm s e) := by
  cases e with
  | tick now => exact inferInstanceAs (Decidable (s.clock ≤ now))
  | remove seriesId =>
    have : Decidable (s.frame = none) := decidable_of_iff _ Option.isNone_iff_eq_none
    exact inferInstanceAs (Decidable (seriesId ∈ s.chart.series → s.frame = none))
  | find | readClock | addData | setLabel | beginFrame | draw | endFrame =>
    exact inferInstanceAs (Decidable True)

inductive Moves (timeZoneDiff : ℤ) (s : Screen) : Event → Screen → Prop
  | tick (now : ℤ) : Moves timeZoneDiff s (.tick now) { s with clock := now }
  | find (seriesId : UInt16) (reach : reaches s seriesId = true) :
    Moves timeZoneDiff s (.find seriesId) { s with
      chart := (s.chart.getOrAddSeries seriesId).1
      worker := .found (s.chart.getOrAddSeries seriesId).2 }
  | readClock (p : SharedPtr) (hw : s.worker = .found p) :
    Moves timeZoneDiff s .readClock { s with worker := .stamped p s.clock }
  | addData (value : UInt32) (p : SharedPtr) (now : ℤ) (c : Chart) (hw : s.worker = .stamped p now)
      (hc : s.chart.update p (·.addData ⟨now, value⟩) = some c) :
    Moves timeZoneDiff s (.addData value) { s with chart := c, worker := .idle }
  | setLabel (seriesId : UInt16) (label : List UInt8) (c : Chart) (reach : reaches s seriesId = true)
      (hc : (s.chart.getOrAddSeries seriesId).1.update (s.chart.getOrAddSeries seriesId).2
        (·.setLabel label) = some c) :
    Moves timeZoneDiff s (.setLabel seriesId label) { s with chart := c }
  | remove (seriesId : UInt16) (hw : s.worker = .idle) :
    Moves timeZoneDiff s (.remove seriesId) { s with
      chart := (s.chart.removeSeries seriesId).1
      frame := s.frame.map (·.erased seriesId) }
  | beginFrame (timeLimit : ℤ) (beginPlot : Bool) (alone : s.frame = none) :
    Moves timeZoneDiff s (.beginFrame timeLimit beginPlot)
      { s with frame := some (begun s timeLimit beginPlot) }
  | draw (f : Frame) (item : Σ _ : UInt16, SharedPtr) (rest : List (Σ _ : UInt16, SharedPtr))
      (series : Series) (dots : Option (List Dot)) (hf : s.frame = some f)
      (hlost : f.lost = false) (htodo : f.todo = item::rest)
      (hseries : s.chart.deref item.2 = some series)
      (hdots : drawn timeZoneDiff f.timeLimit f.timeNow series = some dots) :
    Moves timeZoneDiff s .draw { s with
      frame := some { f with todo := rest, pictures := f.pictures ++ [(item.1, dots)] } }
  | endFrame (f : Frame) (hf : s.frame = some f) (hlost : f.lost = false) (htodo : f.todo = []) :
    Moves timeZoneDiff s .endFrame { s with frame := none, finished := s.finished ++ [f] }

theorem step_moves (z : ℤ) (s s' : Screen) (e : Event) (h : step z s e = some s') :
    Moves z s e s' := by
  cases e with
  | tick now =>
    cases h
    exact .tick now
  | find seriesId =>
    simp only [step] at h
    split at h
    · rename_i hreach
      cases h
      exact .find seriesId hreach
    · cases h
  | readClock =>
    simp only [step] at h
    split at h
    · rename_i p hw
      cases h
      exact .readClock p hw
    · cases h
  | addData value =>
    simp only [step] at h
    split at h
    · rename_i p now hw
      obtain ⟨c, hc, rfl⟩ := Option.map_eq_some_iff.mp h
      exact .addData value p now c hw hc
    · cases h
  | setLabel seriesId label =>
    simp only [step] at h
    split at h
    · rename_i hreach
      obtain ⟨c, hc, rfl⟩ := Option.map_eq_some_iff.mp h
      exact .setLabel seriesId label c hreach hc
    · cases h
  | remove seriesId =>
    simp only [step] at h
    split at h
    · rename_i hidle
      cases h
      exact .remove seriesId hidle
    · cases h
  | beginFrame timeLimit beginPlot =>
    simp only [step] at h
    split at h
    · rename_i hnone
      cases h
      exact .beginFrame timeLimit beginPlot (Option.isNone_iff_eq_none.mp hnone)
    · cases h
  | draw =>
    obtain ⟨f, hf, h⟩ := Option.bind_eq_some_iff.mp h
    split at h
    · cases h
    · cases h
    · rename_i item rest hlost htodo
      obtain ⟨series, hseries, h⟩ := Option.bind_eq_some_iff.mp h
      obtain ⟨dots, hdots, rfl⟩ := Option.map_eq_some_iff.mp h
      exact .draw f item rest series dots hf hlost htodo hseries hdots
  | endFrame =>
    obtain ⟨f, hf, h⟩ := Option.bind_eq_some_iff.mp h
    split at h
    · rename_i hdone
      cases h
      exact .endFrame f hf hdone.1 hdone.2
    · cases h

theorem step_clock (z : ℤ) (s s' : Screen) (e : Event) (hcalm : Calm s e)
    (h : step z s e = some s') : s.clock ≤ s'.clock := by
  cases step_moves z s s' e h with
  | tick now => exact hcalm
  | find | readClock | addData | setLabel | remove | beginFrame | draw | endFrame => exact le_refl _

def datas (c : Chart) : List (List Dot) := c.heap.map (·.data)

theorem deref_datas (c : Chart) (p : SharedPtr) (s : Series) (h : c.deref p = some s) :
    s.data ∈ datas c := by
  obtain ⟨i, -, hi⟩ := Option.bind_eq_some_iff.mp h
  exact List.mem_map_of_mem (List.mem_of_getElem? hi)

theorem update_places (c c' : Chart) (p : SharedPtr) (f : Series → Series)
    (h : c.update p f = some c') :
    ∃ i, p = some i ∧ i < c.heap.length ∧ c' = { c with heap := c.heap.modify i f } := by
  obtain ⟨i, rfl, hi⟩ := Option.bind_eq_some_iff.mp h
  split at hi
  · rename_i hlt
    cases hi
    exact ⟨i, rfl, hlt, rfl⟩
  · cases hi

theorem update_linked (c c' : Chart) (hc : c.Linked) (p : SharedPtr) (f : Series → Series)
    (h : c.update p f = some c') : c'.Linked := by
  obtain ⟨i, -, -, rfl⟩ := update_places c c' p f h
  refine ⟨fun v q hq => ?_, hc.apart⟩
  obtain ⟨k, rfl, hk⟩ := hc.alive v q hq
  exact ⟨k, rfl, by simpa using hk⟩

theorem addData_datas (c c' : Chart) (p : SharedPtr) (d : Dot)
    (h : c.update p (·.addData d) = some c') :
    ∃ i, p = some i ∧ c'.series = c.series ∧ datas c' = (datas c).modify i (· ++ [d]) := by
  obtain ⟨i, rfl, -, rfl⟩ := update_places c c' p _ h
  refine ⟨i, rfl, rfl, List.ext_getElem? fun j => ?_⟩
  simp only [datas, List.getElem?_map, List.getElem?_modify]
  cases c.heap[j]? with
  | none => rfl
  | some s => by_cases hij : i = j <;> simp [hij]

theorem setLabel_datas (c c' : Chart) (p : SharedPtr) (l : List UInt8)
    (h : c.update p (·.setLabel l) = some c') : c'.series = c.series ∧ datas c' = datas c := by
  obtain ⟨i, -, -, rfl⟩ := update_places c c' p _ h
  refine ⟨rfl, List.ext_getElem? fun j => ?_⟩
  simp only [datas, List.getElem?_map, List.getElem?_modify]
  cases c.heap[j]? with
  | none => rfl
  | some s => by_cases hij : i = j <;> simp [hij]

theorem getOrAddSeries_datas (c : Chart) (seriesId : UInt16) :
    (c.getOrAddSeries seriesId).1 = c ∨
      seriesId ∉ c.series ∧ datas (c.getOrAddSeries seriesId).1 = datas c ++ [[]] := by
  unfold Chart.getOrAddSeries
  cases h : c.series.lookup seriesId with
  | some p => exact .inl rfl
  | none =>
    right
    simp only
    rw [Chart.addSeries_new c seriesId h]
    exact ⟨AList.lookup_eq_none.mp h, by simp [datas, Chart.added]⟩

theorem getOrAddSeries_linked (c : Chart) (hc : c.Linked) (seriesId : UInt16) :
    (c.getOrAddSeries seriesId).1.Linked := by
  obtain ⟨i, c', hget, hc', -⟩ := Chart.getOrAddSeries_spec c hc seriesId
  rw [hget]
  exact hc'

def Grows (c c' : Chart) : Prop :=
  ∀ (i : ℕ) (y : List Dot), (datas c)[i]? = some y →
    ∃ y', (datas c')[i]? = some y' ∧ y <+: y'

theorem grows_of_eq (c c' : Chart) (h : datas c' = datas c) : Grows c c' :=
  fun _ y hy => ⟨y, h ▸ hy, List.prefix_refl y⟩

theorem Grows.trans (c c' c'' : Chart) (h : Grows c c') (h' : Grows c' c'') : Grows c c'' := by
  intro i y hy
  obtain ⟨y', hy', hle⟩ := h i y hy
  obtain ⟨y'', hy'', hle'⟩ := h' i y' hy'
  exact ⟨y'', hy'', hle.trans hle'⟩

theorem getOrAddSeries_grows (c : Chart) (seriesId : UInt16) :
    Grows c (c.getOrAddSeries seriesId).1 := by
  rcases getOrAddSeries_datas c seriesId with h | ⟨-, h⟩
  · exact grows_of_eq c _ (congrArg datas h)
  · intro i y hy
    obtain ⟨hlt, -⟩ := List.getElem?_eq_some_iff.mp hy
    exact ⟨y, by rw [h, List.getElem?_append_left hlt, hy], List.prefix_refl y⟩

theorem addData_grows (c c' : Chart) (p : SharedPtr) (d : Dot)
    (h : c.update p (·.addData d) = some c') : Grows c c' := by
  obtain ⟨j, -, -, hdatas⟩ := addData_datas c c' p d h
  intro i y hy
  simp only [hdatas, List.getElem?_modify, hy]
  by_cases hji : j = i
  · exact ⟨y ++ [d], by simp [hji], List.prefix_append y [d]⟩
  · exact ⟨y, by simp [hji], List.prefix_refl y⟩

theorem step_grows (z : ℤ) (s s' : Screen) (e : Event) (h : step z s e = some s') :
    Grows s.chart s'.chart := by
  cases step_moves z s s' e h with
  | find seriesId => exact getOrAddSeries_grows s.chart seriesId
  | addData value p now c _ hc => exact addData_grows s.chart c p _ hc
  | setLabel seriesId label c _ hc =>
    exact (getOrAddSeries_grows s.chart seriesId).trans _ _ _
      (grows_of_eq _ c (setLabel_datas _ c _ label hc).2)
  | tick | readClock | remove | beginFrame | draw | endFrame => exact grows_of_eq _ _ rfl

structure Stamped (s : Screen) : Prop where
  linked : s.chart.Linked
  ordered : ∀ x ∈ datas s.chart, InOrder x
  past : ∀ x ∈ datas s.chart, ∀ d ∈ x, d.time ≤ s.clock
  reading : ∀ p t, s.worker = .stamped p t → t ≤ s.clock ∧
    ∀ x ∈ datas s.chart, ∀ d ∈ x, d.time ≤ t

theorem start_stamped (clock : ℤ) : Stamped (start clock) := by
  refine ⟨Chart.empty_linked, ?_, ?_, ?_⟩ <;> simp [start, Chart.empty, datas]

theorem found_datas (c : Chart) (seriesId : UInt16) (x : List Dot)
    (hx : x ∈ datas (c.getOrAddSeries seriesId).1) : x ∈ datas c ∨ x = [] := by
  rcases getOrAddSeries_datas c seriesId with h | ⟨-, h⟩
  · exact .inl (h ▸ hx)
  · rw [h, List.mem_append, List.mem_singleton] at hx
    exact hx

theorem mem_modify {α : Type} (xs : List α) (i : ℕ) (f : α → α) (x : α) (h : x ∈ xs.modify i f) :
    x ∈ xs ∨ ∃ y ∈ xs, x = f y := by
  obtain ⟨j, hj⟩ := List.getElem?_of_mem h
  rw [List.getElem?_modify] at hj
  obtain ⟨y, hy, hxy⟩ := Option.map_eq_some_iff.mp hj
  have hmem := List.mem_of_getElem? hy
  split at hxy
  · exact .inr ⟨y, hmem, hxy.symm⟩
  · exact .inl (hxy ▸ hmem)

theorem inOrder_snoc (x : List Dot) (d : Dot) (hx : InOrder x) (h : ∀ e ∈ x, e.time ≤ d.time) :
    InOrder (x ++ [d]) :=
  List.pairwise_append.mpr ⟨hx, List.pairwise_singleton _ _, fun e he e' he' => by
    rw [List.mem_singleton.mp he']
    exact h e he⟩

/-- The steps of the worker on the chart, with the samples that were there. -/
theorem Stamped.kept (s s' : Screen) (hs : Stamped s) (hlinked : s'.chart.Linked)
    (hdatas : ∀ x ∈ datas s'.chart, x ∈ datas s.chart ∨ x = []) (hclock : s.clock ≤ s'.clock)
    (hworker : ∀ p t, s'.worker = .stamped p t → s.worker = .stamped p t ∨ t = s.clock) :
    Stamped s' := by
  refine ⟨hlinked, fun x hx => ?_, fun x hx d hd => ?_, fun p t ht => ?_⟩
  · rcases hdatas x hx with h | rfl
    · exact hs.ordered x h
    · exact List.Pairwise.nil
  · rcases hdatas x hx with h | rfl
    · exact (hs.past x h d hd).trans hclock
    · cases hd
  · rcases hworker p t ht with h | rfl
    · refine ⟨(hs.reading p t h).1.trans hclock, fun x hx d hd => ?_⟩
      rcases hdatas x hx with hmem | rfl
      · exact (hs.reading p t h).2 x hmem d hd
      · cases hd
    · refine ⟨hclock, fun x hx d hd => ?_⟩
      rcases hdatas x hx with hmem | rfl
      · exact hs.past x hmem d hd
      · cases hd

theorem Stamped.added (s : Screen) (hs : Stamped s) (p : SharedPtr) (now : ℤ) (value : UInt32)
    (c : Chart) (hw : s.worker = .stamped p now)
    (h : s.chart.update p (·.addData ⟨now, value⟩) = some c) :
    Stamped { s with chart := c, worker := .idle } := by
  obtain ⟨hnow, hbefore⟩ := hs.reading p now hw
  obtain ⟨i, -, -, hdatas⟩ := addData_datas s.chart c p _ h
  refine ⟨update_linked _ _ hs.linked _ _ h, fun x hx => ?_, fun x hx d hd => ?_, by simp⟩
  · rw [hdatas] at hx
    rcases mem_modify _ _ _ _ hx with hmem | ⟨y, hy, rfl⟩
    · exact hs.ordered x hmem
    · exact inOrder_snoc y _ (hs.ordered y hy) (hbefore y hy)
  · rw [hdatas] at hx
    rcases mem_modify _ _ _ _ hx with hmem | ⟨y, hy, rfl⟩
    · exact hs.past x hmem d hd
    · rcases List.mem_append.mp hd with hd | hd
      · exact hs.past y hy d hd
      · rw [List.mem_singleton.mp hd]
        exact hnow

theorem step_stamped (z : ℤ) (s s' : Screen) (e : Event) (hs : Stamped s) (hcalm : Calm s e)
    (h : step z s e = some s') : Stamped s' := by
  cases step_moves z s s' e h with
  | tick now => exact hs.kept s _ hs.linked (fun x hx => .inl hx) hcalm fun p t ht => .inl ht
  | find seriesId =>
    exact hs.kept s _ (getOrAddSeries_linked _ hs.linked seriesId) (found_datas _ seriesId)
      (le_refl _) fun p t ht => by cases ht
  | readClock p hw =>
    refine hs.kept s _ hs.linked (fun x hx => .inl hx) (le_refl _) ?_
    rintro q t ⟨⟩
    exact .inr rfl
  | addData value p now c hw hc => exact hs.added s p now value c hw hc
  | setLabel seriesId label c _ hc =>
    have hlinked := getOrAddSeries_linked _ hs.linked seriesId
    refine hs.kept s _ (update_linked _ _ hlinked _ _ hc) (fun x hx => ?_) (le_refl _)
      fun p t ht => .inl ht
    rw [(setLabel_datas _ c _ label hc).2] at hx
    exact found_datas _ seriesId x hx
  | remove seriesId =>
    exact hs.kept s _ (Chart.removeSeries_spec _ hs.linked seriesId).1 (fun x hx => .inl hx)
      (le_refl _) fun p t ht => .inl ht
  | beginFrame | draw | endFrame => exact ⟨hs.linked, hs.ordered, hs.past, hs.reading⟩

def Held (f : Frame) (i : ℕ) (held : List Dot) : Prop :=
  held = [] ∨ ∃ t value, f.pending = .stamped (some i) t ∧ held = [⟨t, value⟩]

def Grown (f : Frame) (i : ℕ) (x y : List Dot) : Prop :=
  ∃ held later, y = x ++ (held ++ later) ∧ Held f i held ∧ ∀ d ∈ later, f.timeNow ≤ d.time

/-- The picture of a variable is that of the samples it had when the frame read
the clock, of the held one and of those of that very microsecond, all of them
stored in this order. -/
def OneMoment (timeZoneDiff : ℤ) (c : Chart) (f : Frame) (v : UInt16) (dots : Option (List Dot)) :
    Prop :=
  ∃ i x held later y, f.seen.series.lookup v = some (some i) ∧ (datas f.seen)[i]? = some x ∧
    (datas c)[i]? = some y ∧ x ++ (held ++ later) <+: y ∧
    Held f i held ∧ (∀ d ∈ later, f.timeNow ≤ d.time) ∧
    dots = picture timeZoneDiff f.timeLimit f.timeNow
      (x ++ (held ++ later.filter fun d => d.time = f.timeNow))

theorem OneMoment.later (z : ℤ) (c c' : Chart) (hgrows : Grows c c') (f : Frame) (v : UInt16)
    (dots : Option (List Dot)) (h : OneMoment z c f v dots) : OneMoment z c' f v dots := by
  obtain ⟨i, x, held, later, y, hlookup, hx, hy, hprefix, hrest⟩ := h
  obtain ⟨y', hy', hle⟩ := hgrows i y hy
  exact ⟨i, x, held, later, y', hlookup, hx, hy', hprefix.trans hle, hrest⟩

def Frame.walked (f : Frame) : List UInt16 := if f.beginPlot then f.seen.series.keys else []

structure Framed (timeZoneDiff : ℤ) (s : Screen) (f : Frame) : Prop where
  series : s.chart.series = f.seen.series
  linked : f.seen.Linked
  past : f.timeNow ≤ s.clock
  grown : ∀ i x, (datas f.seen)[i]? = some x → ∃ y, (datas s.chart)[i]? = some y ∧ Grown f i x y
  held : ∀ p t, s.worker = .stamped p t →
    f.timeNow ≤ t ∨ s.worker = f.pending ∧ datas s.chart = datas f.seen
  intact : f.lost = false
  walk : f.pictures.map Prod.fst ++ f.todo.map Sigma.fst = f.walked
  todo : ∀ item ∈ f.todo, item ∈ f.seen.series.entries
  moment : 0 ≤ f.timeLimit → ∀ p ∈ f.pictures, OneMoment timeZoneDiff s.chart f p.1 p.2

theorem grown_refl (f : Frame) (i : ℕ) (x : List Dot) : Grown f i x x :=
  ⟨[], [], by simp, .inl rfl, by simp⟩

theorem framed_start (z : ℤ) (s : Screen) (hs : Stamped s) (timeLimit : ℤ) (beginPlot : Bool) :
    Framed z { s with frame := some (begun s timeLimit beginPlot) }
      (begun s timeLimit beginPlot) where
  series := rfl
  linked := hs.linked
  past := le_refl _
  grown := fun i x hx => ⟨x, hx, grown_refl _ i x⟩
  held := fun _ _ _ => .inr ⟨rfl, rfl⟩
  intact := rfl
  walk := by cases beginPlot <;> rfl
  todo := by cases beginPlot <;> simp [begun]
  moment := fun _ _ hp => by cases hp

theorem Framed.kept (z : ℤ) (s s' : Screen) (f : Frame) (hf : Framed z s f)
    (hseries : s'.chart.series = s.chart.series) (hdatas : datas s'.chart = datas s.chart)
    (hclock : s.clock ≤ s'.clock)
    (hworker : ∀ p t, s'.worker = .stamped p t → s'.worker = s.worker ∨ t = s.clock) :
    Framed z s' f where
  series := hseries.trans hf.series
  linked := hf.linked
  past := hf.past.trans hclock
  grown := hdatas ▸ hf.grown
  held := by
    intro p t ht
    rcases hworker p t ht with h | rfl
    · rw [hdatas, h]
      exact hf.held p t (h.symm.trans ht)
    · exact .inl hf.past
  intact := hf.intact
  walk := hf.walk
  todo := hf.todo
  moment hlimit p hp := (hf.moment hlimit p hp).later z _ _ (grows_of_eq _ _ hdatas) f p.1 p.2

/-- A sample stored during the frame is the one held back, and then it is the
first one that is stored, or it is not older than the frame. -/
theorem Framed.added (z : ℤ) (s : Screen) (f : Frame) (hf : Framed z s f) (p : SharedPtr)
    (now : ℤ) (value : UInt32) (c : Chart) (hw : s.worker = .stamped p now)
    (h : s.chart.update p (·.addData ⟨now, value⟩) = some c) :
    Framed z { s with chart := c, worker := .idle } f := by
  obtain ⟨i, rfl, hseries, hdatas⟩ := addData_datas s.chart c p _ h
  have hgrows := addData_grows s.chart c _ _ h
  refine ⟨hseries.trans hf.series, hf.linked, hf.past, fun j x hx => ?_, by simp, hf.intact,
    hf.walk, hf.todo, fun hlimit pic hpic => (hf.moment hlimit pic hpic).later z _ _ hgrows f _ _⟩
  obtain ⟨y, hy, hgrown⟩ := hf.grown j x hx
  simp only [hdatas, List.getElem?_modify, hy]
  by_cases hij : i = j
  · subst hij
    refine ⟨y ++ [⟨now, value⟩], by simp, ?_⟩
    rcases hf.held _ now hw with hlate | ⟨hpending, hsame⟩
    · obtain ⟨held, later, rfl, hheld, hlater⟩ := hgrown
      refine ⟨held, later ++ [⟨now, value⟩], by simp, hheld, fun d hd => ?_⟩
      rcases List.mem_append.mp hd with hd | hd
      · exact hlater d hd
      · rw [List.mem_singleton.mp hd]
        exact hlate
    · rw [hsame, hx] at hy
      cases hy
      exact ⟨[⟨now, value⟩], [], by simp, .inr ⟨now, value, hpending.symm.trans hw, rfl⟩, by simp⟩
  · exact ⟨y, by simp [hij], hgrown⟩

/-- Of what came later only that very microsecond is in the window. -/
theorem picture_later (z timeLimit timeNow : ℤ) (x later : List Dot)
    (hlater : ∀ d ∈ later, timeNow ≤ d.time) :
    picture z timeLimit timeNow (x ++ later) =
      picture z timeLimit timeNow (x ++ later.filter fun d => d.time = timeNow) := by
  have hwindow : window timeLimit timeNow later =
      window timeLimit timeNow (later.filter fun d => d.time = timeNow) := by
    rw [window, window, List.filter_filter]
    apply List.filter_congr
    intro d hd
    have := hlater d hd
    rw [Bool.eq_iff_iff]
    simp only [decide_eq_true_eq, Bool.and_eq_true]
    omega
  have happend : ∀ ys, window timeLimit timeNow (x ++ ys) =
      window timeLimit timeNow x ++ window timeLimit timeNow ys := fun ys => List.filter_append ..
  rw [picture, picture, happend, happend, hwindow]

theorem Framed.drawn (z : ℤ) (s : Screen) (f : Frame) (hs : Stamped s) (hf : Framed z s f)
    (item : Σ _ : UInt16, SharedPtr) (rest : List (Σ _ : UInt16, SharedPtr)) (series : Series)
    (dots : Option (List Dot)) (htodo : f.todo = item::rest)
    (hseries : s.chart.deref item.2 = some series)
    (hdots : drawn z f.timeLimit f.timeNow series = some dots) :
    Framed z s { f with todo := rest, pictures := f.pictures ++ [(item.1, dots)] } := by
  have hitem : item ∈ f.seen.series.entries := hf.todo item (by simp [htodo])
  have hlookup : f.seen.series.lookup item.1 = some item.2 := AList.mem_lookup_iff.mpr hitem
  obtain ⟨i, hi, hlt⟩ := hf.linked.alive _ _ hlookup
  refine ⟨hf.series, hf.linked, hf.past, hf.grown, hf.held, hf.intact, ?_,
    fun other ho => hf.todo other (by simp [htodo, ho]), fun hlimit p hp => ?_⟩
  · exact Eq.trans (by simp [htodo]) hf.walk
  · rcases List.mem_append.mp hp with hp | hp
    · exact hf.moment hlimit p hp
    · rw [List.mem_singleton.mp hp]
      rw [hi] at hlookup hseries
      have hplace : (datas f.seen)[i]? = some f.seen.heap[i].data := by simp [datas, hlt]
      obtain ⟨y, hy, held, later, rfl, hheld, hlater⟩ := hf.grown i _ hplace
      have hdata : (datas s.chart)[i]? = some series.data := by
        have : s.chart.heap[i]? = some series := hseries
        simp [datas, this]
      rw [hdata] at hy
      have horder : InOrder series.data := hs.ordered _ (List.mem_of_getElem? hdata)
      rw [drawn_picture series horder z _ _ hlimit, Option.some.inj hy, ← List.append_assoc,
        picture_later z _ _ _ later hlater, List.append_assoc] at hdots
      exact ⟨i, _, held, later, series.data, hlookup, hplace, hdata,
        Option.some.inj hy ▸ List.prefix_refl _, hheld, hlater, (Option.some.inj hdots).symm⟩

theorem reaches_drawing (s : Screen) (f : Frame) (hframe : s.frame = some f) (seriesId : UInt16)
    (h : reaches s seriesId = true) : (s.chart.getOrAddSeries seriesId).1 = s.chart := by
  simp only [reaches, hframe, Option.isNone_some, decide_eq_true_eq] at h
  rcases getOrAddSeries_datas s.chart seriesId with hsame | ⟨hnot, -⟩
  · exact hsame
  · rcases h.2 with hmem | hnone
    · exact absurd hmem hnot
    · cases hnone

theorem removeSeries_absent (c : Chart) (seriesId : UInt16) (h : seriesId ∉ c.series) :
    (c.removeSeries seriesId).1 = c := by
  have herase : c.series.erase seriesId = c.series :=
    AList.ext (List.kerase_of_notMem_keys h)
  rw [Chart.removeSeries, herase]

theorem erased_absent (f : Frame) (seriesId : UInt16)
    (h : ∀ item ∈ f.todo, item.1 ≠ seriesId) : f.erased seriesId = f := by
  have hall : f.todo.filter (fun item => item.1 ≠ seriesId) = f.todo :=
    List.filter_eq_self.mpr fun item hitem => by simpa using h item hitem
  have hhead : (f.todo.head?.any fun item => item.1 = seriesId) = false := by
    cases htodo : f.todo with
    | nil => rfl
    | cons item rest => simpa using h item (by simp [htodo])
  simp only [Frame.erased, hall, hhead, Bool.or_false]

theorem calm_erased (z : ℤ) (s : Screen) (hf : ∀ f, s.frame = some f → Framed z s f)
    (seriesId : UInt16) (hcalm : Calm s (.remove seriesId)) :
    s.frame.map (·.erased seriesId) = s.frame := by
  cases hframe : s.frame with
  | none => rfl
  | some f =>
    have habsent : seriesId ∉ s.chart.series := fun hmem => by
      rw [hcalm hmem] at hframe
      cases hframe
    refine congrArg some (erased_absent f seriesId fun item hitem heq => habsent ?_)
    have hentry := (hf f hframe).todo item hitem
    rw [← (hf f hframe).series] at hentry
    exact heq ▸ AList.mem_keys.mpr (List.mem_map_of_mem hentry)

theorem step_framed (z : ℤ) (s s' : Screen) (e : Event) (hs : Stamped s)
    (hf : ∀ f, s.frame = some f → Framed z s f) (hcalm : Calm s e) (h : step z s e = some s')
    (f : Frame) (hframe : s'.frame = some f) : Framed z s' f := by
  cases step_moves z s s' e h with
  | tick now => exact (hf f hframe).kept z s _ f rfl rfl hcalm fun _ _ _ => .inl rfl
  | find seriesId hreach =>
    have hsame := reaches_drawing s f hframe seriesId hreach
    exact (hf f hframe).kept z s _ f (congrArg Chart.series hsame) (congrArg datas hsame)
      (le_refl _) fun p t ht => by cases ht
  | readClock p hw =>
    refine (hf f hframe).kept z s _ f rfl rfl (le_refl _) ?_
    rintro q t ⟨⟩
    exact .inr rfl
  | addData value p now c hw hc => exact (hf f hframe).added z s f p now value c hw hc
  | setLabel seriesId label c hreach hc =>
    obtain ⟨hseries, hdatas⟩ := setLabel_datas _ c _ label hc
    rw [reaches_drawing s f hframe seriesId hreach] at hseries hdatas
    exact (hf f hframe).kept z s _ f hseries hdatas (le_refl _) fun _ _ _ => .inl rfl
  | remove seriesId =>
    dsimp only at hframe
    rw [calm_erased z s hf seriesId hcalm] at hframe
    have habsent : seriesId ∉ s.chart.series := fun hmem => by
      rw [hcalm hmem] at hframe
      cases hframe
    rw [removeSeries_absent s.chart seriesId habsent]
    exact (hf f hframe).kept z s _ f rfl rfl (le_refl _) fun _ _ _ => .inl rfl
  | beginFrame timeLimit beginPlot =>
    cases hframe
    exact framed_start z s hs timeLimit beginPlot
  | draw g item rest series dots hg _ htodo hseries hdots =>
    cases hframe
    have hdrawn := (hf g hg).drawn z s g hs item rest series dots htodo hseries hdots
    exact ⟨hdrawn.series, hdrawn.linked, hdrawn.past, hdrawn.grown, hdrawn.held, hdrawn.intact,
      hdrawn.walk, hdrawn.todo, hdrawn.moment⟩
  | endFrame => cases hframe

def Whole (timeZoneDiff : ℤ) (c : Chart) (f : Frame) : Prop :=
  f.pictures.map Prod.fst = f.walked ∧
    (0 ≤ f.timeLimit → ∀ p ∈ f.pictures, OneMoment timeZoneDiff c f p.1 p.2)

structure Sound (timeZoneDiff : ℤ) (s : Screen) : Prop where
  stamped : Stamped s
  framed : ∀ f, s.frame = some f → Framed timeZoneDiff s f
  finished : ∀ f ∈ s.finished, Whole timeZoneDiff s.chart f

theorem step_finished (z : ℤ) (s s' : Screen) (e : Event) (h : step z s e = some s') :
    s'.finished = s.finished ∨
      ∃ f, s.frame = some f ∧ f.todo = [] ∧ s'.finished = s.finished ++ [f] := by
  cases step_moves z s s' e h with
  | endFrame f hf _ htodo => exact .inr ⟨f, hf, htodo, rfl⟩
  | tick | find | readClock | addData | setLabel | remove | beginFrame | draw => exact .inl rfl

theorem step_sound (z : ℤ) (s s' : Screen) (e : Event) (hs : Sound z s) (hcalm : Calm s e)
    (h : step z s e = some s') : Sound z s' := by
  have hgrows := step_grows z s s' e h
  have later : ∀ f, Whole z s.chart f → Whole z s'.chart f := fun f hf =>
    ⟨hf.1, fun hlimit p hp => (hf.2 hlimit p hp).later z _ _ hgrows f p.1 p.2⟩
  refine ⟨step_stamped z s s' e hs.stamped hcalm h,
    step_framed z s s' e hs.stamped hs.framed hcalm h, fun f hf => ?_⟩
  rcases step_finished z s s' e h with hsame | ⟨g, hg, htodo, hnew⟩
  · exact later f (hs.finished f (hsame ▸ hf))
  · rw [hnew] at hf
    rcases List.mem_append.mp hf with hf | hf
    · exact later f (hs.finished f hf)
    · rw [List.mem_singleton.mp hf]
      have hframed := hs.framed g hg
      refine later g ⟨?_, hframed.moment⟩
      simpa [htodo] using hframed.walk

theorem start_sound (z clock : ℤ) : Sound z (start clock) :=
  ⟨start_stamped clock, by simp [start], by simp [start]⟩

theorem run_sound (z clock : ℤ) (events : List Event) (s : Screen)
    (h : run (step z) (start clock) events = some s)
    (hcalm : Along (step z) Calm (start clock) events) : Sound z s :=
  run_along (step z) Calm (fun _ => Sound z) (start clock) (start_sound z clock)
    (fun _ m e m' => step_sound z m m' e) events hcalm s h

/-- However the samples come in while it is drawn, a frame shows every variable
once, and all of them at one moment: where the clock is not set back, no series is
removed while it is drawn, and the time limit of the frame is not negative. Times
are exact microseconds. -/
theorem frame_one_moment (timeZoneDiff clock : ℤ) (events : List Event) (s : Screen)
    (h : run (step timeZoneDiff) (start clock) events = some s)
    (hcalm : Along (step timeZoneDiff) Calm (start clock) events) (f : Frame)
    (hf : f ∈ s.finished) : Whole timeZoneDiff s.chart f :=
  (run_sound timeZoneDiff clock events s h hcalm).finished f hf

def late : List Event :=
  [.find 1, .readClock, .addData 7, .find 1, .readClock, .tick 20, .beginFrame 100 true, .addData 8,
    .find 1, .readClock, .addData 9, .tick 25, .find 1, .readClock, .addData 10]

def lateFrame : Frame :=
  ⟨20, 100, true, false, [⟨1, some 0⟩], [],
    ⟨(∅ : AList fun _ : UInt16 => SharedPtr).insert 1 (some 0), [⟨[⟨10, 7⟩], varLabel 1⟩]⟩,
    .stamped (some 0) 10⟩

def lateScreen : Screen :=
  ⟨25, ⟨lateFrame.seen.series, [⟨[⟨10, 7⟩, ⟨10, 8⟩, ⟨20, 9⟩, ⟨25, 10⟩], varLabel 1⟩]⟩, .idle,
    some lateFrame, []⟩

def drawnFrame : Frame :=
  { lateFrame with todo := [], pictures := [(1, some [⟨10, 7⟩, ⟨10, 8⟩, ⟨20, 9⟩])] }

theorem run_late : run (step 0) (start 10) late = some lateScreen := rfl

theorem run_drawn : run (step 0) (start 10) (late ++ [.draw, .endFrame]) =
    some { lateScreen with frame := none, finished := [drawnFrame] } := by
  have hdrawn : drawn 0 100 20 ⟨[⟨10, 7⟩, ⟨10, 8⟩, ⟨20, 9⟩, ⟨25, 10⟩], varLabel 1⟩ =
      some (some [⟨10, 7⟩, ⟨10, 8⟩, ⟨20, 9⟩]) :=
    drawn_picture _ (by simp [InOrder]) 0 100 20 (by decide)
  have hdraw : step 0 lateScreen .draw = some { lateScreen with frame := some drawnFrame } :=
    congrArg (Option.map _) hdrawn
  rw [run_append, run_late, Option.bind_some, run, hdraw]
  rfl

theorem late_calm : Along (step 0) Calm (start 10) late := by decide

theorem drawn_calm : Along (step 0) Calm (start 10) (late ++ [.draw, .endFrame]) :=
  (along_append _ _ _ _ _).mpr ⟨late_calm, fun _ _ => along_of_forall _ _ _ _ (by simp [Calm])⟩

theorem frame_one_moment_late : Whole 0 lateScreen.chart drawnFrame :=
  frame_one_moment 0 10 (late ++ [.draw, .endFrame])
    { lateScreen with frame := none, finished := [drawnFrame] } run_drawn drawn_calm drawnFrame
    (List.mem_singleton.mpr rfl)

def dotsOf (c : Chart) (v : UInt16) : List Dot := ((c.view v).map (·.data)).getD []

/-- No series that a frame has still to draw is missing or out of order. -/
theorem draw_possible (z : ℤ) (s : Screen) (f : Frame) (hs : Sound z s) (hf : s.frame = some f)
    (hlimit : 0 ≤ f.timeLimit) (item : Σ _ : UInt16, SharedPtr)
    (rest : List (Σ _ : UInt16, SharedPtr)) (htodo : f.todo = item::rest) :
    step z s .draw = some { s with
      frame := some { f with
        todo := rest
        pictures := f.pictures ++
          [(item.1, picture z f.timeLimit f.timeNow (dotsOf s.chart item.1))] } } := by
  have hframed := hs.framed f hf
  have hitem : item ∈ s.chart.series.entries := by
    rw [hframed.series]
    exact hframed.todo item (by simp [htodo])
  obtain ⟨series, hseries, hview⟩ := deref_entry s.chart hs.stamped.linked item hitem
  have hmem := deref_datas s.chart item.2 series hseries
  simp only [step, hf, Option.bind_some, hframed.intact, htodo, hseries, dotsOf, hview,
    drawn_picture series (hs.stamped.ordered _ hmem) z _ _ hlimit, Option.map_some,
    Option.getD_some]

/-- Drawn without a break, a frame shows what is left of its walk as it is. -/
theorem draws_end (z : ℤ) (s : Screen) (f : Frame) (hs : Sound z s) (hf : s.frame = some f)
    (hlimit : 0 ≤ f.timeLimit) :
    run (step z) s (List.replicate f.todo.length .draw ++ [.endFrame]) = some { s with
      frame := none
      finished := s.finished ++ [{ f with
        todo := []
        pictures := f.pictures ++ f.todo.map fun item =>
          (item.1, picture z f.timeLimit f.timeNow (dotsOf s.chart item.1)) }] } := by
  generalize hn : f.todo = todo
  induction todo generalizing s f with
  | nil =>
    have hintact := (hs.framed f hf).intact
    cases f
    cases hn
    cases hintact
    simp [run, step, hf]
  | cons item rest ih =>
    have hdraw := draw_possible z s f hs hf hlimit item rest hn
    have hrest := ih _ { f with
      todo := rest
      pictures := f.pictures ++
        [(item.1, picture z f.timeLimit f.timeNow (dotsOf s.chart item.1))] }
      (step_sound z s _ .draw hs trivial hdraw) rfl hlimit rfl
    simp only [List.length_cons, List.replicate_succ, List.cons_append, run, hdraw,
      Option.bind_some, hrest, List.map_cons, List.append_assoc, List.nil_append]

/-- A frame that was begun with a time limit that is not negative can be drawn to
its end, whatever came in so far, where the clock was not set back and no series
was removed while it was drawn. -/
theorem frame_ends (timeZoneDiff clock : ℤ) (events : List Event) (s : Screen)
    (h : run (step timeZoneDiff) (start clock) events = some s)
    (hcalm : Along (step timeZoneDiff) Calm (start clock) events) (f : Frame)
    (hf : s.frame = some f) (hlimit : 0 ≤ f.timeLimit) :
    ∃ s', run (step timeZoneDiff) s (List.replicate f.todo.length .draw ++ [.endFrame]) = some s' ∧
      s'.frame = none ∧ s'.chart = s.chart :=
  ⟨_, draws_end timeZoneDiff s f (run_sound timeZoneDiff clock events s h hcalm) hf hlimit, rfl, rfl⟩

theorem frame_ends_late :
    ∃ s', run (step 0) lateScreen [.draw, .endFrame] = some s' ∧ s'.frame = none ∧
      s'.chart = lateScreen.chart :=
  frame_ends 0 10 late lateScreen run_late late_calm lateFrame rfl (by decide)

end BusPlot.FrameSnapshot
