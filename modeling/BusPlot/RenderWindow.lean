import BusPlot.SeriesOrder

/-!
# The window of the plot

One series between the thread that adds samples and the thread that draws it. A
frame reads the time limit and the clock first and asks the series for its dots
later, with samples arriving in between. Every range that a vector is built
from is kept in `built`.
-/

set_option autoImplicit false

namespace BusPlot.RenderWindow
open BusPlot.PlotSeries BusPlot.SeriesOrder HalvingSearch PartialRun

/-- A sample lies strictly between the end of the window and its begin behind
it, and another one from the begin on. -/
def Straddled (data : List Dot) (beginTime endTime : ℤ) : Prop :=
  (∃ a ∈ data, endTime < a.time ∧ a.time < beginTime) ∧ ∃ b ∈ data, beginTime ≤ b.time

theorem range_ordered (s : Series) (beginTime endTime : ℤ)
    (h : ¬ Straddled s.data beginTime endTime) (r : ℕ × ℕ)
    (hr : s.range beginTime endTime = some r) : r.1 ≤ r.2 := by
  unfold Series.range builtRange at hr
  split at hr
  · cases hr
  · rename_i hbuilt
    cases hr
    apply search_mono
    intro d hd hlt
    have hlate : ∃ b ∈ s.data, beginTime ≤ b.time := by
      by_contra hnone
      refine hbuilt (search_all _ _ fun b hb => ?_)
      simp only [decide_eq_true_eq]
      by_contra hle
      exact hnone ⟨b, hb, by omega⟩
    simp only [decide_eq_true_eq] at hlt ⊢
    intro hin
    exact h ⟨⟨d, hd, hin, hlt⟩, hlate⟩

theorem begin_partitioned (data : List Dot) (h : InOrder data) (beginTime : ℤ) :
    data.Pairwise fun x y =>
      decide (y.time < beginTime) = true → decide (x.time < beginTime) = true := by
  apply List.Pairwise.imp _ h
  intro x y hle
  simp only [decide_eq_true_eq]
  omega

theorem end_partitioned (data : List Dot) (h : InOrder data) (endTime : ℤ) :
    data.Pairwise fun x y =>
      decide (¬ endTime < y.time) = true → decide (¬ endTime < x.time) = true := by
  apply List.Pairwise.imp _ h
  intro x y hle
  simp only [decide_eq_true_eq]
  omega

theorem range_inverted (s : Series) (hs : InOrder s.data) (beginTime endTime : ℤ)
    (h : Straddled s.data beginTime endTime) :
    ∃ r, s.range beginTime endTime = some r ∧ r.2 < r.1 := by
  obtain ⟨⟨a, ha, hend, hbegin⟩, b, hb, hlate⟩ := h
  have partBegin := begin_partitioned s.data hs beginTime
  have partEnd := end_partitioned s.data hs endTime
  have hbuilt : s.rangeBegin beginTime ≠ s.data.length := by
    rw [Series.rangeBegin, search_partitioned _ _ partBegin]
    exact (List.countP_lt_length_iff.mpr ⟨b, hb, by simpa using hlate⟩).ne
  refine ⟨_, if_neg hbuilt, search_lt _ _ s.data partEnd partBegin ?_ a ha ?_ ?_⟩
  · intro d _
    simp only [decide_eq_true_eq]
    omega
  · simpa using hend
  · simpa using hbegin

def dragClamp (vMin vMax v vCur : ℤ) : ℤ :=
  if v ≠ vCur ∧ vMin < vMax then
    let vLow := if vCur < vMin then vMin else vCur
    if vLow > vMax then vMax else vLow
  else vCur

/-- What the control of the chart duration stores, in microseconds. Its limits are
the wrong way round and limit nothing. -/
def chartTimeLimit (v vCur : ℤ) : ℤ := dragClamp 1000000 0 v vCur

structure Window where
  clock : ℤ
  series : Series
  timeLimit : ℤ
  /-- The clock as the update handler has read it. -/
  stamp : Option ℤ
  /-- The time limit and the clock as the frame has read them. -/
  frame : Option (ℤ × ℤ)
  built : List (ℕ × ℕ)

def start (clock : ℤ) (label : List UInt8) : Window :=
  ⟨clock, .make label, 5000000, none, none, []⟩

inductive Event
  | tick (now : ℤ)
  | drag (vCur : ℤ)
  | readStamp
  | addData (value : UInt32)
  | readClock
  | generateDots

def step (setBack : Bool) (w : Window) : Event → Option Window
  | .tick now => if setBack ∨ w.clock ≤ now then some { w with clock := now } else none
  | .drag vCur => some { w with timeLimit := chartTimeLimit w.timeLimit vCur }
  | .readStamp => if w.stamp.isNone then some { w with stamp := some w.clock } else none
  | .addData value => w.stamp.map fun now =>
    { w with series := w.series.addData ⟨now, value⟩, stamp := none }
  | .readClock => some { w with frame := some (w.timeLimit, w.clock) }
  | .generateDots => w.frame.map fun f =>
    { w with built := w.built ++ (w.series.range (f.2-f.1) f.2).toList }

def Sound (w : Window) : Prop := ∀ r ∈ w.built, r.1 ≤ r.2

def Clear (w : Window) (e : Event) : Prop :=
  e = .generateDots → ∀ f, w.frame = some f → ¬ Straddled w.series.data (f.2-f.1) f.2

structure Stamped (w : Window) : Prop where
  ordered : InOrder w.series.data
  past : ∀ d ∈ w.series.data, d.time ≤ w.clock
  stamp : ∀ t, w.stamp = some t → t ≤ w.clock ∧ ∀ d ∈ w.series.data, d.time ≤ t

theorem start_stamped (clock : ℤ) (label : List UInt8) : Stamped (start clock label) :=
  ⟨List.Pairwise.nil, by simp [start], by simp [start]⟩

theorem step_stamped (w w' : Window) (e : Event) (hw : Stamped w) (h : step false w e = some w') :
    Stamped w' := by
  obtain ⟨hord, hpast, hstamp⟩ := hw
  cases e with
  | tick now =>
    simp only [step, Bool.false_eq_true, false_or] at h
    split at h
    · rename_i hle
      cases h
      exact ⟨hord, fun d hd => (hpast d hd).trans hle,
        fun t ht => ⟨(hstamp t ht).1.trans hle, (hstamp t ht).2⟩⟩
    · cases h
  | drag vCur =>
    cases h
    exact ⟨hord, hpast, hstamp⟩
  | readStamp =>
    simp only [step] at h
    split at h
    · cases h
      refine ⟨hord, hpast, fun t ht => ?_⟩
      cases ht
      exact ⟨le_refl _, hpast⟩
    · cases h
  | addData value =>
    obtain ⟨t, ht, rfl⟩ := Option.map_eq_some_iff.mp h
    obtain ⟨hclock, hdata⟩ := hstamp t ht
    refine ⟨?_, fun d hd => ?_, by simp⟩
    · refine List.pairwise_append.mpr ⟨hord, List.pairwise_singleton _ _, fun d hd x hx => ?_⟩
      rw [List.mem_singleton.mp hx]
      exact hdata d hd
    · rcases List.mem_append.mp hd with hd | hd
      · exact hpast d hd
      · rw [List.mem_singleton.mp hd]
        exact hclock
  | readClock =>
    cases h
    exact ⟨hord, hpast, hstamp⟩
  | generateDots =>
    obtain ⟨f, -, rfl⟩ := Option.map_eq_some_iff.mp h
    exact ⟨hord, hpast, hstamp⟩

theorem step_built (setBack : Bool) (w w' : Window) (e : Event) (h : step setBack w e = some w') :
    w'.built = w.built ∨ e = .generateDots ∧ ∃ f, w.frame = some f ∧
      w'.built = w.built ++ (w.series.range (f.2-f.1) f.2).toList := by
  cases e with
  | tick now =>
    simp only [step] at h
    split at h <;> cases h
    exact .inl rfl
  | drag vCur =>
    cases h
    exact .inl rfl
  | readStamp =>
    simp only [step] at h
    split at h <;> cases h
    exact .inl rfl
  | addData value =>
    obtain ⟨t, -, rfl⟩ := Option.map_eq_some_iff.mp h
    exact .inl rfl
  | readClock =>
    cases h
    exact .inl rfl
  | generateDots =>
    obtain ⟨f, hf, rfl⟩ := Option.map_eq_some_iff.mp h
    exact .inr ⟨rfl, f, hf, rfl⟩

theorem step_sound (setBack : Bool) (w w' : Window) (e : Event) (hw : Sound w) (hc : Clear w e)
    (h : step setBack w e = some w') : Sound w' := by
  intro r hr
  rcases step_built setBack w w' e h with hbuilt | ⟨he, f, hf, hbuilt⟩
  · rw [hbuilt] at hr
    exact hw r hr
  · rw [hbuilt] at hr
    rcases List.mem_append.mp hr with hr | hr
    · exact hw r hr
    · exact range_ordered w.series _ _ (hc he f hf) r (Option.mem_toList.mp hr)

theorem step_clear (w w' : Window) (e : Event) (hs : Stamped w) (h : step false w e = some w')
    (hw' : Sound w') : Clear w e := by
  rintro rfl f hf hstr
  obtain ⟨r, hr, hlt⟩ := range_inverted w.series hs.ordered _ _ hstr
  simp only [step, hf, Option.map_some, Option.some.injEq] at h
  subst h
  have := hw' r (List.mem_append_right _ (by rw [hr]; simp))
  omega

/-- With a clock that never goes back every range is in order, in every state of
a run, exactly when no call meets a straddled begin. The condition is enough
with any clock. -/
theorem ranges_in_order (clock : ℤ) (label : List UInt8) (events : List Event) :
    (∀ w, run (step false) (start clock label) events = some w →
      ((∀ pre post m, events = pre ++ post →
          run (step false) (start clock label) pre = some m → Sound m) ↔
        ∀ pre e post m, events = pre ++ e::post →
          run (step false) (start clock label) pre = some m → Clear m e)) ∧
    ((∀ pre e post m, events = pre ++ e::post →
        run (step true) (start clock label) pre = some m → Clear m e) →
      ∀ pre post m, events = pre ++ post →
        run (step true) (start clock label) pre = some m → Sound m) := by
  have hsound : Sound (start clock label) := by simp [Sound, start]
  constructor
  · exact run_exact (step false) Stamped Sound Clear _ (start_stamped clock label) hsound
      (fun m e m' hm h => step_stamped m m' e hm h)
      (fun m e m' hq hm h => ⟨step_clear m m' e hq h, fun hc => step_sound false m m' e hm hc h⟩)
      events
  · exact run_keeps (step true) (fun _ => True) Sound Clear _ trivial hsound
      (fun _ _ _ _ _ => trivial) (fun m e m' _ hm hc h => step_sound true m m' e hm hc h) events

def negativeLimit : List Event :=
  [.drag (-10000), .readClock, .tick 5000, .readStamp, .addData 0, .tick 15000, .readStamp,
    .addData 0, .generateDots]

theorem ranges_in_order_negativeLimit :
    (∀ pre post m, negativeLimit = pre ++ post →
        run (step false) (start 0 []) pre = some m → Sound m) ↔
      ∀ pre e post m, negativeLimit = pre ++ e::post →
        run (step false) (start 0 []) pre = some m → Clear m e :=
  (ranges_in_order 0 [] negativeLimit).1 _ rfl

theorem negativeLimit_inverted :
    ∃ w, run (step false) (start 0 []) negativeLimit = some w ∧ ¬ Sound w := by
  refine ⟨_, rfl, fun h => ?_⟩
  obtain ⟨r, hr, hlt⟩ := range_inverted ⟨[⟨5000, 0⟩, ⟨15000, 0⟩], []⟩ (by simp [InOrder]) 10000 0
    ⟨⟨⟨5000, 0⟩, by simp, by decide, by decide⟩, ⟨15000, 0⟩, by simp, by decide⟩
  have := h r (List.mem_append_right _ (Option.mem_toList.mpr hr))
  omega

end BusPlot.RenderWindow
