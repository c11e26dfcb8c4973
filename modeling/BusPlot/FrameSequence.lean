import BusPlot.FrameSnapshot

/-!
# One frame after the other

While frames follow each other the worker goes on. A pointer names one series for
good, so a variable that has the same pointer in two frames was not removed
between them.
-/

set_option autoImplicit false

namespace BusPlot.FrameSequence
open BusPlot.PlotSeries BusPlot.PlotChart BusPlot.SeriesOrder BusPlot.PlotDrawing
open BusPlot.FrameSnapshot PartialRun

def Holds (c : Chart) (i : ℕ) (d : Dot) : Prop := ∃ y, (datas c)[i]? = some y ∧ d ∈ y

def Shows (timeZoneDiff : ℤ) (f : Frame) (v : UInt16) (d : Dot) : Prop :=
  ∃ dots, (v, some dots) ∈ f.pictures ∧ shift timeZoneDiff d ∈ dots

structure Continues (timeZoneDiff : ℤ) (f g : Frame) : Prop where
  forward : f.timeNow ≤ g.timeNow
  shown : g.beginPlot = true → 0 ≤ f.timeLimit → 0 ≤ g.timeLimit →
    ∀ v p d, f.seen.series.lookup v = some p → g.seen.series.lookup v = some p →
      Shows timeZoneDiff f v d → g.timeNow-g.timeLimit ≤ d.time → Shows timeZoneDiff g v d

def Stored (timeZoneDiff : ℤ) (c : Chart) (f : Frame) : Prop :=
  ∀ v i d, f.seen.series.lookup v = some (some i) → Shows timeZoneDiff f v d → Holds c i d

structure Later (timeZoneDiff : ℤ) (f g : Frame) : Prop where
  forward : f.timeNow ≤ g.timeNow
  stored : Stored timeZoneDiff g.seen f

structure History (timeZoneDiff : ℤ) (s : Screen) : Prop where
  past : ∀ f ∈ s.finished, f.timeNow ≤ s.clock
  stored : ∀ f ∈ s.finished, Stored timeZoneDiff s.chart f
  drawing : ∀ g, s.frame = some g → Stored timeZoneDiff s.chart g ∧
    ∀ f ∈ s.finished, Later timeZoneDiff f g
  pairs : s.finished.Pairwise (Later timeZoneDiff)

theorem shift_inj (z : ℤ) (d e : Dot) (h : shift z d = shift z e) : d = e := by
  obtain ⟨s, v⟩ := d
  obtain ⟨t, w⟩ := e
  simp only [shift, Dot.mk.injEq] at h
  rw [Dot.mk.injEq]
  exact ⟨by omega, h.2⟩

theorem drawn_stored (z timeLimit timeNow : ℤ) (series : Series) (dots : List Dot) (d : Dot)
    (h : drawn z timeLimit timeNow series = some (some dots)) (hd : shift z d ∈ dots) :
    d ∈ series.data := by
  obtain ⟨buffer, hbuffer, h⟩ := Option.map_eq_some_iff.mp h
  split at h
  · cases h
  · cases h
    obtain ⟨e, he, heq⟩ := List.mem_map.mp hd
    rw [← shift_inj z e d heq]
    exact build_subset series.data _ buffer hbuffer e he

theorem step_holds (z : ℤ) (s s' : Screen) (e : Event) (h : step z s e = some s') (i : ℕ) (d : Dot)
    (hd : Holds s.chart i d) : Holds s'.chart i d := by
  obtain ⟨y, hy, hmem⟩ := hd
  obtain ⟨y', hy', hle⟩ := step_grows z s s' e h i y hy
  exact ⟨y', hy', hle.subset hmem⟩

theorem Stored.kept (z : ℤ) (s s' : Screen) (e : Event) (h : step z s e = some s') (f : Frame)
    (hf : Stored z s.chart f) : Stored z s'.chart f :=
  fun v i d hv hd => step_holds z s s' e h i d (hf v i d hv hd)

theorem start_history (z clock : ℤ) : History z (start clock) := by
  refine ⟨?_, ?_, ?_, ?_⟩ <;> simp [start]

theorem History.kept (z : ℤ) (s s' : Screen) (e : Event) (hs : History z s) (hcalm : Calm s e)
    (h : step z s e = some s') (hframe : s'.frame = s.frame) (hfinished : s'.finished = s.finished) :
    History z s' where
  past := by
    rw [hfinished]
    exact fun f hf => (hs.past f hf).trans (step_clock z s s' e hcalm h)
  stored := by
    rw [hfinished]
    exact fun f hf => (hs.stored f hf).kept z s s' e h
  drawing := by
    rw [hframe, hfinished]
    exact fun g hg => ⟨(hs.drawing g hg).1.kept z s s' e h, (hs.drawing g hg).2⟩
  pairs := hfinished ▸ hs.pairs

theorem draw_stored (z : ℤ) (s : Screen) (f : Frame) (hf : Framed z s f)
    (item : Σ _ : UInt16, SharedPtr) (rest : List (Σ _ : UInt16, SharedPtr)) (series : Series)
    (dots : Option (List Dot)) (htodo : f.todo = item::rest)
    (hseries : s.chart.deref item.2 = some series)
    (hdots : drawn z f.timeLimit f.timeNow series = some dots) (hstored : Stored z s.chart f) :
    Stored z s.chart { f with todo := rest, pictures := f.pictures ++ [(item.1, dots)] } := by
  rintro v i d hlookup ⟨shown, hshown, hd⟩
  rcases List.mem_append.mp hshown with hold | hnew
  · exact hstored v i d hlookup ⟨shown, hold, hd⟩
  · cases List.mem_singleton.mp hnew
    have hitem : f.seen.series.lookup item.1 = some item.2 :=
      AList.mem_lookup_iff.mpr (hf.todo item (by simp [htodo]))
    rw [show f.seen.series.lookup item.1 = some (some i) from hlookup] at hitem
    rw [← Option.some.inj hitem] at hseries
    have hplace : s.chart.heap[i]? = some series := hseries
    exact ⟨series.data, by simp [datas, hplace], drawn_stored z _ _ series shown d hdots hd⟩

theorem step_history (z : ℤ) (s s' : Screen) (e : Event) (hsound : Sound z s) (hs : History z s)
    (hcalm : Calm s e) (h : step z s e = some s') : History z s' := by
  cases step_moves z s s' e h with
  | beginFrame timeLimit beginPlot halone =>
    refine ⟨hs.past, hs.stored, ?_, hs.pairs⟩
    rintro g ⟨⟩
    refine ⟨?_, fun f hf => ⟨hs.past f hf, hs.stored f hf⟩⟩
    rintro v i d - ⟨dots, hnone, -⟩
    cases hnone
  | draw f item rest series dots hf _ htodo hseries hdots =>
    obtain ⟨hstored, hlater⟩ := hs.drawing f hf
    refine ⟨hs.past, hs.stored, ?_, hs.pairs⟩
    rintro g ⟨⟩
    exact ⟨draw_stored z s f (hsound.framed f hf) item rest series dots htodo hseries hdots hstored,
      fun f' hf' => ⟨(hlater f' hf').forward, (hlater f' hf').stored⟩⟩
  | endFrame f hf _ htodo =>
    obtain ⟨hstored, hlater⟩ := hs.drawing f hf
    refine ⟨fun g hg => ?_, fun g hg => ?_, by simp, ?_⟩
    · rcases List.mem_append.mp hg with hg | hg
      · exact hs.past g hg
      · rw [List.mem_singleton.mp hg]
        exact (hsound.framed f hf).past
    · rcases List.mem_append.mp hg with hg | hg
      · exact hs.stored g hg
      · rw [List.mem_singleton.mp hg]
        exact hstored
    · refine List.pairwise_append.mpr ⟨hs.pairs, List.pairwise_singleton _ _, fun g hg g' hg' => ?_⟩
      rw [List.mem_singleton.mp hg']
      exact hlater g hg
  | remove seriesId =>
    exact hs.kept z s _ _ hcalm h (calm_erased z s hsound.framed seriesId hcalm) rfl
  | tick | find | readClock | addData | setLabel => exact hs.kept z s _ _ hcalm h rfl rfl

theorem whole_inside (z : ℤ) (c : Chart) (f : Frame) (hf : Whole z c f) (hlimit : 0 ≤ f.timeLimit)
    (v : UInt16) (d : Dot) (h : Shows z f v d) : d.time ≤ f.timeNow := by
  obtain ⟨dots, hmem, hd⟩ := h
  obtain ⟨i, x, held, later, y, -, -, -, -, -, -, hdots⟩ := hf.2 hlimit _ hmem
  obtain ⟨-, hinside⟩ := picture_inside _ _ _ _ dots hdots.symm
  have hle := (hinside _ hd).2
  simp only [shift, xMax] at hle
  omega

theorem whole_shows (z : ℤ) (c : Chart) (f : Frame) (hf : Whole z c f) (hlimit : 0 ≤ f.timeLimit)
    (hplot : f.beginPlot = true) (v : UInt16) (i : ℕ) (d : Dot)
    (hlookup : f.seen.series.lookup v = some (some i)) (hd : Holds f.seen i d)
    (hbegin : f.timeNow-f.timeLimit ≤ d.time) (hend : d.time ≤ f.timeNow) : Shows z f v d := by
  have hkey : v ∈ f.pictures.map Prod.fst := by
    have hmem : v ∈ f.seen.series := AList.lookup_isSome.mp (by simp [hlookup])
    rw [hf.1, Frame.walked, if_pos hplot]
    exact hmem
  obtain ⟨⟨v', dots⟩, hpicture, rfl⟩ := List.mem_map.mp hkey
  obtain ⟨j, x, held, later, y, hj, hx, -, -, -, -, hdots⟩ := hf.2 hlimit _ hpicture
  obtain ⟨x', hx', hmem⟩ := hd
  rw [show f.seen.series.lookup v' = some (some i) from hlookup] at hj
  cases hj
  rw [hx] at hx'
  cases hx'
  have hall : d ∈ x ++ (held ++ later.filter fun d => d.time = f.timeNow) :=
    List.mem_append_left _ hmem
  generalize x ++ (held ++ later.filter fun d => d.time = f.timeNow) = all at hdots hall
  have hwindow : d ∈ window f.timeLimit f.timeNow all :=
    List.mem_filter.mpr ⟨hall, by simp [hbegin, hend]⟩
  have hsome : dots = some ((window f.timeLimit f.timeNow all).map (shift z)) := by
    have hdots' : dots = picture z f.timeLimit f.timeNow all := hdots
    rw [hdots', picture, if_neg (List.ne_nil_of_mem hwindow)]
  exact ⟨_, hsome ▸ hpicture, List.mem_map_of_mem hwindow⟩

theorem later_continues (z : ℤ) (c : Chart) (f g : Frame) (hf : Whole z c f) (hg : Whole z c g)
    (h : Later z f g) : Continues z f g := by
  refine ⟨h.forward, fun hplot hflimit hglimit v p d hfp hgp hshown hbegin => ?_⟩
  have hpast := whole_inside z c f hf hflimit v d hshown
  obtain ⟨dots, hpicture, -⟩ := id hshown
  obtain ⟨i, -, -, -, -, hi, -⟩ := hf.2 hflimit _ hpicture
  rw [show f.seen.series.lookup v = some (some i) from hi] at hfp
  cases hfp
  exact whole_shows z c g hg hglimit hplot v i d hgp (h.stored v i d hi hshown) hbegin
    (hpast.trans h.forward)

/-- Over a whole run: a sample that a frame has drawn is drawn by every later
frame that is drawn at all until it leaves the window, unless its variable was
removed. The clock is not set back, no series is removed while it is drawn, and the
time limits of the two frames are not negative. -/
theorem samples_stay (timeZoneDiff clock : ℤ) (events : List Event) (s : Screen)
    (h : run (step timeZoneDiff) (start clock) events = some s)
    (hcalm : Along (step timeZoneDiff) Calm (start clock) events) :
    s.finished.Pairwise (Continues timeZoneDiff) := by
  obtain ⟨hsound, hhistory⟩ := run_along (step timeZoneDiff) Calm
    (fun _ s => Sound timeZoneDiff s ∧ History timeZoneDiff s) (start clock)
    ⟨start_sound timeZoneDiff clock, start_history timeZoneDiff clock⟩
    (fun _ m e m' hm hc hstep => ⟨step_sound timeZoneDiff m m' e hm.1 hc hstep,
      step_history timeZoneDiff m m' e hm.1 hm.2 hc hstep⟩) events hcalm s h
  exact hhistory.pairs.imp_of_mem fun hf hg hlater =>
    later_continues timeZoneDiff s.chart _ _ (hsound.finished _ hf) (hsound.finished _ hg) hlater

def secondFrame : Frame :=
  ⟨35, 100, true, false, [⟨1, some 0⟩], [], lateScreen.chart, .idle⟩

def twoFrames : Screen :=
  ⟨35, lateScreen.chart, .idle, none, [drawnFrame, { secondFrame with
    todo := [], pictures := [(1, some [⟨10, 7⟩, ⟨10, 8⟩, ⟨20, 9⟩, ⟨25, 10⟩])] }]⟩

def betweenFrames : Screen := { lateScreen with frame := none, finished := [drawnFrame] }

theorem run_second : run (step 0) betweenFrames
    [.tick 35, .beginFrame 100 true, .draw, .endFrame] = some twoFrames := by
  have hdrawn : drawn 0 100 35 ⟨[⟨10, 7⟩, ⟨10, 8⟩, ⟨20, 9⟩, ⟨25, 10⟩], varLabel 1⟩ =
      some (some [⟨10, 7⟩, ⟨10, 8⟩, ⟨20, 9⟩, ⟨25, 10⟩]) :=
    drawn_picture _ (by simp [InOrder]) 0 100 35 (by decide)
  have hdraw : step 0 ⟨35, lateScreen.chart, .idle, some secondFrame, [drawnFrame]⟩ .draw =
      some ⟨35, lateScreen.chart, .idle, some { secondFrame with
        todo := [], pictures := [(1, some [⟨10, 7⟩, ⟨10, 8⟩, ⟨20, 9⟩, ⟨25, 10⟩])] },
        [drawnFrame]⟩ :=
    congrArg (Option.map _) hdrawn
  simp only [run]
  rw [show step 0 betweenFrames (.tick 35) =
    some ⟨35, lateScreen.chart, .idle, none, [drawnFrame]⟩ from rfl, Option.bind_some]
  rw [show step 0 ⟨35, lateScreen.chart, .idle, none, [drawnFrame]⟩ (.beginFrame 100 true) =
    some ⟨35, lateScreen.chart, .idle, some secondFrame, [drawnFrame]⟩ from rfl,
    Option.bind_some, hdraw]
  rfl

theorem samples_stay_twoFrames : twoFrames.finished.Pairwise (Continues 0) := by
  refine samples_stay 0 10
    ((late ++ [.draw, .endFrame]) ++ [.tick 35, .beginFrame 100 true, .draw, .endFrame]) twoFrames
    ?_ ((along_append _ _ _ _ _).mpr ⟨drawn_calm, fun m hm => ?_⟩)
  · rw [run_append, run_drawn]
    exact run_second
  · rw [run_drawn] at hm
    cases hm
    exact ⟨by decide, fun _ _ => along_of_forall _ _ _ _ (by simp [Calm])⟩

end BusPlot.FrameSequence
