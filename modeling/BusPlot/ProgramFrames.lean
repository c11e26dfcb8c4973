import BusPlot.WholeProgram

/-!
# What the program shows

The frames of the whole program against the bytes that came in. A frame that is
drawn while messages are handled shows each variable with some of them; which ones
is said by a prefix of the log. From wherever the two threads stand they can come
to rest, and then every call that was made is in the chart and in the next frame.
-/

set_option autoImplicit false

namespace BusPlot.ProgramFrames
open BusPlot.SerialReceiver BusPlot.SerialConnect BusPlot.SerialSections BusPlot.Registrations
open BusPlot.PlotSeries BusPlot.PlotChart BusPlot.Handlers BusPlot.ChartReplay
open BusPlot.SeriesOrder BusPlot.PlotDrawing BusPlot.WireToPlot BusPlot.WholeProgram PartialRun
open FrameSnapshot (Screen Frame)

/-- A frame in terms of the messages: `before` was handled when it read the clock,
`rest` later. Every variable of `before` is there to be drawn. A picture is that of
the samples which `before` and some of `rest` leave to its variable; of these the
first one aside, all updates are stamped at the reading of the frame or later. -/
structure Shown (timeZoneDiff : ℤ) (f : Frame) (before rest : List Message) : Prop where
  keys : ∀ v, sinceRemove v before ≠ [] → v ∈ f.seen.series
  late : ∀ msg ∈ rest.tail, ∀ req t, msg = .updateVariable req t → f.timeNow ≤ t
  pictures : 0 ≤ f.timeLimit → ∀ pic ∈ f.pictures, ∃ more, more <+: rest ∧
    pic.2 = picture timeZoneDiff f.timeLimit f.timeNow (samples pic.1 (before ++ more))

/-- The run had come to `m`, with the frames `fs` finished, when the frame read the
clock. -/
structure Begun (timeZoneDiff clock : ℤ) (events : List Event) (fs : List Frame) (f : Frame)
    (m : Program) : Prop where
  reached : ∃ pre post, events = pre ++ .screen (.beginFrame f.timeLimit f.beginPlot)::post ∧
    run (step timeZoneDiff) (start clock) pre = some m
  finished : m.screen.finished = fs
  timeNow : f.timeNow = m.screen.clock
  seen : f.seen = m.screen.chart

structure Frames (timeZoneDiff clock : ℤ) (events : List Event) (p : Program) : Prop where
  current : ∀ f, p.screen.frame = some f → ∃ m rest,
    Begun timeZoneDiff clock events p.screen.finished f m ∧ p.log = m.log ++ rest ∧
      Shown timeZoneDiff f m.log rest ∧
        (rest ≠ [] → ∀ q t, p.screen.worker = .stamped q t → f.timeNow ≤ t)
  finished : ∀ fs f gs, p.screen.finished = fs ++ f::gs → ∃ m rest,
    Begun timeZoneDiff clock events fs f m ∧ m.log ++ rest <+: p.log ∧
      Shown timeZoneDiff f m.log rest

theorem Begun.longer (z clock : ℤ) (events : List Event) (e : Event) (fs : List Frame) (f : Frame)
    (m : Program) (h : Begun z clock events fs f m) : Begun z clock (events ++ [e]) fs f m where
  reached := by
    obtain ⟨pre, post, hsplit, hrun⟩ := h.reached
    exact ⟨pre, post ++ [e], by rw [hsplit, List.append_assoc]; rfl, hrun⟩
  finished := h.finished
  timeNow := h.timeNow
  seen := h.seen

theorem Shown.longer (z : ℤ) (f : Frame) (before rest : List Message) (msg : Message)
    (h : Shown z f before rest)
    (hmsg : rest ≠ [] → ∀ req t, msg = .updateVariable req t → f.timeNow ≤ t) :
    Shown z f before (rest ++ [msg]) where
  keys := h.keys
  late := by
    by_cases hrest : rest = []
    · simp [hrest]
    · intro m hm
      rw [List.tail_append_of_ne_nil hrest, List.mem_append, List.mem_singleton] at hm
      rcases hm with hm | rfl
      · exact h.late m hm
      · exact hmsg hrest
  pictures hlimit pic hpic := by
    obtain ⟨more, hmore, hdots⟩ := h.pictures hlimit pic hpic
    exact ⟨more, hmore.trans (List.prefix_append rest [msg]), hdots⟩

theorem Frames.kept (z clock : ℤ) (events : List Event) (e : Event) (p p' : Program)
    (h : Frames z clock events p)
    (hframe : p'.screen.frame = p.screen.frame) (hfinished : p'.screen.finished = p.screen.finished)
    (hlog : p'.log = p.log)
    (hpast : ∀ f, p.screen.frame = some f → f.timeNow ≤ p.screen.clock)
    (hworker : ∀ q t, p'.screen.worker = .stamped q t →
      p.screen.worker = .stamped q t ∨ t = p.screen.clock) : Frames z clock (events ++ [e]) p' where
  current f hf := by
    rw [hframe] at hf
    obtain ⟨m, rest, hbegun, hsplit, hshown, hlate⟩ := h.current f hf
    refine ⟨m, rest, hfinished ▸ hbegun.longer z clock events e _ f m, hlog.trans hsplit, hshown,
      fun hrest q t ht => ?_⟩
    rcases hworker q t ht with hsame | rfl
    · exact hlate hrest q t hsame
    · exact hpast f hf
  finished := by
    rw [hfinished, hlog]
    intro fs f gs hsplit
    obtain ⟨m, rest, hbegun, hdone⟩ := h.finished fs f gs hsplit
    exact ⟨m, rest, hbegun.longer z clock events e fs f m, hdone⟩

theorem Frames.logged (z clock : ℤ) (events : List Event) (e : Event) (p p' : Program)
    (h : Frames z clock events p) (msg : Message)
    (hframe : p'.screen.frame = p.screen.frame) (hfinished : p'.screen.finished = p.screen.finished)
    (hlog : p'.log = p.log ++ [msg])
    (hmsg : ∀ req t, msg = .updateVariable req t → ∃ q, p.screen.worker = .stamped q t)
    (hidle : p'.screen.worker = .idle) : Frames z clock (events ++ [e]) p' where
  current f hf := by
    rw [hframe] at hf
    obtain ⟨m, rest, hbegun, hsplit, hshown, hlate⟩ := h.current f hf
    refine ⟨m, rest ++ [msg], hfinished ▸ hbegun.longer z clock events e _ f m,
      by rw [hlog, hsplit, List.append_assoc], ?_, ?_⟩
    · apply hshown.longer
      intro hrest req t ht
      obtain ⟨q, hq⟩ := hmsg req t ht
      exact hlate hrest q t hq
    · intro _ q t ht
      rw [hidle] at ht
      cases ht
  finished fs f gs hsplit := by
    rw [hfinished] at hsplit
    obtain ⟨m, rest, hbegun, hprefix, hshown⟩ := h.finished fs f gs hsplit
    exact ⟨m, rest, hbegun.longer z clock events e fs f m,
      hprefix.trans (hlog ▸ List.prefix_append p.log [msg]), hshown⟩

/-- A series is drawn with what the log leaves to its variable by then. -/
theorem draw_picture (z : ℤ) (p : Program) (hs : FrameSnapshot.Sound z p.screen) (hp : Atomic p)
    (f : Frame) (hf : p.screen.frame = some f) (item : Σ _ : UInt16, SharedPtr)
    (hitem : item ∈ f.todo) (series : Series) (dots : Option (List Dot))
    (hseries : p.screen.chart.deref item.2 = some series) (hlimit : 0 ≤ f.timeLimit)
    (hdots : drawn z f.timeLimit f.timeNow series = some dots) :
    dots = picture z f.timeLimit f.timeNow (samples item.1 p.log) := by
  have hentry : item ∈ p.screen.chart.series.entries := by
    rw [(hs.framed f hf).series]
    exact (hs.framed f hf).todo item hitem
  obtain ⟨s, hs', hview⟩ := deref_entry p.screen.chart hs.stamped.linked item hentry
  obtain rfl : s = series := Option.some.inj (hs'.symm.trans hseries)
  have hmem := FrameSnapshot.deref_datas p.screen.chart item.2 s hseries
  rw [drawn_picture s (hs.stamped.ordered _ hmem) z _ _ hlimit, hp.samples p item.1 s hview] at hdots
  exact (Option.some.inj hdots).symm

theorem start_frames (z clock : ℤ) : Frames z clock [] (start clock) := by
  constructor <;> simp [start, FrameSnapshot.start]

/-- The frame that reads the clock now has all of the log before it. -/
theorem frames_begin (z clock : ℤ) (events : List Event) (p : Program)
    (hrun : run (step z) (start clock) events = some p) (hs : FrameSnapshot.Sound z p.screen)
    (ha : Atomic p) (timeLimit : ℤ) (beginPlot : Bool) :
    Begun z clock (events ++ [.screen (.beginFrame timeLimit beginPlot)]) p.screen.finished
        (FrameSnapshot.begun p.screen timeLimit beginPlot) p ∧
      Shown z (FrameSnapshot.begun p.screen timeLimit beginPlot) p.log [] where
  left := ⟨⟨events, [], rfl, hrun⟩, rfl, rfl, rfl⟩
  right := by
    refine ⟨fun v hv => ?_, by simp, fun _ pic hpic => by cases hpic⟩
    exact (Chart.mem_iff_view p.screen.chart hs.stamped.linked v).mpr ((ha.view p v).2 hv)

theorem step_frames (z clock : ℤ) (events : List Event) (p p' : Program) (e : Event)
    (hrun : run (step z) (start clock) events = some p) (hs : FrameSnapshot.Sound z p.screen)
    (ha : Atomic p) (hp : Frames z clock events p) (hcalm : Calm p e) (h : step z p e = some p') :
    Frames z clock (events ++ [e]) p' := by
  have hpast : ∀ f, p.screen.frame = some f → f.timeNow ≤ p.screen.clock :=
    fun f hf => (hs.framed f hf).past
  cases step_moves z p p' e h with
  | window e w hfree hw => exact hp.kept z clock events _ p _ rfl rfl rfl hpast fun q t ht => .inl ht
  | find stack call req hcall hmsg hw =>
    exact hp.kept z clock events _ p _ rfl rfl rfl hpast fun q t ht => by cases ht
  | readClock stack call req q hcall hmsg hw =>
    refine hp.kept z clock events _ p _ rfl rfl rfl hpast ?_
    rintro q' t ⟨⟩
    exact .inr rfl
  | addData stack call req q now c hcall hmsg hw hc =>
    refine hp.logged z clock events _ p _ _ rfl rfl rfl ?_ rfl
    intro req' t ht
    rw [hmsg] at ht
    cases ht
    exact ⟨q, hw⟩
  | whole stack call c hcall hmsg hw hc =>
    exact hp.logged z clock events _ p _ _ (calm_walk z p hs.framed stack call hcall hw hcalm) rfl rfl
      (fun req t ht => absurd ht (hmsg _ req t)) hw
  | screen e s hout hs' =>
    cases FrameSnapshot.step_moves z p.screen s e hs' with
    | tick now => exact hp.kept z clock events _ p _ rfl rfl rfl hpast fun q t ht => .inl ht
    | beginFrame timeLimit beginPlot halone =>
      refine ⟨fun f hf => ?_, fun fs f gs hsplit => ?_⟩
      · cases hf
        obtain ⟨hbegun, hshown⟩ := frames_begin z clock events p hrun hs ha timeLimit beginPlot
        exact ⟨p, [], hbegun, (List.append_nil _).symm, hshown, by simp⟩
      · obtain ⟨m, rest, hbegun, hdone⟩ := hp.finished fs f gs hsplit
        exact ⟨m, rest, hbegun.longer z clock events _ fs f m, hdone⟩
    | draw f item rest series dots hf _ htodo hseries hdots =>
      refine ⟨fun g hg => ?_, fun fs g gs hsplit => ?_⟩
      · cases hg
        obtain ⟨m, more, hbegun, hsplit, hshown, hlate⟩ := hp.current f hf
        have hlonger := hbegun.longer z clock events (.screen .draw) _ f m
        refine ⟨m, more, ⟨hlonger.reached, hlonger.finished, hlonger.timeNow, hlonger.seen⟩, hsplit,
          ⟨hshown.keys, hshown.late, fun hlimit pic hpic => ?_⟩, hlate⟩
        rcases List.mem_append.mp hpic with hpic | hpic
        · exact hshown.pictures hlimit pic hpic
        · rw [List.mem_singleton.mp hpic]
          refine ⟨more, List.prefix_refl more, ?_⟩
          rw [← hsplit]
          exact draw_picture z p hs ha f hf item (by simp [htodo]) series dots hseries hlimit hdots
      · obtain ⟨m, more, hbegun, hdone⟩ := hp.finished fs g gs hsplit
        exact ⟨m, more, hbegun.longer z clock events _ fs g m, hdone⟩
    | endFrame f hf _ htodo =>
      refine ⟨fun g hg => (by cases hg), fun fs g gs hsplit => ?_⟩
      rcases (split_snoc _ _ _ _ _).mp hsplit with ⟨-, rfl, rfl⟩ | ⟨gs', -, hsplit'⟩
      · obtain ⟨m, rest, hbegun, hlog, hshown, -⟩ := hp.current f hf
        exact ⟨m, rest, hbegun.longer z clock events _ _ f m, hlog ▸ List.prefix_refl _, hshown⟩
      · obtain ⟨m, rest, hbegun, hdone⟩ := hp.finished fs g gs' hsplit'
        exact ⟨m, rest, hbegun.longer z clock events _ fs g m, hdone⟩
    | find | readClock | addData | setLabel | remove => cases hout

def Event.session : Event → Option ConnectButton.Event
  | .window e => some e
  | _ => none

def session (events : List Event) : List ConnectButton.Event := events.filterMap Event.session

structure Sound (timeZoneDiff clock : ℤ) (events : List Event) (p : Program) : Prop where
  ran : run (step timeZoneDiff) (start clock) events = some p
  session : run ConnectButton.step (ConnectButton.start mainCallbacks) (session events) =
    some p.window
  screen : FrameSnapshot.Sound timeZoneDiff p.screen
  atomic : Atomic p
  called : Called p
  frames : Frames timeZoneDiff clock events p

theorem step_session (z : ℤ) (events : List Event) (p p' : Program) (e : Event)
    (hp : run ConnectButton.step (ConnectButton.start mainCallbacks) (session events) =
      some p.window)
    (h : step z p e = some p') :
    run ConnectButton.step (ConnectButton.start mainCallbacks) (session (events ++ [e])) =
      some p'.window := by
  cases step_moves z p p' e h with
  | window e w hfree hw =>
    have hsession : session (events ++ [.window e]) = session events ++ [e] := by
      simp [session, Event.session]
    rw [hsession, run_snoc, hp]
    exact hw
  | find | readClock | addData | whole =>
    have hsession : ∀ stack, session (events ++ [.handler stack]) = session events := by
      simp [session, Event.session]
    rw [hsession, hp]
  | screen e =>
    have hsession : session (events ++ [.screen e]) = session events := by
      simp [session, Event.session]
    rw [hsession, hp]

/-- The screen takes part in a step with a step of its own, or not at all. -/
theorem step_screen (z : ℤ) (p p' : Program) (e : Event) (hcalm : Calm p e)
    (h : step z p e = some p') :
    p'.screen = p.screen ∨
      ∃ e, FrameSnapshot.Calm p.screen e ∧ FrameSnapshot.step z p.screen e = some p'.screen := by
  cases e with
  | window e =>
    cases step_moves z p p' _ h
    exact .inl rfl
  | handler stack =>
    obtain ⟨call, hcall, h⟩ := Option.bind_eq_some_iff.mp h
    obtain ⟨e, he, h⟩ := Option.bind_eq_some_iff.mp h
    obtain ⟨s, hs, rfl⟩ := Option.map_eq_some_iff.mp h
    refine .inr ⟨e, hcalm call hcall e he, ?_⟩
    rw [hs]
    split <;> rfl
  | screen e =>
    cases step_moves z p p' _ h with
    | screen _ s _ hs => exact .inr ⟨e, hcalm, hs⟩

theorem step_sound (z clock : ℤ) (events : List Event) (p p' : Program) (e : Event)
    (hp : Sound z clock events p) (hcalm : Calm p e) (h : step z p e = some p') :
    Sound z clock (events ++ [e]) p' where
  ran := by
    rw [run_snoc, hp.ran]
    exact h
  session := step_session z events p p' e hp.session h
  screen := by
    rcases step_screen z p p' e hcalm h with hsame | ⟨e', hc, hs⟩
    · rw [hsame]
      exact hp.screen
    · exact FrameSnapshot.step_sound z p.screen p'.screen e' hp.screen hc hs
  atomic := step_atomic z p p' e hp.atomic h
  called := step_called z (ProgramFrames.session events) p p' e hp.session hp.screen.stamped
    hp.called hcalm h
  frames := step_frames z clock events p p' e hp.ran hp.screen hp.atomic hp.frames hcalm h

theorem run_sound (z clock : ℤ) (events : List Event) (p : Program)
    (h : run (step z) (start clock) events = some p)
    (hcalm : Along (step z) Calm (start clock) events) : Sound z clock events p :=
  run_along (step z) Calm (Sound z clock) (start clock)
    ⟨rfl, rfl, FrameSnapshot.start_sound z clock, start_atomic clock, start_called clock,
      start_frames z clock⟩
    (fun is m i m' => step_sound z clock is m m' i) events hcalm p h

theorem stores (z : ℤ) (p : Program) (ha : Atomic p) (call : Invocation Handler)
    (hcall : p.handling = some call) (q : SharedPtr) (now : ℤ)
    (hw : p.screen.worker = .stamped q now) :
    ∃ p', step z p (.handler [0]) = some p' ∧ p'.handling = none ∧ p'.window = p.window ∧
      p'.screen.frame = p.screen.frame := by
  obtain ⟨c, req, hlog, hmsg, hget⟩ := ha.ahead p call hcall q (.inr ⟨now, hw⟩)
  obtain ⟨c', hedit, -⟩ := c.edit_spec (handleAll_linked p.log c hlog) req.variableId
    (·.addData ⟨now, req.value⟩)
  rw [hget] at hedit
  refine ⟨{ p with
    screen := { p.screen with chart := c', worker := .idle }
    handling := none
    log := p.log ++ [message call ⟨now, [0]⟩] }, ?_, rfl, rfl, rfl⟩
  simp [step, hcall, hmsg, statement, hw, FrameSnapshot.step, hedit, reading]

/-- A handler that has its series reads the clock and stores the sample. -/
theorem stamps (z : ℤ) (p : Program) (ha : Atomic p) (call : Invocation Handler)
    (hcall : p.handling = some call) (q : SharedPtr) (hw : p.screen.worker = .found q) :
    ∃ p', run (step z) p [.handler [0], .handler [0]] = some p' ∧ p'.handling = none ∧
      p'.window = p.window ∧ p'.screen.frame = p.screen.frame := by
  have hstep : step z p (.handler [0]) =
      some { p with screen := { p.screen with worker := .stamped q p.screen.clock } } := by
    obtain ⟨c, req, -, hmsg, -⟩ := ha.ahead p call hcall q (.inl hw)
    simp [step, hcall, hmsg, statement, hw, FrameSnapshot.step]
  obtain ⟨p', hrun, hdone⟩ := stores z _ (step_atomic z p _ _ ha hstep) call hcall q _ rfl
  exact ⟨p', by simp [run, hstep, hrun], hdone⟩

end BusPlot.ProgramFrames
