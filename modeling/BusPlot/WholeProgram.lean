import BusPlot.ConnectButton
import BusPlot.FrameSnapshot
import BusPlot.WireToPlot

/-!
# The whole program

The main thread, which takes clicks and draws frames, and the worker, which
completes reads. A read that completes a request puts the worker into its handler,
and there it stays, statement by statement, until the handler returns. Between any
two steps of one thread the other may take its own, as far as the mutex of the
chart lets it. `log` records the messages whose handlers have returned, and nobody
reads it.
-/

set_option autoImplicit false

namespace BusPlot.WholeProgram
open BusPlot.SerialReceiver BusPlot.SerialInvariant BusPlot.SerialSections BusPlot.Registrations
open BusPlot.PlotSeries BusPlot.PlotChart BusPlot.Handlers BusPlot.ChartReplay BusPlot.SeriesOrder
open BusPlot.PlotDrawing BusPlot.WireToPlot PartialRun
open FrameSnapshot (Screen Frame Worker)

structure Program where
  window : ConnectButton.Window Handler
  screen : Screen
  handling : Option (Invocation Handler)
  log : List Message

def start (clock : ℤ) : Program :=
  ⟨ConnectButton.start mainCallbacks, FrameSnapshot.start clock, none, []⟩

inductive Event
  | window (e : ConnectButton.Event)
  | handler (stack : List UInt8)
  | screen (e : FrameSnapshot.Event)

def free (p : Program) : ConnectButton.Event → Bool
  | .click _ _ => p.screen.frame.isNone
  | _ => p.handling.isNone

def outside : FrameSnapshot.Event → Bool
  | .tick _ | .beginFrame _ _ | .draw | .endFrame => true
  | _ => false

def called (w w' : ConnectButton.Window Handler) : Option (Invocation Handler) :=
  w'.serialRPC.receiver.invoked[w.serialRPC.receiver.invoked.length]?

def reading (s : Screen) : ℤ :=
  match s.worker with
  | .stamped _ now => now
  | _ => s.clock

theorem reading_idle (s : Screen) (h : s.worker = .idle) : reading s = s.clock := by
  simp [reading, h]

theorem reading_stamped (s : Screen) (q : SharedPtr) (now : ℤ) (h : s.worker = .stamped q now) :
    reading s = now := by
  simp [reading, h]

def statement (worker : Worker) : Message → Option FrameSnapshot.Event
  | .variableAlias req behind =>
    (cString (req.aliasBytes.toList ++ behind)).map (.setLabel req.variableId ·)
  | .updateVariable req _ =>
    match worker with
    | .idle => some (.find req.variableId)
    | .found _ => some .readClock
    | .stamped _ _ => some (.addData req.value)
  | .removeVariable req => some (.remove req.variableId)

def step (timeZoneDiff : ℤ) (p : Program) : Event → Option Program
  | .window e =>
    if free p e then
      (ConnectButton.step p.window e).map fun w =>
        { p with window := w, handling := p.handling <|> called p.window w }
    else none
  | .handler stack =>
    p.handling.bind fun call =>
      let msg := message call ⟨reading p.screen, stack⟩
      (statement p.screen.worker msg).bind fun e =>
        (FrameSnapshot.step timeZoneDiff p.screen e).map fun s =>
          if s.worker = .idle then { p with screen := s, handling := none, log := p.log ++ [msg] }
          else { p with screen := s }
  | .screen e =>
    if outside e then
      (FrameSnapshot.step timeZoneDiff p.screen e).map fun s => { p with screen := s }
    else none

def Calm (p : Program) : Event → Prop
  | .window _ => True
  | .handler stack => ∀ call ∈ p.handling,
    ∀ e ∈ statement p.screen.worker (message call ⟨reading p.screen, stack⟩),
      FrameSnapshot.Calm p.screen e
  | .screen e => FrameSnapshot.Calm p.screen e

instance (p : Program) (e : Event) : Decidable (Calm p e) := by
  cases e with
  | window e => exact inferInstanceAs (Decidable True)
  | handler stack => exact inferInstanceAs (Decidable (∀ call ∈ p.handling,
      ∀ e ∈ statement p.screen.worker (message call ⟨reading p.screen, stack⟩),
        FrameSnapshot.Calm p.screen e))
  | screen e => exact inferInstanceAs (Decidable (FrameSnapshot.Calm p.screen e))

def walkAfter (msg : Message) (frame : Option Frame) : Option Frame :=
  match msg with
  | .removeVariable req => frame.map (·.erased req.variableId)
  | _ => frame

/-- What each step needs and what it does. An update is three statements. A rename is
taken as one, for nothing behind its lookup is drawn. -/
inductive Moves (timeZoneDiff : ℤ) (p : Program) : Event → Program → Prop
  | window (e : ConnectButton.Event) (w : ConnectButton.Window Handler) (hfree : free p e = true)
      (hw : ConnectButton.step p.window e = some w) :
    Moves timeZoneDiff p (.window e)
      { p with window := w, handling := p.handling <|> called p.window w }
  | find (stack : List UInt8) (call : Invocation Handler) (req : UpdateVariableReq)
      (hcall : p.handling = some call)
      (hmsg : ∀ at_, message call at_ = .updateVariable req at_.now)
      (hw : p.screen.worker = .idle) :
    Moves timeZoneDiff p (.handler stack) { p with screen := { p.screen with
      chart := (p.screen.chart.getOrAddSeries req.variableId).1
      worker := .found (p.screen.chart.getOrAddSeries req.variableId).2 } }
  | readClock (stack : List UInt8) (call : Invocation Handler) (req : UpdateVariableReq)
      (q : SharedPtr) (hcall : p.handling = some call)
      (hmsg : ∀ at_, message call at_ = .updateVariable req at_.now)
      (hw : p.screen.worker = .found q) :
    Moves timeZoneDiff p (.handler stack)
      { p with screen := { p.screen with worker := .stamped q p.screen.clock } }
  | addData (stack : List UInt8) (call : Invocation Handler) (req : UpdateVariableReq)
      (q : SharedPtr) (now : ℤ) (c : Chart) (hcall : p.handling = some call)
      (hmsg : ∀ at_, message call at_ = .updateVariable req at_.now)
      (hw : p.screen.worker = .stamped q now)
      (hc : p.screen.chart.update q (·.addData ⟨now, req.value⟩) = some c) :
    Moves timeZoneDiff p (.handler stack) { p with
      screen := { p.screen with chart := c, worker := .idle }
      handling := none
      log := p.log ++ [message call ⟨now, stack⟩] }
  | whole (stack : List UInt8) (call : Invocation Handler) (c : Chart)
      (hcall : p.handling = some call)
      (hmsg : ∀ at_ req t, message call at_ ≠ .updateVariable req t)
      (hw : p.screen.worker = .idle)
      (hc : handle p.screen.chart (message call ⟨p.screen.clock, stack⟩) = some c) :
    Moves timeZoneDiff p (.handler stack) { p with
      screen := { p.screen with
        chart := c
        frame := walkAfter (message call ⟨p.screen.clock, stack⟩) p.screen.frame }
      handling := none
      log := p.log ++ [message call ⟨p.screen.clock, stack⟩] }
  | screen (e : FrameSnapshot.Event) (s : Screen) (hout : outside e = true)
      (hs : FrameSnapshot.step timeZoneDiff p.screen e = some s) :
    Moves timeZoneDiff p (.screen e) { p with screen := s }

theorem message_update (call : Invocation Handler) (at_ : Surroundings) (req : UpdateVariableReq)
    (t : ℤ) (h : message call at_ = .updateVariable req t) (at' : Surroundings) :
    message call at' = .updateVariable req at'.now := by
  unfold message at h ⊢
  split at h
  · cases h
  · cases h
    simp
  · cases h

theorem message_other (call : Invocation Handler) (at_ : Surroundings)
    (h : ∀ req t, message call at_ ≠ .updateVariable req t) (at' : Surroundings)
    (req : UpdateVariableReq) (t : ℤ) : message call at' ≠ .updateVariable req t := by
  intro h'
  exact h req _ (message_update call at' req t h' at_)

theorem step_moves (z : ℤ) (p p' : Program) (e : Event) (h : step z p e = some p') :
    Moves z p e p' := by
  cases e with
  | window e =>
    simp only [step] at h
    split at h
    · rename_i hfree
      obtain ⟨w, hw, rfl⟩ := Option.map_eq_some_iff.mp h
      exact .window e w hfree hw
    · cases h
  | screen e =>
    simp only [step] at h
    split at h
    · rename_i hout
      obtain ⟨s, hs, rfl⟩ := Option.map_eq_some_iff.mp h
      exact .screen e s hout hs
    · cases h
  | handler stack =>
    obtain ⟨call, hcall, h⟩ := Option.bind_eq_some_iff.mp h
    obtain ⟨e, he, h⟩ := Option.bind_eq_some_iff.mp h
    obtain ⟨s, hs, rfl⟩ := Option.map_eq_some_iff.mp h
    have hmoves := FrameSnapshot.step_moves z p.screen s e hs
    cases hm : message call ⟨reading p.screen, stack⟩ with
    | variableAlias req behind =>
      rw [hm] at he
      obtain ⟨label, hlabel, rfl⟩ := Option.map_eq_some_iff.mp he
      cases hmoves with
      | setLabel _ _ c hreach hc =>
        have hw : p.screen.worker = .idle := by
          simp only [FrameSnapshot.reaches, decide_eq_true_eq] at hreach
          exact hreach.1
        have hother := message_other call _ fun req' t => by rw [hm]; simp
        rw [reading_idle _ hw] at hm
        have hhandle : handle p.screen.chart (message call ⟨p.screen.clock, stack⟩) = some c := by
          rw [hm, handle, handleVariableAliasRequest, hlabel]
          exact hc
        have hwhole : Moves z p (.handler stack) _ := .whole stack call c hcall hother hw hhandle
        rw [hm] at hwhole
        rw [if_pos hw]
        exact hwhole
    | updateVariable req t =>
      have hmsg := message_update call _ req t hm
      rw [hm] at he
      cases hw : p.screen.worker with
      | idle =>
        rw [hw] at he
        cases he
        cases hmoves
        exact .find stack call req hcall hmsg hw
      | found q =>
        rw [hw] at he
        cases he
        cases hmoves with
        | readClock q' hq =>
          rw [hw] at hq
          cases hq
          exact .readClock stack call req q hcall hmsg hw
      | stamped q now =>
        rw [hw] at he
        cases he
        cases hmoves with
        | addData _ q' now' c hq hc =>
          rw [hw] at hq
          cases hq
          rw [if_pos rfl, ← hm, reading_stamped _ _ _ hw]
          exact .addData stack call req q now c hcall hmsg hw hc
    | removeVariable req =>
      rw [hm] at he
      cases he
      cases hmoves with
      | remove _ hw =>
        have hother := message_other call _ fun req' t => by rw [hm]; simp
        rw [reading_idle _ hw] at hm
        have hwhole : Moves z p (.handler stack) _ :=
          .whole stack call (p.screen.chart.removeSeries req.variableId).1 hcall hother hw
            (by rw [hm]; rfl)
        rw [hm] at hwhole
        rw [if_pos hw]
        exact hwhole

theorem calm_walk (z : ℤ) (p : Program)
    (hf : ∀ f, p.screen.frame = some f → FrameSnapshot.Framed z p.screen f) (stack : List UInt8)
    (call : Invocation Handler) (hcall : p.handling = some call) (hw : p.screen.worker = .idle)
    (hcalm : Calm p (.handler stack)) :
    walkAfter (message call ⟨p.screen.clock, stack⟩) p.screen.frame = p.screen.frame := by
  cases hm : message call ⟨p.screen.clock, stack⟩ with
  | variableAlias | updateVariable => rfl
  | removeVariable req =>
    refine FrameSnapshot.calm_erased z p.screen hf req.variableId (hcalm call hcall _ ?_)
    rw [reading_idle _ hw, hm]
    rfl

def Atomic (p : Program) : Prop :=
  ∃ c, handleAll .empty p.log = some c ∧
    match p.screen.worker with
    | .idle => p.screen.chart = c
    | .found q | .stamped q _ => ∃ call req, p.handling = some call ∧
      (∀ at_, message call at_ = .updateVariable req at_.now) ∧
        c.getOrAddSeries req.variableId = (p.screen.chart, q)

theorem handleAll_snoc (log : List Message) (msg : Message) (c c' : Chart)
    (hlog : handleAll .empty log = some c) (h : handle c msg = some c') :
    handleAll .empty (log ++ [msg]) = some c' := by
  rw [handleAll, run_snoc]
  exact Option.bind_eq_some_iff.mpr ⟨c, hlog, h⟩

theorem Atomic.idle (p : Program) (h : Atomic p) (hw : p.screen.worker = .idle) :
    handleAll .empty p.log = some p.screen.chart := by
  obtain ⟨c, hlog, hc⟩ := h
  simp only [hw] at hc
  rw [hc, hlog]

/-- A handler that has its series already is one lookup ahead of the log. -/
theorem Atomic.ahead (p : Program) (h : Atomic p) (call : Invocation Handler)
    (hcall : p.handling = some call) (q : SharedPtr)
    (hw : p.screen.worker = .found q ∨ ∃ now, p.screen.worker = .stamped q now) :
    ∃ c req, handleAll .empty p.log = some c ∧
      (∀ at_, message call at_ = .updateVariable req at_.now) ∧
        c.getOrAddSeries req.variableId = (p.screen.chart, q) := by
  obtain ⟨c, hlog, hc⟩ := h
  have hahead : ∃ call req, p.handling = some call ∧
      (∀ at_, message call at_ = .updateVariable req at_.now) ∧
        c.getOrAddSeries req.variableId = (p.screen.chart, q) := by
    rcases hw with hw | ⟨now, hw⟩
    · rw [hw] at hc
      exact hc
    · rw [hw] at hc
      exact hc
  obtain ⟨call', req, hcall', hmsg, hget⟩ := hahead
  obtain rfl : call = call' := Option.some.inj (hcall.symm.trans hcall')
  exact ⟨c, req, hlog, hmsg, hget⟩

/-- Drawing and the clock change neither the chart nor where the worker is. -/
theorem outside_keeps (z : ℤ) (s s' : Screen) (e : FrameSnapshot.Event) (hout : outside e = true)
    (h : FrameSnapshot.step z s e = some s') :
    s'.chart = s.chart ∧ s'.worker = s.worker := by
  cases FrameSnapshot.step_moves z s s' e h with
  | tick | beginFrame | draw | endFrame => exact ⟨rfl, rfl⟩
  | find | readClock | addData | setLabel | remove => cases hout

theorem start_atomic (clock : ℤ) : Atomic (start clock) := ⟨.empty, rfl, rfl⟩

theorem step_atomic (z : ℤ) (p p' : Program) (e : Event) (hp : Atomic p)
    (h : step z p e = some p') : Atomic p' := by
  cases step_moves z p p' e h with
  | window e w hfree hw =>
    obtain ⟨c, hlog, hc⟩ := hp
    refine ⟨c, hlog, ?_⟩
    cases hworker : p.screen.worker with
    | idle =>
      rw [hworker] at hc
      exact hc
    | found q | stamped q t =>
      rw [hworker] at hc
      obtain ⟨call, req, hcall, hmsg, hget⟩ := hc
      exact ⟨call, req, by rw [hcall]; rfl, hmsg, hget⟩
  | find stack call req hcall hmsg hw =>
    exact ⟨p.screen.chart, hp.idle p hw, call, req, hcall, hmsg, rfl⟩
  | readClock stack call req q hcall hmsg hw =>
    obtain ⟨c, hlog, hc⟩ := hp
    rw [hw] at hc
    exact ⟨c, hlog, hc⟩
  | addData stack call req q now c hcall hmsg hw hc =>
    obtain ⟨c₀, req', hlog, hmsg', hget⟩ := hp.ahead p call hcall q (.inr ⟨now, hw⟩)
    have hreq : req = req' := by
      have heq := (hmsg ⟨now, stack⟩).symm.trans (hmsg' ⟨now, stack⟩)
      cases heq
      rfl
    subst hreq
    refine ⟨c, handleAll_snoc p.log _ c₀ c hlog ?_, rfl⟩
    rw [hmsg, handle, handleUpdateVariableRequest, hget]
    exact hc
  | whole stack call c hcall hmsg hw hc =>
    refine ⟨c, handleAll_snoc p.log _ _ c (hp.idle p hw) hc, ?_⟩
    rw [hw]
  | screen e s hout hs =>
    obtain ⟨hchart, hworker⟩ := outside_keeps z p.screen s e hout hs
    obtain ⟨c, hlog, hc⟩ := hp
    refine ⟨c, hlog, ?_⟩
    rw [hchart, hworker]
    exact hc

/-- What the chart has of a variable is what the log leaves to it. -/
theorem Atomic.view (p : Program) (h : Atomic p) (v : UInt16) :
    ((p.screen.chart.view v).map (·.data)).getD [] = samples v p.log ∧
      (sinceRemove v p.log ≠ [] → (p.screen.chart.view v).isSome = true) := by
  obtain ⟨c, hlog, hc⟩ := h
  have hdata := handleAll_data p.log c hlog v
  have hview : p.screen.chart.view v = c.view v ∨
      c.view v = none ∧ p.screen.chart.view v = some (.make (varLabel v)) := by
    have made : ∀ seriesId q, c.getOrAddSeries seriesId = (p.screen.chart, q) →
        p.screen.chart.view v = c.view v ∨
          c.view v = none ∧ p.screen.chart.view v = some (.make (varLabel v)) := by
      intro seriesId q hget
      obtain ⟨i, c', hspec, -, -, hview⟩ :=
        c.getOrAddSeries_spec (handleAll_linked p.log c hlog) seriesId
      rw [hget] at hspec
      cases hspec
      rw [hview v]
      by_cases hv : v = seriesId
      · subst hv
        rw [if_pos rfl]
        cases hold : c.view v with
        | none => exact .inr ⟨rfl, rfl⟩
        | some s => exact .inl rfl
      · exact .inl (if_neg hv)
    cases hw : p.screen.worker with
    | idle =>
      rw [hw] at hc
      exact .inl (congrArg (Chart.view · v) hc)
    | found q | stamped q t =>
      rw [hw] at hc
      obtain ⟨-, req, -, -, hget⟩ := hc
      exact made req.variableId q hget
  have hthere : sinceRemove v p.log ≠ [] → (c.view v).isSome = true := by
    intro hne
    rw [replayed, if_neg hne] at hdata
    cases hold : c.view v with
    | none => simp [hold] at hdata
    | some s => rfl
  rw [← replayed_data, ← hdata]
  rcases hview with hsame | ⟨hnone, hnew⟩
  · rw [hsame]
    exact ⟨rfl, hthere⟩
  · rw [hnew, hnone]
    exact ⟨rfl, fun _ => rfl⟩

theorem Atomic.samples (p : Program) (h : Atomic p) (v : UInt16) (s : Series)
    (hs : p.screen.chart.view v = some s) : s.data = SeriesOrder.samples v p.log := by
  have hdata := (h.view p v).1
  rw [hs] at hdata
  exact hdata

def Called (p : Program) : Prop :=
  ∃ done around, p.window.serialRPC.receiver.invoked = done ++ p.handling.toList ∧
    p.log = messages around done ∧ (∀ i j, i ≤ j → (around i).now ≤ (around j).now) ∧
      ∀ i, (around i).now ≤ reading p.screen

theorem Called.kept (p p' : Program) (h : Called p)
    (hcalls : ∀ done, p.window.serialRPC.receiver.invoked = done ++ p.handling.toList →
      p'.window.serialRPC.receiver.invoked = done ++ p'.handling.toList)
    (hlog : p'.log = p.log) (hreading : reading p.screen ≤ reading p'.screen) : Called p' := by
  obtain ⟨done, around, hinvoked, hmessages, hforward, hpast⟩ := h
  exact ⟨done, around, hcalls done hinvoked, hlog.trans hmessages, hforward,
    fun i => (hpast i).trans hreading⟩

/-- A handler that returns has been called at the reading that it has. -/
theorem Called.returned (p p' : Program) (h : Called p) (call : Invocation Handler)
    (stack : List UInt8) (hcall : p.handling = some call)
    (hinvoked : p'.window.serialRPC.receiver.invoked = p.window.serialRPC.receiver.invoked)
    (hhandling : p'.handling = none)
    (hlog : p'.log = p.log ++ [message call ⟨reading p.screen, stack⟩])
    (hreading : reading p.screen ≤ reading p'.screen) : Called p' := by
  obtain ⟨done, around, hdone, hmessages, hforward, hpast⟩ := h
  refine ⟨done ++ [call], fun i => if i < done.length then around i else
    ⟨reading p.screen, stack⟩, ?_, ?_, ?_, ?_⟩
  · rw [hinvoked, hdone, hcall, hhandling]
    simp
  · rw [messages_snoc, if_neg (lt_irrefl _), hlog, hmessages]
    congr 1
    apply messages_congr
    intro i hi
    rw [if_pos hi]
  · intro i j hij
    dsimp only
    by_cases hj : j < done.length
    · rw [if_pos hj, if_pos (by omega)]
      exact hforward i j hij
    · rw [if_neg hj]
      split
      · exact hpast i
      · exact le_refl _
  · intro i
    dsimp only
    split
    · exact (hpast i).trans hreading
    · exact hreading

/-- A step of the window makes at most one call, and a click makes none. -/
theorem window_calls (events : List ConnectButton.Event) (w w' : ConnectButton.Window Handler)
    (e : ConnectButton.Event)
    (hrun : run ConnectButton.step (ConnectButton.start mainCallbacks) events = some w)
    (h : ConnectButton.step w e = some w') :
    w'.serialRPC.receiver.invoked = w.serialRPC.receiver.invoked ++ (called w w').toList ∧
      ∀ settings os, e = .click settings os → called w w' = none := by
  have hs := ConnectButton.run_sound mainCallbacks events w hrun
  have quiet : w'.serialRPC.receiver.invoked = w.serialRPC.receiver.invoked →
      called w w' = none ∧ w'.serialRPC.receiver.invoked =
        w.serialRPC.receiver.invoked ++ (called w w').toList := by
    intro heq
    simp [called, heq]
  cases e with
  | click settings os =>
    have heq : w'.serialRPC.receiver.invoked = w.serialRPC.receiver.invoked := by
      rcases ConnectButton.click_cases mainCallbacks events w hs settings os with
        ⟨-, hclick⟩ | ⟨-, -, hclick⟩
      · cases h.symm.trans hclick
        rfl
      · cases h.symm.trans hclick
        rfl
    exact ⟨(quiet heq).2, fun _ _ _ => (quiet heq).1⟩
  | complete c =>
    refine ⟨?_, by simp⟩
    obtain ⟨s, hcomplete, rfl⟩ := Option.map_eq_some_iff.mp h
    obtain ⟨-, hns, -, r, hr, rfl⟩ := SerialObject.complete_some _ _ _ hcomplete
    obtain ⟨-, -, hmove⟩ := complete_move w.serialRPC.receiver r c (hs.kept.armed hns) hr
    cases hmove with
    | portLost _ _ _ heq | skipped _ _ _ heq | found _ _ _ _ heq | headerDropped _ _ heq
    | chosen _ _ _ _ _ _ heq | bodyDropped _ _ _ heq => exact (quiet heq).2
    | accepted callback body _ _ _ _ hcall => simp [called, hcall]
  | loopEnds =>
    refine ⟨?_, by simp⟩
    obtain ⟨s, hends, rfl⟩ := Option.map_eq_some_iff.mp h
    obtain ⟨-, -, rfl⟩ := SerialObject.loopEnds_some _ _ hends
    exact (quiet rfl).2

theorem start_called (clock : ℤ) : Called (start clock) :=
  ⟨[], fun _ => ⟨clock, []⟩, (registered_idle mainCallbacks).2, rfl, fun _ _ _ => le_refl _,
    fun _ => le_refl _⟩

theorem step_called (z : ℤ) (events : List ConnectButton.Event) (p p' : Program) (e : Event)
    (hrun : run ConnectButton.step (ConnectButton.start mainCallbacks) events = some p.window)
    (hstamped : FrameSnapshot.Stamped p.screen) (hp : Called p) (hcalm : Calm p e)
    (h : step z p e = some p') : Called p' := by
  cases step_moves z p p' e h with
  | window e w hfree hw =>
    obtain ⟨hcalls, hclick⟩ := window_calls events p.window w e hrun hw
    refine hp.kept p _ (fun done hdone => ?_) rfl (le_refl _)
    dsimp only
    rw [hcalls, hdone]
    cases hhandling : p.handling with
    | none => simp
    | some call =>
      cases e with
      | click settings os => simp [hclick settings os rfl]
      | complete | loopEnds => simp [free, hhandling] at hfree
  | find stack call req hcall hmsg hw =>
    refine hp.kept p _ (fun done hdone => hdone) rfl ?_
    rw [reading_idle _ hw]
    exact le_refl _
  | readClock stack call req q hcall hmsg hw =>
    refine hp.kept p _ (fun done hdone => hdone) rfl ?_
    simp [reading, hw]
  | addData stack call req q now c hcall hmsg hw hc =>
    have hnow := reading_stamped _ _ _ hw
    refine hp.returned p _ call stack hcall rfl rfl (by rw [hnow]) ?_
    rw [hnow]
    exact (hstamped.reading q now hw).1
  | whole stack call c hcall hmsg hw hc =>
    have hnow := reading_idle _ hw
    refine hp.returned p _ call stack hcall rfl rfl (by rw [hnow]) ?_
    simp [reading, hw]
  | screen e s hout hs =>
    obtain ⟨-, hworker⟩ := outside_keeps z p.screen s e hout hs
    have hclock := FrameSnapshot.step_clock z p.screen s e hcalm hs
    refine hp.kept p _ (fun done hdone => hdone) rfl ?_
    simp only [reading, hworker]
    split
    · exact le_refl _
    · exact hclock

end BusPlot.WholeProgram
