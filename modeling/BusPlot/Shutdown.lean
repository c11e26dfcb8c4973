import BusPlot.ConnectButton
import BusPlot.SerialValidity
import BusPlot.ChartSteps

/-!
# The end of the program

The static objects of `main.cpp` are destroyed in the reverse order of their
construction: the window with its chart, then the connection whose worker calls
the handlers. Between the steps of the main thread the worker takes its own: a
read completes, a handler does its next step, the loop returns. `touched` records
a step on the chart behind the start of its destruction, and nobody reads it.
-/

set_option autoImplicit false

namespace BusPlot.Shutdown
open BusPlot.Protocol BusPlot.SerialReceiver BusPlot.SerialInvariant BusPlot.SerialConnect
open BusPlot.SerialObject BusPlot.SerialValidity BusPlot.SerialStream BusPlot.Registrations
open BusPlot.PlotChart BusPlot.Handlers BusPlot.ChartSteps PartialRun
open BusPlot.ConnectButton (Settings Window handleSerialConnect handleSerialConnect_cases)

inductive StaticObject
  | serialRPC
  | gui

def staticObjects : List StaticObject := [.serialRPC, .gui]

inductive Destruction
  | closeWindow
  | destroyChart
  | call (c : Call)

def StaticObject.destructor : StaticObject → List Destruction
  | .serialRPC => SerialObject.destructor.map .call
  | .gui => [.closeWindow, .destroyChart]

def exiting : List Destruction := staticObjects.reverse.flatMap StaticObject.destructor

structure Program extends Window Handler where
  chart : Chart
  handler : Option Todo
  inMain : Bool
  left : List Destruction
  chartDestroyed : Bool
  touched : Bool

def start : Program :=
  ⟨ConnectButton.start mainCallbacks, .empty, none, true, exiting, false, false⟩

def todoOf (call : Invocation Handler) : Todo :=
  match call.callback.process with
  | .handleVariableAliasRequest => .find (wordAt call.request.toList 0)
  | .handleUpdateVariableRequest => .find (wordAt call.request.toList 0)
  | .handleRemoveVariableRequest => .erase (wordAt call.request.toList 0)

/-- `edit` stands for what the window itself does to the chart. -/
inductive Event
  | click (settings : Settings) (os : Environment)
  | edit (chart : Chart)
  | mainReturns
  | destroy
  | complete (c : Completion)
  | loopEnds
  | work

def destroy (p : Program) : Destruction → Option Program
  | .closeWindow => some p
  | .destroyChart => some { p with chartDestroyed := true }
  | .call c =>
    match perform p.serialRPC c with
    | some (.alive s) => some { p with serialRPC := s }
    | _ => none

def step (p : Program) : Event → Option Program
  | .click settings os =>
    if p.inMain then
      (handleSerialConnect p.toWindow settings os).map fun w => { p with toWindow := w }
    else none
  | .edit chart => if p.inMain then some { p with chart := chart } else none
  | .mainReturns => if p.inMain then some { p with inMain := false } else none
  | .destroy =>
    match p.inMain, p.left with
    | false, d::left => destroy { p with left := left } d
    | _, _ => none
  | .complete c =>
    if p.handler.isSome then none
    else (SerialObject.complete p.serialRPC c).map fun s => { p with
      serialRPC := s
      handler := s.receiver.invoked[p.serialRPC.receiver.invoked.length]?.map todoOf }
  | .loopEnds =>
    if p.handler.isSome then none
    else (SerialObject.loopEnds p.serialRPC).map fun s => { p with serialRPC := s }
  | .work => p.handler.map fun todo => { p with
      chart := (act p.chart todo).1
      handler := (act p.chart todo).2
      touched := p.touched || (p.chartDestroyed && todo.onChart) }

structure Safe (p : Program) : Prop where
  untouched : p.touched = false
  settled : p.inMain = false → ∀ events q, run step p events = some q → q.touched = false

/-- `main` returns when the receiver cannot receive. -/
def Quiet (p : Program) : Event → Prop
  | .mainReturns => ¬ CanReceive p.serialRPC
  | _ => True

theorem todoOf_first (behind : List UInt8) (value : UInt32) (now : ℤ) :
    (∀ body, todoOf ⟨aliasCallback, body⟩ = first (.variableAlias (.ofBody body) behind)) ∧
    (∀ body, todoOf ⟨updateCallback, body⟩ =
      first (.updateVariable ⟨wordAt body.toList 0, value⟩ now)) ∧
    ∀ body, todoOf ⟨removeCallback, body⟩ = first (.removeVariable ⟨wordAt body.toList 0⟩) :=
  ⟨fun _ => rfl, fun _ => rfl, fun _ => rfl⟩

structure Running (p : Program) : Prop where
  serial : Kept p.serialRPC
  callbacks : p.serialRPC.receiver.callbacks = (Receiver.registered mainCallbacks).callbacks
  exiting : p.left = exiting
  intact : p.chartDestroyed = false
  opened : p.serialRPC.workingThread ≠ .none →
    p.serialRPC.isOpen = true ∧ p.serialRPC.aborted = 0
  calling : p.handler ≠ none → CanReceive p.serialRPC

theorem start_running : Running start :=
  ⟨constructed_kept mainCallbacks, rfl, rfl, rfl, fun h => absurd rfl h, fun h => absurd rfl h⟩

theorem step_complete (p p' : Program) (c : Completion) (h : step p (.complete c) = some p') :
    p.handler = none ∧ ∃ s, SerialObject.complete p.serialRPC c = some s ∧ p' = { p with
      serialRPC := s
      handler := s.receiver.invoked[p.serialRPC.receiver.invoked.length]?.map todoOf } := by
  simp only [step] at h
  split at h
  · cases h
  · rename_i hn
    obtain ⟨s, hs, rfl⟩ := Option.map_eq_some_iff.mp h
    exact ⟨Option.not_isSome_iff_eq_none.mp hn, s, hs, rfl⟩

theorem step_loopEnds (p p' : Program) (h : step p .loopEnds = some p') :
    p.handler = none ∧ ∃ s, SerialObject.loopEnds p.serialRPC = some s ∧
      p' = { p with serialRPC := s } := by
  simp only [step] at h
  split at h
  · cases h
  · rename_i hn
    obtain ⟨s, hs, rfl⟩ := Option.map_eq_some_iff.mp h
    exact ⟨Option.not_isSome_iff_eq_none.mp hn, s, hs, rfl⟩

theorem step_click (p p' : Program) (settings : Settings) (os : Environment)
    (h : step p (.click settings os) = some p') :
    p.inMain = true ∧ ∃ w, handleSerialConnect p.toWindow settings os = some w ∧
      p' = { p with toWindow := w } := by
  simp only [step] at h
  split at h
  · rename_i hin
    obtain ⟨w, hw, rfl⟩ := Option.map_eq_some_iff.mp h
    exact ⟨hin, w, hw, rfl⟩
  · cases h

/-- An attempt on an open port changes nothing that the worker looks at. -/
theorem afterConnect_receives (s : SerialRPC Handler) (args : ConnectArgs) (os : Environment)
    (hopen : s.isOpen = true) (h : CanReceive s) : CanReceive (afterConnect s args os) := by
  obtain ⟨hrun, hns, hlive⟩ := h
  refine ⟨hrun, hns, ?_⟩
  simpa [failing, afterConnect, hopen] using hlive

theorem click_running (p : Program) (hp : Running p) (settings : Settings) (os : Environment)
    (w : Window Handler) (h : handleSerialConnect p.toWindow settings os = some w) :
    Running { p with toWindow := w } := by
  obtain ⟨hserial, hcallbacks, hleft, hintact, hopened, hcalling⟩ := hp
  have hunstarted : p.serialRPC.isOpen = false → p.serialRPC.workingThread = .none := by
    intro hclosed
    by_contra hne
    rw [(hopened hne).1] at hclosed
    cases hclosed
  have hafter : Kept (afterConnect p.serialRPC settings.args os) :=
    step_kept _ _ (.call (.connect settings.args os)) hserial (perform_connect _ _ _)
  rcases handleSerialConnect_cases p.toWindow hunstarted settings os with
    ⟨-, heq⟩ | ⟨hs, hclosed, heq⟩ <;>
    rw [heq] at h <;> cases h
  · refine ⟨hafter, hcallbacks, hleft, hintact, fun hne => ?_, fun hne => ?_⟩
    · obtain ⟨hopen, hzero⟩ := hopened hne
      simp [afterConnect, hopen, hzero]
    · have hc := hcalling hne
      exact afterConnect_receives _ _ _ (hopened (by simp [hc.1])).1 hc
  · have hnone := hunstarted hclosed
    have hidle : p.handler = none := by
      by_contra hne
      simp [(hcalling hne).1] at hnone
    refine ⟨?_, hcallbacks, hleft, hintact, fun _ => ?_, fun hne => absurd hidle hne⟩
    · refine step_kept _ _ (.call .startGrabbing) hafter ?_
      simp [SerialObject.step, perform, startGrabbing, afterConnect, hnone, WorkingThread.joinable]
    · have hopens : os.opens settings.args.deviceName = true := by
        simp only [SerialConnect.succeeds, Bool.and_eq_true] at hs
        exact hs.1.2
      simp [afterConnect, hclosed, hopens, hserial.idle hnone]

theorem complete_running (p : Program) (hp : Running p) (c : Completion) (s : SerialRPC Handler)
    (h : SerialObject.complete p.serialRPC c = some s) :
    Running { p with
      serialRPC := s
      handler := s.receiver.invoked[p.serialRPC.receiver.invoked.length]?.map todoOf } := by
  obtain ⟨hserial, hcallbacks, hleft, hintact, hopened, -⟩ := hp
  have hkept : Kept s := step_kept _ s (.complete c) hserial
    (congrArg (Option.map Process.alive) h)
  obtain ⟨hrun, hns, -, r, hr, rfl⟩ := complete_some _ _ _ h
  obtain ⟨hcb, -, hmove⟩ := complete_move _ _ _ (hserial.armed hns) hr
  obtain ⟨hopen, hzero⟩ := hopened (by simp [hrun])
  refine ⟨hkept, hcb.trans hcallbacks, hleft, hintact, fun _ => ⟨hopen, by simp [hzero]⟩, ?_⟩
  cases hmove with
  | accepted callback body _ _ _ after _ =>
    intro _
    simp [CanReceive, failing, hrun, hns, hopen, hzero, after]
  | portLost _ _ _ quiet => simp [quiet]
  | skipped _ _ _ quiet => simp [quiet]
  | found _ _ _ _ quiet => simp [quiet]
  | headerDropped _ _ quiet => simp [quiet]
  | chosen _ _ _ _ _ _ quiet => simp [quiet]
  | bodyDropped _ _ _ quiet => simp [quiet]

theorem loopEnds_running (p : Program) (hp : Running p) (hidle : p.handler = none)
    (s : SerialRPC Handler) (h : SerialObject.loopEnds p.serialRPC = some s) :
    Running { p with serialRPC := s } := by
  obtain ⟨hserial, hcallbacks, hleft, hintact, hopened, -⟩ := hp
  have hkept : Kept s := step_kept _ s .loopEnds hserial
    (congrArg (Option.map Process.alive) h)
  obtain ⟨hrun, -, rfl⟩ := loopEnds_some _ _ h
  exact ⟨hkept, hcallbacks, hleft, hintact, fun _ => hopened (by simp [hrun]),
    fun hne => absurd hidle hne⟩

theorem step_running (p p' : Program) (e : Event) (hin : p.inMain = true) (hp : Running p)
    (h : step p e = some p') : (p'.inMain = true → Running p') ∧ p'.touched = p.touched ∧
      (p'.inMain = false → e = .mainReturns) := by
  cases e with
  | click settings os =>
    obtain ⟨-, w, hw, rfl⟩ := step_click p p' settings os h
    exact ⟨fun _ => click_running p hp settings os w hw, rfl, by simp [hin]⟩
  | edit chart =>
    simp only [step, hin, if_true, Option.some.injEq] at h
    subst h
    exact ⟨fun _ => ⟨hp.serial, hp.callbacks, hp.exiting, hp.intact, hp.opened, hp.calling⟩, rfl,
      by simp⟩
  | mainReturns =>
    simp only [step, hin, if_true, Option.some.injEq] at h
    subst h
    exact ⟨fun hin' => absurd hin' Bool.false_ne_true, rfl, fun _ => rfl⟩
  | destroy => simp [step, hin] at h
  | complete c =>
    obtain ⟨-, s, hs, rfl⟩ := step_complete p p' c h
    exact ⟨fun _ => complete_running p hp c s hs, rfl, by simp [hin]⟩
  | loopEnds =>
    obtain ⟨hidle, s, hs, rfl⟩ := step_loopEnds p p' h
    exact ⟨fun _ => loopEnds_running p hp hidle s hs, rfl, by simp [hin]⟩
  | work =>
    obtain ⟨todo, htodo, rfl⟩ := Option.map_eq_some_iff.mp h
    refine ⟨fun _ => ⟨hp.serial, hp.callbacks, hp.exiting, hp.intact, hp.opened, fun _ => ?_⟩, ?_,
      by simp [hin]⟩
    · exact hp.calling (by simp [htodo])
    · simp [hp.intact]

structure Dead (p : Program) : Prop where
  returned : p.inMain = false
  idle : p.handler = none
  untouched : p.touched = false
  calls : ∀ c, .call c ∈ p.left → c ∈ SerialObject.destructor
  deaf : p.serialRPC.workingThread ≠ .running ∨ p.serialRPC.stopped = true ∨
    p.serialRPC.receiver.pending = []

theorem perform_deaf (s s' : SerialRPC Handler) (c : Call) (hc : c ∈ SerialObject.destructor)
    (hs : s.workingThread ≠ .running ∨ s.stopped = true ∨ s.receiver.pending = [])
    (h : perform s c = some (.alive s')) :
    s'.workingThread ≠ .running ∨ s'.stopped = true ∨ s'.receiver.pending = [] := by
  simp only [SerialObject.destructor, List.mem_cons, List.not_mem_nil, or_false] at hc
  rcases hc with rfl | rfl | rfl
  · cases h
    exact .inr (.inl rfl)
  · cases h
    exact hs
  · obtain ⟨-, ⟨rfl, -⟩ | ⟨rfl, -⟩⟩ := join_some s s' h
    · exact hs
    · exact .inl (by simp)

theorem step_dead (p : Program) (e : Event) (p' : Program) (hp : Dead p)
    (h : step p e = some p') : Dead p' := by
  obtain ⟨hin, hidle, huntouched, hcalls, hdeaf⟩ := hp
  cases e with
  | click settings os => simp [step, hin] at h
  | edit chart => simp [step, hin] at h
  | mainReturns => simp [step, hin] at h
  | destroy =>
    simp only [step, hin] at h
    cases hleft : p.left with
    | nil => simp [hleft] at h
    | cons d left =>
      have hmem : ∀ c, Destruction.call c ∈ left → c ∈ SerialObject.destructor :=
        fun c hc => hcalls c (by simp [hleft, hc])
      simp only [hleft] at h
      cases d with
      | closeWindow =>
        cases h
        exact ⟨rfl, hidle, huntouched, hmem, hdeaf⟩
      | destroyChart =>
        cases h
        exact ⟨rfl, hidle, huntouched, hmem, hdeaf⟩
      | call c =>
        simp only [destroy] at h
        split at h
        · rename_i s hs
          cases h
          exact ⟨rfl, hidle, huntouched, hmem,
            perform_deaf _ s c (hcalls c (by simp [hleft])) hdeaf hs⟩
        · cases h
  | complete c =>
    obtain ⟨-, s, hs, -⟩ := step_complete p p' c h
    obtain ⟨hrun, hns, -, r, hr, -⟩ := complete_some _ _ _ hs
    rcases hdeaf with hw | hstop | hnone
    · exact absurd hrun hw
    · simp [hns] at hstop
    · simp [Receiver.complete_dead _ hnone] at hr
  | loopEnds =>
    obtain ⟨-, s, hs, rfl⟩ := step_loopEnds p p' h
    obtain ⟨-, -, rfl⟩ := loopEnds_some _ _ hs
    exact ⟨hin, hidle, huntouched, hcalls, .inl (by simp)⟩
  | work => simp [step, hidle] at h

theorem returned_dead (p : Program) (hp : Running p) (huntouched : p.touched = false)
    (hc : ¬ CanReceive p.serialRPC) : Dead { p with inMain := false } := by
  refine ⟨rfl, ?_, huntouched, ?_, ?_⟩
  · by_contra hne
    exact hc (hp.calling hne)
  · intro c hmem
    rw [hp.exiting] at hmem
    simpa [exiting, staticObjects, StaticObject.destructor] using hmem
  · by_contra hlive
    obtain ⟨hrun, hns, hpending⟩ := by simpa only [not_or, not_not] using hlive
    obtain ⟨hopen, hzero⟩ := hp.opened (by simp [hrun])
    refine hc ⟨hrun, Bool.eq_false_iff.mpr hns, ?_⟩
    simp only [failing, hopen, hzero, if_true]
    exact List.length_pos_iff.mpr hpending

structure Late (p : Program) : Prop where
  destroyed : p.chartDestroyed = true
  running : p.serialRPC.workingThread = .running
  port : p.serialRPC.isOpen = true ∧ p.serialRPC.aborted = 0 ∧ p.serialRPC.stopped = false
  callbacks : p.serialRPC.receiver.callbacks = (Receiver.registered mainCallbacks).callbacks
  armed : Armed p.serialRPC.receiver
  live : p.serialRPC.receiver.pending ≠ []

theorem late_complete (p : Program) (hp : Late p) (hidle : p.handler = none) (c : Completion)
    (r : Receiver Handler) (hr : p.serialRPC.receiver.complete c = some r) (hlive : r.pending ≠ []) :
    ∃ q, step p (.complete c) = some q ∧ Late q ∧ q.serialRPC.receiver = r ∧
      q.handler = r.invoked[p.serialRPC.receiver.invoked.length]?.map todoOf := by
  obtain ⟨hgone, hrun, ⟨hopen, hzero, hns⟩, hcallbacks, harmed, -⟩ := hp
  obtain ⟨hcb, harmed', -⟩ := complete_move _ _ _ harmed hr
  have hcomplete : SerialObject.complete p.serialRPC c =
      some { p.serialRPC with receiver := r, aborted := p.serialRPC.aborted-1 } := by
    simp [SerialObject.complete, hrun, hns, failing, hopen, hzero, hr]
  refine ⟨_, by simp only [step, hidle, hcomplete]; rfl, ?_, rfl, rfl⟩
  exact ⟨hgone, hrun, ⟨hopen, by simp [hzero], hns⟩, hcb.trans hcallbacks, harmed', hlive⟩

theorem late_search (p : Program) (hp : Late p) (hidle : p.handler = none) :
    ∃ events q, run step p events = some q ∧ Late q ∧ q.handler = none ∧
      q.serialRPC.receiver.pending = [sofRead] := by
  have back : ∀ r, p.serialRPC.receiver.complete ⟨true, []⟩ = some r → r.pending = [sofRead] →
      r.invoked = p.serialRPC.receiver.invoked →
      ∃ events q, run step p events = some q ∧ Late q ∧ q.handler = none ∧
        q.serialRPC.receiver.pending = [sofRead] := by
    intro r hr hpending hquiet
    obtain ⟨q, hq, hlate, rfl, hh⟩ := late_complete p hp hidle ⟨true, []⟩ r hr (by simp [hpending])
    rw [hquiet, List.getElem?_eq_none (Nat.le_refl _)] at hh
    exact ⟨[.complete ⟨true, []⟩], q, by simp [run, hq], hlate, hh, hpending⟩
  cases hp.armed with
  | dead none => exact absurd none hp.live
  | sof one => exact ⟨[], p, rfl, hp, hidle, one⟩
  | header one =>
    exact back _ (Receiver.complete_failed _ headerRead one [] (Nat.zero_le _)) rfl
      (Receiver.fill_invoked _ _ _)
  | body callback one _ =>
    exact back _ (Receiver.complete_failed _ (bodyRead callback) one [] (Nat.zero_le _)) rfl
      (Receiver.fill_invoked _ _ _)

theorem removeCallback_known (r : Receiver Handler)
    (h : r.callbacks = (Receiver.registered mainCallbacks).callbacks) :
    Known r.callbacks removeCallback := by
  rw [h]
  exact known_of_find mainCallbacks removeCallback (by decide +kernel) (by decide)

theorem late_erase (p : Program) (hp : Late p) (hidle : p.handler = none)
    (hsearch : p.serialRPC.receiver.pending = [sofRead]) :
    ∃ events q, run step p events = some q ∧ q.touched = true := by
  obtain ⟨c₁, r₁, c₂, r₂, c₃, r₃, ⟨h₁, hp₁, hi₁⟩, ⟨h₂, hp₂, hi₂⟩, h₃, hp₃, hi₃⟩ :=
    receive_frame p.serialRPC.receiver hsearch removeSeven (removeCallback_known _ hp.callbacks)
  obtain ⟨q₁, hq₁, hlate₁, rfl, hh₁⟩ := late_complete p hp hidle c₁ r₁ h₁ (by simp [hp₁])
  rw [hi₁, List.getElem?_eq_none (Nat.le_refl _)] at hh₁
  obtain ⟨q₂, hq₂, hlate₂, rfl, hh₂⟩ := late_complete q₁ hlate₁ hh₁ c₂ r₂ h₂ (by simp [hp₂])
  rw [hi₂, hi₁, List.getElem?_eq_none (Nat.le_refl _)] at hh₂
  obtain ⟨q₃, hq₃, hlate₃, rfl, hh₃⟩ := late_complete q₂ hlate₂ hh₂ c₃ r₃ h₃ (by simp [hp₃])
  rw [hi₃, hi₂] at hh₃
  have hcall : q₃.handler = some (todoOf removeSeven) := by simpa using hh₃
  obtain ⟨q₄, hq₄, htouched⟩ : ∃ q₄, step q₃ .work = some q₄ ∧ q₄.touched = true := by
    simp [step, hcall, hlate₃.destroyed, todoOf, removeSeven, removeCallback, Todo.onChart]
  exact ⟨[.complete c₁, .complete c₂, .complete c₃, .work], q₄, by simp [run, hq₁, hq₂, hq₃, hq₄],
    htouched⟩

theorem late_touched (p : Program) (hp : Late p) :
    ∃ events q, run step p events = some q ∧ q.touched = true := by
  have from_idle : ∀ p, Late p → p.handler = none →
      ∃ events q, run step p events = some q ∧ q.touched = true := by
    intro p hp hidle
    obtain ⟨events, m, hm, hlate, hnone, hsearch⟩ := late_search p hp hidle
    obtain ⟨more, q, hq, htouched⟩ := late_erase m hlate hnone hsearch
    exact ⟨events ++ more, q, by rw [run_append, hm]; exact hq, htouched⟩
  cases htodo : p.handler with
  | none => exact from_idle p hp htodo
  | some todo =>
    cases hon : todo.onChart with
    | true =>
      refine ⟨[.work], _, by simp only [run, step, htodo]; rfl, ?_⟩
      simp [hp.destroyed, hon]
    | false =>
      obtain ⟨m, hm, hlate, hnone⟩ : ∃ m, step p .work = some m ∧ Late m ∧ m.handler = none := by
        refine ⟨_, by simp only [step, htodo]; rfl, ?_, ?_⟩
        · exact ⟨hp.destroyed, hp.running, hp.port, hp.callbacks, hp.armed, hp.live⟩
        · cases todo <;> first | rfl | cases hon
      obtain ⟨events, q, hq, htouched⟩ := from_idle m hlate hnone
      exact ⟨.work::events, q, by simp [run, hm, hq], htouched⟩

theorem returned_touched (p : Program) (hp : Running p) (hc : CanReceive p.serialRPC) :
    ∃ events q, run step { p with inMain := false } events = some q ∧ q.touched = true := by
  obtain ⟨hrun, hns, hlive⟩ := hc
  obtain ⟨hopen, hzero⟩ := hp.opened (by simp [hrun])
  obtain ⟨m, hm, hlate⟩ : ∃ m,
      run step { p with inMain := false } [.destroy, .destroy] = some m ∧ Late m := by
    refine ⟨_, by simp only [run, step, hp.exiting]; rfl, ?_⟩
    exact ⟨rfl, hrun, ⟨hopen, hzero, hns⟩, hp.callbacks, hp.serial.armed hns,
      List.length_pos_iff.mp (Nat.lt_of_le_of_lt (Nat.zero_le _) hlive)⟩
  obtain ⟨events, q, hq, htouched⟩ := late_touched m hlate
  exact ⟨[.destroy, .destroy] ++ events, q, by rw [run_append, hm]; exact hq, htouched⟩

theorem destroy_returned (p p' : Program) (d : Destruction) (h : destroy p d = some p') :
    p'.inMain = p.inMain := by
  cases d with
  | closeWindow => cases h; rfl
  | destroyChart => cases h; rfl
  | call c =>
    simp only [destroy] at h
    split at h <;> cases h
    rfl

theorem step_returned (p p' : Program) (e : Event) (hin : p.inMain = false)
    (h : step p e = some p') : p'.inMain = false := by
  cases e with
  | click settings os => simp [step, hin] at h
  | edit chart => simp [step, hin] at h
  | mainReturns => simp [step, hin] at h
  | destroy =>
    simp only [step, hin] at h
    cases hleft : p.left with
    | nil => simp [hleft] at h
    | cons d left =>
      simp only [hleft] at h
      exact destroy_returned _ p' d h
  | complete c =>
    obtain ⟨-, s, -, rfl⟩ := step_complete p p' c h
    exact hin
  | loopEnds =>
    obtain ⟨-, s, -, rfl⟩ := step_loopEnds p p' h
    exact hin
  | work =>
    obtain ⟨todo, -, rfl⟩ := Option.map_eq_some_iff.mp h
    exact hin

theorem step_safe (p p' : Program) (e : Event) (hq : p.inMain = true → Running p) (hs : Safe p)
    (h : step p e = some p') : Safe p' ↔ Quiet p e := by
  cases hin : p.inMain with
  | false =>
    have hsafe : Safe p' := by
      refine ⟨hs.settled hin [e] p' (by simp [run, h]), fun _ events q hrun => ?_⟩
      exact hs.settled hin (e::events) q (by simp [run, h, hrun])
    have hquiet : Quiet p e := by
      cases e with
      | mainReturns => simp [step, hin] at h
      | _ => trivial
    exact ⟨fun _ => hquiet, fun _ => hsafe⟩
  | true =>
    obtain ⟨-, htouched, hreturns⟩ := step_running p p' e hin (hq hin) h
    by_cases he : e = .mainReturns
    · subst he
      simp only [step, hin, if_true, Option.some.injEq] at h
      subst h
      constructor
      · intro hs' hc
        obtain ⟨events, q, hrun, hq'⟩ := returned_touched p (hq hin) hc
        rw [hs'.settled rfl events q hrun] at hq'
        cases hq'
      · intro hc
        have hdead := returned_dead p (hq hin) hs.untouched hc
        refine ⟨hs.untouched, fun _ events q hrun => ?_⟩
        exact (run_invariant step Dead _ hdead step_dead events q hrun).untouched
    · have hquiet : Quiet p e := by
        cases e with
        | mainReturns => exact absurd rfl he
        | _ => trivial
      exact ⟨fun _ => hquiet, fun _ => ⟨htouched.trans hs.untouched,
        fun hout => absurd (hreturns hout) he⟩⟩

/-- No handler runs on a destroyed chart exactly when `main` returns while the
receiver cannot receive. -/
theorem chart_outlives_iff (events : List Event) (p : Program)
    (h : run step start events = some p) :
    (∀ pre post m, events = pre ++ post → run step start pre = some m → Safe m) ↔
      ∀ pre e post m, events = pre ++ e::post → run step start pre = some m → Quiet m e := by
  refine run_exact step (fun p => p.inMain = true → Running p) Safe Quiet start
    (fun _ => start_running) ⟨rfl, by simp [start]⟩ ?_
    (fun m e m' => step_safe m m' e) events p h
  intro m e m' hm hstep hin
  by_cases hout : m.inMain = true
  · exact (step_running m m' e hout (hm hout) hstep).1 hin
  · exact absurd hin (by simp [step_returned m m' e (by simpa using hout) hstep])

def unplugged : List Event :=
  [.click .initial eightBits, .complete ⟨false, [SOF]⟩, .complete ⟨false, [0x02, 0x30, 0x00]⟩,
    .complete ⟨false, [0x07, 0x00, 0x47, 0x8B]⟩, .click .initial eightBits, .work,
    .complete ⟨true, []⟩, .mainReturns, .destroy, .destroy, .loopEnds, .destroy, .destroy, .destroy]

theorem chart_outlives_iff_unplugged :
    ∃ p, run step start unplugged = some p ∧ p.serialRPC.workingThread = .joined ∧
      p.serialRPC.receiver.invoked.length = 1 ∧ p.chartDestroyed = true ∧ p.touched = false ∧
      ((∀ pre post m, unplugged = pre ++ post → run step start pre = some m → Safe m) ↔
        ∀ pre e post m, unplugged = pre ++ e::post → run step start pre = some m → Quiet m e) := by
  have hrun : (run step start unplugged).map (fun p => (p.serialRPC.workingThread,
      p.serialRPC.receiver.invoked.length, p.chartDestroyed, p.touched)) =
        some (.joined, 1, true, false) := by
    decide +kernel
  obtain ⟨p, hp, hfields⟩ := Option.map_eq_some_iff.mp hrun
  simp only [Prod.mk.injEq] at hfields
  obtain ⟨hthread, hcalls, hgone, huntouched⟩ := hfields
  exact ⟨p, hp, hthread, hcalls, hgone, huntouched, chart_outlives_iff unplugged p hp⟩

def lateRemoval : List Event :=
  [.click .initial eightBits, .mainReturns, .destroy, .destroy,
    .complete ⟨false, [SOF]⟩, .complete ⟨false, [0x02, 0x30, 0x00]⟩,
    .complete ⟨false, [0x07, 0x00, 0x47, 0x8B]⟩, .work]

theorem lateRemoval_touched :
    ∃ p, run step start lateRemoval = some p ∧ p.touched = true := by
  have h : (run step start lateRemoval).map (·.touched) = some true := by decide +kernel
  exact Option.map_eq_some_iff.mp h

end BusPlot.Shutdown
