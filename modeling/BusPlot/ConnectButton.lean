import BusPlot.SerialObject
import BusPlot.SerialSections

/-!
# The button of the connection settings

A session of the window: the user edits the settings and clicks, the worker
completes reads. The button can be clicked at any time, for `PushDisabled` of the
vendored library dims what it encloses and disables nothing. The window calls
`Connect` and `StartGrabbing` and, before its end, nothing else.
-/

set_option autoImplicit false

namespace BusPlot.ConnectButton
open BusPlot.SerialReceiver BusPlot.SerialInvariant BusPlot.SerialConnect BusPlot.SerialObject
open BusPlot.SerialStream BusPlot.SerialSections BusPlot.Registrations PartialRun

variable {η : Type}

structure Settings where
  deviceName : String
  baudRate : Int32
  curtStopBit : Fin 3
  characterSize : Int32
  curtParity : Fin 3
  curtFlowControl : Fin 3

def Settings.initial : Settings := ⟨"COM1", 115200, 0, 8, 0, 0⟩

def stopBits : Fin 3 → StopBits
  | 0 => .one
  | 1 => .onepointfive
  | 2 => .two

def parity : Fin 3 → Parity
  | 0 => .none
  | 1 => .odd
  | 2 => .even

def flowControl : Fin 3 → FlowControl
  | 0 => .none
  | 1 => .software
  | 2 => .hardware

def Settings.args (s : Settings) : ConnectArgs :=
  ⟨s.deviceName, s.baudRate.toUInt32, stopBits s.curtStopBit, s.characterSize.toUInt32,
    parity s.curtParity, flowControl s.curtFlowControl⟩

structure Window (η : Type) where
  serialRPC : SerialRPC η
  connectErrorTips : String

def start (regs : List (Callback η)) : Window η := ⟨constructed regs, ""⟩

def connectFailed : String := "连接失败"

/-- There is no result where the process is terminated. -/
def handleSerialConnect (w : Window η) (settings : Settings) (os : Environment) :
    Option (Window η) :=
  match perform w.serialRPC (.connect settings.args os) with
  | some (.alive s) =>
    if !s.isValid then some ⟨s, connectFailed⟩
    else
      match perform s .startGrabbing with
      | some (.alive t) => some { w with serialRPC := t }
      | _ => none
  | _ => none

inductive Event
  | click (settings : Settings) (os : Environment)
  | complete (c : Completion)
  | loopEnds

def step (w : Window η) : Event → Option (Window η)
  | .click settings os => handleSerialConnect w settings os
  | .complete c => (SerialObject.complete w.serialRPC c).map fun s => { w with serialRPC := s }
  | .loopEnds => (SerialObject.loopEnds w.serialRPC).map fun s => { w with serialRPC := s }

abbrev Attempt := ConnectArgs × Environment

def Event.attempt : Event → Option Attempt
  | .click settings os => some (settings.args, os)
  | _ => none

def clicks (events : List Event) : List Attempt := events.filterMap Event.attempt

def Event.completion : Event → Option Completion
  | .complete c => some c
  | _ => none

def completions (events : List Event) : List Completion := events.filterMap Event.completion

def Connects (earlier : List Attempt) (a : Attempt) : Prop :=
  (∀ b ∈ earlier, b.2.opens b.1.deviceName = false) ∧ Accepted a

structure Outcome (attempts : List Attempt) (w : Window η) : Prop where
  opened : w.serialRPC.isOpen = true ↔ ∃ a ∈ attempts, a.2.opens a.1.deviceName = true
  valid : w.serialRPC.isValid = true ↔ ∃ pre a, attempts = pre ++ [a] ∧ Connects pre a
  grabbing : w.serialRPC.workingThread ≠ .none ↔
    ∃ pre a post, attempts = pre ++ a::post ∧ Connects pre a
  tips : w.connectErrorTips = connectFailed ↔
    ∃ pre a post, attempts = pre ++ a::post ∧ ¬ Connects pre a
  silent : w.connectErrorTips ≠ connectFailed → w.connectErrorTips = ""

structure Receives (regs : List (Callback η)) (events : List Event) (s : SerialRPC η) : Prop where
  idle : s.workingThread = .none → s.receiver = .registered regs ∧ completions events = []
  one : s.workingThread ≠ .none →
    run Receiver.complete (.started regs) (completions events) = some s.receiver ∧
      s.isOpen = true ∧ s.aborted = 0 ∧ s.workingThread ≠ .joined

structure Sound (regs : List (Callback η)) (events : List Event) (w : Window η) : Prop where
  kept : Kept w.serialRPC
  outcome : Outcome (clicks events) w
  receives : Receives regs events w.serialRPC

theorem clicks_snoc (events : List Event) (e : Event) :
    clicks (events ++ [e]) = clicks events ++ (Event.attempt e).toList := by
  cases h : e.attempt <;> simp [clicks, h]

theorem completions_snoc (events : List Event) (e : Event) :
    completions (events ++ [e]) = completions events ++ (Event.completion e).toList := by
  cases h : e.completion <;> simp [completions, h]

theorem start_sound (regs : List (Callback η)) : Sound regs [] (start regs) where
  kept := constructed_kept regs
  outcome := by
    refine ⟨?_, ?_, ?_, ?_, ?_⟩ <;> simp [start, constructed, clicks, connectFailed]
  receives := ⟨fun _ => ⟨rfl, rfl⟩, fun h => absurd rfl h⟩

theorem succeeds_iff (attempts : List Attempt) (w : Window η) (h : Outcome attempts w)
    (settings : Settings) (os : Environment) :
    succeeds w.serialRPC settings.args os = true ↔ Connects attempts (settings.args, os) := by
  have hclosed : w.serialRPC.isOpen = false ↔
      ∀ b ∈ attempts, b.2.opens b.1.deviceName = false := by
    rw [← Bool.not_eq_true, h.opened]
    simp
  simp only [SerialConnect.succeeds, Bool.and_eq_true, Bool.not_eq_true', hclosed, Connects, Accepted, and_assoc]

theorem Sound.unstarted (regs : List (Callback η)) (events : List Event) (w : Window η)
    (h : Sound regs events w) (hopen : w.serialRPC.isOpen = false) :
    w.serialRPC.workingThread = .none := by
  by_contra hne
  rw [(h.receives.one hne).2.1] at hopen
  cases hopen

/-- A click fails and the tips say so, or it connects a closed port and starts the
worker, where a closed port has none. -/
theorem handleSerialConnect_cases (w : Window η)
    (h : w.serialRPC.isOpen = false → w.serialRPC.workingThread = .none)
    (settings : Settings) (os : Environment) :
    (succeeds w.serialRPC settings.args os = false ∧
      handleSerialConnect w settings os =
        some ⟨afterConnect w.serialRPC settings.args os, connectFailed⟩) ∨
    (succeeds w.serialRPC settings.args os = true ∧ w.serialRPC.isOpen = false ∧
      handleSerialConnect w settings os = some { w with
        serialRPC := { afterConnect w.serialRPC settings.args os with
          receiver := w.serialRPC.receiver.startGrabbing, workingThread := .running } }) := by
  simp only [handleSerialConnect, perform_connect]
  cases hs : succeeds w.serialRPC settings.args os with
  | false =>
    refine .inl ⟨rfl, ?_⟩
    simp [afterConnect, hs]
  | true =>
    have hclosed : w.serialRPC.isOpen = false := by
      simp only [SerialConnect.succeeds, Bool.and_eq_true, Bool.not_eq_true'] at hs
      exact hs.1.1
    refine .inr ⟨rfl, hclosed, ?_⟩
    simp [afterConnect, hs, perform, startGrabbing, h hclosed, WorkingThread.joinable]

/-- In a session the click that connects is the first one whose device
opens. -/
theorem click_cases (regs : List (Callback η)) (events : List Event) (w : Window η)
    (h : Sound regs events w) (settings : Settings) (os : Environment) :
    (¬ Connects (clicks events) (settings.args, os) ∧
      handleSerialConnect w settings os =
        some ⟨afterConnect w.serialRPC settings.args os, connectFailed⟩) ∨
    (Connects (clicks events) (settings.args, os) ∧ w.serialRPC.isOpen = false ∧
      handleSerialConnect w settings os = some { w with
        serialRPC := { afterConnect w.serialRPC settings.args os with
          receiver := w.serialRPC.receiver.startGrabbing, workingThread := .running } }) := by
  have hiff := succeeds_iff (clicks events) w h.outcome settings os
  rcases handleSerialConnect_cases w (h.unstarted regs events w) settings os with
    ⟨hs, heq⟩ | ⟨hs, hclosed, heq⟩
  · exact .inl ⟨fun hc => Bool.false_ne_true (hs.symm.trans (hiff.mpr hc)), heq⟩
  · exact .inr ⟨hiff.mp hs, hclosed, heq⟩

theorem valid_snoc (attempts : List Attempt) (b : Attempt) :
    (∃ pre a, attempts ++ [b] = pre ++ [a] ∧ Connects pre a) ↔ Connects attempts b := by
  constructor
  · rintro ⟨pre, a, hsplit, hc⟩
    obtain ⟨rfl, hb⟩ := List.append_inj' hsplit rfl
    rw [List.singleton_inj.mp hb]
    exact hc
  · exact fun hc => ⟨attempts, b, rfl, hc⟩

theorem Outcome.failed (attempts : List Attempt) (w : Window η) (h : Outcome attempts w)
    (settings : Settings) (os : Environment) (hc : ¬ Connects attempts (settings.args, os)) :
    Outcome (attempts ++ [(settings.args, os)])
      ⟨afterConnect w.serialRPC settings.args os, connectFailed⟩ where
  opened := by simp [afterConnect, h.opened, or_and_right, exists_or]
  valid := by
    rw [valid_snoc, ← succeeds_iff attempts w h]
    rfl
  grabbing := by
    rw [exists_split_snoc, or_iff_left hc]
    exact h.grabbing
  tips := by
    rw [exists_split_snoc (fun pre a => ¬ Connects pre a)]
    exact iff_of_true rfl (.inr hc)
  silent hne := absurd rfl hne

theorem Outcome.connected (attempts : List Attempt) (w : Window η) (h : Outcome attempts w)
    (settings : Settings) (os : Environment) (hc : Connects attempts (settings.args, os)) :
    Outcome (attempts ++ [(settings.args, os)]) { w with
      serialRPC := { afterConnect w.serialRPC settings.args os with
        receiver := w.serialRPC.receiver.startGrabbing, workingThread := .running } } where
  opened := by simp [afterConnect, h.opened, or_and_right, exists_or]
  valid := by
    rw [valid_snoc, ← succeeds_iff attempts w h]
    rfl
  grabbing := by
    rw [exists_split_snoc]
    exact iff_of_true (by simp) (.inr hc)
  tips := by
    rw [exists_split_snoc (fun pre a => ¬ Connects pre a), or_iff_left (not_not.mpr hc)]
    exact h.tips
  silent := h.silent

theorem click_sound (regs : List (Callback η)) (events : List Event) (w w' : Window η)
    (h : Sound regs events w) (settings : Settings) (os : Environment)
    (hstep : handleSerialConnect w settings os = some w') :
    Sound regs (events ++ [.click settings os]) w' := by
  have hkept : Kept (afterConnect w.serialRPC settings.args os) :=
    step_kept _ _ (.call (.connect settings.args os)) h.kept (perform_connect _ _ _)
  have hclicks : clicks (events ++ [.click settings os]) =
      clicks events ++ [(settings.args, os)] := clicks_snoc events _
  have hcompletions : completions (events ++ [.click settings os]) = completions events :=
    (completions_snoc events _).trans (List.append_nil _)
  rcases click_cases regs events w h settings os with ⟨hc, heq⟩ | ⟨hc, hclosed, heq⟩ <;>
    rw [heq] at hstep <;> cases hstep
  · refine ⟨hkept, hclicks ▸ h.outcome.failed _ w settings os hc, ?_, ?_⟩
    · rw [hcompletions]
      exact h.receives.idle
    · intro hne
      obtain ⟨hrun, hopen, hzero, hjoined⟩ := h.receives.one hne
      rw [hcompletions]
      exact ⟨hrun, by simp [afterConnect, hopen], by simp [afterConnect, hopen, hzero], hjoined⟩
  · have hnone := h.unstarted regs events w hclosed
    obtain ⟨hreceiver, hquiet⟩ := h.receives.idle hnone
    have hidle := h.kept.idle hnone
    refine ⟨?_, hclicks ▸ h.outcome.connected _ w settings os hc, by simp, fun _ => ?_⟩
    · refine step_kept _ _ (.call .startGrabbing) hkept ?_
      simp [SerialObject.step, perform, startGrabbing, afterConnect, hnone, WorkingThread.joinable]
    · rw [hcompletions, hquiet]
      have hopens : os.opens settings.args.deviceName = true := hc.2.1
      simp [run, Receiver.started, ← hreceiver, afterConnect, hclosed, hopens, hidle]

theorem Outcome.worker (attempts : List Attempt) (w : Window η) (h : Outcome attempts w)
    (s : SerialRPC η) (hopen : s.isOpen = w.serialRPC.isOpen)
    (hvalid : s.isValid = w.serialRPC.isValid)
    (hthread : s.workingThread ≠ .none ↔ w.serialRPC.workingThread ≠ .none) :
    Outcome attempts { w with serialRPC := s } where
  opened := by rw [← h.opened, ← hopen]
  valid := by rw [← h.valid, ← hvalid]
  grabbing := hthread.trans h.grabbing
  tips := h.tips
  silent := h.silent

theorem complete_sound (regs : List (Callback η)) (events : List Event) (w : Window η)
    (h : Sound regs events w) (c : Completion) (s : SerialRPC η)
    (hs : SerialObject.complete w.serialRPC c = some s) :
    Sound regs (events ++ [.complete c]) { w with serialRPC := s } := by
  have hkept : Kept s := step_kept _ s (.complete c) h.kept (congrArg (Option.map Process.alive) hs)
  obtain ⟨hrunning, -, -, r, hr, rfl⟩ := complete_some _ _ _ hs
  have hne : w.serialRPC.workingThread ≠ .none := by simp [hrunning]
  obtain ⟨hrun, hopen, hzero, hjoined⟩ := h.receives.one hne
  have hclicks : clicks (events ++ [.complete c]) = clicks events :=
    (clicks_snoc events _).trans (List.append_nil _)
  have hcompletions : completions (events ++ [.complete c]) = completions events ++ [c] :=
    completions_snoc events _
  refine ⟨hkept, hclicks ▸ h.outcome.worker _ w _ rfl rfl Iff.rfl, fun hnone => absurd hnone hne,
    fun _ => ⟨?_, hopen, by simp [hzero], hjoined⟩⟩
  rw [hcompletions, run_snoc, hrun]
  exact hr

theorem loopEnds_sound (regs : List (Callback η)) (events : List Event) (w : Window η)
    (h : Sound regs events w) (s : SerialRPC η)
    (hs : SerialObject.loopEnds w.serialRPC = some s) :
    Sound regs (events ++ [.loopEnds]) { w with serialRPC := s } := by
  have hkept : Kept s := step_kept _ s .loopEnds h.kept (congrArg (Option.map Process.alive) hs)
  obtain ⟨hrunning, -, rfl⟩ := loopEnds_some _ _ hs
  have hne : w.serialRPC.workingThread ≠ .none := by simp [hrunning]
  obtain ⟨hrun, hopen, hzero, -⟩ := h.receives.one hne
  have hclicks : clicks (events ++ [.loopEnds]) = clicks events :=
    (clicks_snoc events _).trans (List.append_nil _)
  have hcompletions : completions (events ++ [.loopEnds]) = completions events :=
    (completions_snoc events _).trans (List.append_nil _)
  refine ⟨hkept, hclicks ▸ h.outcome.worker _ w _ rfl rfl (by simp [hrunning]), by simp,
    fun _ => ⟨?_, hopen, hzero, by simp⟩⟩
  rw [hcompletions]
  exact hrun

theorem step_sound (regs : List (Callback η)) (events : List Event) (w w' : Window η) (e : Event)
    (h : Sound regs events w) (hstep : step w e = some w') : Sound regs (events ++ [e]) w' := by
  cases e with
  | click settings os => exact click_sound regs events w w' h settings os hstep
  | complete c =>
    obtain ⟨s, hs, rfl⟩ := Option.map_eq_some_iff.mp hstep
    exact complete_sound regs events w h c s hs
  | loopEnds =>
    obtain ⟨s, hs, rfl⟩ := Option.map_eq_some_iff.mp hstep
    exact loopEnds_sound regs events w h s hs

theorem run_sound (regs : List (Callback η)) (events : List Event) (w : Window η)
    (h : run step (start regs) events = some w) : Sound regs events w :=
  run_history step (Sound regs) (start regs) (start_sound regs)
    (fun is m i m' => step_sound regs is m m' i) events w h

/-- Over every session: the first click whose device opens decides it all. When
its options are taken the worker is started, once; when not, never. Every other
click fails and says so, and no click terminates the process. -/
theorem first_opening_decides (regs : List (Callback η)) (events : List Event) (w : Window η)
    (h : run step (start regs) events = some w) :
    Outcome (clicks events) w ∧
      ∀ settings os, ∃ w', step w (.click settings os) = some w' := by
  have hs := run_sound regs events w h
  refine ⟨hs.outcome, fun settings os => ?_⟩
  rcases click_cases regs events w hs settings os with ⟨-, heq⟩ | ⟨-, -, heq⟩
  · exact ⟨_, heq⟩
  · exact ⟨_, heq⟩

def retry : List Event :=
  [.click .initial ⟨fun _ => false, fun _ => true, fun _ => true⟩, .click .initial eightBits,
    .complete ⟨false, [0xA5]⟩, .click .initial eightBits]

/-- The worker goes on, and the window says that the connection failed. -/
theorem first_opening_decides_retry :
    ∃ w : Window Unit, run step (start []) retry = some w ∧ Outcome (clicks retry) w ∧
      w.serialRPC.workingThread = .running ∧ w.serialRPC.isValid = false ∧
      w.connectErrorTips = connectFailed :=
  ⟨_, rfl, (first_opening_decides [] retry _ rfl).1, rfl, rfl, rfl⟩

def leaving (s : SerialRPC η) : List SerialObject.Event :=
  [.call .stopGrabbing, .call .close] ++
    (if s.workingThread = .running then [.loopEnds] else []) ++ [.call .join]

/-- However the user clicks, what the worker receives is what the receiver of one
connection receives, from its start on; and the program can be left at any time
without being terminated. -/
theorem one_connection (regs : List (Callback η)) (events : List Event) (w : Window η)
    (h : run step (start regs) events = some w) :
    Receives regs events w.serialRPC ∧
      ∃ s, run SerialObject.step (.alive w.serialRPC) (leaving w.serialRPC) = some (.alive s) ∧
        Process.release (.alive s) = .alive s := by
  have hs := run_sound regs events w h
  refine ⟨hs.receives, ?_⟩
  cases hw : w.serialRPC.workingThread with
  | none =>
    refine ⟨close (stopGrabbing w.serialRPC), ?_, ?_⟩ <;>
      simp [leaving, hw, run, SerialObject.step, perform, join, close, stopGrabbing,
        Process.release, WorkingThread.joinable]
  | running =>
    refine ⟨{ close (stopGrabbing w.serialRPC) with workingThread := .joined }, ?_, ?_⟩ <;>
      simp [leaving, hw, run, SerialObject.step, perform, join, close, stopGrabbing,
        SerialObject.loopEnds, Process.release, WorkingThread.joinable]
  | ended =>
    refine ⟨{ close (stopGrabbing w.serialRPC) with workingThread := .joined }, ?_, ?_⟩ <;>
      simp [leaving, hw, run, SerialObject.step, perform, join, close, stopGrabbing,
        Process.release, WorkingThread.joinable]
  | joined => exact absurd hw (hs.receives.one (by simp [hw])).2.2.2

theorem one_connection_retry :
    ∃ w : Window Unit, run step (start []) retry = some w ∧ Receives [] retry w.serialRPC :=
  ⟨_, rfl, (one_connection [] retry _ rfl).1⟩

theorem Receives.calls (regs : List (Callback η)) (events : List Event) (s : SerialRPC η)
    (h : Receives regs events s) :
    s.receiver.invoked =
      (stretches (completions events)).flatMap fun bytes => (alone regs [bytes]).receiver.invoked := by
  by_cases hw : s.workingThread = .none
  · obtain ⟨hreceiver, hquiet⟩ := h.idle hw
    have hnone : (alone regs [[]]).receiver.invoked = [] := by
      have hcalls := grabbing_invoked regs [[]]
      rw [List.flatten_singleton] at hcalls
      exact hcalls
    have hone : stretches [] = [[]] := rfl
    rw [hquiet, hreceiver, (registered_idle regs).2, hone, List.flatMap_singleton, hnone]
  · exact completions_calls regs _ _ (h.one hw).1

/-- The handlers are called for what arrives on that connection: the bytes
between two failing reads are received as by a receiver of their own, whatever is
clicked meanwhile. -/
theorem session_calls (regs : List (Callback η)) (events : List Event) (w : Window η)
    (h : run step (start regs) events = some w) :
    w.serialRPC.receiver.invoked =
      (stretches (completions events)).flatMap fun s => (alone regs [s]).receiver.invoked :=
  (run_sound regs events w h).receives.calls regs events w.serialRPC

def interrupted : List Event :=
  [.click .initial eightBits, .complete ⟨false, [0xA5]⟩, .complete ⟨false, [0x02, 0x30, 0x00]⟩,
    .complete ⟨false, [0x07, 0x00, 0x47, 0x8B]⟩, .complete ⟨false, [0xA5]⟩,
    .complete ⟨true, [0x02]⟩, .click .initial eightBits, .complete ⟨false, [0xA5]⟩,
    .complete ⟨false, [0x02, 0x30, 0x00]⟩, .complete ⟨false, [0x07, 0x00, 0x47, 0x8B]⟩]

theorem session_calls_interrupted :
    ∃ w, run step (start mainCallbacks) interrupted = some w ∧
      w.serialRPC.receiver.invoked.length = 2 ∧ (stretches (completions interrupted)).length = 2 ∧
      w.serialRPC.receiver.invoked = (stretches (completions interrupted)).flatMap fun s =>
        (alone mainCallbacks [s]).receiver.invoked := by
  have hrun : (run step (start mainCallbacks) interrupted).map
      (fun w => w.serialRPC.receiver.invoked.length) = some 2 := by
    decide +kernel
  obtain ⟨w, hw, hlen⟩ := Option.map_eq_some_iff.mp hrun
  exact ⟨w, hw, hlen, rfl, session_calls mainCallbacks interrupted w hw⟩

structure Lost (w : Window η) (more : List Event) (w' : Window η) : Prop where
  ended : w'.serialRPC.workingThread = .ended
  opened : w'.serialRPC.isOpen = true
  receiver : w'.serialRPC.receiver = w.serialRPC.receiver
  quiet : completions more = []
  failed : clicks more ≠ [] →
    w'.serialRPC.isValid = false ∧ w'.connectErrorTips = connectFailed

theorem step_lost (w m m' : Window η) (more : List Event) (e : Event) (h : Lost w more m)
    (hstep : step m e = some m') : Lost w (more ++ [e]) m' := by
  cases e with
  | click settings os =>
    have hfail : SerialConnect.succeeds m.serialRPC settings.args os = false := by
      simp [SerialConnect.succeeds, h.opened]
    simp only [step, handleSerialConnect, perform_connect] at hstep
    simp only [afterConnect, hfail, Bool.not_false, if_true] at hstep
    cases hstep
    refine ⟨h.ended, by simp [h.opened], h.receiver, ?_, fun _ => ⟨rfl, rfl⟩⟩
    rw [completions_snoc, h.quiet]
    rfl
  | complete c =>
    obtain ⟨s, hs, -⟩ := Option.map_eq_some_iff.mp hstep
    have hrunning := (complete_some _ _ _ hs).1
    rw [h.ended] at hrunning
    cases hrunning
  | loopEnds =>
    obtain ⟨s, hs, -⟩ := Option.map_eq_some_iff.mp hstep
    have hrunning := (loopEnds_some _ _ hs).1
    rw [h.ended] at hrunning
    cases hrunning

/-- Once the worker has ended, nothing is received any more, and whatever is
clicked fails. -/
theorem lost_for_good (regs : List (Callback η)) (events : List Event) (w : Window η)
    (h : run step (start regs) events = some w) (hended : w.serialRPC.workingThread = .ended)
    (more : List Event) (w' : Window η) (hmore : run step w more = some w') : Lost w more w' := by
  have hopen := ((run_sound regs events w h).receives.one (by simp [hended])).2.1
  exact run_history step (Lost w) w ⟨hended, hopen, rfl, rfl, fun hne => absurd rfl hne⟩
    (fun is m i m' => step_lost w m m' is i) more w' hmore

theorem lost_for_good_unplugged :
    ∃ w w' : Window Unit,
      run step (start []) [.click .initial eightBits, .complete ⟨true, []⟩, .loopEnds] = some w ∧
        run step w [.click .initial eightBits] = some w' ∧
        Lost w [.click .initial eightBits] w' :=
  ⟨_, _, rfl, rfl, lost_for_good [] [.click .initial eightBits, .complete ⟨true, []⟩, .loopEnds] _
    rfl rfl [.click .initial eightBits] _ rfl⟩

end BusPlot.ConnectButton
