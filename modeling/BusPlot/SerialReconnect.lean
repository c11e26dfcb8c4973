import BusPlot.SerialThread
import BusPlot.SerialStream
import BusPlot.Registrations

/-!
# A second connection

An object that has been through connections is compared with a new one under the
same registrations, on the bytes that arrive after `StartGrabbing`. What a
finished connection leaves behind is the stopped `io_service`.
-/

set_option autoImplicit false

namespace BusPlot.SerialReconnect
open BusPlot.Protocol BusPlot.SerialReceiver BusPlot.SerialInvariant BusPlot.SerialStream
open BusPlot.SerialConnect BusPlot.SerialObject BusPlot.SerialThread
open BusPlot.Registrations PartialRun

variable {η : Type}

def flush : ℕ → Receiver η → Receiver η
  | 0, r => r
  | n+1, r =>
    match r.complete ⟨true, []⟩ with
    | none => r
    | some r' => flush n r'

def receive (s : SerialRPC η) (chunks : List (List UInt8)) : Link η :=
  if s.workingThread = .running ∧ s.stopped = false ∧ s.isOpen = true then
    Link.deliverAll ⟨flush s.aborted s.receiver, []⟩ chunks
  else ⟨s.receiver, []⟩

structure SameHandling (earlier : List (Invocation η)) (l fresh : Link η) : Prop where
  calls : l.receiver.invoked = earlier ++ fresh.receiver.invoked
  reads : l.receiver.pending = fresh.receiver.pending
  bytes : l.transferred = fresh.transferred

structure Cycle (events : List Event) : Prop where
  calls : ∃ args os ending, callsOf events =
    .connect args os::.startGrabbing::(ending ++ [.join, .close]) ∧
      (ending = [] ∨ ending = [.stopGrabbing]) ∧ Accepted (args, os)

def connecting (args : ConnectArgs) (os : Environment) : List Event :=
  [.call (.connect args os), .call .startGrabbing]

theorem run_connecting (s t : SerialRPC η) (args : ConnectArgs) (os : Environment)
    (h : run step (.alive s) (connecting args os) = some (.alive t)) :
    t = { afterConnect s args os with
      receiver := s.receiver.startGrabbing, workingThread := .running } := by
  simp only [connecting, run, step, perform_connect, Option.bind_some] at h
  simp only [perform, startGrabbing, Option.bind_some] at h
  split at h
  · cases h
  · cases h
    rfl

theorem connecting_runs (s : SerialRPC η) (args : ConnectArgs) (os : Environment)
    (hw : WorkingThread.joinable s.workingThread = false) :
    ∃ t, run step (.alive s) (connecting args os) = some (.alive t) := by
  refine ⟨{ afterConnect s args os with
    receiver := s.receiver.startGrabbing, workingThread := .running }, ?_⟩
  simp only [connecting, run, step, perform_connect, Option.bind_some]
  simp [perform, startGrabbing, afterConnect, hw]

theorem stopped_receive (s t : SerialRPC η) (args : ConnectArgs) (os : Environment)
    (hs : s.stopped = true)
    (h : run step (.alive s) (connecting args os) = some (.alive t)) (chunks : List (List UInt8)) :
    receive t chunks = ⟨s.receiver.startGrabbing, []⟩ := by
  rw [run_connecting s t args os h]
  simp [receive, afterConnect, hs]

theorem fresh_receive (regs : List (Callback η)) (f : SerialRPC η) (args : ConnectArgs)
    (os : Environment) (ha : Accepted (args, os))
    (h : run step (.alive (constructed regs)) (connecting args os) = some (.alive f))
    (chunks : List (List UInt8)) : receive f chunks = (grabbing regs).deliverAll chunks := by
  rw [run_connecting _ f args os h]
  have hopen : os.opens args.deviceName = true := ha.1
  have hidle : (Receiver.registered regs).pending.length = 0 := by simp [registered_idle regs]
  simp [receive, afterConnect, constructed, hopen, hidle, flush, grabbing, Receiver.started]

theorem fresh_start (regs : List (Callback η)) :
    ((grabbing regs).deliverAll [[SOF]]).receiver.pending = [headerRead] := by
  have h := (deliverAll_shows _ _ _ (grabbing_shows regs) [[SOF]]).1
  rw [List.flatten_singleton, Framing.scan_start SOF rfl] at h
  exact h.2.1

theorem cycle_joined (events : List Event) (before : List Event) (h : Cycle events) :
    .startGrabbing ∈ callsOf (before ++ events) ∧ ¬ Unjoined (callsOf (before ++ events)) := by
  obtain ⟨args, os, ending, hcalls, -, -⟩ := h
  have hsplit : callsOf (before ++ events) =
      ((callsOf before ++ .connect args os::.startGrabbing::ending) ++ [.join]) ++ [.close] := by
    rw [callsOf, List.filterMap_append]
    change callsOf before ++ callsOf events = _
    rw [hcalls]
    simp
  rw [hsplit]
  constructor
  · simp
  · rw [unjoined_snoc, unjoined_snoc]
    simp

/-- After any number of connections, the next one handles what arrives as a new
object would exactly when there was none. -/
theorem reconnects_iff (regs : List (Callback η)) (cycles : List (List Event))
    (hc : ∀ events ∈ cycles, Cycle events) (args : ConnectArgs) (os : Environment)
    (ha : Accepted (args, os)) (s f : SerialRPC η)
    (hs : run step (.alive (constructed regs)) (cycles.flatten ++ connecting args os) =
      some (.alive s))
    (hf : run step (.alive (constructed regs)) (connecting args os) = some (.alive f)) :
    (∀ chunks, SameHandling s.receiver.invoked (receive s chunks) (receive f chunks)) ↔
      cycles = [] := by
  constructor
  · intro hall
    by_contra hne
    obtain ⟨before, last, rfl⟩ : ∃ before last, cycles = before ++ [last] :=
      ⟨cycles.dropLast, cycles.getLast hne, (List.dropLast_append_getLast hne).symm⟩
    obtain ⟨p, hp, hconn⟩ := run_split step _ _ _ _ hs
    rw [List.flatten_append, List.flatten_singleton] at hp
    cases p with
    | terminated => cases hconn
    | alive m =>
      have hhandle := (run_handle regs _ _ hp).2 m rfl
      obtain ⟨hstart, hjoined⟩ := cycle_joined last before.flatten (hc last (by simp))
      have hstopped := (run_kept regs _ m hp).spent (.inr (handle_joined _ _ hhandle hstart hjoined))
      have hsame := (hall [[SOF]]).reads
      rw [fresh_receive regs f args os ha hf, fresh_start,
        stopped_receive m s args os hstopped hconn] at hsame
      have hlast := congrArg List.getLast? hsame
      simp [Receiver.startGrabbing, Receiver.readAsync, headerRead] at hlast
  · rintro rfl chunks
    obtain rfl : s = f := by
      rw [List.flatten_nil, List.nil_append, hf] at hs
      cases hs
      rfl
    have hquiet : s.receiver.invoked = [] := by
      rw [run_connecting _ s args os hf]
      exact started_invoked regs
    rw [hquiet]
    exact ⟨rfl, rfl, rfl⟩

def lostConnection : List Event :=
  connecting (deviceArgs 8) eightBits ++
    [.complete ⟨true, []⟩, .loopEnds, .call .join, .call .close]

theorem lostConnection_cycle : Cycle lostConnection :=
  ⟨deviceArgs 8, eightBits, [], rfl, .inl rfl, rfl, rfl⟩

theorem reconnects_iff_lost :
    ∃ s f : SerialRPC Handler,
      (∀ chunks, SameHandling s.receiver.invoked (receive s chunks) (receive f chunks)) ↔
        [lostConnection] = [] :=
  ⟨_, _, reconnects_iff mainCallbacks [lostConnection] (by simpa using lostConnection_cycle)
    (deviceArgs 8) eightBits ⟨rfl, rfl⟩ _ _ rfl rfl⟩

theorem second_connection_silent :
    Cycle lostConnection ∧ ∃ s f : SerialRPC Handler,
      run step (.alive (constructed mainCallbacks))
        (lostConnection ++ connecting (deviceArgs 8) eightBits) = some (.alive s) ∧
      run step (.alive (constructed mainCallbacks)) (connecting (deviceArgs 8) eightBits) =
        some (.alive f) ∧
      ¬ SameHandling s.receiver.invoked (receive s [image removeSeven])
        (receive f [image removeSeven]) := by
  obtain ⟨m, hm, hstopped, hw⟩ : ∃ m : SerialRPC Handler,
      run step (.alive (constructed mainCallbacks)) lostConnection = some (.alive m) ∧
        m.stopped = true ∧ WorkingThread.joinable m.workingThread = false := ⟨_, rfl, rfl, rfl⟩
  obtain ⟨s, hs⟩ := connecting_runs m (deviceArgs 8) eightBits hw
  obtain ⟨f, hf⟩ := connecting_runs (constructed mainCallbacks) (deviceArgs 8) eightBits rfl
  refine ⟨lostConnection_cycle, s, f, by rw [run_append, hm]; exact hs, hf, fun h => ?_⟩
  have hcalls := h.calls
  rw [fresh_receive mainCallbacks f (deviceArgs 8) eightBits ⟨rfl, rfl⟩ hf, grabbing_invoked,
    List.flatten_singleton, scan_image _ removeSeven
      (known_of_find mainCallbacks removeCallback (by decide +kernel) (by decide)),
    stopped_receive m s (deviceArgs 8) eightBits hstopped hs,
    run_connecting m s (deviceArgs 8) eightBits hs] at hcalls
  simp at hcalls

end BusPlot.SerialReconnect
