import BusPlot.SerialConnect
import BusPlot.SerialInvariant

/-!
# The connection object and its worker

The calls that the owner of a `SerialRPC` makes one after the other, and between
them the steps of the worker: a read completes, or `io_service::run` returns. A
call that throws, and a joinable thread that is destroyed, end the process.
-/

set_option autoImplicit false

namespace BusPlot.SerialObject
open BusPlot.SerialReceiver BusPlot.SerialInvariant BusPlot.SerialConnect PartialRun

variable {η : Type}

inductive Call
  | connect (args : ConnectArgs) (os : Environment)
  | startGrabbing
  | stopGrabbing
  | close
  | join

inductive Event
  | call (c : Call)
  | complete (c : Completion)
  | loopEnds

inductive Process (η : Type)
  | alive (s : SerialRPC η)
  | terminated

def WorkingThread.joinable : WorkingThread → Bool
  | .running => true
  | .ended => true
  | _ => false

def failing (s : SerialRPC η) : ℕ := if s.isOpen then s.aborted else s.receiver.pending.length

def startGrabbing (s : SerialRPC η) : Process η :=
  if WorkingThread.joinable s.workingThread then .terminated
  else .alive { s with receiver := s.receiver.startGrabbing, workingThread := .running }

def stopGrabbing (s : SerialRPC η) : SerialRPC η := { s with stopped := true }

def close (s : SerialRPC η) : SerialRPC η := { s with isOpen := false }

def join (s : SerialRPC η) : Option (Process η) :=
  match s.workingThread with
  | .none => some (.alive s)
  | .running => none
  | .ended => some (.alive { s with workingThread := .joined })
  | .joined => some .terminated

def perform (s : SerialRPC η) : Call → Option (Process η)
  | .connect args os =>
    match (connect args os).run s with
    | .ok _ s' => some (.alive s')
    | .error _ _ => some .terminated
  | .startGrabbing => some (startGrabbing s)
  | .stopGrabbing => some (.alive (stopGrabbing s))
  | .close => some (.alive (close s))
  | .join => join s

def complete (s : SerialRPC η) (c : Completion) : Option (SerialRPC η) :=
  if s.workingThread = .running ∧ s.stopped = false ∧ (0 < failing s → c.err = true) then
    (s.receiver.complete c).map fun r => { s with receiver := r, aborted := s.aborted-1 }
  else none

/-- `run` returns when the service was stopped or has no work left, and leaves
it stopped. -/
def loopEnds (s : SerialRPC η) : Option (SerialRPC η) :=
  if s.workingThread = .running ∧ (s.stopped = true ∨ s.receiver.pending.length = 0) then
    some { s with workingThread := .ended, stopped := true }
  else none

def step : Process η → Event → Option (Process η)
  | .terminated, _ => some .terminated
  | .alive s, .call c => perform s c
  | .alive s, .complete c => (complete s c).map .alive
  | .alive s, .loopEnds => (loopEnds s).map .alive

def Event.asCall : Event → Option Call
  | .call c => some c
  | _ => none

def callsOf (events : List Event) : List Call := events.filterMap Event.asCall

def destructor : List Call := [.stopGrabbing, .close, .join]

def Process.release : Process η → Process η
  | .alive s => if WorkingThread.joinable s.workingThread then .terminated else .alive s
  | .terminated => .terminated

theorem perform_connect (s : SerialRPC η) (args : ConnectArgs) (os : Environment) :
    perform s (.connect args os) = some (.alive (afterConnect s args os)) := by
  simp only [perform, connect_run]

theorem complete_some (s s' : SerialRPC η) (c : Completion) (h : complete s c = some s') :
    s.workingThread = .running ∧ s.stopped = false ∧ (0 < failing s → c.err = true) ∧
      ∃ r, s.receiver.complete c = some r ∧
        s' = { s with receiver := r, aborted := s.aborted-1 } := by
  unfold complete at h
  split at h
  · rename_i hc
    obtain ⟨r, hr, rfl⟩ := Option.map_eq_some_iff.mp h
    exact ⟨hc.1, hc.2.1, hc.2.2, r, hr, rfl⟩
  · cases h

theorem loopEnds_some (s s' : SerialRPC η) (h : loopEnds s = some s') :
    s.workingThread = .running ∧ (s.stopped = true ∨ s.receiver.pending = []) ∧
      s' = { s with workingThread := .ended, stopped := true } := by
  unfold loopEnds at h
  split at h
  · rename_i hc
    cases h
    exact ⟨hc.1, hc.2.imp_right List.length_eq_zero_iff.mp, rfl⟩
  · cases h

theorem startGrabbing_some (s s' : SerialRPC η) (h : startGrabbing s = .alive s') :
    (s.workingThread = .none ∨ s.workingThread = .joined) ∧
      s' = { s with receiver := s.receiver.startGrabbing, workingThread := .running } := by
  unfold startGrabbing at h
  split at h
  · cases h
  · rename_i hw
    cases h
    refine ⟨?_, rfl⟩
    cases hs : s.workingThread <;> simp_all [WorkingThread.joinable]

theorem join_some (s s' : SerialRPC η) (h : join s = some (.alive s')) :
    s.workingThread ≠ .running ∧ (s' = s ∧ s.workingThread = .none ∨
      s' = { s with workingThread := .joined } ∧ s.workingThread = .ended) := by
  unfold join at h
  cases hw : s.workingThread <;> rw [hw] at h <;> cases h <;> simp

structure Kept (s : SerialRPC η) : Prop where
  idle : s.workingThread = .none → s.receiver.pending = []
  spent : s.workingThread = .ended ∨ s.workingThread = .joined → s.stopped = true
  armed : s.stopped = false → Armed s.receiver
  aborted : s.aborted ≤ s.receiver.pending.length

theorem armed_length (r : Receiver η) (h : Armed r) : r.pending.length ≤ 1 := by
  cases h with
  | dead hp => simp [hp]
  | sof hp => simp [hp]
  | header hp => simp [hp]
  | body callback hp => simp [hp]

theorem started_armed (r : Receiver η) (h : r.pending = []) :
    r.startGrabbing.pending = [sofRead] := by
  simp [Receiver.startGrabbing, Receiver.readAsync, h, sofRead, Buffer.size]

theorem constructed_kept (regs : List (Callback η)) : Kept (constructed regs) := by
  have hidle := (registered_idle regs).1
  exact ⟨fun _ => hidle, by simp [constructed], fun _ => .dead hidle, Nat.zero_le _⟩

theorem step_kept (s s' : SerialRPC η) (e : Event) (hs : Kept s)
    (h : step (.alive s) e = some (.alive s')) : Kept s' := by
  obtain ⟨hidle, hspent, harmed, haborted⟩ := hs
  cases e with
  | call c =>
    cases c with
    | connect args os =>
      rw [step, perform_connect] at h
      cases h
      refine ⟨hidle, hspent, harmed, ?_⟩
      simp only [afterConnect]
      split
      · exact le_refl _
      · exact haborted
    | startGrabbing =>
      obtain ⟨hw, rfl⟩ := startGrabbing_some s s' (Option.some.inj h)
      refine ⟨by simp, by simp, fun hns => ?_, ?_⟩
      · rcases hw with hw | hw
        · exact .sof (started_armed _ (hidle hw))
        · rw [hspent (.inr hw)] at hns
          cases hns
      · simp only [Receiver.startGrabbing, Receiver.readAsync, List.length_append]
        omega
    | stopGrabbing =>
      cases h
      exact ⟨hidle, fun _ => rfl, by simp [stopGrabbing], haborted⟩
    | close =>
      cases h
      exact ⟨hidle, hspent, harmed, haborted⟩
    | join =>
      obtain ⟨-, ⟨rfl, -⟩ | ⟨rfl, hw⟩⟩ := join_some s s' h
      · exact ⟨hidle, hspent, harmed, haborted⟩
      · exact ⟨by simp, fun _ => hspent (.inl hw), harmed, haborted⟩
  | complete c =>
    obtain ⟨t, ht, hts⟩ := Option.map_eq_some_iff.mp h
    cases hts
    obtain ⟨hrun, hns, -, r, hr, rfl⟩ := complete_some s s' c ht
    obtain ⟨-, harmed', -⟩ := complete_move s.receiver r c (harmed hns) hr
    have hone := armed_length s.receiver (harmed hns)
    refine ⟨by simp [hrun], by simp [hrun], fun _ => harmed', ?_⟩
    change s.aborted-1 ≤ r.pending.length
    omega
  | loopEnds =>
    obtain ⟨t, ht, hts⟩ := Option.map_eq_some_iff.mp h
    cases hts
    obtain ⟨-, -, rfl⟩ := loopEnds_some s s' ht
    exact ⟨by simp, fun _ => rfl, by simp, haborted⟩

theorem run_kept (regs : List (Callback η)) (events : List Event) (s : SerialRPC η)
    (h : run step (.alive (constructed regs)) events = some (.alive s)) : Kept s := by
  have hall := run_invariant step (fun p => ∀ t : SerialRPC η, p = .alive t → Kept t)
    (.alive (constructed regs)) ?_ ?_ events _ h
  · exact hall s rfl
  · rintro t ⟨⟩
    exact constructed_kept regs
  · rintro (t | _) e p hp hstep u rfl
    · exact step_kept t u e (hp t rfl) hstep
    · cases hstep

end BusPlot.SerialObject
