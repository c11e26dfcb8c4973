import BusPlot.SerialObject

/-!
# What `IsValid` says

The flag is written by `Connect` alone, and stands for an open port and a
receiver that can still receive. `owed` is true from a successful `Connect` to
the `StartGrabbing` that belongs to it, and nobody reads it in the code. The
calls here are those of the graphical interface and `Close`.
-/

set_option autoImplicit false

namespace BusPlot.SerialValidity
open BusPlot.SerialReceiver BusPlot.SerialInvariant BusPlot.SerialConnect BusPlot.SerialObject
open PartialRun

variable {η : Type}

structure Session (η : Type) where
  rpc : SerialRPC η
  owed : Bool

def start (regs : List (Callback η)) : Session η := ⟨constructed regs, false⟩

def allowed (t : Session η) : Event → Bool
  | .call .startGrabbing => t.owed
  | .call .stopGrabbing => false
  | _ => true

def owes (t : Session η) : Event → Bool
  | .call (.connect args os) => SerialConnect.succeeds t.rpc args os || t.owed
  | .call .startGrabbing => false
  | _ => t.owed

def step (t : Session η) (e : Event) : Option (Session η) :=
  if allowed t e then
    match SerialObject.step (.alive t.rpc) e with
    | some (.alive s) => some ⟨s, owes t e⟩
    | _ => none
  else none

def CanReceive (s : SerialRPC η) : Prop :=
  s.workingThread = .running ∧ s.stopped = false ∧ failing s < s.receiver.pending.length

def Truthful (t : Session η) : Prop :=
  t.rpc.isValid = true → t.rpc.isOpen = true ∧ (t.owed = false → CanReceive t.rpc)

/-- A valid connection is not closed, not started on a stopped service, and its
search for a start byte does not fail. -/
def Honest (t : Session η) : Event → Prop
  | .call .close => t.rpc.isValid = false
  | .call .startGrabbing => t.rpc.isValid = true → t.rpc.stopped = false
  | .complete c => t.rpc.isValid = true → t.owed = false → c.err = true →
    t.rpc.receiver.pending ≠ [sofRead]
  | _ => True

theorem step_some (t t' : Session η) (e : Event) (h : step t e = some t') :
    allowed t e = true ∧ t'.owed = owes t e ∧
      SerialObject.step (.alive t.rpc) e = some (.alive t'.rpc) := by
  unfold step at h
  split at h
  · rename_i hallowed
    split at h
    · rename_i s hs
      cases h
      exact ⟨hallowed, rfl, hs⟩
    · cases h
  · cases h

/-- After a completion a live read is left unless it was the search that
failed. -/
theorem complete_receives (s s' : SerialRPC η) (c : Completion) (hs : Kept s) (hc : CanReceive s)
    (hopen : s.isOpen = true) (h : complete s c = some s') :
    CanReceive s' ↔ (c.err = true → s.receiver.pending ≠ [sofRead]) := by
  obtain ⟨hrun, hns, -, r, hr, rfl⟩ := complete_some s s' c h
  obtain ⟨-, -, hlive⟩ := hc
  have hone := armed_length s.receiver (hs.armed hns)
  have hnone : s.aborted = 0 := by
    simp only [failing, hopen, if_true] at hlive
    omega
  have hgoal : CanReceive { s with receiver := r, aborted := s.aborted-1 } ↔
      0 < r.pending.length := by
    simp [CanReceive, failing, hrun, hns, hopen, hnone]
  rw [hgoal]
  obtain ⟨-, -, hmove⟩ := complete_move s.receiver r c (hs.armed hns) hr
  cases hmove with
  | portLost hb he ha => simp [hb, he, ha]
  | skipped hb he ha => simp [he, ha]
  | found hb he _ ha => simp [he, ha]
  | headerDropped hb ha => simp [hb, ha, headerRead, sofRead]
  | chosen callback hb he _ ha => simp [he, ha]
  | bodyDropped callback hb ha => simp [hb, ha, bodyRead, sofRead]
  | accepted callback body hb he _ ha => simp [he, ha]

theorem step_truthful (t t' : Session η) (e : Event) (hq : Kept t.rpc) (ht : Truthful t)
    (h : step t e = some t') : Truthful t' ↔ Honest t e := by
  obtain ⟨hallowed, howed, hstep⟩ := step_some t t' e h
  cases e with
  | call c =>
    cases c with
    | connect args os =>
      rw [SerialObject.step, perform_connect] at hstep
      have hrpc : t'.rpc = afterConnect t.rpc args os :=
        (Process.alive.inj (Option.some.inj hstep)).symm
      refine ⟨fun _ => trivial, fun _ hv => ?_⟩
      rw [hrpc] at hv ⊢
      have hsucc : SerialConnect.succeeds t.rpc args os = true := hv
      refine ⟨?_, fun ho => ?_⟩
      · simp only [SerialConnect.succeeds, Bool.and_eq_true] at hsucc
        simp [afterConnect, hsucc.1.2]
      · rw [howed] at ho
        simp [owes, hsucc] at ho
    | startGrabbing =>
      obtain ⟨hw, hrpc⟩ := startGrabbing_some t.rpc t'.rpc (Option.some.inj hstep)
      have ho : t'.owed = false := howed
      unfold Truthful
      rw [hrpc, ho]
      simp only [Honest]
      refine forall_congr' fun hv => ?_
      obtain ⟨hopen, -⟩ := ht hv
      have hlive : t.rpc.aborted < t.rpc.receiver.startGrabbing.pending.length := by
        have := hq.aborted
        simp only [Receiver.startGrabbing, Receiver.readAsync, List.length_append,
          List.length_singleton]
        omega
      simp [CanReceive, failing, hopen, hlive]
    | stopGrabbing => simp [allowed] at hallowed
    | close =>
      have hrpc : t'.rpc = close t.rpc := (Process.alive.inj (Option.some.inj hstep)).symm
      unfold Truthful
      rw [hrpc]
      simp [Honest, close]
    | join =>
      have ho : t'.owed = t.owed := howed
      refine ⟨fun _ => trivial, fun _ hv => ?_⟩
      obtain ⟨hw, ⟨hrpc, -⟩ | ⟨hrpc, -⟩⟩ := join_some t.rpc t'.rpc hstep <;> rw [hrpc] at hv ⊢ <;>
        obtain ⟨hopen, hreceive⟩ := ht hv <;>
        exact ⟨hopen, fun hfalse => absurd (hreceive (ho ▸ hfalse)).1 hw⟩
  | complete c =>
    obtain ⟨s, hs, hts⟩ := Option.map_eq_some_iff.mp hstep
    cases hts
    have ho : t'.owed = t.owed := howed
    obtain ⟨-, -, -, r, -, hrpc⟩ := complete_some t.rpc t'.rpc c hs
    have hvalid : t'.rpc.isValid = t.rpc.isValid := by rw [hrpc]
    have hopen' : t'.rpc.isOpen = t.rpc.isOpen := by rw [hrpc]
    unfold Truthful
    rw [ho, hvalid, hopen']
    simp only [Honest]
    refine forall_congr' fun hv => ?_
    obtain ⟨hopen, hreceive⟩ := ht hv
    simp only [hopen, true_and]
    exact forall_congr' fun hfalse =>
      complete_receives t.rpc t'.rpc c hq (hreceive hfalse) hopen hs
  | loopEnds =>
    obtain ⟨s, hs, hts⟩ := Option.map_eq_some_iff.mp hstep
    cases hts
    obtain ⟨-, hwhy, hrpc⟩ := loopEnds_some t.rpc t'.rpc hs
    have ho : t'.owed = t.owed := howed
    refine ⟨fun _ => trivial, fun _ hv => ?_⟩
    rw [hrpc] at hv ⊢
    obtain ⟨hopen, hreceive⟩ := ht hv
    refine ⟨hopen, fun hfalse => ?_⟩
    obtain ⟨-, hns, hlive⟩ := hreceive (ho ▸ hfalse)
    rcases hwhy with hstopped | hnone
    · rw [hns] at hstopped
      cases hstopped
    · rw [hnone] at hlive
      simp at hlive

/-- In every state of a run `IsValid` tells the truth exactly when every step of
the run is honest. -/
theorem isValid_truthful_iff (regs : List (Callback η)) (events : List Event) (t : Session η)
    (h : run step (start regs) events = some t) :
    (∀ pre post m, events = pre ++ post → run step (start regs) pre = some m → Truthful m) ↔
      ∀ pre e post m, events = pre ++ e::post → run step (start regs) pre = some m →
        Honest m e := by
  refine run_exact step (fun t => Kept t.rpc) Truthful Honest _ (constructed_kept regs) ?_ ?_ ?_
    events t h
  · simp [Truthful, start, constructed]
  · intro m e m' hm hstep
    obtain ⟨-, -, hrun⟩ := step_some m m' e hstep
    exact step_kept m.rpc m'.rpc e hm hrun
  · exact fun m e m' hq hm hstep => step_truthful m m' e hq hm hstep

def closed : List Event := [.call (.connect (deviceArgs 8) eightBits), .call .close]

theorem isValid_truthful_iff_closed :
    (∀ pre post m, closed = pre ++ post →
        run step (start [] : Session Unit) pre = some m → Truthful m) ↔
      ∀ pre e post m, closed = pre ++ e::post →
        run step (start [] : Session Unit) pre = some m → Honest m e :=
  isValid_truthful_iff [] closed _ rfl

theorem closed_still_valid :
    ∃ t : Session Unit, run step (start []) closed = some t ∧ t.rpc.isValid = true ∧
      t.rpc.isOpen = false ∧ ¬ Truthful t :=
  ⟨_, rfl, rfl, rfl, fun h => Bool.false_ne_true (h rfl).1⟩

end BusPlot.SerialValidity
