import BusPlot.SerialObject

/-!
# The worker's thread handle

`m_WorkingThread` is never cleared. Which calls were made tells what it holds,
whatever the worker does between them, and so whether the next call or the
destructor finds a thread it can deal with.
-/

set_option autoImplicit false

namespace BusPlot.SerialThread
open BusPlot.SerialReceiver BusPlot.SerialConnect BusPlot.SerialObject PartialRun

variable {η : Type}

def Unjoined (calls : List Call) : Prop :=
  ∃ pre post, calls = pre ++ .startGrabbing::post ∧ .join ∉ post

theorem unjoined_snoc (calls : List Call) (c : Call) :
    Unjoined (calls ++ [c]) ↔ c = .startGrabbing ∨ c ≠ .join ∧ Unjoined calls := by
  constructor
  · rintro ⟨pre, post, hcalls, hpost⟩
    rcases (split_snoc _ _ _ _ _).mp hcalls with ⟨-, -, hc⟩ | ⟨post', rfl, hcalls'⟩
    · exact .inl hc
    · exact .inr ⟨fun hc => hpost (by simp [hc]), pre, post', hcalls', fun h => hpost (by simp [h])⟩
  · rintro (rfl | ⟨hc, pre, post, rfl, hpost⟩)
    · exact ⟨calls, [], rfl, by simp⟩
    · exact ⟨pre, post ++ [c], by simp, by simp [hpost, Ne.symm hc]⟩

def Fits (calls : List Call) : Call → Prop
  | .startGrabbing => ¬ Unjoined calls
  | .join => .startGrabbing ∈ calls → Unjoined calls
  | _ => True

def Handle (calls : List Call) : WorkingThread → Prop
  | .none => .startGrabbing ∉ calls
  | .joined => .startGrabbing ∈ calls ∧ ¬ Unjoined calls
  | _ => Unjoined calls

theorem unjoined_started (calls : List Call) (h : Unjoined calls) : .startGrabbing ∈ calls := by
  obtain ⟨pre, post, rfl, -⟩ := h
  simp

theorem handle_joined (calls : List Call) (w : WorkingThread) (h : Handle calls w)
    (hs : .startGrabbing ∈ calls) (hj : ¬ Unjoined calls) : w = .joined := by
  cases w with
  | none => exact absurd hs h
  | running => exact absurd h hj
  | ended => exact absurd h hj
  | joined => rfl

theorem handle_other (calls : List Call) (c : Call) (hs : c ≠ .startGrabbing) (hj : c ≠ .join)
    (w : WorkingThread) : Handle (calls ++ [c]) w ↔ Handle calls w := by
  cases w <;> simp [Handle, unjoined_snoc, hs, hj, Ne.symm hs]

theorem perform_handle (s : SerialRPC η) (calls : List Call) (hs : Handle calls s.workingThread)
    (c : Call) (p : Process η) (h : perform s c = some p) :
    (p ≠ .terminated ↔ Fits calls c) ∧
      ∀ s', p = .alive s' → Handle (calls ++ [c]) s'.workingThread := by
  cases c with
  | connect args os =>
    rw [perform_connect] at h
    cases h
    refine ⟨by simp [Fits], ?_⟩
    rintro s' ⟨⟩
    exact (handle_other calls _ (by simp) (by simp) _).mpr hs
  | startGrabbing =>
    cases h
    unfold startGrabbing
    cases hw : s.workingThread <;> rw [hw] at hs <;>
      simp_all [WorkingThread.joinable, Fits, Handle, unjoined_snoc]
    exact fun hu => hs (unjoined_started calls hu)
  | stopGrabbing =>
    cases h
    refine ⟨by simp [Fits], ?_⟩
    rintro s' ⟨⟩
    exact (handle_other calls _ (by simp) (by simp) _).mpr hs
  | close =>
    cases h
    refine ⟨by simp [Fits], ?_⟩
    rintro s' ⟨⟩
    exact (handle_other calls _ (by simp) (by simp) _).mpr hs
  | join =>
    simp only [perform, join] at h
    cases hw : s.workingThread <;> rw [hw] at hs h <;> cases h <;>
      simp_all [Fits, Handle, unjoined_snoc]
    exact unjoined_started calls hs

/-- Over every run of calls and worker steps: the handle tells the calls, and
the process is alive exactly while every call fitted. -/
theorem run_handle (regs : List (Callback η)) (events : List Event) (p : Process η)
    (h : run step (.alive (constructed regs)) events = some p) :
    (p ≠ .terminated ↔ ∀ pre c post, callsOf events = pre ++ c::post → Fits pre c) ∧
      ∀ s, p = .alive s → Handle (callsOf events) s.workingThread := by
  refine run_history step (fun events p =>
    (p ≠ .terminated ↔ ∀ pre c post, callsOf events = pre ++ c::post → Fits pre c) ∧
      ∀ s, p = .alive s → Handle (callsOf events) s.workingThread) _ ?_ ?_ events p h
  · refine ⟨by simp [callsOf], ?_⟩
    rintro s ⟨⟩
    simp [Handle, constructed, callsOf]
  · rintro events m e m' ⟨halive, hhandle⟩ hstep
    have hcalls : callsOf (events ++ [e]) = callsOf events ++ e.asCall.toList := by
      simp only [callsOf, List.filterMap_append]
      cases e <;> rfl
    rw [hcalls]
    cases m with
    | terminated =>
      cases hstep
      refine ⟨?_, by simp⟩
      cases e with
      | call c =>
        refine ⟨fun hne => absurd rfl hne, fun hall => ?_⟩
        exact halive.mpr ((forall_split_snoc Fits (callsOf events) c).mp hall).1
      | complete c => simpa [Event.asCall] using halive
      | loopEnds => simpa [Event.asCall] using halive
    | alive s =>
      have hs := hhandle s rfl
      have hfits := halive.mp (by simp)
      cases e with
      | call c =>
        obtain ⟨hiff, hnext⟩ := perform_handle s (callsOf events) hs c m' hstep
        refine ⟨?_, hnext⟩
        rw [hiff]
        exact ⟨fun hc => (forall_split_snoc Fits (callsOf events) c).mpr ⟨hfits, hc⟩,
          fun hall => ((forall_split_snoc Fits (callsOf events) c).mp hall).2⟩
      | complete c =>
        obtain ⟨s', hs', rfl⟩ := Option.map_eq_some_iff.mp hstep
        obtain ⟨hrun, -, -, r, -, rfl⟩ := complete_some s s' c hs'
        refine ⟨by simpa [Event.asCall] using hfits, ?_⟩
        rintro t ⟨⟩
        simpa [Event.asCall] using hs
      | loopEnds =>
        obtain ⟨s', hs', rfl⟩ := Option.map_eq_some_iff.mp hstep
        obtain ⟨hrun, -, rfl⟩ := loopEnds_some s s' hs'
        rw [hrun] at hs
        refine ⟨by simpa [Event.asCall] using hfits, ?_⟩
        rintro t ⟨⟩
        simpa [Event.asCall, Handle] using hs

def Disciplined (calls : List Call) : Prop :=
  ∀ pre post, calls = pre ++ .startGrabbing::post → ¬ Unjoined pre

/-- With the destructor's calls included, no worker is joined twice. -/
def JoinedOnce (calls : List Call) : Prop :=
  ∀ pre post, calls ++ destructor = pre ++ .join::post → .startGrabbing ∈ pre → Unjoined pre

theorem start_of_owner (calls pre post : List Call)
    (h : calls ++ destructor = pre ++ .startGrabbing::post) :
    ∃ rest, calls = pre ++ .startGrabbing::rest := by
  have hnone : Call.startGrabbing ∉ destructor := by simp [destructor]
  rcases List.append_eq_append_iff.mp h with ⟨as, -, hdestructor⟩ | ⟨bs, hcalls, hpost⟩
  · exact absurd (by simp [hdestructor]) hnone
  · cases bs with
    | nil => exact absurd (by rw [List.nil_append] at hpost; simp [← hpost]) hnone
    | cons b bs =>
      cases hpost
      exact ⟨bs, hcalls⟩

theorem fits_iff (calls : List Call) (hd : Disciplined calls) :
    (∀ pre c post, calls ++ destructor = pre ++ c::post → Fits pre c) ↔ JoinedOnce calls := by
  constructor
  · intro h pre post hsplit
    exact h pre .join post hsplit
  · intro h pre c post hsplit
    cases c with
    | startGrabbing =>
      obtain ⟨y, hy⟩ := start_of_owner calls pre post hsplit
      exact hd pre y hy
    | join => exact h pre post hsplit
    | connect args os => trivial
    | stopGrabbing => trivial
    | close => trivial

/-- Whatever the worker does in between, a sequence of calls and the destruction
behind it end well exactly when no worker is joined twice. -/
theorem ends_well_iff (regs : List (Callback η)) (calls : List Call) (hd : Disciplined calls)
    (events : List Event) (hcalls : callsOf events = calls ++ destructor) (p : Process η)
    (h : run step (.alive (constructed regs)) events = some p) :
    p.release ≠ .terminated ↔ JoinedOnce calls := by
  obtain ⟨halive, hhandle⟩ := run_handle regs events p h
  rw [hcalls] at halive hhandle
  rw [← fits_iff calls hd, ← halive]
  cases p with
  | terminated => exact Iff.rfl
  | alive s =>
    have hjoined : ¬ Unjoined (calls ++ destructor) := by
      rw [show calls ++ destructor = (calls ++ [.stopGrabbing, .close]) ++ [.join] by
        simp [destructor], unjoined_snoc]
      simp
    have hs := hhandle s rfl
    cases hw : s.workingThread <;> rw [hw] at hs <;>
      simp_all [Process.release, WorkingThread.joinable, Handle]

def plainLife : List Event :=
  [.call (.connect (deviceArgs 8) eightBits), .call .startGrabbing, .call .stopGrabbing,
    .call .close, .loopEnds, .call .join]

theorem disciplined_start (before rest : List Call) (hb : .startGrabbing ∉ before)
    (hr : .startGrabbing ∉ rest) : Disciplined (before ++ .startGrabbing::rest) := by
  intro pre post hsplit hu
  have hpre := unjoined_started pre hu
  rcases List.append_eq_append_iff.mp hsplit with ⟨as, rfl, hrest⟩ | ⟨bs, rfl, -⟩
  · cases as with
    | nil => simp [hb] at hpre
    | cons a as =>
      have hmem : Call.startGrabbing ∈ rest := by
        cases hrest
        simp
      exact hr hmem
  · exact hb (by simp [hpre])

theorem ends_well_iff_plainLife :
    ∃ p : Process Unit, run step (.alive (constructed [])) plainLife = some p ∧
      (p.release ≠ .terminated ↔
        JoinedOnce [.connect (deviceArgs 8) eightBits, .startGrabbing]) :=
  ⟨_, rfl, ends_well_iff [] _
    (disciplined_start [.connect (deviceArgs 8) eightBits] [] (by simp) (by simp)) plainLife rfl _ rfl⟩

def serverLife : List Event :=
  [.call (.connect (deviceArgs 8) eightBits), .call .startGrabbing, .complete ⟨true, []⟩,
    .loopEnds, .call .join, .call .stopGrabbing, .call .close, .call .join]

theorem server_terminates :
    Disciplined [.connect (deviceArgs 8) eightBits, .startGrabbing, .join] ∧
      callsOf serverLife =
        [.connect (deviceArgs 8) eightBits, .startGrabbing, .join] ++ destructor ∧
      run step (.alive (constructed [] : SerialRPC Unit)) serverLife = some .terminated :=
  ⟨disciplined_start [.connect (deviceArgs 8) eightBits] [.join] (by simp) (by simp), rfl, rfl⟩

end BusPlot.SerialThread
