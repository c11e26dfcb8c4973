import BusPlot.Registrations
import BusPlot.SerialStream
import BusPlot.Library.FramingPositions

/-!
# Finding into a stream of frames

A receiver that starts in the middle of good traffic. Bytes are never looked at
twice and payloads are not escaped, so whether it comes to the start of a frame
is decided by the positions at which its search begins.
-/

set_option autoImplicit false

namespace BusPlot.SerialSynchronisation
open BusPlot.Crc BusPlot.Protocol BusPlot.SerialReceiver BusPlot.SerialInvariant
open BusPlot.SerialStream BusPlot.Registrations Framing

variable {η : Type*}

def Dispatched (regs : List (Callback η)) (stream : List UInt8) (call : Invocation η) : Prop :=
  ∀ chunks : List (List UInt8), chunks.flatten = stream →
    call ∈ ((grabbing regs).deliverAll chunks).receiver.invoked

def copies (k : ℕ) (frame : List UInt8) : List UInt8 := (List.replicate k frame).flatten

theorem dispatched_scan (regs : List (Callback η)) (stream : List UInt8) (call : Invocation η) :
    Dispatched regs stream call ↔
      call ∈ (scan (.search : (wire (Receiver.registered regs).callbacks).Phase) stream).2 := by
  constructor
  · intro h
    have := h [stream] (by simp)
    rw [grabbing_invoked] at this
    simpa using this
  · intro h chunks hc
    rw [grabbing_invoked, hc]
    exact h

/-- The receiver makes a call at a position exactly when its frame stands
there. -/
theorem tokenAt_call (m : Callbacks η) (call : Invocation η) (hk : Known m call.callback)
    (s : ℕ → UInt8) (p : ℕ) :
    call ∈ (tokenAt (wire m) s p).output ↔ window s p (image call).length = image call := by
  constructor
  · intro h
    have hword := tokenAt_word (F := wire m) s p
    cases ht : tokenAt (wire m) s p with
    | idle b hb => simp [ht, Token.output] at h
    | rejected head hl hn => simp [ht, Token.output] at h
    | frame callback head body hl hsel hbody =>
      rw [ht] at h hword
      have himage : image call = SOF::(head ++ body) :=
        judge_image m callback head body call hl hbody hsel (Option.mem_toList.mp h)
      exact (congrArg (fun w => window s p w.length) himage).trans (hword.symm.trans himage.symm)
  · intro h
    have hlen : (image call).length = 3+(call.callback.reqType.size+2)+1 := by
      rw [image_length]
      omega
    rw [hlen, window_succ, window_append, image_eq] at h
    obtain ⟨hsof, hrest⟩ := List.cons.inj h
    obtain ⟨hhead, hbody⟩ := List.append_inj hrest (window_length ..)
    have hsel : (wire m).select (window s (p+1) (wire m).headerLength) = some call.callback :=
      (congrArg (wire m).select hhead).trans (select_known m call.callback hk)
    have hjudge : judge call.callback (window s (p+1) 3)
        (window s (p+1+3) (call.callback.reqType.size+2)) = some call := by
      rw [hhead, hbody, judge_frame]
    rw [tokenAt_frame s p call.callback hsof hsel]
    exact Option.mem_toList.mpr hjudge

/-- Whether a frame is ever received behind some noise, when it is sent again
and again, is decided by whether the search ever begins where it stands; it
does when every place in the repeated frame leads there, and so when the frame
has no start byte but its first. -/
theorem resynchronises (regs : List (Callback η)) (call : Invocation η)
    (hfirst : regs.find? (·.reqType.command = call.callback.reqType.command) = some call.callback)
    (hsize : call.callback.reqType.size ≤ 255) :
    let F := wire (Receiver.registered regs).callbacks
    let traffic := repeated F (image call)
    (∀ noise : List UInt8, (∃ k, Dispatched regs (noise ++ copies k (image call)) call) ↔
      ∃ i, window (followed noise traffic) ((next F (followed noise traffic))^[i] 0)
        (image call).length = image call) ∧
    ((∀ p, ∃ i, window traffic ((next F traffic)^[i] p) (image call).length = image call) →
      ∀ noise, ∃ k, Dispatched regs (noise ++ copies k (image call)) call) ∧
    ((∀ b ∈ (image call).tail, b ≠ SOF) →
      ∀ noise, ∃ k, Dispatched regs (noise ++ copies k (image call)) call) := by
  intro F traffic
  have hk := known_of_find regs call.callback hfirst hsize
  have hne : image call ≠ [] := by
    apply List.ne_nil_of_length_pos
    rw [image_length]
    omega
  have exactly : ∀ noise : List UInt8,
      (∃ k, Dispatched regs (noise ++ copies k (image call)) call) ↔
        ∃ i, window (followed noise traffic) ((next F (followed noise traffic))^[i] 0)
          (image call).length = image call := by
    intro noise
    simp only [dispatched_scan, copies, output_repeated_iff noise (image call) hne call]
    exact exists_congr fun i => tokenAt_call _ call hk _ _
  have everywhere : (∀ p, ∃ i, window traffic ((next F traffic)^[i] p) (image call).length =
      image call) → ∀ noise, ∃ k, Dispatched regs (noise ++ copies k (image call)) call := by
    intro hmeet noise
    obtain ⟨i, p, hpast⟩ := positions_reach (F := F) noise traffic
    obtain ⟨j, hj⟩ := hmeet p
    refine (exactly noise).mpr ⟨j+i, ?_⟩
    rw [Function.iterate_add_apply, hpast, next_followed, window_behind]
    exact hj
  exact ⟨exactly, everywhere, fun htail =>
    everywhere fun p => meets_word (F := F) (image call) hne htail p⟩

theorem resynchronises_removal :
    ∃ k, Dispatched mainCallbacks ([0xA5, 0x06] ++ copies k (image removeSeven)) removeSeven :=
  (resynchronises mainCallbacks removeSeven (by decide +kernel) (by decide)).2.2
    (by decide +kernel) [0xA5, 0x06]

def selfSimilar : Invocation Handler :=
  ⟨updateCallback, #v[0xA5, 0x06, 0x20, 0x00, 0x00, 0x00]⟩

/-- One stray start byte is noise enough: the search takes each frame in from
its payload on, with the start of the next one. -/
theorem never_resynchronises :
    mainCallbacks.find? (·.reqType.command = selfSimilar.callback.reqType.command) =
        some selfSimilar.callback ∧ selfSimilar.callback.reqType.size ≤ 255 ∧
      ¬ ∃ k, Dispatched mainCallbacks ([0xA5] ++ copies k (image selfSimilar)) selfSimilar := by
  have himage : image selfSimilar =
      [0xA5, 0x06, 0x20, 0x00] ++ [0xA5, 0x06, 0x20, 0x00, 0x00, 0x00, 0x1E, 0x3C] := by
    decide +kernel
  have hfirst : mainCallbacks.find? (·.reqType.command = selfSimilar.callback.reqType.command) =
      some selfSimilar.callback := by decide +kernel
  refine ⟨hfirst, by decide, ?_⟩
  rintro ⟨k, hk⟩
  have hknown := known_of_find mainCallbacks updateCallback hfirst (by decide)
  have hnoise : scan (.search : (wire (Receiver.registered mainCallbacks).callbacks).Phase)
      ([0xA5] ++ [0xA5, 0x06, 0x20, 0x00]) = (.search, []) :=
    scan_tokens [.rejected [0xA5, 0x06, 0x20] rfl (by decide +kernel), .idle 0x00 (by decide)]
  have hbad : judge updateCallback (headerOf updateVariableReq).bytes
      [0x00, 0x00, 0x1E, 0x3C, 0xA5, 0x06, 0x20, 0x00] = none :=
    Option.isNone_iff_eq_none.mp (by decide +kernel)
  have hturn : scan (.search : (wire (Receiver.registered mainCallbacks).callbacks).Phase)
      ([0xA5, 0x06, 0x20, 0x00, 0x00, 0x00, 0x1E, 0x3C] ++ [0xA5, 0x06, 0x20, 0x00]) =
        (.search, []) := by
    have := scan_frame _ updateCallback hknown
      [0x00, 0x00, 0x1E, 0x3C, 0xA5, 0x06, 0x20, 0x00] rfl
    rw [show updateCallback.reqType = updateVariableReq from rfl, hbad] at this
    exact this
  rw [dispatched_scan, copies, himage, locked _ _ _ hnoise hturn k] at hk
  cases hk

end BusPlot.SerialSynchronisation
