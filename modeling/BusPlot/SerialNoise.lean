import BusPlot.CrcErrors
import BusPlot.SerialDamage
import BusPlot.SerialDelivery

/-!
# A noisy line

Frames of registered types among idle bytes, with bits flipped behind the headers.
Where the checksum notices the flipped bits of a frame the frame is lost, and
nothing else is.
-/

set_option autoImplicit false

namespace BusPlot.SerialNoise
open BusPlot.Crc BusPlot.CrcDistance BusPlot.CrcErrors BusPlot.Protocol BusPlot.SerialReceiver
open BusPlot.SerialInvariant BusPlot.SerialStream BusPlot.SerialDamage BusPlot.SerialDelivery
open BusPlot.Registrations Framing

variable {η : Type*}

structure Sent (η : Type*) where
  idle : List UInt8
  call : Invocation η
  flipped : List ℕ

def Sent.bytes (s : Sent η) : List UInt8 := s.idle ++ damage s.flipped (image s.call)

/-- The errors that the checksum is there for: an odd number of flipped bits, up
to three, or a burst. -/
def Noticed (ks : List ℕ) : Prop :=
  ks.length % 2 = 1 ∨
    ks.Nodup ∧ ks ≠ [] ∧ (ks.length ≤ 3 ∨ ∃ start, ∀ k ∈ ks, start ≤ k ∧ k < start+16)

structure Sent.Ordinary (regs : List (Callback η)) (s : Sent η) : Prop where
  registered : s.call.callback ∈ regs
  quiet : ∀ b ∈ s.idle, b ≠ SOF
  behind : ∀ k ∈ s.flipped, 32 ≤ k ∧ k < 8*(image s.call).length
  noticed : s.flipped = [] ∨ Noticed s.flipped

theorem noticed_rejected (call : Invocation η) (hsize : call.callback.reqType.size ≤ 255)
    (ks : List ℕ) (hks : ∀ k ∈ ks, k < 8*(image call).length) (h : Noticed ks) :
    verifyCRC16Checksum (some (damage ks (image call))) (image call).length = false := by
  have hlen := image_length call
  have hv := image_verifies call
  rcases h with hodd | ⟨hnd, h0, h3 | ⟨start, hburst⟩⟩
  · exact verify_odd _ _ _ crc16_residual (image call) (by omega) hv ks hks hodd
  · exact damage_rejected (image call) (by omega) (by omega) hv ks hks hnd h0 h3
  · rw [← Bool.not_eq_true, verify_damage (image call) (by omega) hv]
    exact ReflectedRegister.burst_detected ccitt (by decide) (by decide) _ _ start ks
      (by rw [messageBits_length]; exact hks) hnd h0 hburst

/-- A frame that is rejected behind its own header leads to no call. -/
theorem scan_rejected (m : Callbacks η) (call : Invocation η) (hk : Known m call.callback)
    (ks : List ℕ) (hbehind : ∀ k ∈ ks, 32 ≤ k)
    (h : verifyCRC16Checksum (some (damage ks (image call))) (image call).length = false) :
    scan (.search : (wire m).Phase) (damage ks (image call)) = (.search, []) := by
  have hlen := image_length call
  have htake : (damage ks (image call)).take 4 =
      SOF::(headerOf call.callback.reqType).bytes := by
    rw [damage_take ks _ 4 hbehind, image_eq]
    rfl
  have hsplit : damage ks (image call) =
      SOF::((headerOf call.callback.reqType).bytes ++ (damage ks (image call)).drop 4) := by
    rw [← List.cons_append, ← htake, List.take_append_drop]
  have hrest : ((damage ks (image call)).drop 4).length = call.callback.reqType.size+2 := by
    rw [List.length_drop, damage_length]
    omega
  have hframe : call.callback.reqType.frameSize = (image call).length := by
    rw [hlen, ReqType.frameSize, FrameHeader.size]
    omega
  rw [hsplit, scan_frame m call.callback hk _ hrest, judge, ← hsplit, hframe, h]
  rfl

def Sent.received (s : Sent η) : Option (Invocation η) :=
  if s.flipped = [] then some s.call else none

theorem scan_sent (m : Callbacks η) (regs : List (Callback η))
    (hk : ∀ callback ∈ regs, Known m callback) (s : Sent η) (hs : s.Ordinary regs) :
    scan (.search : (wire m).Phase) s.bytes = (.search, s.received.toList) := by
  have hknown := hk _ hs.registered
  rw [Sent.bytes, scan_append, scan_idles (F := wire m) s.idle hs.quiet, Sent.received]
  rcases hs.noticed with hnone | hnoticed
  · rw [if_pos hnone, hnone]
    exact congrArg (fun p => (p.1, [] ++ p.2)) (scan_image m s.call hknown)
  · have hne : s.flipped ≠ [] := by
      rintro hnil
      rcases hnoticed with hodd | ⟨-, h0, -⟩
      · simp [hnil] at hodd
      · exact h0 hnil
    have hrejected := noticed_rejected s.call hknown.2 s.flipped (fun k hk => (hs.behind k hk).2)
      hnoticed
    rw [if_neg hne, scan_rejected m s.call hknown s.flipped (fun k hk => (hs.behind k hk).1)
      hrejected]
    rfl

theorem scan_noise (m : Callbacks η) (regs : List (Callback η))
    (hk : ∀ callback ∈ regs, Known m callback) (sent : List (Sent η))
    (hs : ∀ s ∈ sent, s.Ordinary regs) :
    scan (.search : (wire m).Phase) (sent.flatMap Sent.bytes) =
      (.search, sent.filterMap Sent.received) := by
  induction sent with
  | nil => rfl
  | cons s sent ih =>
    rw [List.flatMap_cons, scan_append, scan_sent m regs hk s (hs s (by simp)),
      ih fun t ht => hs t (by simp [ht]), List.filterMap_cons]
    cases s.received <;> rfl

/-- However the stream is cut, the frames without a flipped bit are all handled,
in order, and the others are not. -/
theorem noise_costs_itself (regs : List (Callback η))
    (hnd : (regs.map (·.reqType.command)).Nodup)
    (hsize : ∀ callback ∈ regs, callback.reqType.size ≤ 255) (l : Link η)
    (hregs : l.receiver.callbacks = (Receiver.registered regs).callbacks) (hl : l.Waiting)
    (sent : List (Sent η)) (hs : ∀ s ∈ sent, s.Ordinary regs) (chunks : List (List UInt8))
    (hc : chunks.flatten = sent.flatMap Sent.bytes) :
    (l.deliverAll chunks).receiver.invoked =
        l.receiver.invoked ++ (sent.filter fun s => s.flipped = []).map Sent.call ∧
      (l.deliverAll chunks).Waiting := by
  have hk : ∀ callback ∈ regs, Known (Receiver.registered regs).callbacks callback :=
    fun callback h => known_of_find regs callback (find_of_mem regs callback hnd h) (hsize _ h)
  have hleft : sent.filterMap Sent.received =
      (sent.filter fun s => s.flipped = []).map Sent.call := by
    clear hs hc
    induction sent with
    | nil => rfl
    | cons s sent ih =>
      rw [List.filterMap_cons, List.filter_cons, Sent.received, ih]
      by_cases h : s.flipped = [] <;> simp [h]
  obtain ⟨-, hw, hi⟩ := deliverAll_search _ l hregs hl chunks _
    (hc ▸ scan_noise _ regs hk sent hs)
  exact ⟨hleft ▸ hi, hw⟩

def noisy : List (Sent Handler) :=
  [⟨[0x00], removeSeven, []⟩, ⟨[], removeSeven, [32, 39, 47, 50, 63]⟩]

theorem noise_costs_itself_removal :
    ((grabbing mainCallbacks).deliverAll [noisy.flatMap Sent.bytes]).receiver.invoked =
      [removeSeven] := by
  have h := noise_costs_itself mainCallbacks mainCallbacks_nodup mainCallbacks_size
    (grabbing mainCallbacks) rfl (grabbing_waiting _) noisy (fun s hs => by
      simp only [noisy, List.mem_cons, List.not_mem_nil, or_false] at hs
      rcases hs with rfl | rfl
      · exact ⟨by decide, by simp [SOF], by simp, .inl rfl⟩
      · exact ⟨by decide, by simp, by rw [image_length]; decide, .inr (.inl rfl)⟩)
    [noisy.flatMap Sent.bytes] (by simp)
  exact h.1

end BusPlot.SerialNoise
