import BusPlot.Registrations
import BusPlot.SerialStream

/-!
# Frames nobody is registered for

A header that selects no callback sends the receiver back to the search at
once: the body and the checksum of that frame are searched like noise. They do
no harm exactly when they are made of whole tokens that call nobody.
-/

set_option autoImplicit false

namespace BusPlot.SerialIgnored
open BusPlot.Crc BusPlot.Protocol BusPlot.SerialReceiver BusPlot.SerialInvariant
open BusPlot.SerialStream BusPlot.Registrations Framing

variable {η : Type*}

structure Frame where
  header : FrameHeader
  body : List UInt8
  whole : body.length = header.dataLength.toNat

namespace Frame

def rest (f : Frame) : List UInt8 :=
  f.body ++ tailBytes (crc16 (SOF::(f.header.bytes ++ f.body)))

def bytes (f : Frame) : List UInt8 := SOF::(f.header.bytes ++ f.rest)

def call (m : Callbacks η) (f : Frame) : Option (Invocation η) :=
  (m.select f.header).map fun callback => ⟨callback, callback.reqType.bodyOf f.body⟩

end Frame

/-- A run of whole tokens, none of which calls anybody. -/
def Harmless (m : Callbacks η) (bytes : List UInt8) : Prop :=
  ∃ ts : List (wire m).Token, bytes = ts.flatMap Token.word ∧ ts.flatMap Token.output = []

theorem harmless_iff (m : Callbacks η) (bytes : List UInt8) :
    Harmless m bytes ↔ scan (.search : (wire m).Phase) bytes = (.search, []) := by
  rw [scan_search_iff]
  exact exists_congr fun ts => and_congr_right fun _ => eq_comm

theorem scan_ignored (m : Callbacks η) (f : Frame) (hn : m.select f.header = none) :
    scan (.search : (wire m).Phase) f.bytes = scan (.search : (wire m).Phase) f.rest := by
  have hhead : FrameHeader.ofBytes f.header.bytes = f.header := by
    simpa using FrameHeader.ofBytes_bytes f.header []
  have hsel : (wire m).select f.header.bytes = none := (congrArg m.select hhead).trans hn
  have htoken := scan_token (.rejected (F := wire m) f.header.bytes rfl hsel)
  have hbytes : f.bytes = SOF::f.header.bytes ++ f.rest := rfl
  rw [hbytes, scan_append]
  simp only [Token.word, Token.output] at htoken
  rw [show (wire m).sof = SOF from rfl] at htoken
  simp [htoken]

theorem scan_handled (m : Callbacks η) (f : Frame) (callback : Callback η)
    (hs : m.select f.header = some callback) :
    scan (.search : (wire m).Phase) f.bytes =
      (.search, [⟨callback, callback.reqType.bodyOf f.body⟩]) := by
  obtain ⟨hhead, hsize, hfind⟩ := select_header m _ callback hs
  have hlen : f.body.length = callback.reqType.size :=
    f.whole.trans ((select_iff m _ callback).mp hs).2
  have hbody : (callback.reqType.bodyOf f.body).toList = f.body := by
    rw [toList_bodyOf _ _ (Nat.le_of_eq hlen.symm), ← hlen, List.take_length]
  have himage : f.bytes = image ⟨callback, callback.reqType.bodyOf f.body⟩ := by
    rw [image_eq, Frame.bytes, Frame.rest, hhead, checked, hbody]
  rw [himage]
  exact scan_image m _ ⟨hfind, hsize⟩

theorem scan_frames (m : Callbacks η) (frames : List Frame)
    (h : ∀ f ∈ frames, m.select f.header = none → Harmless m f.rest) :
    scan (.search : (wire m).Phase) (frames.flatMap Frame.bytes) =
      (.search, frames.filterMap (Frame.call m)) := by
  induction frames with
  | nil => rfl
  | cons f frames ih =>
    have hone : scan (.search : (wire m).Phase) f.bytes = (.search, (f.call m).toList) := by
      cases hs : m.select f.header with
      | none =>
        rw [scan_ignored m f hs, (harmless_iff m _).mp (h f (by simp) hs), Frame.call, hs]
        rfl
      | some callback =>
        rw [scan_handled m f callback hs, Frame.call, hs]
        rfl
    rw [List.flatMap_cons, scan_append, hone, ih fun g hg => h g (by simp [hg]),
      List.filterMap_cons]
    cases f.call m <;> rfl

theorem harmless_of_no_start (m : Callbacks η) (bytes : List UInt8) (h : ∀ b ∈ bytes, b ≠ SOF) :
    Harmless m bytes :=
  (harmless_iff m bytes).mpr (scan_idles (F := wire m) bytes h)

/-- The calls are those of the handled frames when the rest of every ignored
one is harmless; it is when it has no start byte, and an ignored frame by itself
is passed over only then. -/
theorem ignored_frames (regs : List (Callback η)) (l : Link η)
    (hregs : l.receiver.callbacks = (Receiver.registered regs).callbacks) (hl : l.Waiting) :
    let m := (Receiver.registered regs).callbacks
    (∀ (frames : List Frame) (chunks : List (List UInt8)),
      (∀ f ∈ frames, m.select f.header = none → Harmless m f.rest) →
      chunks.flatten = frames.flatMap Frame.bytes →
      (l.deliverAll chunks).receiver.invoked =
          l.receiver.invoked ++ frames.filterMap (Frame.call m) ∧
        (l.deliverAll chunks).Waiting) ∧
    (∀ f : Frame, (∀ b ∈ f.rest, b ≠ SOF) → Harmless m f.rest) ∧
    (∀ (f : Frame) (chunks : List (List UInt8)), m.select f.header = none →
      chunks.flatten = f.bytes →
      ((l.deliverAll chunks).receiver.invoked = l.receiver.invoked ∧
        (l.deliverAll chunks).Waiting ↔ Harmless m f.rest)) := by
  intro m
  refine ⟨?_, fun f => harmless_of_no_start m f.rest, ?_⟩
  · intro frames chunks hharmless hc
    obtain ⟨-, hw, hi⟩ := deliverAll_search m l hregs hl chunks _ (hc ▸ scan_frames m _ hharmless)
    exact ⟨hi, hw⟩
  · intro f chunks hn hc
    obtain ⟨hshow, hinv⟩ := deliverAll_shows m l _ ((waiting_shows m l).mpr ⟨hregs, hl⟩) chunks
    rw [hc, scan_ignored m f hn] at hshow hinv
    rw [harmless_iff, hinv, shows_waiting m _ _ hshow, List.append_right_eq_self, and_comm,
      Prod.ext_iff]

def removal : Frame := ⟨headerOf removeVariableReq, [0x07, 0x00], rfl⟩

def arguments : Frame := ⟨headerOf applyArgumentReq, (List.range 36).map UInt8.ofNat, by decide⟩

/-- Two removals are handled and the arguments between them are not. -/
theorem ignored_frames_between :
    (Receiver.registered mainCallbacks).callbacks.select arguments.header = none ∧
    ([removal, arguments, removal].filterMap
      (Frame.call (Receiver.registered mainCallbacks).callbacks)).length = 2 ∧
    ((grabbing mainCallbacks).deliverAll [removal.bytes ++ arguments.bytes.take 20,
        arguments.bytes.drop 20 ++ removal.bytes]).receiver.invoked =
      (grabbing mainCallbacks).receiver.invoked ++
        [removal, arguments, removal].filterMap
          (Frame.call (Receiver.registered mainCallbacks).callbacks) := by
  refine ⟨by decide, by decide, ((ignored_frames mainCallbacks (grabbing mainCallbacks) rfl
    (grabbing_waiting _)).1 [removal, arguments, removal] _ ?_ ?_).1⟩
  · intro f hf hn
    apply harmless_of_no_start
    rcases List.mem_cons.mp hf with rfl | hf
    · revert hn
      decide
    rcases List.mem_cons.mp hf with rfl | hf
    · decide +kernel
    · obtain rfl := List.mem_singleton.mp hf
      revert hn
      decide
  · simp only [List.flatten_cons, List.flatten_nil, List.append_nil, List.flatMap_cons,
      List.flatMap_nil, List.append_assoc, ← List.append_assoc (arguments.bytes.take 20),
      List.take_append_drop]

def endsInStart : Frame := ⟨headerOf applyArgumentReq, .replicate 35 0x00 ++ [0xA5], rfl⟩

/-- The last byte of the ignored frame takes its checksum and the start of the
removal behind it for a header. -/
theorem ignored_frame_costs_another :
    ((grabbing mainCallbacks).deliverAll [endsInStart.bytes ++ removal.bytes]).receiver.invoked ≠
      [endsInStart, removal].filterMap
        (Frame.call (Receiver.registered mainCallbacks).callbacks) := by
  intro h
  rw [grabbing_invoked] at h
  have hlen := congrArg List.length h
  revert hlen
  decide +kernel

end BusPlot.SerialIgnored
