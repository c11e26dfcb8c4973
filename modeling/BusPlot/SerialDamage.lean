import BusPlot.CrcDistance
import BusPlot.Registrations
import BusPlot.SerialStream
import Mathlib.Data.List.GetD

/-!
# Damaged frames

Up to three flipped bits never leave a frame that is accepted as a whole. In
the body or the checksum they cost the frame and nothing else. In the start byte
or the header they move the search, or the end of the frame, to places where the
bytes of another frame may stand.
-/

set_option autoImplicit false

namespace BusPlot.SerialDamage
open BusPlot.Crc BusPlot.CrcDistance BusPlot.Protocol BusPlot.SerialReceiver
open BusPlot.SerialInvariant BusPlot.SerialStream BusPlot.Registrations Framing

variable {η : Type*}

theorem image_verifies (call : Invocation η) :
    verifyCRC16Checksum (some (image call)) (image call).length = true := by
  have himage : image call = checked call.callback.reqType call.request ++
      tailBytes (crc16 (checked call.callback.reqType call.request)) := makeRequest_bytes _ _
  have hpos : 0 < (checked call.callback.reqType call.request).length := by
    rw [checked_length]
    omega
  rw [himage, tailBytes, List.length_append]
  exact (verify_append_iff _ _ _ hpos).mpr rfl

theorem damage_take (ks : List ℕ) (bytes : List UInt8) (n : ℕ) (h : ∀ k ∈ ks, 8*n ≤ k) :
    (damage ks bytes).take n = bytes.take n := by
  induction ks with
  | nil => rfl
  | cons k ks ih =>
    have hk : n ≤ k/8 := by
      have := h k (by simp)
      omega
    rw [← ih fun j hj => h j (by simp [hj])]
    apply List.ext_getElem?
    intro i
    by_cases hi : i < n
    · have hne : k/8 ≠ i := by omega
      simp [damage, flipBit, hi, hne]
    · simp [hi]

theorem damage_not_image (call other : Invocation η) (hsize : call.callback.reqType.size ≤ 255)
    (ks : List ℕ) (hks : ∀ k ∈ ks, k < 8*(image call).length) (hnd : ks.Nodup) (h0 : ks ≠ [])
    (h3 : ks.length ≤ 3) : damage ks (image call) ≠ image other := by
  intro h
  have hlen := image_length call
  have hrejected := damage_rejected (image call) (by omega) (by omega) (image_verifies call) ks hks
    hnd h0 h3
  rw [← damage_length ks (image call), h, image_verifies other] at hrejected
  cases hrejected

theorem output_image (m : Callbacks η) (stream : List UInt8) (call : Invocation η)
    (h : call ∈ (scan (.search : (wire m).Phase) stream).2) :
    Known m call.callback ∧ ∃ pre post, stream = pre ++ image call ++ post := by
  obtain ⟨pre, callback, head, body, post, hstream, hsel, hl, hbody, haccept⟩ :=
    output_frame (F := wire m) stream call h
  have himage := judge_image m callback head body call hl hbody hsel haccept
  obtain ⟨-, hsize, hfind⟩ := select_header m _ callback hsel
  have hcallback : callback = call.callback := by
    unfold wire judge at haccept
    simp only [Option.ite_none_right_eq_some, Option.some.injEq] at haccept
    rw [← haccept.2]
  refine ⟨hcallback ▸ ⟨hfind, hsize⟩, pre, post, ?_⟩
  rw [himage]
  exact hstream

theorem begins_inside (d idle pre post : List UInt8) (call : Invocation η)
    (hidle : ∀ b ∈ idle, b ≠ SOF) (h : d ++ idle = pre ++ image call ++ post) :
    ∃ b rest, d = pre ++ b::rest := by
  rw [List.append_assoc] at h
  rcases List.append_eq_append_iff.mp h with ⟨as, hpre, hrest⟩ | ⟨bs, hd, hrest⟩
  · have : SOF ∈ idle := by
      rw [hrest, image_eq]
      simp
    exact absurd rfl (hidle SOF this)
  · cases bs with
    | nil =>
      have : SOF ∈ idle := by
        rw [List.nil_append] at hrest
        rw [← hrest, image_eq]
        simp
      exact absurd rfl (hidle SOF this)
    | cons b bs => exact ⟨b, bs, hd⟩

/-- A frame at the start of the traffic is announced by its header. -/
theorem header_at_start (d idle post : List UInt8) (call : Invocation η) (hd : 4 ≤ d.length)
    (h : d ++ idle = image call ++ post) :
    d.head? = some SOF ∧ FrameHeader.ofBytes d.tail = headerOf call.callback.reqType := by
  cases d with
  | nil => simp at hd
  | cons b t =>
    rw [List.length_cons] at hd
    rw [image_eq, List.cons_append, List.cons_append, List.append_assoc] at h
    obtain ⟨hb, ht⟩ := List.cons.inj h
    have hprefix : FrameHeader.ofBytes t = FrameHeader.ofBytes (t ++ idle) := by
      simp only [FrameHeader.ofBytes, wordAt]
      rw [List.getD_append _ _ _ 0 (by omega), List.getD_append _ _ _ 1 (by omega),
        List.getD_append _ _ _ (1+1) (by omega)]
    exact ⟨congrArg some hb, by rw [List.tail_cons, hprefix, ht, FrameHeader.ofBytes_bytes]⟩

theorem scan_damaged_body (m : Callbacks η) (call : Invocation η) (hk : Known m call.callback)
    (ks : List ℕ) (hks : ∀ k ∈ ks, k < 8*(image call).length) (hnd : ks.Nodup) (h0 : ks ≠ [])
    (h3 : ks.length ≤ 3) (hbody : ∀ k ∈ ks, 32 ≤ k) :
    scan (.search : (wire m).Phase) (damage ks (image call)) = (.search, []) := by
  have hlen := image_length call
  have htake : (damage ks (image call)).take 4 =
      SOF::(headerOf call.callback.reqType).bytes := by
    rw [damage_take ks _ 4 hbody, image_eq]
    rfl
  have hsplit : damage ks (image call) =
      SOF::((headerOf call.callback.reqType).bytes ++ (damage ks (image call)).drop 4) := by
    rw [← List.cons_append, ← htake, List.take_append_drop]
  have hrest : ((damage ks (image call)).drop 4).length = call.callback.reqType.size+2 := by
    rw [List.length_drop, damage_length]
    omega
  have hrejected := damage_rejected (image call) (by omega) (by have := hk.2; omega)
    (image_verifies call) ks hks hnd h0 h3
  have hjudge : judge call.callback (headerOf call.callback.reqType).bytes
      ((damage ks (image call)).drop 4) = none := by
    have hframe : call.callback.reqType.frameSize = (image call).length := by
      rw [hlen, ReqType.frameSize, FrameHeader.size]
      omega
    rw [judge, ← hsplit, hframe, hrejected]
    rfl
  rw [hsplit, scan_frame m call.callback hk _ hrest, hjudge]
  rfl

/-- Where the frame of a call stands that damaged traffic leads to. -/
theorem damage_place (m : Callbacks η) (call : Invocation η)
    (hsize : call.callback.reqType.size ≤ 255) (ks : List ℕ)
    (hks : ∀ k ∈ ks, k < 8*(image call).length) (hnd : ks.Nodup) (h0 : ks ≠ [])
    (h3 : ks.length ≤ 3) (idle : List UInt8) (hidle : ∀ b ∈ idle, b ≠ SOF) (other : Invocation η)
    (ho : other ∈ (scan (.search : (wire m).Phase) (damage ks (image call) ++ idle)).2) :
    ∃ pre post, damage ks (image call) ++ idle = pre ++ image other ++ post ∧
      pre.length < (image call).length ∧ ¬ (pre = [] ∧ post = idle) := by
  obtain ⟨-, pre, post, hstands⟩ := output_image m _ other ho
  obtain ⟨b, rest, hpre⟩ := begins_inside _ idle pre post other hidle hstands
  refine ⟨pre, post, hstands, ?_, ?_⟩
  · rw [← damage_length ks (image call), hpre]
    simp
  · rintro ⟨rfl, rfl⟩
    exact damage_not_image call other hsize ks hks hnd h0 h3 (by simpa using hstands)

/-- Without a second start byte a call could only come from a frame at the
start, and a header that selects nobody of another size leaves only the damaged
frame itself. -/
theorem damage_silent (m : Callbacks η) (call : Invocation η)
    (hsize : call.callback.reqType.size ≤ 255) (ks : List ℕ)
    (hks : ∀ k ∈ ks, k < 8*(image call).length) (hnd : ks.Nodup) (h0 : ks ≠ [])
    (h3 : ks.length ≤ 3) (idle : List UInt8) (hidle : ∀ b ∈ idle, b ≠ SOF)
    (htail : ∀ b ∈ (damage ks (image call)).tail, b ≠ SOF)
    (hselect : ∀ callback, (damage ks (image call)).head? = some SOF →
      m.select (.ofBytes (damage ks (image call)).tail) = some callback →
        callback.reqType.size = call.callback.reqType.size) :
    (scan (.search : (wire m).Phase) (damage ks (image call) ++ idle)).2 = [] := by
  have hlen := image_length call
  have hdlen := damage_length ks (image call)
  apply List.eq_nil_iff_forall_not_mem.mpr
  intro other ho
  obtain ⟨pre, post, hstands, -, hother⟩ :=
    damage_place m call hsize ks hks hnd h0 h3 idle hidle other ho
  obtain ⟨hknown, -⟩ := output_image m _ other ho
  obtain ⟨b, rest, hpre⟩ := begins_inside _ idle pre post other hidle hstands
  cases pre with
  | nil =>
    rw [List.nil_append] at hstands
    obtain ⟨hhead, hheader⟩ := header_at_start _ idle post other (by omega) hstands
    have hsame := hselect other.callback hhead
      (hheader ▸ select_headerOf m other.callback hknown.1 hknown.2)
    have hlens : (damage ks (image call)).length = (image other).length := by
      rw [hdlen, hlen, image_length, hsame]
    exact hother ⟨rfl, (List.append_inj hstands hlens).2.symm⟩
  | cons a pre =>
    have hstart : b = SOF := by
      rw [hpre, List.append_assoc, List.append_assoc, image_eq] at hstands
      exact (List.cons.inj (List.append_cancel_left hstands)).1
    refine absurd hstart (htail b ?_)
    rw [hpre]
    simp

/-- Up to three flipped bits in a frame, idle bytes behind it. Damage behind
the header leads to no call. After any damage the frame of each call made stands
in the stream, begins in the damaged frame and is not the damaged frame; so no
call is made when the damaged frame has no start byte but its first and its
header does not select a callback of another size. -/
theorem damage_outcome (regs : List (Callback η)) (l : Link η)
    (hregs : l.receiver.callbacks = (Receiver.registered regs).callbacks) (hl : l.Waiting)
    (call : Invocation η)
    (hfirst : regs.find? (·.reqType.command = call.callback.reqType.command) = some call.callback)
    (hsize : call.callback.reqType.size ≤ 255) (ks : List ℕ)
    (hks : ∀ k ∈ ks, k < 8*(image call).length) (hnd : ks.Nodup) (h0 : ks ≠ [])
    (h3 : ks.length ≤ 3) (idle : List UInt8) (hidle : ∀ b ∈ idle, b ≠ SOF)
    (chunks : List (List UInt8)) (hc : chunks.flatten = damage ks (image call) ++ idle) :
    ∃ late, (l.deliverAll chunks).receiver.invoked = l.receiver.invoked ++ late ∧
      ((∀ k ∈ ks, 32 ≤ k) → late = [] ∧ (l.deliverAll chunks).Waiting) ∧
      (∀ other ∈ late, ∃ pre post,
        damage ks (image call) ++ idle = pre ++ image other ++ post ∧
        pre.length < (image call).length ∧ ¬ (pre = [] ∧ post = idle)) ∧
      ((∀ b ∈ (damage ks (image call)).tail, b ≠ SOF) →
        (∀ callback, (damage ks (image call)).head? = some SOF →
          (Receiver.registered regs).callbacks.select (.ofBytes (damage ks (image call)).tail) =
            some callback → callback.reqType.size = call.callback.reqType.size) →
        late = []) := by
  have hk := known_of_find regs call.callback hfirst hsize
  generalize hm : (Receiver.registered regs).callbacks = m at *
  obtain ⟨hshow, hinv⟩ := deliverAll_shows m l _ ((waiting_shows m l).mpr ⟨hregs, hl⟩) chunks
  rw [hc] at hshow hinv
  refine ⟨_, hinv, ?_, ?_, ?_⟩
  · intro hbody
    have hscan := scan_damaged_body m call hk ks hks hnd h0 h3 hbody
    rw [scan_append, hscan, scan_idles (F := wire m) idle hidle] at hshow ⊢
    exact ⟨rfl, (shows_waiting m _ _ hshow).mpr rfl⟩
  · intro other ho
    exact damage_place m call hsize ks hks hnd h0 h3 idle hidle other ho
  · intro htail hselect
    exact damage_silent m call hsize ks hks hnd h0 h3 idle hidle htail hselect

theorem damage_outcome_last_bit :
    ∃ late, ((grabbing mainCallbacks).deliverAll
        [damage [63] (image removeSeven) ++ [0x00]]).receiver.invoked =
          (grabbing mainCallbacks).receiver.invoked ++ late ∧ late = [] := by
  obtain ⟨late, hlate, hquiet, -, -⟩ := damage_outcome mainCallbacks (grabbing mainCallbacks) rfl
    (grabbing_waiting _) removeSeven (by decide +kernel) (by decide) [63]
    (by rw [image_length]; decide) (by decide) (by decide) (by decide) [0x00] (by decide +kernel)
    [damage [63] (image removeSeven) ++ [0x00]] (by simp)
  exact ⟨late, hlate, (hquiet (by decide)).1⟩

def reading : Invocation Handler := ⟨updateCallback, #v[0x07, 0x00, 0x47, 0x8B, 0x00, 0x40]⟩

/-- Two flipped bits, one in the length and one in the command, make a removal
of the reading's first bytes. -/
theorem damaged_reading_removes :
    (∀ k ∈ [10, 20], k < 8*(image reading).length) ∧
      mainCallbacks.find? (·.reqType.command = reading.callback.reqType.command) =
        some reading.callback ∧
      ((grabbing mainCallbacks).deliverAll [damage [10, 20] (image reading)]).receiver.invoked =
        [removeSeven] := by
  have hdamaged : damage [10, 20] (image reading) =
      image removeSeven ++ [0x00, 0x40, 0x99, 0x26] := by decide +kernel
  have hknown := known_of_find mainCallbacks removeCallback (by decide +kernel) (by decide)
  refine ⟨by rw [image_length]; decide, by decide +kernel, ?_⟩
  rw [grabbing_invoked, List.flatten_singleton, hdamaged, scan_append,
    scan_image _ removeSeven hknown, scan_idles _ (by decide +kernel)]
  rfl

end BusPlot.SerialDamage
