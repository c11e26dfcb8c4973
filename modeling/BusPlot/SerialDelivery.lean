import BusPlot.Registrations
import BusPlot.SerialStream

/-!
# What is delivered

Streams made of whole frames and idle bytes, gaps that let a receiver find back
to the search, and frames nobody is registered for. All follow from the tokens
of the framing.
-/

set_option autoImplicit false

namespace BusPlot.SerialDelivery
open BusPlot.Crc BusPlot.Protocol BusPlot.SerialReceiver BusPlot.SerialInvariant
open BusPlot.SerialStream BusPlot.Registrations Framing

variable {η : Type*}

inductive Segment (regs : List (Callback η))
  | idle (b : UInt8) (other : b ≠ SOF)
  | frame (callback : Callback η) (known : callback ∈ regs)
      (rest : Vector UInt8 (callback.reqType.size+2))

def Segment.bytes {regs : List (Callback η)} : Segment regs → List UInt8
  | .idle b _ => [b]
  | .frame callback _ rest => SOF::((headerOf callback.reqType).bytes ++ rest.toList)

def Segment.call {regs : List (Callback η)} : Segment regs → Option (Invocation η)
  | .idle _ _ => none
  | .frame callback known rest =>
    let segment := Segment.bytes (.frame callback known rest)
    if segment.drop (segment.length-2) = tailBytes (crc16 (segment.take (segment.length-2))) then
      some ⟨callback, callback.reqType.bodyOf rest.toList⟩
    else none

theorem segment_judge (regs : List (Callback η)) (callback : Callback η) (known : callback ∈ regs)
    (rest : Vector UInt8 (callback.reqType.size+2)) :
    Segment.call (.frame callback known rest) =
      judge callback (headerOf callback.reqType).bytes rest.toList := by
  obtain ⟨body, lo, hi, hrest⟩ := split_body callback.reqType rest.toList (Vector.length_toList ..)
  have hseg : Segment.bytes (.frame callback known rest) =
      checked callback.reqType body ++ [lo, hi] := by
    simp [Segment.bytes, hrest, checked]
  have hlen : (checked callback.reqType body ++ [lo, hi]).length-2 =
      (checked callback.reqType body).length := by simp
  simp only [Segment.call, hseg, hlen, List.drop_left, List.take_left, hrest, judge_tail,
    bodyOf_append]

theorem scan_segments (m : Callbacks η) (regs : List (Callback η))
    (hk : ∀ callback ∈ regs, Known m callback) (segments : List (Segment regs)) :
    scan (.search : (wire m).Phase) (segments.flatMap Segment.bytes) =
      (.search, segments.filterMap Segment.call) := by
  induction segments with
  | nil => rfl
  | cons segment segments ih =>
    have hone : scan (.search : (wire m).Phase) segment.bytes = (.search, segment.call.toList) := by
      cases segment with
      | idle b hb => exact scan_idle b hb
      | frame callback known rest =>
        rw [segment_judge]
        exact scan_frame m callback (hk callback known) _ (Vector.length_toList ..)
    rw [List.flatMap_cons, scan_append, hone, ih, List.filterMap_cons]
    cases segment.call <;> rfl

theorem scan_traffic (m : Callbacks η) (traffic : List (List UInt8 × Invocation η))
    (ht : ∀ t ∈ traffic, (∀ b ∈ t.1, b ≠ SOF) ∧ Known m t.2.callback) :
    scan (.search : (wire m).Phase) (traffic.flatMap fun t => t.1 ++ image t.2) =
      (.search, traffic.map Prod.snd) := by
  induction traffic with
  | nil => rfl
  | cons t traffic ih =>
    obtain ⟨hidle, hk⟩ := ht t (by simp)
    rw [List.flatMap_cons, scan_append, scan_append, scan_idles (F := wire m) t.1 hidle,
      scan_image m t.2 hk, ih fun u hu => ht u (by simp [hu])]
    rfl

/-- A receiver that waits for a start byte makes exactly the calls of the
frame segments with a correct checksum, however the stream is cut; frames built
by `makeRequest` among idle bytes are all delivered, and a frame damaged behind
its header costs nothing else. -/
theorem exact_delivery (regs : List (Callback η)) (hnd : (regs.map (·.reqType.command)).Nodup)
    (hsize : ∀ callback ∈ regs, callback.reqType.size ≤ 255) (l : Link η)
    (hregs : l.receiver.callbacks = (Receiver.registered regs).callbacks) (hl : l.Waiting) :
    (∀ (segments : List (Segment regs)) (chunks : List (List UInt8)),
      chunks.flatten = segments.flatMap Segment.bytes →
      (l.deliverAll chunks).receiver.invoked =
          l.receiver.invoked ++ segments.filterMap Segment.call ∧
        (l.deliverAll chunks).Waiting) ∧
    (∀ (traffic : List (List UInt8 × Invocation η)) (last : List UInt8)
      (chunks : List (List UInt8)),
      (∀ t ∈ traffic, (∀ b ∈ t.1, b ≠ SOF) ∧ t.2.callback ∈ regs) → (∀ b ∈ last, b ≠ SOF) →
      chunks.flatten = traffic.flatMap (fun t => t.1 ++ image t.2) ++ last →
      (l.deliverAll chunks).receiver.invoked = l.receiver.invoked ++ traffic.map Prod.snd ∧
        (l.deliverAll chunks).Waiting) ∧
    (∀ (pre post : List (Segment regs)) (callback : Callback η) (known : callback ∈ regs)
      (rest : Vector UInt8 (callback.reqType.size+2)) (chunks : List (List UInt8)),
      Segment.call (.frame callback known rest) = none →
      chunks.flatten = (pre ++ .frame callback known rest::post).flatMap Segment.bytes →
      (l.deliverAll chunks).receiver.invoked =
        l.receiver.invoked ++ (pre ++ post).filterMap Segment.call) := by
  have hk : ∀ callback ∈ regs, Known (Receiver.registered regs).callbacks callback :=
    fun callback h => known_of_find regs callback (find_of_mem regs callback hnd h) (hsize _ h)
  have segs : ∀ (segments : List (Segment regs)) (chunks : List (List UInt8)),
      chunks.flatten = segments.flatMap Segment.bytes →
      (l.deliverAll chunks).receiver.invoked =
          l.receiver.invoked ++ segments.filterMap Segment.call ∧
        (l.deliverAll chunks).Waiting := by
    intro segments chunks hc
    obtain ⟨-, hw, hi⟩ := deliverAll_search _ l hregs hl chunks _ (hc ▸ scan_segments _ regs hk _)
    exact ⟨hi, hw⟩
  refine ⟨segs, ?_, ?_⟩
  · intro traffic last chunks ht hlast hc
    have hscan : scan (.search : (wire (Receiver.registered regs).callbacks).Phase)
        (traffic.flatMap (fun t => t.1 ++ image t.2) ++ last) =
          (.search, traffic.map Prod.snd) := by
      rw [scan_append, scan_traffic _ traffic fun t h => ⟨(ht t h).1, hk _ (ht t h).2⟩,
        scan_idles (F := wire _) last hlast, List.append_nil]
    obtain ⟨-, hw, hi⟩ := deliverAll_search _ l hregs hl chunks _ (hc ▸ hscan)
    exact ⟨hi, hw⟩
  · intro pre post callback known rest chunks hbad hc
    rw [(segs _ chunks hc).1]
    simp [List.filterMap_append, hbad]

theorem exact_delivery_one :
    ((grabbing mainCallbacks).deliverAll
        [[0x00] ++ image removeSeven, [0x01]]).receiver.invoked =
      (grabbing mainCallbacks).receiver.invoked ++ [removeSeven] := by
  have h := exact_delivery mainCallbacks mainCallbacks_nodup mainCallbacks_size
    (grabbing mainCallbacks) rfl (grabbing_waiting _)
  exact (h.2.1 [([0x00], removeSeven)] [0x01] _ (by decide +kernel) (by decide +kernel) (by simp)).1

/-- A receiver at any moment of its life up to the loss of the port: after
some completions, successful or not, and some bytes. -/
def Reached (regs : List (Callback η)) (l : Link η) : Prop :=
  ∃ (cs : List Completion) (r : Receiver η) (noise : List (List UInt8)),
    (Receiver.started regs).run cs = some r ∧ r.pending ≠ [] ∧
      l = Link.deliverAll ⟨r, []⟩ noise

theorem reached_shows (regs : List (Callback η)) (l : Link η) (h : Reached regs l) :
    ∃ ph, Shows (Receiver.registered regs).callbacks l ph := by
  obtain ⟨cs, r, noise, hrun, halive, rfl⟩ := h
  obtain ⟨hcb, harmed⟩ := SerialRuns.run_armed _ r cs (SerialRuns.started_armed regs) hrun
  rw [started_callbacks] at hcb
  have hphase : ∃ ph, Shows (Receiver.registered regs).callbacks ⟨r, []⟩ ph := by
    cases harmed with
    | dead hp => exact absurd hp halive
    | sof hp => exact ⟨.search, hcb, hp, rfl⟩
    | header hp => exact ⟨.header [] (wire _).headerLength_pos, hcb, hp, rfl⟩
    | body callback hp hsel =>
      rw [hcb] at hsel
      exact ⟨.body callback r.headerBuffer.toList [] hsel (by simp [wire]), hcb, hp, rfl, rfl⟩
  obtain ⟨ph, hph⟩ := hphase
  exact ⟨_, (deliverAll_shows _ _ ph hph noise).1⟩

def largestSize (m : Callbacks η) : ℕ :=
  (m.table.entries.map fun e => e.2.reqType.size).foldr max 0

theorem le_largestSize (m : Callbacks η) (command : UInt16) (callback : Callback η)
    (h : m.find command = some callback) : callback.reqType.size ≤ largestSize m := by
  have hmem : ⟨command, callback⟩ ∈ m.table.entries := AList.mem_lookup_iff.mp h
  have bound : ∀ (sizes : List ℕ), ∀ n ∈ sizes, n ≤ sizes.foldr max 0 := by
    intro sizes
    induction sizes with
    | nil => simp
    | cons k sizes ih =>
      intro n hn
      rcases List.mem_cons.mp hn with rfl | hn
      · exact Nat.le_max_left _ _
      · exact (ih n hn).trans (Nat.le_max_right _ _)
  exact bound _ _ (List.mem_map_of_mem (f := fun e => e.2.reqType.size) hmem)

/-- Any gap of `3 + largest size + 2` bytes without a start byte brings the
receiver back to the search with at most one call, and all frames behind it are
delivered. -/
theorem idle_gap_recovery (regs : List (Callback η))
    (hsize : ∀ callback ∈ regs, callback.reqType.size ≤ 255) (l : Link η) (hl : Reached regs l)
    (gap traffic : List (List UInt8)) (hgap : ∀ b ∈ gap.flatten, b ≠ SOF)
    (hlen : 3+largestSize (Receiver.registered regs).callbacks+2 ≤ gap.flatten.length)
    (calls : List (Invocation η))
    (hcalls : ∀ call ∈ calls,
      regs.find? (·.reqType.command = call.callback.reqType.command) = some call.callback)
    (htraffic : traffic.flatten = calls.flatMap image) :
    (l.deliverAll gap).Waiting ∧
    (∃ late, late.length ≤ 1 ∧
      (l.deliverAll gap).receiver.invoked = l.receiver.invoked ++ late) ∧
    ((l.deliverAll gap).deliverAll traffic).receiver.invoked =
      (l.deliverAll gap).receiver.invoked ++ calls := by
  obtain ⟨ph, hph⟩ := reached_shows regs l hl
  generalize hm : (Receiver.registered regs).callbacks = m at *
  have hM : ∀ head callback, (wire m).select head = some callback →
      (wire m).bodyLength callback ≤ largestSize m+2 := by
    intro head callback hsel
    have := le_largestSize m _ callback ((select_iff m _ callback).mp hsel).1
    simp only [wire]
    omega
  have hdebt : debt (F := wire m) (largestSize m+2) ph ≤ 3+(largestSize m+2) := debt_le _ hM ph
  obtain ⟨hsearch, hfew⟩ := scan_gap (F := wire m) (largestSize m+2) hM ph gap.flatten hgap
    (by omega)
  obtain ⟨h1, h2⟩ := deliverAll_shows m l ph hph gap
  rw [hsearch] at h1
  obtain ⟨hm1, hw1⟩ := (waiting_shows m _).mp h1
  refine ⟨hw1, ⟨_, hfew, h2⟩, ?_⟩
  have hk : ∀ call ∈ calls, Known m call.callback := by
    intro call hc
    rw [← hm]
    exact known_of_find regs _ (hcalls call hc)
      (hsize _ (List.mem_of_find?_eq_some (hcalls call hc)))
  exact (deliverAll_search m _ hm1 hw1 traffic calls (htraffic ▸ scan_images m calls hk)).2.2

theorem idle_gap_recovery_one :
    ((((grabbing mainCallbacks).deliverAll [[0xA5, 0x06]]).deliverAll
        [List.replicate 17 0x00]).deliverAll [image removeSeven]).receiver.invoked =
      (((grabbing mainCallbacks).deliverAll [[0xA5, 0x06]]).deliverAll
        [List.replicate 17 0x00]).receiver.invoked ++ [removeSeven] := by
  have hreached : Reached mainCallbacks ((grabbing mainCallbacks).deliverAll [[0xA5, 0x06]]) :=
    ⟨[], Receiver.started mainCallbacks, [[0xA5, 0x06]], rfl, by simp [started_pending], rfl⟩
  exact (idle_gap_recovery mainCallbacks mainCallbacks_size _ hreached [List.replicate 17 0x00]
    [image removeSeven] (by decide +kernel) (by decide +kernel) [removeSeven] (by decide +kernel)
    (by simp)).2.2

end BusPlot.SerialDelivery
