import BusPlot.SerialRuns
import BusPlot.Library.Framing

/-!
# The receiver over a byte stream

`async_read` is a loop of partial reads: the port hands over what has arrived,
as much of it as the armed read still wants, and the next read takes over where
that one ends. Over a stream the receiver behaves as the framing its
registrations give, however the stream is cut into deliveries.
-/

set_option autoImplicit false

namespace BusPlot.SerialStream
open BusPlot.Crc BusPlot.Protocol BusPlot.SerialReceiver BusPlot.SerialInvariant
open Framing

variable {η : Type*}

structure Link (η : Type*) where
  receiver : Receiver η
  transferred : List UInt8

/-- Bytes arrive at the port. Without an armed read they stay there. -/
def Link.deliver (l : Link η) (chunk : List UInt8) : Link η :=
  match l.receiver.pending with
  | [] => l
  | op::_ =>
    let missing := op.length-l.transferred.length
    if _h : 0 < missing ∧ missing ≤ chunk.length then
      match l.receiver.complete ⟨false, l.transferred ++ chunk.take missing⟩ with
      | none => l
      | some r => Link.deliver ⟨r, []⟩ (chunk.drop missing)
    else { l with transferred := l.transferred ++ chunk }
  termination_by chunk.length
  decreasing_by
    rw [List.length_drop]
    omega

def Link.deliverAll (l : Link η) (chunks : List (List UInt8)) : Link η :=
  chunks.foldl Link.deliver l

def Link.Waiting (l : Link η) : Prop :=
  l.receiver.pending = [sofRead] ∧ l.transferred = []

def grabbing (regs : List (Callback η)) : Link η := ⟨.started regs, []⟩

theorem grabbing_waiting (regs : List (Callback η)) : (grabbing regs).Waiting :=
  ⟨started_pending regs, rfl⟩

def wire (m : Callbacks η) : Framing UInt8 (Callback η) (Invocation η) where
  sof := SOF
  headerLength := 3
  select head := m.select (.ofBytes head)
  bodyLength callback := callback.reqType.size+2
  accept := judge
  headerLength_pos := by decide
  bodyLength_pos _ := by omega

def Shows (m : Callbacks η) (l : Link η) (ph : (wire m).Phase) : Prop :=
  l.receiver.callbacks = m ∧
    match ph with
    | .search => l.receiver.pending = [sofRead] ∧ l.transferred = []
    | .header got _ => l.receiver.pending = [headerRead] ∧ l.transferred = got
    | .body callback head got _ _ => l.receiver.pending = [bodyRead callback] ∧
        l.transferred = got ∧ l.receiver.headerBuffer.toList = head

theorem deliver_short (l : Link η) (op : AsyncRead η) (hp : l.receiver.pending = [op])
    (chunk : List UInt8) (hl : (l.transferred ++ chunk).length < op.length) :
    l.deliver chunk = { l with transferred := l.transferred ++ chunk } := by
  have hno : ¬ (0 < op.length-l.transferred.length ∧
      op.length-l.transferred.length ≤ chunk.length) := by
    rw [List.length_append] at hl
    omega
  rw [Link.deliver]
  simp only [hp, dif_neg hno]

theorem deliver_full (l : Link η) (op : AsyncRead η) (hp : l.receiver.pending = [op])
    (hlt : l.transferred.length < op.length) (as bs : List UInt8)
    (hl : (l.transferred ++ as).length = op.length) (r : Receiver η)
    (hr : l.receiver.complete ⟨false, l.transferred ++ as⟩ = some r) :
    l.deliver (as ++ bs) = Link.deliver ⟨r, []⟩ bs := by
  rw [List.length_append] at hl
  have hm : op.length-l.transferred.length = as.length := by omega
  have hyes : 0 < as.length ∧ as.length ≤ (as ++ bs).length := by
    rw [List.length_append]
    omega
  rw [Link.deliver]
  simp only [hp, hm, dif_pos hyes, List.take_left', List.drop_left', hr]

/-- Bytes that do not complete the armed read, or a first part that does. -/
theorem split_at (n : ℕ) (got chunk : List UInt8) (hgot : got.length < n) :
    (got ++ chunk).length < n ∨
      ∃ as bs, chunk = as ++ bs ∧ (got ++ as).length = n ∧ bs.length < chunk.length := by
  by_cases h : (got ++ chunk).length < n
  · exact .inl h
  · refine .inr ⟨chunk.take (n-got.length), chunk.drop (n-got.length), by simp, ?_, ?_⟩ <;>
      simp only [List.length_append, List.length_take, List.length_drop] at h ⊢ <;> omega

inductive Piece (m : Callbacks η) (l : Link η) (ph : (wire m).Phase) (chunk : List UInt8) : Prop
  | whole (shows : Shows m (l.deliver chunk) (scan ph chunk).1)
      (calls : (l.deliver chunk).receiver.invoked = l.receiver.invoked ++ (scan ph chunk).2)
  | part (l' : Link η) (as bs : List UInt8) (split : chunk = as ++ bs)
      (shorter : bs.length < chunk.length) (rest : l.deliver (as ++ bs) = l'.deliver bs)
      (shows : Shows m l' (scan ph as).1)
      (calls : l'.receiver.invoked = l.receiver.invoked ++ (scan ph as).2)

theorem piece_search (m : Callbacks η) (l : Link η) (hs : Shows m l .search)
    (chunk : List UInt8) : Piece m l .search chunk := by
  obtain ⟨hm, hp, ht⟩ := hs
  cases chunk with
  | nil =>
    have hdel := deliver_short l sofRead hp [] (by simp [ht, AsyncRead.length, sofRead, Buffer.size])
    refine .whole ?_ ?_ <;> rw [hdel]
    · exact ⟨hm, hp, by simpa using ht⟩
    · simp [scan]
  | cons b bs =>
    have hr := Receiver.complete_sofRead l.receiver hp b
    have hdel := deliver_full l sofRead hp (by rw [ht]; exact Nat.zero_lt_one) [b] bs
      (by rw [ht]; rfl) _ (by rw [ht]; exact hr)
    by_cases hb : b = SOF
    · rw [if_pos hb] at hdel
      refine .part _ [b] bs rfl (by simp) hdel ?_ ?_ <;> rw [scan_start b hb]
      · exact ⟨hm, rfl, rfl⟩
      · simp
    · rw [if_neg hb] at hdel
      refine .part _ [b] bs rfl (by simp) hdel ?_ ?_ <;> rw [scan_idle b hb]
      · exact ⟨hm, rfl, rfl⟩
      · simp

theorem piece_header (m : Callbacks η) (l : Link η) (got : List UInt8) (hgot : got.length < 3)
    (hs : Shows m l (.header got hgot)) (chunk : List UInt8) :
    Piece m l (.header got hgot) chunk := by
  obtain ⟨hm, hp, rfl⟩ := hs
  rcases split_at 3 l.transferred chunk hgot with hshort | ⟨as, bs, hc, hfull, hlt⟩
  · refine .whole ?_ ?_ <;>
      rw [deliver_short l headerRead hp chunk hshort, scan_header_short _ chunk hgot hshort]
    · exact ⟨hm, hp, rfl⟩
    · simp
  · have hr := Receiver.complete_headerRead l.receiver hp _ hfull
    have hdel := deliver_full l headerRead hp hgot as bs hfull _ hr
    refine .part _ as bs hc hlt hdel ?_ ?_ <;> rw [scan_header_full _ as hgot hfull]
    · rw [hm]
      cases hsel : m.select (.ofBytes (l.transferred ++ as)) with
      | none =>
        rw [chosen_none (F := wire m) hsel]
        exact ⟨rfl, rfl, rfl⟩
      | some callback =>
        rw [chosen_some (F := wire m) hsel]
        exact ⟨rfl, rfl, rfl, toList_overwrite_full _ _ hfull⟩
    · simp

theorem piece_body (m : Callbacks η) (l : Link η) (callback : Callback η) (head got : List UInt8)
    (hsel : m.select (.ofBytes head) = some callback)
    (hgot : got.length < callback.reqType.size+2)
    (hs : Shows m l (.body callback head got hsel hgot)) (chunk : List UInt8) :
    Piece m l (.body callback head got hsel hgot) chunk := by
  obtain ⟨hm, hp, rfl, rfl⟩ := hs
  obtain ⟨-, hsize, -⟩ := select_header m _ callback hsel
  have hlen := bodyRead_length callback hsize
  rcases split_at (callback.reqType.size+2) l.transferred chunk hgot with
    hshort | ⟨as, bs, hc, hfull, hlt⟩
  · refine .whole ?_ ?_ <;>
      rw [deliver_short l _ hp chunk (hlen ▸ hshort),
        scan_body_short _ _ _ chunk hsel hgot hshort]
    · exact ⟨hm, hp, rfl, rfl⟩
    · simp
  · have hr := Receiver.complete_bodyRead l.receiver callback hp hsize _ hfull
    have hdel := deliver_full l _ hp (hlen ▸ hgot) as bs (hlen ▸ hfull) _ hr
    refine .part _ as bs hc hlt hdel ?_ ?_ <;> rw [scan_body_full _ _ _ as hsel hgot hfull]
    · exact ⟨hm, rfl, rfl⟩
    · simp only [wire, Receiver.header, FrameHeader.bytes_ofBytes _ (Vector.length_toList ..)]

/-- The callbacks over their buffers are the framing of their registrations. -/
theorem deliver_shows (m : Callbacks η) (l : Link η) (ph : (wire m).Phase) (hs : Shows m l ph)
    (chunk : List UInt8) :
    Shows m (l.deliver chunk) (scan ph chunk).1 ∧
      (l.deliver chunk).receiver.invoked = l.receiver.invoked ++ (scan ph chunk).2 := by
  induction hn : chunk.length using Nat.strongRecOn generalizing l ph chunk with
  | ind n ih =>
    have hpiece : Piece m l ph chunk := by
      cases ph with
      | search => exact piece_search m l hs chunk
      | header got hgot => exact piece_header m l got hgot hs chunk
      | body callback head got hsel hgot => exact piece_body m l callback head got hsel hgot hs chunk
    cases hpiece with
    | whole hshows hcalls => exact ⟨hshows, hcalls⟩
    | part l' as bs hc hlt hrest hshows hcalls =>
      obtain ⟨h1, h2⟩ := ih bs.length (hn ▸ hlt) l' _ hshows bs rfl
      rw [hc, hrest, scan_append]
      exact ⟨h1, by rw [h2, hcalls, List.append_assoc]⟩

theorem deliverAll_shows (m : Callbacks η) (l : Link η) (ph : (wire m).Phase) (hs : Shows m l ph)
    (chunks : List (List UInt8)) :
    Shows m (l.deliverAll chunks) (scan ph chunks.flatten).1 ∧
      (l.deliverAll chunks).receiver.invoked =
        l.receiver.invoked ++ (scan ph chunks.flatten).2 := by
  induction chunks generalizing l ph with
  | nil => exact ⟨hs, by simp [Link.deliverAll, scan]⟩
  | cons chunk chunks ih =>
    obtain ⟨h1, h2⟩ := deliver_shows m l ph hs chunk
    obtain ⟨h3, h4⟩ := ih _ _ h1
    rw [List.flatten_cons, scan_append]
    exact ⟨h3, by rw [← List.append_assoc, ← h2]; exact h4⟩

theorem grabbing_shows (regs : List (Callback η)) :
    Shows (Receiver.registered regs).callbacks (grabbing regs) .search :=
  ⟨rfl, grabbing_waiting regs⟩

theorem grabbing_invoked (regs : List (Callback η)) (chunks : List (List UInt8)) :
    ((grabbing regs).deliverAll chunks).receiver.invoked =
      (scan (.search : (wire (Receiver.registered regs).callbacks).Phase) chunks.flatten).2 := by
  have h := (deliverAll_shows _ _ _ (grabbing_shows regs) chunks).2
  have h0 : (grabbing regs).receiver.invoked = [] := started_invoked regs
  rw [h0] at h
  exact h

theorem waiting_shows (m : Callbacks η) (l : Link η) :
    Shows m l .search ↔ l.receiver.callbacks = m ∧ l.Waiting :=
  Iff.rfl

theorem shows_waiting (m : Callbacks η) (l : Link η) (ph : (wire m).Phase) (h : Shows m l ph) :
    l.Waiting ↔ ph = .search := by
  obtain ⟨-, hphase⟩ := h
  cases ph with
  | search => exact ⟨fun _ => rfl, fun _ => hphase⟩
  | header got hs => simp [Link.Waiting, hphase.1, headerRead, sofRead]
  | body callback head got hc hs => simp [Link.Waiting, hphase.1, bodyRead, sofRead]

theorem deliverAll_search (m : Callbacks η) (l : Link η) (hm : l.receiver.callbacks = m)
    (hl : l.Waiting) (chunks : List (List UInt8)) (out : List (Invocation η))
    (h : scan (.search : (wire m).Phase) chunks.flatten = (.search, out)) :
    (l.deliverAll chunks).receiver.callbacks = m ∧ (l.deliverAll chunks).Waiting ∧
      (l.deliverAll chunks).receiver.invoked = l.receiver.invoked ++ out := by
  obtain ⟨h1, h2⟩ := deliverAll_shows m l _ ((waiting_shows m l).mpr ⟨hm, hl⟩) chunks
  rw [h] at h1 h2
  obtain ⟨hm', hw⟩ := (waiting_shows m _).mp h1
  exact ⟨hm', hw, h2⟩

def Known (m : Callbacks η) (callback : Callback η) : Prop :=
  m.find callback.reqType.command = some callback ∧ callback.reqType.size ≤ 255

theorem known_of_find (regs : List (Callback η)) (callback : Callback η)
    (hf : regs.find? (·.reqType.command = callback.reqType.command) = some callback)
    (hs : callback.reqType.size ≤ 255) :
    Known (Receiver.registered regs).callbacks callback :=
  ⟨(registered_find regs _).trans hf, hs⟩

theorem find_of_mem (regs : List (Callback η)) (callback : Callback η)
    (hnd : (regs.map (·.reqType.command)).Nodup) (h : callback ∈ regs) :
    regs.find? (·.reqType.command = callback.reqType.command) = some callback := by
  induction regs with
  | nil => simp at h
  | cons c regs ih =>
    obtain ⟨hc, hrest⟩ := List.nodup_cons.mp hnd
    rcases List.mem_cons.mp h with rfl | hmem
    · simp
    · have hne : c.reqType.command ≠ callback.reqType.command := fun he =>
        hc (List.mem_map.mpr ⟨callback, hmem, he.symm⟩)
      rw [List.find?_cons, decide_eq_false hne]
      exact ih hrest hmem

theorem select_known (m : Callbacks η) (callback : Callback η) (hk : Known m callback) :
    (wire m).select (headerOf callback.reqType).bytes = some callback := by
  have := FrameHeader.ofBytes_bytes (headerOf callback.reqType) []
  rw [List.append_nil] at this
  exact (congrArg m.select this).trans (select_headerOf m callback hk.1 hk.2)

theorem scan_frame (m : Callbacks η) (callback : Callback η) (hk : Known m callback)
    (body : List UInt8) (hl : body.length = callback.reqType.size+2) :
    scan (.search : (wire m).Phase) (SOF::((headerOf callback.reqType).bytes ++ body)) =
      (.search, (judge callback (headerOf callback.reqType).bytes body).toList) := by
  exact scan_token (Token.frame (F := wire m) callback _ body rfl (select_known m callback hk) hl)

/-- Behind the search, the reads of one frame lead to the call of its handler. -/
theorem receive_frame (r : Receiver η) (hp : r.pending = [sofRead])
    (call : Invocation η) (hk : Known r.callbacks call.callback) :
    ∃ c₁ r₁ c₂ r₂ c₃ r₃,
      (r.complete c₁ = some r₁ ∧ r₁.pending = [headerRead] ∧ r₁.invoked = r.invoked) ∧
      (r₁.complete c₂ = some r₂ ∧ r₂.pending = [bodyRead call.callback] ∧
        r₂.invoked = r.invoked) ∧
      r₂.complete c₃ = some r₃ ∧ r₃.pending = [sofRead] ∧ r₃.invoked = r.invoked ++ [call] := by
  obtain ⟨callback, body⟩ := call
  obtain ⟨hfind, hsize⟩ := hk
  obtain ⟨r₁, h₁, hp₁, hcb₁, hi₁⟩ : ∃ r₁, r.complete ⟨false, [SOF]⟩ = some r₁ ∧
      r₁.pending = [headerRead] ∧ r₁.callbacks = r.callbacks ∧ r₁.invoked = r.invoked :=
    ⟨_, Receiver.complete_sofRead r hp SOF, rfl, rfl, rfl⟩
  have hhead : FrameHeader.ofBytes (headerOf callback.reqType).bytes = headerOf callback.reqType :=
    FrameHeader.ofBytes_bytes _ []
  have hsel : r₁.callbacks.select (.ofBytes (headerOf callback.reqType).bytes) = some callback := by
    rw [hhead, hcb₁]
    exact select_headerOf r.callbacks callback hfind hsize
  have hheader := Receiver.complete_headerRead r₁ hp₁ (headerOf callback.reqType).bytes rfl
  rw [hsel] at hheader
  obtain ⟨r₂, h₂, hp₂, hhead₂, hi₂⟩ : ∃ r₂,
      r₁.complete ⟨false, (headerOf callback.reqType).bytes⟩ = some r₂ ∧
        r₂.pending = [bodyRead callback] ∧ r₂.header = headerOf callback.reqType ∧
        r₂.invoked = r.invoked := by
    refine ⟨_, hheader, rfl, ?_, hi₁⟩
    exact (congrArg FrameHeader.ofBytes (toList_overwrite_full _ _ rfl)).trans hhead
  have hbody := Receiver.complete_bodyRead r₂ callback hp₂ hsize
    (body.toList ++ tailBytes (crc16 (checked callback.reqType body))) (by simp [tailBytes])
  rw [hhead₂, judge_frame, hi₂] at hbody
  exact ⟨_, r₁, _, r₂, _, _, ⟨h₁, hp₁, hi₁⟩, ⟨h₂, hp₂, hi₂⟩, hbody, rfl, rfl⟩

def image (call : Invocation η) : List UInt8 :=
  (makeRequest call.callback.reqType call.request).bytes

theorem image_eq (call : Invocation η) : image call =
    SOF::((headerOf call.callback.reqType).bytes ++ (call.request.toList ++
      tailBytes (crc16 (checked call.callback.reqType call.request)))) := by
  rw [image, makeRequest_bytes]
  simp [checked]

theorem image_length (call : Invocation η) :
    (image call).length = call.callback.reqType.size+6 := by
  rw [image, RPCRequest.bytes_length, ReqType.frameSize, FrameHeader.size]
  omega

theorem judge_image (m : Callbacks η) (callback : Callback η) (head body : List UInt8)
    (call : Invocation η) (hl : head.length = 3) (hbody : body.length = callback.reqType.size+2)
    (hsel : m.select (.ofBytes head) = some callback) (h : judge callback head body = some call) :
    image call = SOF::(head ++ body) := by
  have hhead : head = (headerOf callback.reqType).bytes := by
    rw [← (select_header m _ callback hsel).1, FrameHeader.bytes_ofBytes head hl]
  obtain ⟨request, lo, hi, rfl⟩ := split_body callback.reqType body hbody
  rw [hhead, judge_tail] at h
  split at h
  · rename_i htail
    cases h
    rw [image_eq, hhead, htail]
  · cases h

theorem scan_image (m : Callbacks η) (call : Invocation η) (hk : Known m call.callback) :
    scan (.search : (wire m).Phase) (image call) = (.search, [call]) := by
  rw [image_eq, scan_frame m call.callback hk _ (by simp [tailBytes]), judge_frame]
  rfl

theorem scan_images (m : Callbacks η) (calls : List (Invocation η))
    (hk : ∀ call ∈ calls, Known m call.callback) :
    scan (.search : (wire m).Phase) (calls.flatMap image) = (.search, calls) := by
  induction calls with
  | nil => rfl
  | cons call calls ih =>
    rw [List.flatMap_cons, scan_append, scan_image m call (hk call (by simp)),
      ih fun c hc => hk c (by simp [hc])]
    rfl

end BusPlot.SerialStream
