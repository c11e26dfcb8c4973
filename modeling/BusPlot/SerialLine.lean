import BusPlot.SerialDelivery
import BusPlot.Library.Mailbox

/-!
# Requests over the line

The other end of a link. `Request` builds the frame and hands it to
`boost::asio::write`, which writes one part after the other until all of it is
out; a part that cannot be written throws, and the rest is never written. The line
carries bytes in order, and the receiver is given them in pieces of any size while
the sender goes on. Nothing keeps a caller from a further request after one that
threw, but behind half a frame the receiver takes it for something else; the
results are about senders that stop. As a mailbox: a request is put when it is
called and taken when its handler is called, and a failing write loses the one that
is being written.
-/

set_option autoImplicit false

namespace BusPlot.SerialLine
open BusPlot.Protocol BusPlot.SerialReceiver BusPlot.SerialInvariant BusPlot.SerialStream
open BusPlot.SerialDelivery BusPlot.Registrations Framing PartialRun

variable {η : Type*}

/-- `writing` is what `write` has still to write, `travelling` what is written
and not delivered. `requested` records the calls of `Request`. -/
structure Line (η : Type*) where
  requested : List (Invocation η)
  writing : List UInt8
  failed : Bool
  travelling : List UInt8
  link : Link η

def start (regs : List (Callback η)) : Line η := ⟨[], [], false, [], grabbing regs⟩

inductive Event (regs : List (Callback η))
  | request (call : Invocation η) (known : call.callback ∈ regs)
  | writeSome (n : ℕ)
  | writeFails
  | deliver (n : ℕ)

def step {regs : List (Callback η)} (l : Line η) : Event regs → Option (Line η)
  | .request call _ =>
    if l.writing = [] then
      some { l with
        requested := l.requested ++ [call]
        writing := (makeRequest call.callback.reqType call.request).bytes }
    else none
  | .writeSome n =>
    if n ≤ l.writing.length then
      some { l with
        writing := l.writing.drop n
        travelling := l.travelling ++ l.writing.take n }
    else none
  | .writeFails => if l.writing = [] then none else some { l with writing := [], failed := true }
  | .deliver n =>
    if n ≤ l.travelling.length then
      some { l with
        travelling := l.travelling.drop n
        link := l.link.deliver (l.travelling.take n) }
    else none

def Stops {regs : List (Callback η)} (l : Line η) : Event regs → Prop
  | .request _ _ => l.failed = false
  | _ => True

theorem step_failed {regs : List (Callback η)} (l l' : Line η) (e : Event regs)
    (h : step l e = some l') (hf : l'.failed = false) : l.failed = false := by
  cases e with
  | request | writeSome | deliver =>
    simp only [step] at h
    split at h
    · cases h
      exact hf
    · cases h
  | writeFails =>
    simp only [step] at h
    split at h
    · cases h
    · cases h
      cases hf

theorem unfailed_stops {regs : List (Callback η)} (l l' : Line η) (events : List (Event regs))
    (h : run step l events = some l') (hf : l'.failed = false) :
    l.failed = false ∧ Along step Stops l events := by
  induction events generalizing l with
  | nil =>
    cases h
    exact ⟨hf, trivial⟩
  | cons e events ih =>
    obtain ⟨m, hm, hrest⟩ := Option.bind_eq_some_iff.mp h
    obtain ⟨hfm, hstops⟩ := ih m hrest
    have hfl := step_failed l m e hm hfm
    refine ⟨hfl, ?_, fun m' hm' => ?_⟩
    · cases e with
      | request => exact hfl
      | writeSome | writeFails | deliver => trivial
    · obtain rfl : m = m' := Option.some.inj (hm.symm.trans hm')
      exact hstops

def shown {regs : List (Callback η)} (l : Line η) (e : Event regs) (l' : Line η) :
    List (Mailbox.Act (Invocation η)) :=
  match e with
  | .request call _ => [.put call]
  | .writeSome _ => []
  | .writeFails => [.lose]
  | .deliver _ =>
    List.replicate (l'.link.receiver.invoked.length-l.link.receiver.invoked.length) .take

structure Carries (m : Callbacks η) (l : Line η) (delivered lost : List UInt8) : Prop where
  known : ∀ call ∈ l.requested, Known m call.callback
  shows : Shows m l.link (scan (.search : (wire m).Phase) delivered).1
  calls : l.link.receiver.invoked = (scan (.search : (wire m).Phase) delivered).2
  bytes : delivered ++ (l.travelling ++ (l.writing ++ lost)) = l.requested.flatMap image
  current : l.writing ++ lost ≠ [] → ∃ done call out, l.requested = done ++ [call] ∧
    image call = out ++ (l.writing ++ lost)
  sound : l.failed = false → lost = []
  cut : l.failed = true → l.writing = [] ∧ lost ≠ []

theorem start_carries (regs : List (Callback η)) :
    Carries (Receiver.registered regs).callbacks (start regs) [] [] where
  known := by simp [start]
  shows := grabbing_shows regs
  calls := grabbing_invoked regs []
  bytes := rfl
  current h := absurd rfl h
  sound _ := rfl
  cut h := by cases h

theorem image_part (m : Callbacks η) (call : Invocation η) (hk : Known m call.callback)
    (out rest : List UInt8) (hrest : rest ≠ []) (h : image call = out ++ rest) :
    (scan (.search : (wire m).Phase) out).2 = [] := by
  rw [image_eq] at h
  exact scan_frame_part (F := wire m) call.callback _ _ out rest rfl (select_known m _ hk)
    (by simp [wire, Crc.tailBytes]) hrest h

/-- While something is missing from the last request, what has gone out leads to
the calls of those before it. -/
theorem unfinished_calls (m : Callbacks η) (l : Line η) (delivered lost : List UInt8)
    (hl : Carries m l delivered lost) (hw : l.writing ++ lost ≠ []) :
    ∃ done call, l.requested = done ++ [call] ∧
      (scan (.search : (wire m).Phase) (delivered ++ l.travelling)).2 = done := by
  obtain ⟨done, call, out, hreq, himage⟩ := hl.current hw
  have hk : ∀ c ∈ done, Known m c.callback := fun c hc => hl.known c (by simp [hreq, hc])
  have hbytes : delivered ++ l.travelling = done.flatMap image ++ out := by
    apply (List.append_left_inj (l.writing ++ lost)).mp
    rw [List.append_assoc, hl.bytes, hreq, List.flatMap_append, List.flatMap_singleton, himage,
      List.append_assoc]
  refine ⟨done, call, hreq, ?_⟩
  rw [hbytes, scan_append, scan_images m done hk,
    image_part m call (hl.known call (by simp [hreq])) out _ hw himage, List.append_nil]

def Line.promised (l : Line η) : List (Invocation η) :=
  if l.failed then l.requested.dropLast else l.requested

/-- What is delivered next calls handlers of promised requests, in their order. -/
theorem delivered_calls (m : Callbacks η) (l : Line η) (delivered lost as bs : List UInt8)
    (hl : Carries m l delivered lost) (h : l.travelling = as ++ bs) :
    ∃ rest, l.promised = (scan (.search : (wire m).Phase) (delivered ++ as)).2 ++ rest := by
  cases hf : l.failed with
  | true =>
    obtain ⟨hw, hlost⟩ := hl.cut hf
    obtain ⟨done, call, hreq, hdone⟩ := unfinished_calls m l delivered lost hl (by simp [hlost])
    rw [h, ← List.append_assoc, scan_append] at hdone
    exact ⟨_, by rw [Line.promised, hf, if_pos rfl, hreq, List.dropLast_concat]; exact hdone.symm⟩
  | false =>
    have hall := scan_images m l.requested hl.known
    rw [← hl.bytes, h, List.append_assoc, ← List.append_assoc, scan_append, Prod.mk.injEq] at hall
    exact ⟨_, by rw [Line.promised, hf]; exact hall.2.symm⟩

structure Refines (m : Callbacks η) (l : Line η) (q : Mailbox (Invocation η)) : Prop where
  carried : ∃ delivered lost, Carries m l delivered lost
  taken : q.taken = l.link.receiver.invoked
  promised : l.promised = q.taken ++ q.waiting
  requested : l.requested = l.promised ++ q.lost
  closed : q.closed = l.failed

theorem start_refines (regs : List (Callback η)) :
    Refines (Receiver.registered regs).callbacks (start regs) .empty where
  carried := ⟨[], [], start_carries regs⟩
  taken := (started_invoked regs).symm
  promised := rfl
  requested := rfl
  closed := rfl

theorem request_refines (regs : List (Callback η)) (hnd : (regs.map (·.reqType.command)).Nodup)
    (hsize : ∀ callback ∈ regs, callback.reqType.size ≤ 255) (l l' : Line η)
    (q : Mailbox (Invocation η)) (hl : Refines (Receiver.registered regs).callbacks l q)
    (call : Invocation η) (known : call.callback ∈ regs) (hf : l.failed = false)
    (h : step l (.request call known : Event regs) = some l') :
    ∃ q', run Mailbox.step q (shown l (.request call known : Event regs) l') = some q' ∧
      Refines (Receiver.registered regs).callbacks l' q' := by
  obtain ⟨⟨delivered, lost, hc⟩, htaken, hpromised, hreq, hclosed⟩ := hl
  simp only [step] at h
  split at h
  · rename_i hw
    cases h
    have hk : Known (Receiver.registered regs).callbacks call.callback :=
      known_of_find regs _ (find_of_mem regs _ hnd known) (hsize _ known)
    obtain rfl := hc.sound hf
    rw [hf] at hclosed
    rw [Line.promised, hf] at hpromised hreq
    have hnone : q.lost = [] := List.append_right_eq_self.mp hreq.symm
    refine ⟨{ q with waiting := q.waiting ++ [call] }, by simp [shown, run, Mailbox.step, hclosed],
      ⟨delivered, [], ?_, hc.shows, hc.calls, ?_, ?_, fun _ => rfl, ?_⟩, htaken, ?_, ?_,
      hclosed.trans hf.symm⟩
    · intro c hcm
      rcases List.mem_append.mp hcm with hcm | hcm
      · exact hc.known c hcm
      · rw [List.mem_singleton.mp hcm]
        exact hk
    · have hbytes := hc.bytes
      rw [hw, List.append_nil, List.append_nil] at hbytes
      rw [List.flatMap_append, List.flatMap_singleton, ← hbytes]
      simp [image]
    · intro _
      exact ⟨l.requested, call, [], rfl, (List.append_nil _).symm⟩
    · intro hf'
      rw [hf] at hf'
      cases hf'
    · rw [Line.promised, hf, ← List.append_assoc, ← hpromised]
      rfl
    · simp [Line.promised, hf, hnone]
  · cases h

theorem writeSome_refines {regs : List (Callback η)} (m : Callbacks η) (l l' : Line η)
    (q : Mailbox (Invocation η)) (hl : Refines m l q) (n : ℕ)
    (h : step l (.writeSome n : Event regs) = some l') :
    ∃ q', run Mailbox.step q (shown l (.writeSome n : Event regs) l') = some q' ∧
      Refines m l' q' := by
  obtain ⟨⟨delivered, lost, hc⟩, htaken, hpromised, hreq, hclosed⟩ := hl
  simp only [step] at h
  split at h
  · cases h
    have hsplit : l.writing.take n ++ (l.writing.drop n ++ lost) = l.writing ++ lost := by
      rw [← List.append_assoc, List.take_append_drop]
    refine ⟨q, rfl, ⟨delivered, lost, hc.known, hc.shows, hc.calls, ?_, ?_, hc.sound, ?_⟩, htaken,
      hpromised, hreq, hclosed⟩
    · rw [List.append_assoc, hsplit]
      exact hc.bytes
    · intro hw
      have hw' : l.writing ++ lost ≠ [] := by
        rw [← hsplit]
        exact List.append_ne_nil_of_right_ne_nil _ hw
      obtain ⟨done, call, out, hdone, himage⟩ := hc.current hw'
      exact ⟨done, call, out ++ l.writing.take n, hdone, by rw [himage, List.append_assoc, hsplit]⟩
    · intro hf
      obtain ⟨hw, hlost⟩ := hc.cut hf
      exact ⟨by simp [hw], hlost⟩
  · cases h

theorem writeFails_refines {regs : List (Callback η)} (m : Callbacks η) (l l' : Line η)
    (q : Mailbox (Invocation η)) (hl : Refines m l q)
    (h : step l (.writeFails : Event regs) = some l') :
    ∃ q', run Mailbox.step q (shown l (.writeFails : Event regs) l') = some q' ∧
      Refines m l' q' := by
  obtain ⟨⟨delivered, lost, hc⟩, htaken, hpromised, hreq, hclosed⟩ := hl
  simp only [step] at h
  split at h
  · cases h
  · rename_i hw
    cases h
    have hf : l.failed = false := by
      by_contra hf
      exact hw (hc.cut (by simpa using hf)).1
    obtain rfl := hc.sound hf
    have hw' : l.writing ++ [] ≠ [] := by simpa using hw
    obtain ⟨done, call, hdone, hscan⟩ := unfinished_calls m l delivered [] hc hw'
    rw [hf] at hclosed
    rw [Line.promised, hf] at hpromised
    have hsplit : ∃ rest, done = q.taken ++ rest := by
      rw [scan_append, ← hc.calls, ← htaken] at hscan
      exact ⟨_, hscan.symm⟩
    obtain ⟨rest, hrest⟩ := hsplit
    have hwaiting : q.waiting = rest ++ [call] := by
      have heq : l.requested = q.taken ++ q.waiting := hpromised
      rw [hdone, hrest, List.append_assoc] at heq
      exact (List.append_cancel_left heq).symm
    refine ⟨⟨q.taken, rest, [call], true⟩, by simp [shown, run, Mailbox.step, hclosed, hwaiting],
      ⟨delivered, l.writing, hc.known, hc.shows, hc.calls, ?_, ?_, by simp, fun _ => ⟨rfl, hw⟩⟩,
      htaken, ?_, ?_, rfl⟩
    · simpa using hc.bytes
    · intro _
      simpa using hc.current hw'
    · simp [Line.promised, hdone, hrest]
    · simp [Line.promised, hdone]

theorem deliver_refines {regs : List (Callback η)} (m : Callbacks η) (l l' : Line η)
    (q : Mailbox (Invocation η)) (hl : Refines m l q) (n : ℕ)
    (h : step l (.deliver n : Event regs) = some l') :
    ∃ q', run Mailbox.step q (shown l (.deliver n : Event regs) l') = some q' ∧
      Refines m l' q' := by
  obtain ⟨⟨delivered, lost, hc⟩, htaken, hpromised, hreq, hclosed⟩ := hl
  simp only [step] at h
  split at h
  · cases h
    have hsplit : l.travelling = l.travelling.take n ++ l.travelling.drop n :=
      (List.take_append_drop n _).symm
    obtain ⟨hshows, hcalls⟩ := deliver_shows m l.link _ hc.shows (l.travelling.take n)
    obtain ⟨rest, hrest⟩ := delivered_calls m l delivered lost _ _ hc hsplit
    have hscan := scan_append (.search : (wire m).Phase) delivered (l.travelling.take n)
    rw [hscan, ← hc.calls, ← htaken, List.append_assoc, hpromised] at hrest
    have hwaiting := List.append_cancel_left hrest
    have htakes : shown l (.deliver n : Event regs) { l with
        travelling := l.travelling.drop n
        link := l.link.deliver (l.travelling.take n) } =
          List.replicate (scan (scan (.search : (wire m).Phase) delivered).1
            (l.travelling.take n)).2.length .take := by
      simp only [shown, hcalls, List.length_append, Nat.add_sub_cancel_left]
    have hrun := Mailbox.run_takes q _ rest hwaiting
    rw [← htakes] at hrun
    refine ⟨_, hrun, ⟨delivered ++ l.travelling.take n, lost, hc.known, ?_, ?_, ?_, hc.current,
      hc.sound, hc.cut⟩, ?_, ?_, hreq, hclosed⟩
    · rw [hscan]
      exact hshows
    · rw [hscan, hcalls, ← hc.calls]
    · rw [← hc.bytes, List.append_assoc, ← List.append_assoc (l.travelling.take n),
        List.take_append_drop]
    · rw [hcalls, ← htaken]
    · rw [List.append_assoc, ← hwaiting, ← hpromised]
      rfl
  · cases h

theorem step_refines (regs : List (Callback η)) (hnd : (regs.map (·.reqType.command)).Nodup)
    (hsize : ∀ callback ∈ regs, callback.reqType.size ≤ 255) (l : Line η) (e : Event regs)
    (l' : Line η) (q : Mailbox (Invocation η))
    (hl : Refines (Receiver.registered regs).callbacks l q) (hstops : Stops l e)
    (h : step l e = some l') :
    ∃ q', run Mailbox.step q (shown l e l') = some q' ∧
      Refines (Receiver.registered regs).callbacks l' q' := by
  cases e with
  | request call known => exact request_refines regs hnd hsize l l' q hl call known hstops h
  | writeSome n => exact writeSome_refines _ l l' q hl n h
  | writeFails => exact writeFails_refines _ l l' q hl h
  | deliver n => exact deliver_refines _ l l' q hl n h

theorem run_refines (regs : List (Callback η)) (hnd : (regs.map (·.reqType.command)).Nodup)
    (hsize : ∀ callback ∈ regs, callback.reqType.size ≤ 255) (events : List (Event regs))
    (l : Line η) (h : run step (start regs) events = some l)
    (hstops : Along step Stops (start regs) events) :
    ∃ q, run Mailbox.step .empty (trace step shown (start regs) events) = some q ∧
      Refines (Receiver.registered regs).callbacks l q :=
  run_traced step Mailbox.step shown _ Stops
    (fun m e m' q hm hc hstep => step_refines regs hnd hsize m e m' q hm hc hstep) _ l _
    (start_refines regs) events hstops h

/-- With nothing on the way the receiver has called every promised request. -/
theorem idle_calls (m : Callbacks η) (l : Line η) (delivered lost : List UInt8)
    (hl : Carries m l delivered lost) (hw : l.writing = []) (ht : l.travelling = []) :
    l.link.receiver.invoked = l.promised ∧ (l.failed = false → l.link.Waiting) := by
  cases hf : l.failed with
  | true =>
    obtain ⟨done, call, hreq, hdone⟩ :=
      unfinished_calls m l delivered lost hl (by simp [(hl.cut hf).2])
    rw [ht, List.append_nil, ← hl.calls] at hdone
    exact ⟨by simp [Line.promised, hf, hreq, hdone], by simp⟩
  | false =>
    have hbytes := hl.bytes
    rw [hw, ht, hl.sound hf, List.append_nil, List.append_nil, List.append_nil] at hbytes
    have hall := scan_images m l.requested hl.known
    rw [← hbytes] at hall
    have hshows := hl.shows
    rw [hall] at hshows
    refine ⟨?_, fun _ => ((waiting_shows m l.link).mp hshows).2⟩
    rw [hl.calls, hall, Line.promised, hf]
    rfl

/-- Over every interleaving of requests, partial writes, a failing write after which
the sender stops, and deliveries of any size, the two ends are a mailbox: handlers are called in the
order of the requests and each of them once, none is called for a request that
was not made, only the request whose write fails is lost, and when nothing is on
the way nothing waits. -/
theorem line_is_mailbox (regs : List (Callback η)) (hnd : (regs.map (·.reqType.command)).Nodup)
    (hsize : ∀ callback ∈ regs, callback.reqType.size ≤ 255) (events : List (Event regs))
    (l : Line η) (h : run step (start regs) events = some l)
    (hstops : Along step Stops (start regs) events) :
    ∃ q, run Mailbox.step .empty (trace step shown (start regs) events) = some q ∧
      q.taken = l.link.receiver.invoked ∧
      l.requested = q.taken ++ (q.waiting ++ q.lost) ∧
      q.lost.length ≤ 1 ∧ (l.failed = false → q.lost = []) ∧
      (l.writing = [] → l.travelling = [] →
        q.waiting = [] ∧ (l.failed = false → l.link.Waiting)) := by
  obtain ⟨q, hq, ⟨delivered, lost, hc⟩, htaken, hpromised, hreq, hclosed⟩ :=
    run_refines regs hnd hsize events l h hstops
  have hkept := Mailbox.run_kept _ q hq
  refine ⟨q, hq, htaken, ?_, hkept.one, fun hf => hkept.whole (hclosed.trans hf), fun hw ht => ?_⟩
  · rw [hreq, hpromised, List.append_assoc]
  · obtain ⟨hcalls, hwaiting⟩ := idle_calls _ l delivered lost hc hw ht
    rw [← hcalls, ← htaken] at hpromised
    exact ⟨List.append_right_eq_self.mp hpromised.symm, hwaiting⟩

def begunRequest : List (Event mainCallbacks) :=
  [.request removeSeven (by simp [removeSeven, mainCallbacks]), .writeSome 3, .deliver 3]

def begunLine : Line Handler :=
  ⟨[removeSeven], (image removeSeven).drop 3, false, [],
    (grabbing mainCallbacks).deliver ((image removeSeven).take 3)⟩

theorem begunRequest_runs : run step (start mainCallbacks) begunRequest = some begunLine := by
  have hlen : (makeRequest removeSeven.callback.reqType removeSeven.request).bytes.length = 8 :=
    image_length removeSeven
  simp [begunRequest, begunLine, run, step, start, hlen, image, List.take_of_length_le]

theorem line_is_mailbox_cut :
    ∃ q : Mailbox (Invocation Handler),
      run Mailbox.step .empty
        (trace step shown (start mainCallbacks) (begunRequest ++ [.writeFails])) = some q ∧
      q.taken = begunLine.link.receiver.invoked ∧
      [removeSeven] = q.taken ++ (q.waiting ++ q.lost) := by
  have hw : begunLine.writing ≠ [] := by
    rw [begunLine, ne_eq, List.drop_eq_nil_iff, image_length]
    decide
  have hcut : run step (start mainCallbacks) (begunRequest ++ [.writeFails]) =
      some { begunLine with writing := [], failed := true } := by
    rw [run_snoc, begunRequest_runs]
    simp [step, hw]
  obtain ⟨q, hq, htaken, hreq, -, -, -⟩ :=
    line_is_mailbox mainCallbacks mainCallbacks_nodup mainCallbacks_size _ _ hcut
      ⟨rfl, fun _ _ => along_of_forall _ _ _ _ (by simp [Stops])⟩
  exact ⟨q, hq, htaken, hreq⟩

def whole : ℕ → List (Invocation η) → List (Invocation η)
  | _, [] => []
  | n, call::calls =>
    if (image call).length ≤ n then call::whole (n-(image call).length) calls else []

theorem scan_begun (m : Callbacks η) (calls : List (Invocation η))
    (hk : ∀ call ∈ calls, Known m call.callback) (begun rest : List UInt8)
    (h : begun ++ rest = calls.flatMap image) :
    (scan (.search : (wire m).Phase) begun).2 = whole begun.length calls := by
  induction calls generalizing begun with
  | nil =>
    obtain ⟨rfl, -⟩ := List.append_eq_nil_iff.mp h
    rfl
  | cons call calls ih =>
    have hcall := hk call (by simp)
    rw [List.flatMap_cons] at h
    have hbegun : begun <+: image call ++ calls.flatMap image := ⟨rest, h⟩
    by_cases hle : (image call).length ≤ begun.length
    · obtain ⟨more, rfl⟩ := List.prefix_of_prefix_length_le (List.prefix_append _ _) hbegun hle
      rw [List.append_assoc] at h
      have hmore := ih (fun c hc => hk c (by simp [hc])) more (List.append_cancel_left h)
      rw [scan_append, scan_image m call hcall, hmore, whole, if_pos hle, List.length_append,
        Nat.add_sub_cancel_left]
      rfl
    · obtain ⟨out, himage⟩ :=
        List.prefix_of_prefix_length_le hbegun (List.prefix_append _ _) (by omega)
      have hout : out ≠ [] := by
        rintro rfl
        rw [List.append_nil] at himage
        exact hle (himage ▸ le_refl _)
      rw [image_part m call hcall begun out hout himage.symm, whole, if_neg hle]

/-- As long as no write has failed, a handler is called with the delivery of the
last byte of its request and not before; and in whatever state the two ends are,
writing out and delivering what there is completes all requests. -/
theorem line_timely (regs : List (Callback η)) (hnd : (regs.map (·.reqType.command)).Nodup)
    (hsize : ∀ callback ∈ regs, callback.reqType.size ≤ 255) (events : List (Event regs))
    (l : Line η) (h : run step (start regs) events = some l) (hf : l.failed = false) :
    l.link.receiver.invoked =
        whole ((l.requested.flatMap image).length-(l.travelling.length+l.writing.length))
          l.requested ∧
      ∃ l', run step l
          [(.writeSome l.writing.length : Event regs),
            .deliver (l.travelling.length+l.writing.length)] = some l' ∧
        l'.link.receiver.invoked = l.requested ∧ l'.link.Waiting := by
  obtain ⟨q, -, ⟨delivered, lost, hc⟩, -, -, -, -⟩ :=
    run_refines regs hnd hsize events l h (unfailed_stops _ l events h hf).2
  obtain rfl := hc.sound hf
  constructor
  · have hbytes := hc.bytes
    rw [List.append_nil] at hbytes
    rw [hc.calls, scan_begun _ _ hc.known delivered _ hbytes, ← hbytes]
    congr 1
    simp only [List.length_append]
    omega
  · let l₁ : Line η := { l with writing := [], travelling := l.travelling ++ l.writing }
    let l₂ : Line η := { l₁ with travelling := [], link := l.link.deliver (l.travelling ++ l.writing) }
    have h₁ : step l (.writeSome l.writing.length : Event regs) = some l₁ := by
      simp [step, l₁]
    have htake : (l.travelling ++ l.writing).take (l.travelling.length+l.writing.length) =
        l.travelling ++ l.writing := List.take_of_length_le (by simp)
    have h₂ : step l₁ (.deliver (l.travelling.length+l.writing.length) : Event regs) = some l₂ := by
      simp [step, l₁, l₂, htake]
    have hrest : run step l [(.writeSome l.writing.length : Event regs),
        .deliver (l.travelling.length+l.writing.length)] = some l₂ := by
      simp [run, h₁, h₂]
    have hall := run_append step (start regs) events
      [.writeSome l.writing.length, .deliver (l.travelling.length+l.writing.length)]
    rw [h, Option.bind_some, hrest] at hall
    obtain ⟨q₂, -, ⟨delivered₂, lost₂, hc₂⟩, -, -, -, -⟩ :=
      run_refines regs hnd hsize _ l₂ hall (unfailed_stops _ l₂ _ hall hf).2
    obtain ⟨hcalls, hwaiting⟩ := idle_calls _ l₂ delivered₂ lost₂ hc₂ rfl rfl
    refine ⟨l₂, hrest, hcalls.trans ?_, hwaiting hf⟩
    simp [Line.promised, l₂, l₁, hf]

theorem line_timely_begun :
    ∃ l', run step begunLine [(.writeSome begunLine.writing.length : Event mainCallbacks),
        .deliver (begunLine.travelling.length+begunLine.writing.length)] = some l' ∧
      l'.link.receiver.invoked = [removeSeven] ∧ l'.link.Waiting :=
  (line_timely mainCallbacks mainCallbacks_nodup mainCallbacks_size _ _ begunRequest_runs rfl).2

end BusPlot.SerialLine
