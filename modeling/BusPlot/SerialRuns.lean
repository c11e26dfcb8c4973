import BusPlot.Registrations
import BusPlot.SerialInvariant

/-!
# Runs of the receiver

Results about every sequence of read completions after `StartGrabbing`: how many
reads are armed and over which bytes, where dispatched requests come from, and
that leftovers in the buffers are never looked at.
-/

set_option autoImplicit false

namespace BusPlot.SerialRuns
open BusPlot.Crc BusPlot.Protocol BusPlot.SerialReceiver BusPlot.SerialReceiver.Receiver
open BusPlot.SerialInvariant BusPlot.Registrations

variable {η : Type*}

theorem run_armed (s r : Receiver η) (cs : List Completion) (hs : Armed s)
    (h : s.run cs = some r) : r.callbacks = s.callbacks ∧ Armed r := by
  refine PartialRun.run_invariant complete (fun m => m.callbacks = s.callbacks ∧ Armed m) s
    ⟨rfl, hs⟩ ?_ cs r h
  intro m c m' ⟨hcb, hm⟩ hc
  obtain ⟨hsame, harmed, -⟩ := complete_move m m' c hm hc
  exact ⟨hsame.trans hcb, harmed⟩

theorem started_armed (regs : List (Callback η)) : Armed (started regs) :=
  .sof (started_pending regs)

def SofFailed (s : Receiver η) (cs : List Completion) : Prop :=
  ∃ pre c post m op, cs = pre ++ c::post ∧ s.run pre = some m ∧ m.pending.head? = some op ∧
    op.handler = .readSOFHandler ∧ c.err = true

theorem sofFailed_snoc (s m : Receiver η) (cs : List Completion) (c : Completion)
    (hm : s.run cs = some m) : SofFailed s (cs ++ [c]) ↔ SofFailed s cs ∨
      ∃ op, m.pending.head? = some op ∧ op.handler = .readSOFHandler ∧ c.err = true := by
  constructor
  · rintro ⟨pre, d, post, n, op, hcs, hn, hop, hh, he⟩
    rcases (PartialRun.split_snoc _ _ _ _ _).mp hcs with ⟨-, rfl, rfl⟩ | ⟨post', -, hcs'⟩
    · obtain rfl : m = n := by simpa [hm] using hn
      exact .inr ⟨op, hop, hh, he⟩
    · exact .inl ⟨pre, d, post', n, op, hcs', hn, hop, hh, he⟩
  · rintro (⟨pre, d, post, n, op, rfl, hn, hop, hh, he⟩ | ⟨op, hop, hh, he⟩)
    · exact ⟨pre, d, post ++ [c], n, op, by simp, hn, hop, hh, he⟩
    · exact ⟨cs, c, [], m, op, rfl, hm, hop, hh, he⟩

theorem one_read (s r : Receiver η) (cs : List Completion) (hs : s.pending = [sofRead])
    (h : s.run cs = some r) :
    (¬ SofFailed s cs → r.pending.length = 1) ∧ (SofFailed s cs → r.pending = []) := by
  have hist := PartialRun.run_history complete
    (fun cs m => s.run cs = some m ∧ Armed m ∧ (¬ SofFailed s cs → m.pending.length = 1) ∧
      (SofFailed s cs → m.pending = [])) s ?_ ?_ cs r h
  · exact hist.2.2
  · refine ⟨rfl, .sof hs, fun _ => by rw [hs]; rfl, ?_⟩
    rintro ⟨pre, c, post, -, -, hcs, -⟩
    simp at hcs
  · intro cs m c m' ⟨hm, harmed, hlive, hdead⟩ hc
    obtain ⟨-, harmed', hmove⟩ := complete_move m m' c harmed hc
    have hrun : s.run (cs ++ [c]) = some m' := by
      rw [run, PartialRun.run_snoc]
      exact Option.bind_eq_some_iff.mpr ⟨m, hm, hc⟩
    have hno : ¬ SofFailed s cs := fun hf => by simp [complete_dead m (hdead hf)] at hc
    refine ⟨hrun, harmed', ?_, ?_⟩ <;> rw [sofFailed_snoc s m cs c hm]
    · intro hn
      cases hmove with
      | portLost before failed =>
        exact absurd (.inr ⟨sofRead, by simp [before], rfl, failed⟩) hn
      | _ => simp [*]
    · rintro (hf | ⟨op, hop, hh, he⟩)
      · exact absurd hf hno
      · cases hmove with
        | portLost _ _ after => exact after
        | skipped _ ok => simp [ok] at he
        | found _ ok => simp [ok] at he
        | headerDropped before => simp [before, headerRead] at hop; simp [← hop] at hh
        | chosen _ before => simp [before, headerRead] at hop; simp [← hop] at hh
        | bodyDropped _ before => simp [before, bodyRead] at hop; simp [← hop] at hh
        | accepted _ _ before => simp [before, bodyRead] at hop; simp [← hop] at hh

theorem failed_next (m m' : Receiver η) (c : Completion) (hm : Armed m) (he : c.err = true)
    (hc : m.complete c = some m') :
    Armed m' ∧ (m'.pending = [] ∨ m'.pending = [sofRead] ∧ m.pending ≠ [sofRead]) := by
  obtain ⟨-, harmed, hmove⟩ := complete_move m m' c hm hc
  refine ⟨harmed, ?_⟩
  cases hmove with
  | portLost _ _ after => exact .inl after
  | skipped _ ok => simp [ok] at he
  | found _ ok => simp [ok] at he
  | headerDropped before after => exact .inr ⟨after, by simp [before, headerRead, sofRead]⟩
  | chosen _ _ ok => simp [ok] at he
  | bodyDropped _ before after => exact .inr ⟨after, by simp [before, bodyRead, sofRead]⟩
  | accepted _ _ _ ok => simp [ok] at he

theorem failures_bounded (s r : Receiver η) (hs : Armed s) (pre post : List Completion)
    (a b c : Completion) (h : s.run (pre ++ a::b::c::post) = some r) :
    ¬ (a.err = true ∧ b.err = true ∧ c.err = true) := by
  rintro ⟨ha, hb, -⟩
  obtain ⟨m, hm, h⟩ := PartialRun.run_split complete s r pre _ h
  simp only [PartialRun.run, Option.bind_eq_some_iff] at h
  obtain ⟨m1, h1, m2, h2, m3, h3, -⟩ := h
  obtain ⟨harmed1, hnext1⟩ := failed_next m m1 a (run_armed s m pre hs hm).2 ha h1
  obtain ⟨-, hnext2⟩ := failed_next m1 m2 b harmed1 hb h2
  rcases hnext1 with hd | ⟨hs1, -⟩
  · simp [complete_dead m1 hd] at h2
  rcases hnext2 with hd | ⟨-, hne⟩
  · simp [complete_dead m2 hd] at h3
  · exact hne hs1

/-- Between completions one read is armed until a search for a start byte
fails, and none afterwards; a body read stands for a registered type whose size
the header gives, within both buffers; three failures never follow each other. -/
theorem receive_invariant (regs : List (Callback η)) (cs : List Completion) (r : Receiver η)
    (h : (started regs).run cs = some r) :
    ((¬ SofFailed (started regs) cs → r.pending.length = 1) ∧
      (SofFailed (started regs) cs → r.pending = [])) ∧
    (∀ op ∈ r.pending, ∀ callback, op.handler = .readBodyHandler callback →
      callback ∈ regs ∧ r.callbacks.find r.header.command = some callback ∧
      r.header.command = callback.reqType.command ∧
      r.header.dataLength.toNat = callback.reqType.size ∧
      op.buffer = .bodyBuffer ∧ op.transferExactly = callback.reqType.size+2 ∧
      callback.reqType.size+2 ≤ 257 ∧ 257 ≤ maxBodySize ∧
      copied callback ≤ maxBodySize ∧
      1+FrameHeader.size+copied callback ≤ callback.reqType.frameSize) ∧
    (∀ pre a b c post, cs = pre ++ a::b::c::post →
      ¬ (a.err = true ∧ b.err = true ∧ c.err = true)) := by
  refine ⟨one_read _ r cs (started_pending regs) h, ?_, ?_⟩
  · obtain ⟨hcb, harmed⟩ := run_armed _ r cs (started_armed regs) h
    intro op hop callback hh
    cases harmed with
    | dead hp => simp [hp] at hop
    | sof hp => simp [hp] at hop; simp [hop, sofRead] at hh
    | header hp => simp [hp] at hop; simp [hop, headerRead] at hh
    | body callback' hp hsel =>
      obtain rfl : op = bodyRead callback' := by simpa [hp] using hop
      obtain rfl : callback' = callback := by simpa [bodyRead] using hh
      obtain ⟨hfind, hlen⟩ := (select_iff _ _ _).mp hsel
      obtain ⟨hhead, hsize, -⟩ := select_header _ _ _ hsel
      have hmem : callback' ∈ regs := by
        rw [hcb, started_callbacks, registered_find] at hfind
        exact List.mem_of_find?_eq_some hfind
      refine ⟨hmem, hfind, by rw [hhead]; rfl, hlen, rfl, rfl, by omega, by decide, ?_, ?_⟩ <;>
        simp only [copied, ReqType.frameSize, FrameHeader.size, maxBodySize] <;> omega
  · rintro pre a b c post rfl
    exact failures_bounded _ r (started_armed regs) pre post a b c h

def sampleCompletions : List Completion :=
  [⟨false, [0x00]⟩, ⟨false, [0xA5]⟩, ⟨false, [0x02, 0x30, 0x00]⟩,
    ⟨false, [0x07, 0x00, 0x47, 0x8B]⟩, ⟨false, [0xA5]⟩, ⟨true, [0x02]⟩, ⟨true, []⟩]

theorem sampleCompletions_run :
    ((started mainCallbacks).run sampleCompletions).isSome = true := by
  decide +kernel

theorem receive_invariant_sample :
    ∃ r, (started mainCallbacks).run sampleCompletions = some r ∧
      (¬ SofFailed (started mainCallbacks) sampleCompletions → r.pending.length = 1) ∧
      (SofFailed (started mainCallbacks) sampleCompletions → r.pending = []) := by
  obtain ⟨r, hr⟩ := Option.isSome_iff_exists.mp sampleCompletions_run
  exact ⟨r, hr, (receive_invariant mainCallbacks sampleCompletions r hr).1⟩

inductive Stretch (regs : List (Callback η))
  | other (completions : List Completion)
  | frame (completions : List Completion) (call : Invocation η)
      (succeeded : ∀ c ∈ completions, c.err = false)
      (image : completions.flatMap Completion.bytes =
        (makeRequest call.callback.reqType call.request).bytes)
      (first : regs.find? (·.reqType.command = call.callback.reqType.command) =
        some call.callback)

def Stretch.completions {regs : List (Callback η)} : Stretch regs → List Completion
  | .other completions => completions
  | .frame completions _ _ _ _ => completions

def Stretch.call {regs : List (Callback η)} : Stretch regs → Option (Invocation η)
  | .other _ => none
  | .frame _ call _ _ _ => some call

def Open (r : Receiver η) (tail : List Completion) : Prop :=
  (r.pending = [headerRead] → (∀ c ∈ tail, c.err = false) ∧
    tail.flatMap Completion.bytes = [SOF]) ∧
  (∀ callback, r.pending = [bodyRead callback] → (∀ c ∈ tail, c.err = false) ∧
    tail.flatMap Completion.bytes = SOF::(headerOf callback.reqType).bytes)

theorem open_search (r : Receiver η) (tail : List Completion) (h : r.pending = [sofRead]) :
    Open r tail :=
  ⟨fun hh => by simp [h, headerRead, sofRead] at hh,
    fun _ hb => by simp [h, bodyRead, sofRead] at hb⟩

def Accounted (regs : List (Callback η)) (cs : List Completion) (r : Receiver η) : Prop :=
  ∃ (stretches : List (Stretch regs)) (tail : List Completion),
    cs = stretches.flatMap Stretch.completions ++ tail ∧
      r.invoked = stretches.filterMap Stretch.call ∧ Open r tail

theorem accounted_step (regs : List (Callback η)) (cs : List Completion) (m m' : Receiver η)
    (c : Completion) (hcb : m.callbacks = (registered regs).callbacks) (hm : Armed m)
    (ha : Accounted regs cs m) (hc : m.complete c = some m') : Accounted regs (cs ++ [c]) m' := by
  obtain ⟨stretches, tail, hcs, hinv, hheader, hbody⟩ := ha
  obtain ⟨-, -, hmove⟩ := complete_move m m' c hm hc
  have lengthen : m'.invoked = m.invoked → Open m' (tail ++ [c]) →
      Accounted regs (cs ++ [c]) m' := fun hq ho =>
    ⟨stretches, tail ++ [c], by simp [hcs], hq.trans hinv, ho⟩
  cases hmove with
  | portLost _ _ after quiet =>
    exact lengthen quiet ⟨fun h => by simp [after] at h, fun _ h => by simp [after] at h⟩
  | skipped _ _ after quiet => exact lengthen quiet (open_search m' _ after)
  | found _ ok sof after quiet =>
    refine ⟨stretches ++ [.other tail], [c], by simp [hcs, Stretch.completions],
      by simp [quiet, hinv, Stretch.call], fun _ => ?_, fun _ h => ?_⟩
    · simp [ok, sof]
    · simp [after, headerRead, bodyRead] at h
  | headerDropped _ after quiet => exact lengthen quiet (open_search m' _ after)
  | chosen callback before ok head after _ quiet =>
    obtain ⟨hok, hbytes⟩ := hheader before
    refine lengthen quiet ⟨fun h => by simp [after, headerRead, bodyRead] at h, fun callback' h => ?_⟩
    obtain rfl : callback = callback' := by simpa [after, bodyRead_inj] using h
    exact ⟨by simpa [or_imp, forall_and, ok] using hok, by simp [hbytes, head]⟩
  | bodyDropped _ _ after quiet => exact lengthen quiet (open_search m' _ after)
  | accepted callback body before ok bytes after call =>
    obtain ⟨hok, hbytes⟩ := hbody callback before
    have hfirst : regs.find? (·.reqType.command = callback.reqType.command) = some callback := by
      rw [← registered_find, ← hcb]
      cases hm with
      | body callback' hp hsel =>
        obtain rfl : callback' = callback := by simpa [hp, bodyRead_inj] using before
        exact (select_header _ _ _ hsel).2.2
      | dead hp => simp [hp] at before
      | sof hp => simp [hp, sofRead, bodyRead] at before
      | header hp => simp [hp, headerRead, bodyRead] at before
    have himage : (tail ++ [c]).flatMap Completion.bytes =
        (makeRequest callback.reqType body).bytes := by
      simp [hbytes, bytes, makeRequest_bytes, checked]
    refine ⟨stretches ++ [.frame (tail ++ [c]) ⟨callback, body⟩
      (by simpa [or_imp, forall_and, ok] using hok) himage hfirst], [],
      by simp [hcs, Stretch.completions], by simp [call, hinv, Stretch.call],
      open_search m' _ after⟩

/-- Whatever arrives and however reads fail, the calls made are those of the
frame stretches of the history, in order: stretches do not overlap, and a read
that failed lies in none of them. -/
theorem dispatch_sound (regs : List (Callback η)) (cs : List Completion) (r : Receiver η)
    (h : (started regs).run cs = some r) :
    ∃ stretches : List (Stretch regs), stretches.flatMap Stretch.completions = cs ∧
      stretches.filterMap Stretch.call = r.invoked := by
  have hist := PartialRun.run_history complete
    (fun cs m => m.callbacks = (registered regs).callbacks ∧ Armed m ∧ Accounted regs cs m)
    (started regs) ?_ ?_ cs r h
  · obtain ⟨-, -, stretches, tail, hcs, hinv, -⟩ := hist
    exact ⟨stretches ++ [.other tail], by simp [hcs, Stretch.completions],
      by simp [hinv, Stretch.call]⟩
  · exact ⟨rfl, started_armed regs, [], [], rfl, started_invoked regs,
      open_search _ _ (started_pending regs)⟩
  · intro cs m c m' ⟨hcb, hm, ha⟩ hc
    obtain ⟨hsame, harmed, -⟩ := complete_move m m' c hm hc
    exact ⟨hsame.trans hcb, harmed, accounted_step regs cs m m' c hcb hm ha hc⟩

theorem dispatch_sound_sample :
    ∃ r, (started mainCallbacks).run sampleCompletions = some r ∧
      ∃ stretches : List (Stretch mainCallbacks),
        stretches.flatMap Stretch.completions = sampleCompletions ∧
          stretches.filterMap Stretch.call = r.invoked := by
  obtain ⟨r, hr⟩ := Option.isSome_iff_exists.mp sampleCompletions_run
  exact ⟨r, hr, dispatch_sound mainCallbacks sampleCompletions r hr⟩

/-- Two receivers that differ at most in buffer contents nobody will read, and
in the calls made before: since `a` and `b` they have made the same ones. -/
def Alike (a b a' b' : Receiver η) : Prop :=
  a'.callbacks = b'.callbacks ∧ a'.pending = b'.pending ∧
    (∀ callback, a'.pending = [bodyRead callback] → a'.header = b'.header) ∧
    ∃ calls, a'.invoked = a.invoked ++ calls ∧ b'.invoked = b.invoked ++ calls

theorem alike_of_search (a b a' b' : Receiver η) (calls : List (Invocation η))
    (hcb : a'.callbacks = b'.callbacks) (ha : a'.pending = [sofRead] ∨ a'.pending = [])
    (hb : b'.pending = a'.pending) (hia : a'.invoked = a.invoked ++ calls)
    (hib : b'.invoked = b.invoked ++ calls) : Alike a b a' b' := by
  refine ⟨hcb, hb.symm, fun callback h => ?_, calls, hia, hib⟩
  rcases ha with ha | ha <;> simp [ha, sofRead, bodyRead] at h

theorem alike_complete (a b a' b' : Receiver η) (c : Completion) (harmed : Armed a')
    (h : Alike a b a' b') : Option.Rel (Alike a b) (a'.complete c) (b'.complete c) := by
  obtain ⟨hcb, hp, hhead, calls, hia, hib⟩ := h
  obtain ⟨err, bytes⟩ := c
  -- a read that does not end so is refused on both sides, one that fails fails on both
  have one : ∀ op, a'.pending = [op] →
      (bytes.length = op.length →
        Option.Rel (Alike a b) (a'.complete ⟨false, bytes⟩) (b'.complete ⟨false, bytes⟩)) →
      Option.Rel (Alike a b) (a'.complete ⟨err, bytes⟩) (b'.complete ⟨err, bytes⟩) := by
    intro op hop hok
    by_cases he : (⟨err, bytes⟩ : Completion).Ends op
    · cases err with
      | true =>
        have hl := (ends_failed _ _).mp he
        rw [complete_failed a' op hop bytes hl, complete_failed b' op (hp ▸ hop) bytes hl]
        refine .some (alike_of_search a b _ _ calls (by simp [hcb]) ?_ rfl (by simp [hia])
          (by simp [hib]))
        cases op.handler <;> simp
      | false => exact hok ((ends_ok _ _).mp he)
    · rw [complete_refused a' op hop _ he, complete_refused b' op (hp ▸ hop) _ he]
      exact .none
  cases harmed with
  | dead hd =>
    rw [complete_dead a' hd, complete_dead b' (hp ▸ hd)]
    exact .none
  | sof hs =>
    apply one sofRead hs
    intro hl
    obtain ⟨x, rfl⟩ := List.length_eq_one_iff.mp hl
    rw [complete_sofRead a' hs x, complete_sofRead b' (hp ▸ hs) x]
    refine .some ⟨hcb, rfl, fun callback hc => ?_, calls, hia, hib⟩
    split at hc <;> simp [sofRead, headerRead, bodyRead] at hc
  | header hs =>
    apply one headerRead hs
    intro (hl : bytes.length = 3)
    rw [complete_headerRead a' hs bytes hl, complete_headerRead b' (hp ▸ hs) bytes hl, hcb]
    refine .some ⟨rfl, rfl, fun _ _ => ?_, calls, hia, hib⟩
    simp only [header, toList_overwrite_full _ bytes hl]
  | body callback hs hsel =>
    apply one (bodyRead callback) hs
    intro hl
    obtain ⟨-, hsize, -⟩ := select_header _ _ _ hsel
    rw [bodyRead_length callback hsize] at hl
    rw [complete_bodyRead a' callback hs hsize bytes hl,
      complete_bodyRead b' callback (hp ▸ hs) hsize bytes hl, hhead callback hs]
    exact .some (alike_of_search a b _ _ _ hcb (.inl rfl) rfl
      (by rw [hia, List.append_assoc]) (by rw [hib, List.append_assoc]))

theorem search_alike (a b : Receiver η) (hcb : a.callbacks = b.callbacks)
    (ha : a.pending = [sofRead]) (hb : b.pending = [sofRead]) (cs : List Completion) :
    Option.Rel (Alike a b) (a.run cs) (b.run cs) := by
  refine PartialRun.run_related complete complete Armed (Alike a b) ?_ ?_ a b (.sof ha)
    (alike_of_search a b a b [] hcb (.inl ha) (hb.trans ha.symm) (by simp) (by simp)) cs
  · intro m c m' hm hc
    exact (complete_move m m' c hm hc).2.1
  · intro a' b' c harmed halike
    exact alike_complete a b a' b' c harmed halike

/-- Receivers that wait for a start byte under the same registrations make the
same calls and arm the same reads from then on, whatever their buffers hold; so
every way back to the search is as good as a fresh start. -/
theorem stale_buffers_irrelevant :
    (∀ a b : Receiver η, a.callbacks = b.callbacks → a.pending = [sofRead] →
      b.pending = [sofRead] → ∀ cs, Option.Rel (Alike a b) (a.run cs) (b.run cs)) ∧
    (∀ (regs : List (Callback η)) (past : List Completion) (r : Receiver η),
      (started regs).run past = some r → r.pending = [sofRead] →
      ∀ cs, Option.Rel (Alike r (started regs)) (r.run cs) ((started regs).run cs)) := by
  refine ⟨search_alike, fun regs past r hr hp => search_alike r (started regs) ?_ hp ?_⟩
  · exact (run_armed _ r past (started_armed regs) hr).1
  · exact started_pending regs

def leftover : Receiver Handler :=
  { started mainCallbacks with
    sofBuffer := .replicate 1 0xA5
    headerBuffer := .replicate 3 0x30
    bodyBuffer := .replicate 512 0xFF }

theorem stale_buffers_irrelevant_leftover :
    (leftover.run sampleCompletions).isSome = true ∧
    Option.Rel (Alike (started mainCallbacks) leftover)
      ((started mainCallbacks).run sampleCompletions) (leftover.run sampleCompletions) :=
  ⟨by decide +kernel,
    stale_buffers_irrelevant.1 (started mainCallbacks) leftover rfl (started_pending _)
      (started_pending mainCallbacks) sampleCompletions⟩

end BusPlot.SerialRuns
