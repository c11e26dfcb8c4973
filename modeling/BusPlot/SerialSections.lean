import BusPlot.SerialDelivery

/-!
# What is separated does not interact

A read that fails gives up the bytes it has, and a gap without a start byte lets
the receiver find back to its search. What comes behind either is received as by
a receiver that has just been started, unless the read that failed was one for a
start byte. Of the registrations only the first of each command counts.
-/

set_option autoImplicit false

namespace BusPlot.SerialSections
open BusPlot.Protocol BusPlot.SerialReceiver BusPlot.SerialInvariant BusPlot.SerialStream
open BusPlot.SerialDelivery BusPlot.Registrations Framing

variable {η : Type*}

def fail (l : Link η) : Link η :=
  match l.receiver.complete ⟨true, l.transferred⟩ with
  | none => l
  | some r => ⟨r, []⟩

def sections (l : Link η) (ss : List (List (List UInt8))) : Link η :=
  ss.foldl (fun l chunks => fail (l.deliverAll chunks)) l

def alone (regs : List (Callback η)) (chunks : List (List UInt8)) : Link η :=
  (grabbing regs).deliverAll chunks

theorem alone_shows (regs : List (Callback η)) (chunks : List (List UInt8)) :
    Shows (Receiver.registered regs).callbacks (alone regs chunks)
      (scan (.search : (wire (Receiver.registered regs).callbacks).Phase) chunks.flatten).1 :=
  (deliverAll_shows _ _ _ (grabbing_shows regs) chunks).1

theorem alone_waiting (regs : List (Callback η)) (chunks : List (List UInt8)) :
    (alone regs chunks).Waiting ↔
      (scan (.search : (wire (Receiver.registered regs).callbacks).Phase) chunks.flatten).1 =
        .search :=
  shows_waiting _ _ _ (alone_shows regs chunks)

theorem fail_complete (l : Link η) (r : Receiver η)
    (h : l.receiver.complete ⟨true, l.transferred⟩ = some r) : fail l = ⟨r, []⟩ := by
  simp only [fail, h]

theorem fail_pending (l : Link η) (op : AsyncRead η) (hp : l.receiver.pending = [op])
    (hl : l.transferred.length ≤ op.length) :
    fail l = ⟨{ l.receiver.fill l.transferred op.buffer with
      pending := match op.handler with
        | .readSOFHandler => []
        | _ => [sofRead] }, []⟩ :=
  fail_complete l _ (Receiver.complete_failed l.receiver op hp l.transferred hl)

theorem fail_search (l : Link η) (hl : l.Waiting) :
    (fail l).receiver.pending = [] ∧ (fail l).receiver.invoked = l.receiver.invoked := by
  obtain ⟨hp, ht⟩ := hl
  rw [fail_pending l sofRead hp (by simp [ht])]
  exact ⟨rfl, Receiver.fill_invoked _ _ _⟩

/-- A failure inside a frame gives up what was transferred and starts again. -/
theorem fail_inside (m : Callbacks η) (l : Link η) (ph : (wire m).Phase) (hs : Shows m l ph)
    (hph : ph ≠ .search) :
    (fail l).receiver.callbacks = m ∧ (fail l).Waiting ∧
      (fail l).receiver.invoked = l.receiver.invoked := by
  obtain ⟨hm, hphase⟩ := hs
  cases ph with
  | search => exact absurd rfl hph
  | header got hgot =>
    obtain ⟨hp, rfl⟩ := hphase
    rw [fail_pending l headerRead hp (Nat.le_of_lt hgot)]
    exact ⟨(Receiver.fill_callbacks _ _ _).trans hm, ⟨rfl, rfl⟩, Receiver.fill_invoked _ _ _⟩
  | body callback head got hsel hgot =>
    obtain ⟨hp, rfl, -⟩ := hphase
    have hsize := (select_header m _ callback hsel).2.1
    have hle : l.transferred.length ≤ (bodyRead callback).length := by
      rw [bodyRead_length callback hsize]
      exact Nat.le_of_lt hgot
    rw [fail_pending l (bodyRead callback) hp hle]
    exact ⟨(Receiver.fill_callbacks _ _ _).trans hm, ⟨rfl, rfl⟩, Receiver.fill_invoked _ _ _⟩

theorem deliverAll_dead (l : Link η) (hl : l.receiver.pending = []) (chunks : List (List UInt8)) :
    l.deliverAll chunks = l := by
  induction chunks with
  | nil => rfl
  | cons chunk chunks ih =>
    have hone : l.deliver chunk = l := by
      rw [Link.deliver]
      simp only [hl]
    rw [Link.deliverAll, List.foldl_cons, hone]
    exact ih

theorem sections_dead (l : Link η) (hl : l.receiver.pending = []) (ss : List (List (List UInt8))) :
    sections l ss = l := by
  induction ss with
  | nil => rfl
  | cons s ss ih =>
    have hone : fail (l.deliverAll s) = l := by
      rw [deliverAll_dead l hl, fail, Receiver.complete_dead l.receiver hl]
    rw [sections, List.foldl_cons, hone]
    exact ih

theorem section_calls (regs : List (Callback η)) (l : Link η)
    (hregs : l.receiver.callbacks = (Receiver.registered regs).callbacks) (hl : l.Waiting)
    (s : List (List UInt8)) :
    (fail (l.deliverAll s)).receiver.invoked =
        l.receiver.invoked ++ (alone regs s).receiver.invoked ∧
      ((alone regs s).Waiting → (fail (l.deliverAll s)).receiver.pending = []) ∧
      (¬ (alone regs s).Waiting →
        (fail (l.deliverAll s)).receiver.callbacks = (Receiver.registered regs).callbacks ∧
          (fail (l.deliverAll s)).Waiting) := by
  obtain ⟨hshows, hcalls⟩ :=
    deliverAll_shows _ l .search ((waiting_shows _ l).mpr ⟨hregs, hl⟩) s
  have halone : (alone regs s).receiver.invoked = _ := grabbing_invoked regs s
  rw [alone_waiting, halone, ← hcalls]
  by_cases hs : (scan (.search : (wire (Receiver.registered regs).callbacks).Phase)
      s.flatten).1 = .search
  · rw [hs] at hshows
    obtain ⟨hp, hi⟩ := fail_search _ ((waiting_shows _ _).mp hshows).2
    exact ⟨hi, fun _ => hp, fun hne => absurd hs hne⟩
  · obtain ⟨hcb, hw, hi⟩ := fail_inside _ _ _ hshows hs
    exact ⟨hi, fun heq => absurd heq hs, fun _ => ⟨hcb, hw⟩⟩

/-- Over sections that are all broken off inside a frame the receiver calls what
receivers of their own would call, and searches again. -/
theorem sections_alive (regs : List (Callback η)) (l : Link η)
    (hregs : l.receiver.callbacks = (Receiver.registered regs).callbacks) (hl : l.Waiting)
    (ss : List (List (List UInt8))) (hss : ∀ s ∈ ss, ¬ (alone regs s).Waiting) :
    (sections l ss).receiver.invoked =
        l.receiver.invoked ++ ss.flatMap (fun s => (alone regs s).receiver.invoked) ∧
      (sections l ss).receiver.callbacks = (Receiver.registered regs).callbacks ∧
      (sections l ss).Waiting := by
  induction ss generalizing l with
  | nil => exact ⟨(List.append_nil _).symm, hregs, hl⟩
  | cons s ss ih =>
    obtain ⟨hcalls, -, hnext⟩ := section_calls regs l hregs hl s
    obtain ⟨hregs', hl'⟩ := hnext (hss s (by simp))
    obtain ⟨hrest, hlast⟩ := ih _ hregs' hl' fun t ht => hss t (by simp [ht])
    refine ⟨?_, hlast⟩
    rw [List.flatMap_cons, ← List.append_assoc, ← hcalls]
    exact hrest

/-- Whatever the bytes, however they are delivered and wherever reads fail: each
section is received on its own, and the receiver lives until a failure meets the
search for a start byte. -/
theorem failures_separate (regs : List (Callback η)) (l : Link η)
    (hregs : l.receiver.callbacks = (Receiver.registered regs).callbacks) (hl : l.Waiting)
    (ss : List (List (List UInt8))) :
    ((∀ s ∈ ss, ¬ (alone regs s).Waiting) →
      (sections l ss).receiver.invoked =
          l.receiver.invoked ++ ss.flatMap (fun s => (alone regs s).receiver.invoked) ∧
        (sections l ss).Waiting) ∧
    (∀ pre s post, ss = pre ++ s::post → (∀ p ∈ pre, ¬ (alone regs p).Waiting) →
      (alone regs s).Waiting →
      (sections l ss).receiver.invoked =
          l.receiver.invoked ++ (pre ++ [s]).flatMap (fun s => (alone regs s).receiver.invoked) ∧
        (sections l ss).receiver.pending = []) := by
  constructor
  · intro hss
    obtain ⟨hcalls, -, hw⟩ := sections_alive regs l hregs hl ss hss
    exact ⟨hcalls, hw⟩
  · rintro pre s post rfl hpre hs
    obtain ⟨hcalls, hregs', hl'⟩ := sections_alive regs l hregs hl pre hpre
    obtain ⟨hcall, hdead, -⟩ := section_calls regs _ hregs' hl' s
    have hrest : sections l (pre ++ s::post) = fail ((sections l pre).deliverAll s) := by
      rw [sections, List.foldl_append, List.foldl_cons]
      exact sections_dead _ (hdead hs) post
    rw [hrest]
    refine ⟨?_, hdead hs⟩
    rw [hcall, hcalls, List.flatMap_append, List.flatMap_singleton, List.append_assoc]

/-- A header broken off, a removal, and a failure in the search behind it. -/
theorem failures_separate_removal :
    (sections (grabbing mainCallbacks) [[[0xA5, 0x06]], [image removeSeven]]).receiver.pending =
      [] := by
  have h := (failures_separate mainCallbacks (grabbing mainCallbacks) rfl (grabbing_waiting _)
    [[[0xA5, 0x06]], [image removeSeven]]).2 [[[0xA5, 0x06]]] [image removeSeven] [] rfl
  refine (h ?_ ?_).2
  · intro p hp
    rw [List.mem_singleton.mp hp, alone_waiting]
    simp [scan, feed, wire, SOF]
  · have hk : Known (Receiver.registered mainCallbacks).callbacks removeSeven.callback :=
      known_of_find mainCallbacks _
        (find_of_mem mainCallbacks _ mainCallbacks_nodup (by simp [removeSeven, mainCallbacks]))
        (by decide)
    rw [alone_waiting, List.flatten_cons, List.flatten_nil, List.append_nil, scan_image _ _ hk]

theorem bodyLength_le (m : Callbacks η) (head : List UInt8) (callback : Callback η)
    (h : (wire m).select head = some callback) :
    (wire m).bodyLength callback ≤ largestSize m+2 :=
  Nat.add_le_add_right (le_largestSize m _ callback ((select_iff m _ callback).mp h).1) 2

theorem scan_slot (m : Callbacks η) (content gap : List UInt8) (hg : ∀ b ∈ gap, b ≠ SOF)
    (hlen : 3+largestSize m+2 ≤ gap.length) :
    (scan (.search : (wire m).Phase) (content ++ gap)).1 = .search := by
  have hdebt := debt_le (F := wire m) (largestSize m+2) (bodyLength_le m)
    (scan (.search : (wire m).Phase) content).1
  have hthree : (wire m).headerLength = 3 := rfl
  rw [scan_append]
  exact (scan_gap (F := wire m) (largestSize m+2) (bodyLength_le m) _ gap hg (by omega)).1

/-- A stream of slots, each with anything in it and a long enough gap without a
start byte behind it, however it is delivered: every slot is received on its
own, and one that holds whole frames leads to their calls. -/
theorem slots_separate (regs : List (Callback η)) (l : Link η)
    (hregs : l.receiver.callbacks = (Receiver.registered regs).callbacks) (hl : l.Waiting)
    (slots : List (List UInt8 × List UInt8))
    (hgap : ∀ slot ∈ slots, (∀ b ∈ slot.2, b ≠ SOF) ∧
      3+largestSize (Receiver.registered regs).callbacks+2 ≤ slot.2.length)
    (chunks : List (List UInt8)) (h : chunks.flatten = slots.flatMap fun slot => slot.1 ++ slot.2) :
    (l.deliverAll chunks).receiver.invoked = l.receiver.invoked ++
        slots.flatMap (fun slot => (alone regs [slot.1 ++ slot.2]).receiver.invoked) ∧
      (l.deliverAll chunks).Waiting ∧
      ((∀ callback ∈ regs, callback.reqType.size ≤ 255) →
        ∀ slot ∈ slots, ∀ calls : List (Invocation η),
        (∀ call ∈ calls,
          regs.find? (·.reqType.command = call.callback.reqType.command) = some call.callback) →
        slot.1 = calls.flatMap image →
          (alone regs [slot.1 ++ slot.2]).receiver.invoked = calls) := by
  have hone : ∀ slot : List UInt8 × List UInt8, (alone regs [slot.1 ++ slot.2]).receiver.invoked =
      (scan (.search : (wire (Receiver.registered regs).callbacks).Phase)
        (slot.1 ++ slot.2)).2 := by
    intro slot
    have hcalls := grabbing_invoked regs [slot.1 ++ slot.2]
    rwa [List.flatten_cons, List.flatten_nil, List.append_nil] at hcalls
  have hall : scan (.search : (wire (Receiver.registered regs).callbacks).Phase) chunks.flatten =
      (.search, slots.flatMap fun slot => (alone regs [slot.1 ++ slot.2]).receiver.invoked) := by
    rw [h]
    clear h
    induction slots with
    | nil => rfl
    | cons slot slots ih =>
      obtain ⟨hg, hlen⟩ := hgap slot (by simp)
      rw [List.flatMap_cons, List.flatMap_cons, scan_append, scan_slot _ _ _ hg hlen,
        ih fun s hs => hgap s (by simp [hs]), hone]
  obtain ⟨-, hw, hi⟩ := deliverAll_search _ l hregs hl chunks _ hall
  refine ⟨hi, hw, fun hsize slot hslot calls hcalls hframes => ?_⟩
  have hk : ∀ call ∈ calls, Known (Receiver.registered regs).callbacks call.callback := by
    intro call hc
    exact known_of_find regs _ (hcalls call hc)
      (hsize _ (List.mem_of_find?_eq_some (hcalls call hc)))
  rw [hone, hframes, scan_append, scan_images _ calls hk,
    scan_idles (F := wire _) _ (hgap slot hslot).1]
  exact List.append_nil calls

theorem slots_separate_removal :
    ((grabbing mainCallbacks).deliverAll
        [[0xA5, 0x06], .replicate 17 0x00, image removeSeven, .replicate 17 0x00]).receiver.invoked =
      (grabbing mainCallbacks).receiver.invoked ++
        ((alone mainCallbacks [[0xA5, 0x06] ++ .replicate 17 0x00]).receiver.invoked ++
          (alone mainCallbacks [image removeSeven ++ .replicate 17 0x00]).receiver.invoked) := by
  have h := (slots_separate mainCallbacks (grabbing mainCallbacks) rfl (grabbing_waiting _)
    [([0xA5, 0x06], .replicate 17 0x00), (image removeSeven, .replicate 17 0x00)]
    (by decide +kernel) [[0xA5, 0x06], .replicate 17 0x00, image removeSeven, .replicate 17 0x00]
    (by simp [List.flatten])).1
  rwa [List.flatMap_cons, List.flatMap_singleton] at h

theorem wire_find (m m' : Callbacks η) (h : ∀ command, m.find command = m'.find command) :
    wire m = wire m' := by
  have hselect : ∀ header, m.select header = m'.select header := by
    intro header
    rw [Callbacks.select, h, Callbacks.select]
  unfold wire
  congr 1
  funext head
  exact hselect _

theorem find_perm (regs regs' : List (Callback η)) (hp : regs.Perm regs')
    (hnd : (regs.map (·.reqType.command)).Nodup) (command : UInt16) :
    regs.find? (·.reqType.command = command) = regs'.find? (·.reqType.command = command) := by
  have hnd' : (regs'.map (·.reqType.command)).Nodup := (hp.map _).nodup_iff.mp hnd
  cases h : regs.find? (·.reqType.command = command) with
  | none =>
    rw [eq_comm, List.find?_eq_none]
    intro c hc
    exact List.find?_eq_none.mp h c (hp.mem_iff.mpr hc)
  | some callback =>
    have hkey : callback.reqType.command = command := by simpa using List.find?_some h
    have hmem := hp.mem_iff.mp (List.mem_of_find?_eq_some h)
    rw [← hkey]
    exact (find_of_mem regs' callback hnd' hmem).symm

theorem find_again (regs : List (Callback η)) (callback : Callback η)
    (h : ∃ c ∈ regs, c.reqType.command = callback.reqType.command) (command : UInt16) :
    (regs ++ [callback]).find? (·.reqType.command = command) =
      regs.find? (·.reqType.command = command) := by
  rw [List.find?_append]
  cases hf : regs.find? (·.reqType.command = command) with
  | some c => rfl
  | none =>
    obtain ⟨c, hc, hkey⟩ := h
    have hne := List.find?_eq_none.mp hf c hc
    rw [hkey] at hne
    simpa using hne

/-- `RegisterMessage` says no exactly when the command is taken; then it changes
no call on any stream, and distinct commands may be registered in any order. -/
theorem registrations_first (regs : List (Callback η)) :
    (∀ callback,
      ((Receiver.registered regs).registerMessage callback).2 = false ↔
        ∃ c ∈ regs, c.reqType.command = callback.reqType.command) ∧
    (∀ callback, ((Receiver.registered regs).registerMessage callback).2 = false →
      ∀ chunks, (alone (regs ++ [callback]) chunks).receiver.invoked =
        (alone regs chunks).receiver.invoked) ∧
    (∀ regs', regs.Perm regs' → (regs.map (·.reqType.command)).Nodup →
      ∀ chunks, (alone regs' chunks).receiver.invoked = (alone regs chunks).receiver.invoked) := by
  have refused : ∀ callback, ((Receiver.registered regs).registerMessage callback).2 = false ↔
      ∃ c ∈ regs, c.reqType.command = callback.reqType.command := by
    intro callback
    have hfind := registered_find regs callback.reqType.command
    rw [Callbacks.find] at hfind
    have hmem : callback.reqType.command ∈ (Receiver.registered regs).callbacks.table ↔
        ∃ c ∈ regs, c.reqType.command = callback.reqType.command := by
      rw [← AList.lookup_isSome, hfind, List.find?_isSome]
      simp
    rw [← hmem, Receiver.registerMessage, Callbacks.insert]
    by_cases hin : callback.reqType.command ∈ (Receiver.registered regs).callbacks.table
    · rw [if_pos hin]
      exact ⟨fun _ => hin, fun _ => rfl⟩
    · rw [if_neg hin]
      exact ⟨fun h => absurd h Bool.true_eq_false.mp, fun h => absurd h hin⟩
  have alike : ∀ regs' : List (Callback η), (∀ command,
      regs'.find? (·.reqType.command = command) = regs.find? (·.reqType.command = command)) →
        ∀ chunks, (alone regs' chunks).receiver.invoked = (alone regs chunks).receiver.invoked := by
    intro regs' hfind chunks
    have hwire : wire (Receiver.registered regs').callbacks =
        wire (Receiver.registered regs).callbacks := by
      apply wire_find
      intro command
      rw [registered_find, registered_find, hfind]
    rw [alone, grabbing_invoked, alone, grabbing_invoked, hwire]
  refine ⟨refused, fun callback h => ?_, fun regs' hp hnd => ?_⟩
  · exact alike _ (find_again regs callback ((refused callback).mp h))
  · exact alike regs' fun command => (find_perm regs regs' hp hnd command).symm

def cut (p : List (List UInt8) × List UInt8) (c : Completion) : List (List UInt8) × List UInt8 :=
  if c.err then (p.1 ++ [p.2], []) else (p.1, p.2 ++ c.bytes)

def stretches (cs : List Completion) : List (List UInt8) :=
  let p := cs.foldl cut ([], [])
  p.1 ++ [p.2]

theorem shows_read (m : Callbacks η) (r : Receiver η) (ph : (wire m).Phase)
    (h : Shows m ⟨r, []⟩ ph) :
    ∃ op, r.pending = [op] ∧ 0 < op.length := by
  obtain ⟨-, hphase⟩ := h
  cases ph with
  | search => exact ⟨sofRead, hphase.1, Nat.zero_lt_one⟩
  | header got hgot => exact ⟨headerRead, hphase.1, Nat.zero_lt_succ 2⟩
  | body callback head got hsel hgot =>
    refine ⟨bodyRead callback, hphase.1, ?_⟩
    rw [bodyRead_length callback (select_header m _ callback hsel).2.1]
    omega

theorem deliver_nil (l : Link η) : l.deliver [] = l := by
  rw [Link.deliver]
  split
  · rfl
  · rename_i op rest _
    have hno : ¬ (0 < op.length-l.transferred.length ∧
        op.length-l.transferred.length ≤ ([] : List UInt8).length) := by
      rw [List.length_nil]
      omega
    rw [dif_neg hno, List.append_nil]

theorem succeeded_shows (m : Callbacks η) (r r' : Receiver η) (ph : (wire m).Phase)
    (hs : Shows m ⟨r, []⟩ ph) (bytes : List UInt8) (h : r.complete ⟨false, bytes⟩ = some r') :
    Shows m ⟨r', []⟩ (scan ph bytes).1 ∧ r'.invoked = r.invoked ++ (scan ph bytes).2 := by
  obtain ⟨op, hp, hpos⟩ := shows_read m r ph hs
  have hlen : bytes.length = op.length :=
    (ends_ok bytes op).mp (Receiver.complete_ends r r' op hp _ h)
  have hdeliver : Link.deliver ⟨r, []⟩ bytes = ⟨r', []⟩ := by
    have hfull := deliver_full ⟨r, []⟩ op hp hpos bytes [] hlen r' h
    rw [List.append_nil] at hfull
    rw [hfull, deliver_nil]
  rw [← hdeliver]
  have hdelivered := deliver_shows m ⟨r, []⟩ ph hs bytes
  refine ⟨hdelivered.1, ?_⟩
  rw [← hdelivered.2, hdeliver]

theorem failed_shows (m : Callbacks η) (r r' : Receiver η) (ph : (wire m).Phase)
    (hs : Shows m ⟨r, []⟩ ph) (bytes : List UInt8) (h : r.complete ⟨true, bytes⟩ = some r') :
    (r'.pending = [] ∨ Shows m ⟨r', []⟩ .search) ∧ r'.invoked = r.invoked := by
  obtain ⟨op, hp, -⟩ := shows_read m r ph hs
  have hlen : bytes.length ≤ op.length :=
    (ends_failed bytes op).mp (Receiver.complete_ends r r' op hp _ h)
  rw [Receiver.complete_failed r op hp bytes hlen] at h
  cases h
  refine ⟨?_, Receiver.fill_invoked _ _ _⟩
  cases hh : op.handler with
  | readSOFHandler => exact .inl rfl
  | readHeaderHandler => exact .inr ⟨(Receiver.fill_callbacks _ _ _).trans hs.1, rfl, rfl⟩
  | readBodyHandler callback => exact .inr ⟨(Receiver.fill_callbacks _ _ _).trans hs.1, rfl, rfl⟩

/-- Whatever completes, the calls made are those of the stretches between the
failures, each received on its own. -/
theorem completions_calls (regs : List (Callback η)) (cs : List Completion) (r : Receiver η)
    (h : (Receiver.started regs).run cs = some r) :
    r.invoked = (stretches cs).flatMap fun s => (alone regs [s]).receiver.invoked := by
  have hcalls : ∀ s : List UInt8, (alone regs [s]).receiver.invoked =
      (scan (.search : (wire (Receiver.registered regs).callbacks).Phase) s).2 := by
    intro s
    have hs := grabbing_invoked regs [s]
    rw [List.flatten_singleton] at hs
    exact hs
  have hrun := PartialRun.run_history Receiver.complete (fun cs r =>
    (r.pending = [] ∨ Shows (Receiver.registered regs).callbacks ⟨r, []⟩
      (scan .search (cs.foldl cut ([], [])).2).1) ∧
    r.invoked = (stretches cs).flatMap fun s => (alone regs [s]).receiver.invoked)
    (Receiver.started regs) ?_ ?_ cs r h
  · exact hrun.2
  · refine ⟨.inr ⟨rfl, started_pending regs, rfl⟩, ?_⟩
    rw [started_invoked, stretches]
    simp [hcalls, scan]
  · rintro cs m ⟨err, bytes⟩ m' ⟨hlive, hm⟩ hstep
    have hshows := hlive.resolve_left fun hdead => by
      rw [Receiver.complete_dead m hdead] at hstep
      cases hstep
    have hsnoc : (cs ++ [(⟨err, bytes⟩ : Completion)]).foldl cut ([], []) =
        cut (cs.foldl cut ([], [])) ⟨err, bytes⟩ := by
      rw [List.foldl_append]
      rfl
    simp only [stretches, hsnoc] at hm ⊢
    cases err with
    | true =>
      obtain ⟨hnext, hsame⟩ := failed_shows _ m m' _ hshows bytes hstep
      refine ⟨hnext, ?_⟩
      rw [hsame, hm]
      simp [cut, hcalls, scan]
    | false =>
      obtain ⟨hnext, hnew⟩ := succeeded_shows _ m m' _ hshows bytes hstep
      have happend := scan_append (F := wire (Receiver.registered regs).callbacks) .search
        (cs.foldl cut ([], [])).2 bytes
      refine ⟨.inr ?_, ?_⟩
      · show Shows _ _ (scan .search ((cs.foldl cut ([], [])).2 ++ bytes)).1
        rw [happend]
        exact hnext
      · rw [hnew, hm]
        simp [cut, hcalls, happend]

end BusPlot.SerialSections
