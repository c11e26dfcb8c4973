import BusPlot.SerialReceiver

/-!
# What every run of the receiver keeps

At most one read is armed, and a body read stands for the header in the header
buffer. `Move` lists what one completion can do to such a receiver; the results
about whole runs are inductions over it.
-/

set_option autoImplicit false

namespace BusPlot.SerialInvariant
open BusPlot.Crc BusPlot.Protocol BusPlot.SerialReceiver BusPlot.SerialReceiver.Receiver

variable {η : Type*}

theorem insert_find (m : Callbacks η) (callback : Callback η) (command : UInt16) :
    (m.insert callback).1.find command = (m.find command).or
      (if callback.reqType.command = command then some callback else none) := by
  unfold Callbacks.insert Callbacks.find
  by_cases hm : callback.reqType.command ∈ m.table
  · rw [if_pos hm]
    split
    · rename_i hc
      obtain ⟨c, hl⟩ := Option.isSome_iff_exists.mp (AList.lookup_isSome.mpr (hc ▸ hm))
      simp [hl]
    · simp
  · rw [if_neg hm]
    by_cases hc : callback.reqType.command = command
    · subst hc
      simp [AList.lookup_eq_none.mpr hm]
    · simp [AList.lookup_insert_ne (Ne.symm hc), hc]

theorem registered_find (regs : List (Callback η)) (command : UInt16) :
    (registered regs).callbacks.find command = regs.find? (·.reqType.command = command) := by
  have run : ∀ r : Receiver η,
      (regs.foldl (fun r callback => (r.registerMessage callback).1) r).callbacks.find command =
        (r.callbacks.find command).or (regs.find? (·.reqType.command = command)) := by
    induction regs with
    | nil => simp
    | cons callback regs ih =>
      intro r
      rw [List.foldl_cons, ih, registerMessage, insert_find, Option.or_assoc, List.find?_cons]
      by_cases hc : callback.reqType.command = command <;> simp [hc]
  rw [registered, run]
  simp [fresh, Callbacks.empty, Callbacks.find]

theorem registered_idle (regs : List (Callback η)) :
    (registered regs).pending = [] ∧ (registered regs).invoked = [] := by
  have run : ∀ r : Receiver η, r.pending = [] ∧ r.invoked = [] →
      (regs.foldl (fun r callback => (r.registerMessage callback).1) r).pending = [] ∧
        (regs.foldl (fun r callback => (r.registerMessage callback).1) r).invoked = [] := by
    induction regs with
    | nil => exact fun r h => h
    | cons callback regs ih => exact fun r h => ih _ h
  exact run fresh ⟨rfl, rfl⟩

theorem started_pending (regs : List (Callback η)) : (started regs).pending = [sofRead] := by
  rw [started, startGrabbing, readAsync, (registered_idle regs).1]
  rfl

theorem started_invoked (regs : List (Callback η)) : (started regs).invoked = [] :=
  (registered_idle regs).2

theorem started_callbacks (regs : List (Callback η)) :
    (started regs).callbacks = (registered regs).callbacks := rfl

inductive Armed (r : Receiver η) : Prop
  | dead (none : r.pending = [])
  | sof (one : r.pending = [sofRead])
  | header (one : r.pending = [headerRead])
  | body (callback : Callback η) (one : r.pending = [bodyRead callback])
      (chosen : r.callbacks.select r.header = some callback)

inductive Move (r : Receiver η) (c : Completion) (r' : Receiver η) : Prop
  | portLost (before : r.pending = [sofRead]) (failed : c.err = true)
      (after : r'.pending = []) (quiet : r'.invoked = r.invoked)
  | skipped (before : r.pending = [sofRead]) (ok : c.err = false)
      (after : r'.pending = [sofRead]) (quiet : r'.invoked = r.invoked)
  | found (before : r.pending = [sofRead]) (ok : c.err = false) (sof : c.bytes = [SOF])
      (after : r'.pending = [headerRead]) (quiet : r'.invoked = r.invoked)
  | headerDropped (before : r.pending = [headerRead])
      (after : r'.pending = [sofRead]) (quiet : r'.invoked = r.invoked)
  | chosen (callback : Callback η) (before : r.pending = [headerRead]) (ok : c.err = false)
      (head : c.bytes = (headerOf callback.reqType).bytes)
      (after : r'.pending = [bodyRead callback])
      (selected : r'.callbacks.select r'.header = some callback) (quiet : r'.invoked = r.invoked)
  | bodyDropped (callback : Callback η) (before : r.pending = [bodyRead callback])
      (after : r'.pending = [sofRead]) (quiet : r'.invoked = r.invoked)
  | accepted (callback : Callback η) (body : callback.reqType.Body)
      (before : r.pending = [bodyRead callback]) (ok : c.err = false)
      (bytes : c.bytes = body.toList ++ tailBytes (crc16 (checked callback.reqType body)))
      (after : r'.pending = [sofRead]) (call : r'.invoked = r.invoked ++ [⟨callback, body⟩])

theorem split_body (T : ReqType) (bytes : List UInt8) (hl : bytes.length = T.size+2) :
    ∃ (body : T.Body) (lo hi : UInt8), bytes = body.toList ++ [lo, hi] := by
  obtain ⟨lo, hi, hsplit⟩ := tail_split bytes T.size hl
  refine ⟨T.bodyOf bytes, lo, hi, ?_⟩
  rw [toList_bodyOf _ _ (by omega)]
  exact hsplit

/-- A body is judged by whether its last two bytes are the checksum. -/
theorem judge_tail (callback : Callback η) (body : callback.reqType.Body) (lo hi : UInt8) :
    judge callback (headerOf callback.reqType).bytes (body.toList ++ [lo, hi]) =
      if [lo, hi] = tailBytes (crc16 (checked callback.reqType body)) then some ⟨callback, body⟩
      else none := by
  have hframe : SOF::((headerOf callback.reqType).bytes ++ (body.toList ++ [lo, hi])) =
      checked callback.reqType body ++ [lo, hi] := by
    simp [checked]
  have hsize : callback.reqType.frameSize = (checked callback.reqType body).length+2 := by
    rw [checked_length, ReqType.frameSize, FrameHeader.size]
  have hpos : 0 < (checked callback.reqType body).length := by
    rw [checked_length]
    omega
  simp only [judge, hframe, hsize, verify_append_iff _ lo hi hpos, bodyOf_append]

theorem judge_frame (callback : Callback η) (body : callback.reqType.Body) :
    judge callback (headerOf callback.reqType).bytes
      (body.toList ++ tailBytes (crc16 (checked callback.reqType body))) =
        some ⟨callback, body⟩ :=
  (judge_tail callback body _ _).trans (if_pos rfl)

theorem move_sof (r r' : Receiver η) (c : Completion) (hp : r.pending = [sofRead])
    (h : r.complete c = some r') : r'.callbacks = r.callbacks ∧ Armed r' ∧ Move r c r' := by
  obtain ⟨err, bytes⟩ := c
  have hl := complete_ends r r' _ hp _ h
  cases err with
  | true =>
    rw [complete_failed r _ hp bytes ((ends_failed _ _).mp hl)] at h
    cases h
    exact ⟨fill_callbacks r _ _, .dead rfl, .portLost hp rfl rfl (fill_invoked r _ _)⟩
  | false =>
    obtain ⟨b, rfl⟩ := List.length_eq_one_iff.mp ((ends_ok _ _).mp hl)
    by_cases hb : b = SOF
    · subst hb
      rw [complete_sofRead r hp SOF, if_pos rfl] at h
      cases h
      exact ⟨rfl, .header rfl, .found hp rfl rfl rfl rfl⟩
    · rw [complete_sofRead r hp b, if_neg hb] at h
      cases h
      exact ⟨rfl, .sof rfl, .skipped hp rfl rfl rfl⟩

theorem move_header (r r' : Receiver η) (c : Completion) (hp : r.pending = [headerRead])
    (h : r.complete c = some r') : r'.callbacks = r.callbacks ∧ Armed r' ∧ Move r c r' := by
  obtain ⟨err, bytes⟩ := c
  have hl := complete_ends r r' _ hp _ h
  cases err with
  | true =>
    rw [complete_failed r _ hp bytes ((ends_failed _ _).mp hl)] at h
    cases h
    exact ⟨fill_callbacks r _ _, .sof rfl, .headerDropped hp rfl (fill_invoked r _ _)⟩
  | false =>
    have hl : bytes.length = 3 := (ends_ok _ _).mp hl
    have hfull : (overwrite r.headerBuffer bytes).toList = bytes := toList_overwrite_full _ _ hl
    rw [complete_headerRead r hp bytes hl] at h
    cases hs : r.callbacks.select (.ofBytes bytes) with
    | none =>
      rw [hs] at h
      cases h
      exact ⟨rfl, .sof rfl, .headerDropped hp rfl rfl⟩
    | some callback =>
      rw [hs] at h
      cases h
      have hsel : r.callbacks.select (.ofBytes (overwrite r.headerBuffer bytes).toList) =
          some callback := by rw [hfull]; exact hs
      have hhead : bytes = (headerOf callback.reqType).bytes := by
        rw [← (select_header _ _ _ hs).1, FrameHeader.bytes_ofBytes bytes hl]
      exact ⟨rfl, .body callback rfl hsel, .chosen callback hp rfl hhead rfl hsel rfl⟩

theorem move_body (r r' : Receiver η) (c : Completion) (callback : Callback η)
    (hp : r.pending = [bodyRead callback]) (hsel : r.callbacks.select r.header = some callback)
    (h : r.complete c = some r') : r'.callbacks = r.callbacks ∧ Armed r' ∧ Move r c r' := by
  obtain ⟨err, bytes⟩ := c
  have hl := complete_ends r r' _ hp _ h
  obtain ⟨hhead, hsize, -⟩ := select_header _ _ _ hsel
  cases err with
  | true =>
    rw [complete_failed r _ hp bytes ((ends_failed _ _).mp hl)] at h
    cases h
    exact ⟨fill_callbacks r _ _, .sof rfl, .bodyDropped callback hp rfl (fill_invoked r _ _)⟩
  | false =>
    have hl := ((ends_ok _ _).mp hl).trans (bodyRead_length callback hsize)
    rw [complete_bodyRead r callback hp hsize bytes hl, hhead] at h
    obtain ⟨body, lo, hi, rfl⟩ := split_body callback.reqType bytes hl
    rw [judge_tail] at h
    by_cases hcrc : [lo, hi] = tailBytes (crc16 (checked callback.reqType body))
    · rw [if_pos hcrc] at h
      cases h
      exact ⟨rfl, .sof rfl, .accepted callback body hp rfl (hcrc ▸ rfl) rfl rfl⟩
    · rw [if_neg hcrc] at h
      cases h
      exact ⟨rfl, .sof rfl, .bodyDropped callback hp rfl (List.append_nil _)⟩

theorem complete_move (r r' : Receiver η) (c : Completion) (ha : Armed r)
    (h : r.complete c = some r') : r'.callbacks = r.callbacks ∧ Armed r' ∧ Move r c r' := by
  cases ha with
  | dead hp => simp [complete_dead r hp] at h
  | sof hp => exact move_sof r r' c hp h
  | header hp => exact move_header r r' c hp h
  | body callback hp hsel => exact move_body r r' c callback hp hsel h

end BusPlot.SerialInvariant
