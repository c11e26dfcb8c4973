import BusPlot.PlotDrawing
import BusPlot.Requests

/-!
# From the wire to the window

The whole program on one stream: the receiver of `main` calls the handlers with
the bodies it accepts, the handlers read them as structures and work on the
chart, and a frame of the window draws the chart. The clock and the memory behind
a request are what the environment gives to each call.
-/

set_option autoImplicit false

namespace BusPlot.WireToPlot
open BusPlot.Protocol BusPlot.SerialReceiver BusPlot.SerialInvariant BusPlot.SerialStream
open BusPlot.SerialDelivery BusPlot.SerialSections BusPlot.Registrations BusPlot.Requests
open BusPlot.PlotSeries BusPlot.PlotChart BusPlot.Handlers BusPlot.ChartReplay BusPlot.SeriesOrder
open BusPlot.PlotDrawing Framing

structure Surroundings where
  now : ℤ
  stack : List UInt8

def message (call : Invocation Handler) (at_ : Surroundings) : Message :=
  let bytes := call.request.toList
  match call.callback.process with
  | .handleVariableAliasRequest => .variableAlias (variableAlias.read bytes)
      ((makeRequest call.callback.reqType call.request).tail.bytes ++ at_.stack)
  | .handleUpdateVariableRequest => .updateVariable (updateVariable.read bytes) at_.now
  | .handleRemoveVariableRequest => .removeVariable (removeVariable.read bytes)

def messages (around : ℕ → Surroundings) (calls : List (Invocation Handler)) : List Message :=
  calls.zipIdx.map fun call => message call.1 (around call.2)

theorem messages_snoc (around : ℕ → Surroundings) (calls : List (Invocation Handler))
    (call : Invocation Handler) :
    messages around (calls ++ [call]) =
      messages around calls ++ [message call (around calls.length)] := by
  simp [messages, List.zipIdx_append]

theorem messages_congr (around around' : ℕ → Surroundings) (calls : List (Invocation Handler))
    (h : ∀ i, i < calls.length → around i = around' i) :
    messages around calls = messages around' calls := by
  apply List.map_congr_left
  intro call hcall
  rw [h call.2 (List.snd_lt_of_mem_zipIdx hcall)]

def charted (around : ℕ → Surroundings) (chunks : List (List UInt8)) : Option Chart :=
  handleAll .empty (messages around (alone mainCallbacks chunks).receiver.invoked)

inductive Sent
  | variableAlias (req : VariableAliasReq)
  | updateVariable (req : UpdateVariableReq)
  | removeVariable (req : RemoveVariableReq)
  deriving DecidableEq, Repr

def Sent.call : Sent → Invocation Handler
  | .variableAlias req => Requests.variableAlias.call .handleVariableAliasRequest req
  | .updateVariable req => Requests.updateVariable.call .handleUpdateVariableRequest req
  | .removeVariable req => Requests.removeVariable.call .handleRemoveVariableRequest req

def Sent.message (at_ : Surroundings) : Sent → Message
  | .variableAlias req =>
    .variableAlias req ((makeRequest variableAliasReq (Requests.variableAlias.body req)).tail.bytes ++
      at_.stack)
  | .updateVariable req => .updateVariable req at_.now
  | .removeVariable req => .removeVariable req

theorem message_call (s : Sent) (at_ : Surroundings) : message s.call at_ = s.message at_ := by
  cases s with
  | variableAlias req =>
    exact congrArg (fun r => Message.variableAlias r _) (Requests.variableAlias.read_body req)
  | updateVariable req =>
    exact congrArg (fun r => Message.updateVariable r _) (Requests.updateVariable.read_body req)
  | removeVariable req =>
    exact congrArg Message.removeVariable (Requests.removeVariable.read_body req)

theorem call_mem (s : Sent) : s.call.callback ∈ mainCallbacks := by
  cases s <;> simp [Sent.call, RequestType.call, mainCallbacks, aliasCallback, updateCallback,
    removeCallback, Requests.variableAlias, Requests.updateVariable, Requests.removeVariable]

def Sent.Named : Sent → Prop
  | .variableAlias req => 0 ∈ req.aliasBytes.toList
  | _ => True

def logOf (around : ℕ → Surroundings) (sent : List Sent) : List Message :=
  sent.zipIdx.map fun s => s.1.message (around s.2)

theorem messages_calls (around : ℕ → Surroundings) (sent : List Sent) :
    messages around (sent.map Sent.call) = logOf around sent := by
  rw [messages, List.zipIdx_map, List.map_map, logOf]
  apply List.map_congr_left
  intro s _
  exact message_call s.1 (around s.2)

theorem logOf_terminated (around : ℕ → Surroundings) (sent : List Sent)
    (h : ∀ s ∈ sent, s.Named) : ∀ msg ∈ logOf around sent, msg.Terminated := by
  intro msg hmsg
  obtain ⟨⟨s, i⟩, hs, rfl⟩ := List.mem_map.mp hmsg
  have hnamed := h s (List.fst_mem_of_mem_zipIdx hs)
  cases s with
  | variableAlias req => exact hnamed
  | updateVariable req => trivial
  | removeVariable req => trivial

theorem message_time (s : Sent) (at_ : Surroundings) (req : UpdateVariableReq) (t : ℤ)
    (h : s.message at_ = .updateVariable req t) : t = at_.now := by
  cases s <;> cases h
  rfl

theorem logOf_forward (around : ℕ → Surroundings)
    (hclock : ∀ i j, i ≤ j → (around i).now ≤ (around j).now) (sent : List Sent) :
    ClockForward (logOf around sent) := by
  intro pre a s mid b t post hlog _ _
  have time : ∀ (i : ℕ) (req : UpdateVariableReq) (t : ℤ),
      (logOf around sent)[i]? = some (.updateVariable req t) → t = (around i).now := by
    intro i req t hi
    rw [logOf, List.getElem?_map, List.getElem?_zipIdx] at hi
    cases hs : sent[i]? with
    | none => simp [hs] at hi
    | some x =>
      simp only [hs, Option.map_some, Option.some.injEq, Nat.zero_add] at hi
      exact message_time x (around i) req t hi
  have hs := time pre.length a s (by rw [hlog]; simp)
  have ht := time (pre.length+(mid.length+1)) b t (by rw [hlog]; simp)
  rw [hs, ht]
  exact hclock _ _ (by omega)

structure Traffic (chunks : List (List UInt8)) (sent : List Sent) : Prop where
  named : ∀ s ∈ sent, s.Named
  stream : ∃ (idle : List (List UInt8)) (last : List UInt8), idle.length = sent.length ∧
    (∀ gap ∈ idle, ∀ b ∈ gap, b ≠ SOF) ∧ (∀ b ∈ last, b ≠ SOF) ∧
    chunks.flatten = (idle.zip sent).flatMap (fun t => t.1 ++ image t.2.call) ++ last

theorem traffic_calls (chunks : List (List UInt8)) (sent : List Sent) (h : Traffic chunks sent) :
    (alone mainCallbacks chunks).receiver.invoked = sent.map Sent.call := by
  obtain ⟨-, idle, last, hlen, hidle, hlast, hflat⟩ := h
  have hscan := scan_traffic (Receiver.registered mainCallbacks).callbacks
    ((idle.zip sent).map fun t => (t.1, t.2.call)) (by
      rintro _ hmem
      obtain ⟨⟨gap, s⟩, ht, rfl⟩ := List.mem_map.mp hmem
      refine ⟨hidle gap (List.of_mem_zip ht).1, known_of_find mainCallbacks _ ?_ ?_⟩
      · exact find_of_mem mainCallbacks _ mainCallbacks_nodup (call_mem s)
      · exact mainCallbacks_size _ (call_mem s))
  rw [List.flatMap_map] at hscan
  have hcalls : (alone mainCallbacks chunks).receiver.invoked = _ :=
    grabbing_invoked mainCallbacks chunks
  rw [hcalls, hflat, scan_append, hscan, scan_idles (F := wire _) last hlast, List.append_nil,
    List.map_map]
  have hsent : (idle.zip sent).map Prod.snd = sent :=
    List.map_snd_zip (le_of_eq hlen.symm)
  conv => rhs; rw [← hsent]
  rw [List.map_map]
  rfl

theorem traffic_charted (around : ℕ → Surroundings) (chunks : List (List UInt8))
    (sent : List Sent) (h : Traffic chunks sent) :
    ∃ c, charted around chunks = some c ∧ c.Linked ∧
      ∀ v, c.view v = replayed v (logOf around sent) := by
  rw [charted, traffic_calls chunks sent h, messages_calls]
  exact handleAll_replayed _ (logOf_terminated around sent h.named)

theorem traffic_in_order (around : ℕ → Surroundings)
    (hclock : ∀ i j, i ≤ j → (around i).now ≤ (around j).now) (chunks : List (List UInt8))
    (sent : List Sent) (c : Chart) (h : charted around chunks = some c)
    (ht : Traffic chunks sent) : EverySeriesInOrder c := by
  rw [charted, traffic_calls chunks sent ht, messages_calls] at h
  exact (in_order_iff _ c h).mpr (samples_in_order _ (logOf_forward around hclock sent))

theorem replayed_cases (v : UInt16) (log : List Message) :
    (replayed v log = none ∧ samples v log = [] ∧ ¬ Kept v log) ∨
      replayed v log = some ⟨samples v log, labelOf v (sinceRemove v log)⟩ ∧ Kept v log := by
  have hkept := sinceRemove_ne_nil v log
  by_cases hs : sinceRemove v log = []
  · refine .inl ⟨by rw [replayed, if_pos hs], by rw [samples, hs]; rfl, fun hk => ?_⟩
    exact hkept.mpr hk hs
  · exact .inr ⟨by rw [replayed, if_neg hs]; rfl, hkept.mp hs⟩

theorem keys_kept (c : Chart) (hc : c.Linked) (log : List Message)
    (hview : ∀ v, c.view v = replayed v log) (v : UInt16) : v ∈ c.series.keys ↔ Kept v log := by
  have hmem : v ∈ c.series.keys ↔ v ∈ c.series := Iff.rfl
  rw [hmem, c.mem_iff_view hc, hview]
  rcases replayed_cases v log with ⟨hnone, -, hno⟩ | ⟨hsome, hk⟩
  · simp [hnone, hno]
  · simp [hsome, hk]

def client (values : List (UInt32 × UInt32)) : List Sent :=
  .variableAlias ⟨1, #v[0x46, 0x6F, 0x6F, 0, 0, 0, 0, 0, 0, 0]⟩::
    .variableAlias ⟨2, #v[0x42, 0x61, 0x72, 0, 0, 0, 0, 0, 0, 0]⟩::
      values.flatMap fun value => [.updateVariable ⟨1, value.1⟩, .updateVariable ⟨2, value.2⟩]

/-- Whatever it sends, each frame may come as a delivery of its own. -/
theorem client_traffic (values : List (UInt32 × UInt32)) :
    Traffic ((client values).map fun s => image s.call) (client values) where
  named s hs := by
    simp only [client, List.mem_cons, List.mem_flatMap] at hs
    rcases hs with rfl | rfl | ⟨value, -, hs⟩
    · simp [Sent.Named]
    · simp [Sent.Named]
    · rcases hs with rfl | rfl | hs
      · trivial
      · trivial
      · exact absurd hs (List.not_mem_nil)
  stream := by
    refine ⟨List.replicate (client values).length [], [], List.length_replicate, ?_, by simp, ?_⟩
    · intro gap hgap
      rw [List.eq_of_mem_replicate hgap]
      simp
    · rw [List.append_nil]
      generalize client values = sent
      induction sent with
      | nil => rfl
      | cons s sent ih =>
        rw [List.map_cons, List.flatten_cons, ih, List.length_cons, List.replicate_succ,
          List.zip_cons_cons, List.flatMap_cons, List.nil_append]

def ticking (i : ℕ) : Surroundings := ⟨i, []⟩

theorem ticking_forward (i j : ℕ) (h : i ≤ j) : (ticking i).now ≤ (ticking j).now :=
  Int.ofNat_le.mpr h

theorem client_since (v : UInt16) :
    sinceRemove v (logOf ticking (client [(1, 2), (3, 4)])) ≠ [] ↔ v ∈ [1, 2] := by
  constructor
  · intro hv
    by_contra hnot
    have hids : ∀ msg ∈ logOf ticking (client [(1, 2), (3, 4)]), msg.id ∈ [(1 : UInt16), 2] := by
      decide
    have hnone : (logOf ticking (client [(1, 2), (3, 4)])).filter (·.id = v) = [] :=
      List.filter_eq_nil_iff.mpr fun msg hmsg heq =>
        hnot (of_decide_eq_true heq ▸ hids msg hmsg)
    rw [sinceRemove, hnone] at hv
    exact hv rfl
  · intro hv
    rcases List.mem_pair.mp hv with rfl | rfl <;> decide

def expectedRow (log : List Message) (timeZoneDiff timeLimit : ℤ) (cells : ℕ → Cell) (v : UInt16)
    (id : ℕ) : Row :=
  ⟨id, labelOf v (sinceRemove v log), (samples v log).getLast?.map (·.value),
    if (cells id).beginPlot then
      picture timeZoneDiff timeLimit (cells id).timeNow (samples v log)
    else none⟩

theorem getSeriesOrDefault_kept (c : Chart) (hc : c.Linked) (log : List Message)
    (hview : ∀ v, c.view v = replayed v log) (v : UInt16) :
    c.getSeriesOrDefault v = none ↔ ¬ Kept v log := by
  rw [c.getSeriesOrDefault_null hc, ← keys_kept c hc log hview v]
  rfl

/-- For the same streams, clocks and time limits the table has, if `BeginTable` says
yes, one row for each variable that was named or updated since its last removal,
numbered through, with its last value or none, and, where `BeginPlot` says yes, a
sparkline of the window at the moment the row is drawn. -/
theorem wire_to_table (around : ℕ → Surroundings)
    (hclock : ∀ i j, i ≤ j → (around i).now ≤ (around j).now) (chunks : List (List UInt8))
    (sent : List Sent) (h : Traffic chunks sent) :
    ∃ c, charted around chunks = some c ∧
      (∀ v, c.getSeriesOrDefault v = none ↔ ¬ Kept v (logOf around sent)) ∧
      ∀ beginTable offset timeLimit (cells : ℕ → Cell), 0 ≤ timeLimit →
        ∃ (rows : List Row) (shown : List UInt16),
          renderTable c beginTable (timeZoneDiff offset) timeLimit cells = some rows ∧
          shown.Nodup ∧ (∀ v, v ∈ shown ↔ Kept v (logOf around sent)) ∧
          rows = if beginTable then shown.zipIdx.map fun k =>
            expectedRow (logOf around sent) (timeZoneDiff offset) timeLimit cells k.1 k.2
          else [] := by
  obtain ⟨c, hrun, hc, hview⟩ := traffic_charted around chunks sent h
  have horder := traffic_in_order around hclock chunks sent c hrun h
  generalize logOf around sent = log at *
  refine ⟨c, hrun, getSeriesOrDefault_kept c hc log hview,
    fun beginTable offset timeLimit cells hlimit => ?_⟩
  generalize timeZoneDiff offset = zone
  cases beginTable with
  | false => exact ⟨[], c.series.keys, rfl, c.series.keys_nodup, keys_kept c hc log hview, rfl⟩
  | true =>
    refine ⟨_, c.series.keys, renderTable_rows c hc horder zone timeLimit cells hlimit,
      c.series.keys_nodup, keys_kept c hc log hview, ?_⟩
    rw [if_pos rfl]
    apply List.map_congr_left
    rintro ⟨v, id⟩ hk
    have hv := (keys_kept c hc log hview v).mp (List.fst_mem_of_mem_zipIdx hk)
    rcases replayed_cases v log with ⟨-, -, hno⟩ | ⟨hsome, -⟩
    · exact absurd hv hno
    · simp only [rowOf, hview, hsome, Option.getD_some]
      rfl

theorem wire_to_table_client :
    ∃ c rows, charted ticking ((client [(1, 2), (3, 4)]).map fun s => image s.call) = some c ∧
      renderTable c true (timeZoneDiff 28800) 5000000 (fun _ => ⟨10, true⟩) = some rows ∧
      rows.map (·.id) = [0, 1] ∧
      (rows.map fun row => (row.label, row.value, row.spark)).Perm
        [([0x46, 0x6F, 0x6F], some 3, some [⟨28800000002, 1⟩, ⟨28800000004, 3⟩]),
          ([0x42, 0x61, 0x72], some 4, some [⟨28800000003, 2⟩, ⟨28800000005, 4⟩])] := by
  obtain ⟨c, hrun, -, htable⟩ := wire_to_table ticking ticking_forward _ (client [(1, 2), (3, 4)])
    (client_traffic _)
  obtain ⟨rows, shown, hrows, hnodup, hshown, rfl⟩ :=
    htable true 28800 5000000 (fun _ => ⟨10, true⟩) (by decide)
  have hperm : shown.Perm [1, 2] := (List.perm_ext_iff_of_nodup hnodup (by decide)).mpr fun v => by
    rw [hshown, ← sinceRemove_ne_nil, client_since]
  refine ⟨c, _, hrun, hrows, ?_, ?_⟩
  · rw [if_pos rfl, List.map_map]
    have hids : shown.zipIdx.map (fun k => k.2) = [0, 1] := by
      rw [List.zipIdx_map_snd, hperm.length_eq]
      rfl
    exact hids
  · rw [if_pos rfl, List.map_map]
    let shows : UInt16 → List UInt8 × Option UInt32 × Option (List Dot) := fun v =>
      let row := expectedRow (logOf ticking (client [(1, 2), (3, 4)])) (timeZoneDiff 28800) 5000000
        (fun _ => ⟨10, true⟩) v 0
      (row.label, row.value, row.spark)
    have hshows : shown.zipIdx.map (fun k => shows k.1) = shown.map shows := by
      conv_rhs => rw [← List.zipIdx_map_fst 0 shown, List.map_map]
      rfl
    exact (List.Perm.of_eq hshows).trans (hperm.map shows)

end BusPlot.WireToPlot
