import BusPlot.Handlers

/-!
# The chart as a replay

What the chart shows of a variable is a function of the messages for it since
its last removal. The handlers work on one shared map; the replay knows nothing
of pointers and of other variables.
-/

set_option autoImplicit false

namespace BusPlot.ChartReplay
open BusPlot.PlotSeries BusPlot.PlotChart BusPlot.Handlers

def isRemove : Message → Bool
  | .removeVariable _ => true
  | _ => false

def sinceRemove (v : UInt16) (log : List Message) : List Message :=
  ((log.filter (·.id = v)).reverse.takeWhile (!isRemove ·)).reverse

def aliasText : Message → Option (List UInt8)
  | .variableAlias req _ => some (characters req.aliasBytes.toList)
  | _ => none

def dot : Message → Option Dot
  | .updateVariable req now => some ⟨now, req.value⟩
  | _ => none

def labelOf (v : UInt16) (messages : List Message) : List UInt8 :=
  (messages.filterMap aliasText).getLast?.getD (varLabel v)

def replayed (v : UInt16) (log : List Message) : Option Series :=
  if sinceRemove v log = [] then none
  else some ⟨(sinceRemove v log).filterMap dot, labelOf v (sinceRemove v log)⟩

theorem sinceRemove_other (v : UInt16) (log : List Message) (msg : Message) (h : msg.id ≠ v) :
    sinceRemove v (log ++ [msg]) = sinceRemove v log := by
  simp [sinceRemove, h]

theorem sinceRemove_removed (v : UInt16) (log : List Message) (msg : Message) (h : msg.id = v)
    (hr : isRemove msg = true) : sinceRemove v (log ++ [msg]) = [] := by
  simp [sinceRemove, h, hr]

theorem sinceRemove_kept (v : UInt16) (log : List Message) (msg : Message) (h : msg.id = v)
    (hr : isRemove msg = false) : sinceRemove v (log ++ [msg]) = sinceRemove v log ++ [msg] := by
  simp [sinceRemove, h, hr]

theorem replayed_snoc (v : UInt16) (log : List Message) (msg : Message) :
    replayed v (log ++ [msg]) =
      if v = msg.id then msg.effect (replayed msg.id log) else replayed v log := by
  by_cases hv : v = msg.id
  · subst hv
    rw [if_pos rfl]
    cases msg with
    | variableAlias req behind =>
      rw [replayed, sinceRemove_kept _ _ _ rfl rfl, replayed]
      by_cases hs : sinceRemove (Message.variableAlias req behind).id log = [] <;>
        simp [hs, Message.effect, labelOf, aliasText, dot, Series.ext_iff]
    | updateVariable req now =>
      rw [replayed, sinceRemove_kept _ _ _ rfl rfl, replayed]
      by_cases hs : sinceRemove (Message.updateVariable req now).id log = [] <;>
        simp [hs, Message.effect, labelOf, aliasText, dot, Series.ext_iff]
    | removeVariable req =>
      rw [replayed, sinceRemove_removed _ log (.removeVariable req) rfl rfl, if_pos rfl]
      rfl
  · rw [if_neg hv, replayed, replayed, sinceRemove_other v log msg (Ne.symm hv)]

theorem handleAll_replayed (log : List Message) (ht : ∀ msg ∈ log, msg.Terminated) :
    ∃ c, handleAll .empty log = some c ∧ c.Linked ∧ ∀ v, c.view v = replayed v log := by
  induction log using List.reverseRecOn with
  | nil => exact ⟨.empty, rfl, Chart.empty_linked, Chart.empty_view⟩
  | append_singleton log msg ih =>
    obtain ⟨c, hrun, hc, hview⟩ := ih fun m hm => ht m (by simp [hm])
    obtain ⟨c', hstep, hc', hview'⟩ := handle_spec c hc msg (ht msg (by simp))
    refine ⟨c', ?_, hc', fun v => ?_⟩
    · rw [handleAll, PartialRun.run_snoc]
      exact Option.bind_eq_some_iff.mpr ⟨c, hrun, hstep⟩
    · rw [hview', replayed_snoc, hview, hview]

def Kept (v : UInt16) (log : List Message) : Prop :=
  ∃ pre msg post, log = pre ++ msg::post ∧ msg.id = v ∧ isRemove msg = false ∧
    ∀ m ∈ post, m.id = v → isRemove m = false

theorem mem_sinceRemove (v : UInt16) (log : List Message) (msg : Message) :
    msg ∈ sinceRemove v log ↔ ∃ pre post, log = pre ++ msg::post ∧ msg.id = v ∧
      isRemove msg = false ∧ ∀ m ∈ post, m.id = v → isRemove m = false := by
  induction log using List.reverseRecOn with
  | nil => simp [sinceRemove]
  | append_singleton log x ih =>
    have split : (∃ pre post, log ++ [x] = pre ++ msg::post ∧ msg.id = v ∧
        isRemove msg = false ∧ ∀ m ∈ post, m.id = v → isRemove m = false) ↔
          (x.id = v → isRemove x = false) ∧ ((msg = x ∧ x.id = v) ∨ msg ∈ sinceRemove v log) := by
      rw [ih]
      constructor
      · rintro ⟨pre, post, hlog, hid, hr, hpost⟩
        rcases (PartialRun.split_snoc _ _ _ _ _).mp hlog with ⟨-, -, rfl⟩ | ⟨post', rfl, hlog'⟩
        · exact ⟨fun _ => hr, .inl ⟨rfl, hid⟩⟩
        · exact ⟨fun h => hpost x (by simp) h,
            .inr ⟨pre, post', hlog', hid, hr, fun y hy => hpost y (by simp [hy])⟩⟩
      · rintro ⟨hr, ⟨rfl, hid⟩ | ⟨pre, post, rfl, hid, hm, hpost⟩⟩
        · exact ⟨log, [], rfl, hid, hr hid, by simp⟩
        · refine ⟨pre, post ++ [x], by simp, hid, hm, fun y hy => ?_⟩
          rcases List.mem_append.mp hy with hy | hy
          · exact hpost y hy
          · rw [List.mem_singleton.mp hy]
            exact hr
    rw [split]
    by_cases hid : x.id = v
    · cases hr : isRemove x with
      | true => simp [sinceRemove_removed v log x hid hr, hid]
      | false => simp [sinceRemove_kept v log x hid hr, hid, or_comm]
    · simp [sinceRemove_other v log x hid, hid]

theorem sinceRemove_ne_nil (v : UInt16) (log : List Message) :
    sinceRemove v log ≠ [] ↔ Kept v log := by
  constructor
  · intro h
    obtain ⟨msg, hmem⟩ := List.exists_mem_of_ne_nil _ h
    obtain ⟨pre, post, hsplit⟩ := (mem_sinceRemove v log msg).mp hmem
    exact ⟨pre, msg, post, hsplit⟩
  · rintro ⟨pre, msg, post, hsplit⟩
    exact List.ne_nil_of_mem ((mem_sinceRemove v log msg).mpr ⟨pre, post, hsplit⟩)

/-- Messages for different variables leave the same chart in either order. -/
theorem replayed_swap (v : UInt16) (pre post : List Message) (a b : Message) (h : a.id ≠ b.id) :
    replayed v (pre ++ a::b::post) = replayed v (pre ++ b::a::post) := by
  have hfilter : (pre ++ a::b::post).filter (·.id = v) = (pre ++ b::a::post).filter (·.id = v) := by
    by_cases ha : a.id = v
    · have hb : b.id ≠ v := fun hb => h (ha.trans hb.symm)
      simp [ha, hb]
    · simp [List.filter_cons, ha]
  have hsince : sinceRemove v (pre ++ a::b::post) = sinceRemove v (pre ++ b::a::post) := by
    simp only [sinceRemove, hfilter]
  rw [replayed, replayed, hsince]

/-- Whatever messages arrive, in whatever order and at whatever times, the
chart is the replay of the log variable by variable, and no handler follows a
null pointer. -/
theorem chart_replays (log : List Message) (ht : ∀ msg ∈ log, msg.Terminated) :
    ∃ c, handleAll .empty log = some c ∧
      (∀ v, v ∈ c.series ↔ Kept v log) ∧
      (∀ v, Kept v log → ∃ s, c.view v = some s ∧
        s.label = labelOf v (sinceRemove v log) ∧ s.data = (sinceRemove v log).filterMap dot) ∧
      (∀ pre a b post, log = pre ++ a::b::post → a.id ≠ b.id →
        ∃ c', handleAll .empty (pre ++ b::a::post) = some c' ∧ ∀ v, c'.view v = c.view v) := by
  obtain ⟨c, hrun, hc, hview⟩ := handleAll_replayed log ht
  refine ⟨c, hrun, fun v => ?_, fun v hv => ?_, ?_⟩
  · rw [c.mem_iff_view hc, hview, ← sinceRemove_ne_nil, replayed]
    split <;> simp [*]
  · rw [hview, replayed, if_neg ((sinceRemove_ne_nil v log).mpr hv)]
    exact ⟨_, rfl, rfl, rfl⟩
  · rintro pre a b post rfl hne
    obtain ⟨c', hrun', -, hview'⟩ := handleAll_replayed (pre ++ b::a::post) fun m hm =>
      ht m (by simpa [or_left_comm] using hm)
    exact ⟨c', hrun', fun v => by rw [hview', hview, replayed_swap v pre post a b hne]⟩

def sampleLog : List Message :=
  [.variableAlias ⟨1, #v[0x41, 0, 0, 0, 0, 0, 0, 0, 0, 0]⟩ [], .updateVariable ⟨1, 0x40000000⟩ 5,
    .removeVariable ⟨2⟩]

theorem chart_replays_sample :
    ∃ c, handleAll .empty sampleLog = some c ∧ ((1 : UInt16) ∈ c.series ↔ Kept 1 sampleLog) := by
  obtain ⟨c, hrun, hmem, -, -⟩ :=
    chart_replays sampleLog (by simp [sampleLog, Message.Terminated])
  exact ⟨c, hrun, hmem 1⟩

end BusPlot.ChartReplay
