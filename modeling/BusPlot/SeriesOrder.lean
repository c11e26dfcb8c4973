import BusPlot.ChartReplay

/-!
# Samples in time order

The plot finds the samples of its window by binary search. What it relies on is
written by the update handler alone, which stamps a sample with the reading of a
clock that may be set back.
-/

set_option autoImplicit false

namespace BusPlot.SeriesOrder
open BusPlot.PlotSeries BusPlot.PlotChart BusPlot.Handlers BusPlot.ChartReplay

def InOrder (data : List Dot) : Prop := data.Pairwise fun a b => a.time ≤ b.time

def EverySeriesInOrder (c : Chart) : Prop := ∀ v s, c.view v = some s → InOrder s.data

def ClockForward (log : List Message) : Prop :=
  ∀ pre a s mid b t post,
    log = pre ++ .updateVariable a s::(mid ++ .updateVariable b t::post) →
      b.variableId = a.variableId → (∀ m ∈ mid, m.id = a.variableId → isRemove m = false) → s ≤ t

def samples (v : UInt16) (log : List Message) : List Dot := (sinceRemove v log).filterMap dot

theorem replayed_data (v : UInt16) (log : List Message) :
    ((replayed v log).map (·.data)).getD [] = samples v log := by
  rw [replayed, samples]
  split
  · rename_i h
    rw [h]
    rfl
  · rfl

theorem effect_data (msg : Message) (old old' : Option Series)
    (h : old.map (·.data) = old'.map (·.data)) :
    (msg.effect old).map (·.data) = (msg.effect old').map (·.data) := by
  cases msg <;> cases old <;> cases old' <;> simp_all [Message.effect]

/-- Labels apart, the chart is the replay even when an alias was not
terminated. -/
theorem handleAll_data (log : List Message) (c : Chart) (h : handleAll .empty log = some c)
    (v : UInt16) : (c.view v).map (·.data) = (replayed v log).map (·.data) := by
  have hrun : c.Linked ∧ ∀ v, (c.view v).map (·.data) = (replayed v log).map (·.data) := by
    apply PartialRun.run_history handle (fun log c =>
      c.Linked ∧ ∀ v, (c.view v).map (·.data) = (replayed v log).map (·.data)) .empty _ _ log c h
    · exact ⟨Chart.empty_linked, fun v => by rw [Chart.empty_view]; rfl⟩
    · rintro log m msg m' ⟨hm, hview⟩ hstep
      obtain ⟨hm', hview'⟩ := handle_data m m' hm msg hstep
      refine ⟨hm', fun v => ?_⟩
      rw [hview', replayed_snoc]
      split
      · exact effect_data msg _ _ (hview msg.id)
      · exact hview v
  exact hrun.2 v

theorem in_order_iff (log : List Message) (c : Chart) (h : handleAll .empty log = some c) :
    EverySeriesInOrder c ↔ ∀ v, InOrder (samples v log) := by
  refine forall_congr' fun v => ?_
  rw [← replayed_data, ← handleAll_data log c h v]
  cases c.view v with
  | none => simp [InOrder]
  | some s => simp

theorem samples_update (log : List Message) (req : UpdateVariableReq) (now : ℤ) :
    samples req.variableId (log ++ [.updateVariable req now]) =
      samples req.variableId log ++ [⟨now, req.value⟩] := by
  rw [samples, sinceRemove_kept req.variableId log (.updateVariable req now) rfl rfl,
    List.filterMap_append]
  rfl

theorem mem_samples (v : UInt16) (log : List Message) (d : Dot) :
    d ∈ samples v log ↔ ∃ pre req post, log = pre ++ .updateVariable req d.time::post ∧
      req.variableId = v ∧ req.value = d.value ∧ ∀ m ∈ post, m.id = v → isRemove m = false := by
  rw [samples, List.mem_filterMap]
  constructor
  · rintro ⟨msg, hmem, hd⟩
    cases msg with
    | updateVariable req now =>
      cases hd
      obtain ⟨pre, post, hlog, hid, -, hpost⟩ := (mem_sinceRemove v log _).mp hmem
      exact ⟨pre, req, post, hlog, hid, rfl, hpost⟩
    | variableAlias req behind => cases hd
    | removeVariable req => cases hd
  · rintro ⟨pre, req, post, hlog, hid, hvalue, hpost⟩
    refine ⟨.updateVariable req d.time,
      (mem_sinceRemove v log _).mpr ⟨pre, post, hlog, hid, rfl, hpost⟩, ?_⟩
    simp [dot, hvalue]

theorem clockForward_append (log more : List Message) (h : ClockForward (log ++ more)) :
    ClockForward log := by
  rintro pre a s mid b t post rfl
  exact h pre a s mid b t (post ++ more) (by simp)

theorem samples_in_order (log : List Message) (h : ClockForward log) (v : UInt16) :
    InOrder (samples v log) := by
  induction log using List.reverseRecOn with
  | nil => exact List.Pairwise.nil
  | append_singleton log msg ih =>
    have ih := ih (clockForward_append log [msg] h)
    by_cases hid : msg.id = v
    · cases msg with
      | variableAlias req behind =>
        rw [samples, sinceRemove_kept v log _ hid rfl, List.filterMap_append]
        exact (List.append_nil (samples v log)).symm ▸ ih
      | updateVariable req now =>
        obtain rfl : req.variableId = v := hid
        rw [samples_update]
        refine List.pairwise_append.mpr ⟨ih, List.pairwise_singleton _ _, fun d hd e he => ?_⟩
        rw [List.mem_singleton.mp he]
        obtain ⟨pre, a, mid, rfl, hva, -, hmid⟩ := (mem_samples _ _ d).mp hd
        exact h pre a d.time mid req now [] (by simp) hva.symm (hva ▸ hmid)
      | removeVariable req =>
        rw [samples, sinceRemove_removed v log _ hid rfl]
        exact List.Pairwise.nil
    · rw [samples, sinceRemove_other v log msg hid]
      exact ih

/-- Over every log: all series are in time order in every state passed through
exactly when the clock never went back under a variable. -/
theorem series_in_order_iff (log : List Message) (c : Chart)
    (h : handleAll .empty log = some c) :
    (∀ pre post m, log = pre ++ post → handleAll .empty pre = some m → EverySeriesInOrder m) ↔
      ClockForward log := by
  constructor
  · rintro hall pre a s mid b t post rfl hid hmid
    have hlog : pre ++ .updateVariable a s::(mid ++ .updateVariable b t::post) =
        ((pre ++ .updateVariable a s::mid) ++ [.updateVariable b t]) ++ post := by simp
    rw [hlog] at h
    obtain ⟨m, hm, -⟩ := PartialRun.run_split handle .empty c _ post h
    have horder := (in_order_iff _ m hm).mp (hall _ post m hlog hm) b.variableId
    rw [samples_update] at horder
    have ha : ⟨s, a.value⟩ ∈ samples b.variableId (pre ++ .updateVariable a s::mid) :=
      (mem_samples _ _ _).mpr ⟨pre, a, mid, rfl, hid.symm, rfl, fun m hm hv => hmid m hm (hv.trans hid)⟩
    exact (List.pairwise_append.mp horder).2.2 _ ha ⟨t, b.value⟩ (by simp)
  · rintro hclock pre post m rfl hm
    exact (in_order_iff pre m hm).mpr (samples_in_order pre (clockForward_append pre post hclock))

def setBack : List Message := [.updateVariable ⟨1, 0⟩ 5, .updateVariable ⟨1, 0⟩ 3]

theorem series_in_order_iff_setBack :
    (∀ pre post m, setBack = pre ++ post → handleAll .empty pre = some m →
      EverySeriesInOrder m) ↔ ClockForward setBack :=
  series_in_order_iff setBack
    ⟨(∅ : AList fun _ : UInt16 => SharedPtr).insert 1 (some 0),
      [⟨[⟨5, 0⟩, ⟨3, 0⟩], varLabel 1⟩]⟩ rfl

theorem setBack_out_of_order :
    ∃ c, handleAll .empty setBack = some c ∧ ¬ EverySeriesInOrder c := by
  refine ⟨_, rfl, fun h => ?_⟩
  have := h 1 ⟨[⟨5, 0⟩, ⟨3, 0⟩], varLabel 1⟩ rfl
  simp [InOrder] at this

end BusPlot.SeriesOrder
