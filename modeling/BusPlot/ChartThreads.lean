import BusPlot.ChartSteps
import BusPlot.Library.PartialRun

/-!
# The chart between two threads

The worker runs handlers, the other thread draws; one step of either is one
access. `order` is the order in which the map is walked: an insertion may change
it in any way, an erasure takes one id out. A walk keeps the ids that were there
when the mutex was taken and those it has visited. An iterator to an erased
element cannot be advanced.
-/

set_option autoImplicit false

namespace BusPlot.ChartThreads
open BusPlot.PlotChart BusPlot.Handlers BusPlot.ChartSteps PartialRun

inductive Holder
  | worker
  | render
  deriving DecidableEq, Repr

/-- `RenderPlot` or `RenderTable` between the lock and the unlock. `drawn` is what
`BeginPlot` or `BeginTable` returned. -/
structure Pass where
  drawn : Bool
  present : List UInt16
  visited : List UInt16
  it : Option UInt16

structure Threads where
  chart : Chart
  order : List UInt16
  holder : Option Holder
  worker : Option Todo
  render : Option Pass
  finished : List Pass

def start : Threads := ⟨.empty, [], none, none, none, []⟩

inductive Event
  | receive (msg : Message)
  | work (order : List UInt16)
  | lock (drawn : Bool)
  | advance
  | unlock

def reorder (order fresh : List UInt16) : Todo → Option (List UInt16)
  | .insert seriesId _ =>
    if seriesId ∈ order then some order
    else if fresh.Perm (seriesId::order) then some fresh else none
  | .erase seriesId => some (order.erase seriesId)
  | _ => some order

def hold (holder : Option Holder) : Todo → Option (Option Holder)
  | .lock _ _ => if holder = none then some (some .worker) else none
  | .unlock _ => some none
  | _ => some holder

def next (v : UInt16) : List UInt16 → Option (Option UInt16)
  | [] => none
  | w::rest => if w = v then some rest.head? else next v rest

def step (s : Threads) : Event → Option Threads
  | .receive msg => if s.worker = none then some { s with worker := some (first msg) } else none
  | .work fresh =>
    s.worker.bind fun todo =>
      (reorder s.order fresh todo).bind fun order =>
        (hold s.holder todo).map fun holder =>
          { s with
            chart := (act s.chart todo).1
            order := order
            holder := holder
            worker := (act s.chart todo).2 }
  | .lock drawn =>
    if s.holder = none then
      some { s with
        holder := some .render
        render := some ⟨drawn, s.order, [], if drawn then s.order.head? else none⟩ }
    else none
  | .advance =>
    s.render.bind fun pass =>
      pass.it.bind fun v =>
        (next v s.order).map fun it =>
          { s with render := some { pass with visited := pass.visited ++ [v], it := it } }
  | .unlock =>
    s.render.bind fun pass =>
      if pass.it = none then
        some { s with holder := none, render := none, finished := s.finished ++ [pass] }
      else none

def Pass.Steady (pass : Pass) (order : List UInt16) : Prop :=
  order = pass.present ∧
    (pass.drawn = true → ∃ rest, pass.present = pass.visited ++ rest ∧ pass.it = rest.head?)

def Pass.Complete (pass : Pass) : Prop :=
  pass.drawn = true → pass.visited = pass.present ∧ pass.visited.Nodup

structure Sound (s : Threads) : Prop where
  steady : ∀ pass, s.render = some pass → pass.Steady s.order
  complete : ∀ pass ∈ s.finished, pass.Complete

/-- No series that is in the chart is erased while it is drawn. -/
def Gentle (s : Threads) : Event → Prop
  | .work _ => ∀ seriesId, s.worker = some (.erase seriesId) → s.render ≠ none →
    seriesId ∉ s.chart.series
  | _ => True

def Locked : Todo → Prop
  | .insert _ _ => True
  | .unlock _ => True
  | _ => False

structure Consistent (s : Threads) : Prop where
  keys : ∀ v, v ∈ s.order ↔ v ∈ s.chart.series
  nodup : s.order.Nodup
  drawing : s.render ≠ none → s.holder = some .render
  adding : ∀ todo, s.worker = some todo → Locked todo → s.holder = some .worker

theorem work_some (s s' : Threads) (fresh : List UInt16) (h : step s (.work fresh) = some s') :
    ∃ todo order holder, s.worker = some todo ∧ reorder s.order fresh todo = some order ∧
      hold s.holder todo = some holder ∧
      s' = { s with
        chart := (act s.chart todo).1, order := order, holder := holder
        worker := (act s.chart todo).2 } := by
  obtain ⟨todo, hw, h⟩ := Option.bind_eq_some_iff.mp h
  obtain ⟨order, ho, h⟩ := Option.bind_eq_some_iff.mp h
  obtain ⟨holder, hh, h⟩ := Option.map_eq_some_iff.mp h
  exact ⟨todo, order, holder, hw, ho, hh, h.symm⟩

theorem work_erase (s s' : Threads) (fresh : List UInt16) (seriesId : UInt16)
    (h : step s (.work fresh) = some s') (hw : s.worker = some (.erase seriesId)) :
    s'.order = s.order.erase seriesId := by
  obtain ⟨todo, order, holder, hw', ho, -, rfl⟩ := work_some s s' fresh h
  rw [hw] at hw'
  cases hw'
  cases ho
  rfl

theorem reorder_keys (c : Chart) (order fresh order' : List UInt16) (todo : Todo)
    (hkeys : ∀ v, v ∈ order ↔ v ∈ c.series) (hnd : order.Nodup)
    (h : reorder order fresh todo = some order') :
    (∀ v, v ∈ order' ↔ v ∈ (act c todo).1.series) ∧ order'.Nodup := by
  have same : order = order' → (∀ v, v ∈ (act c todo).1.series ↔ v ∈ c.series) →
      (∀ v, v ∈ order' ↔ v ∈ (act c todo).1.series) ∧ order'.Nodup := by
    rintro rfl hact
    exact ⟨fun v => (hkeys v).trans (hact v).symm, hnd⟩
  cases todo with
  | insert seriesId made =>
    simp only [reorder] at h
    split at h
    · rename_i hmem
      refine same (Option.some.inj h) fun v => (act_keys _ _ _).trans ⟨?_, .inr⟩
      rintro (rfl | hv)
      · exact (hkeys v).mp hmem
      · exact hv
    · rename_i hmem
      split at h
      · rename_i hperm
        cases h
        refine ⟨fun v => ?_, hperm.nodup_iff.mpr (List.nodup_cons.mpr ⟨hmem, hnd⟩)⟩
        rw [hperm.mem_iff, List.mem_cons, hkeys, act_keys]
      · cases h
  | erase seriesId =>
    cases h
    refine ⟨fun v => ?_, hnd.erase seriesId⟩
    rw [hnd.mem_erase_iff, hkeys, act_keys]
  | find seriesId => exact same (Option.some.inj h) fun v => act_keys _ _ _
  | lock seriesId made => exact same (Option.some.inj h) fun v => act_keys _ _ _
  | unlock result => exact same (Option.some.inj h) fun v => act_keys _ _ _
  | use series => exact same (Option.some.inj h) fun v => act_keys _ _ _

theorem start_consistent : Consistent start :=
  ⟨fun v => by simp [start, Chart.empty], List.nodup_nil, by simp [start], by simp [start]⟩

/-- While the other thread holds the mutex, a step of the worker leaves the
mutex alone, and only an erasure changes the walk. -/
theorem work_drawing (s s' : Threads) (fresh : List UInt16) (hs : Consistent s)
    (h : step s (.work fresh) = some s') (hdraw : s.render ≠ none) :
    s'.holder = some .render ∧ (∀ todo, s'.worker = some todo → ¬ Locked todo) ∧
      (s'.order = s.order ∨ ∃ seriesId, s.worker = some (.erase seriesId) ∧
        s'.order = s.order.erase seriesId) := by
  obtain ⟨todo, order, holder, hw, ho, hh, rfl⟩ := work_some s s' fresh h
  have hheld := hs.drawing hdraw
  have hfree : ¬ Locked todo := by
    intro hl
    rw [hs.adding todo hw hl] at hheld
    cases hheld
  rw [hheld] at hh
  cases todo with
  | find seriesId =>
    cases ho
    cases hh
    refine ⟨rfl, fun todo ht => ?_, .inl rfl⟩
    simp only [act] at ht
    split at ht <;> cases ht <;> exact id
  | lock seriesId made => simp [hold] at hh
  | insert seriesId made => exact absurd trivial hfree
  | unlock result => exact absurd trivial hfree
  | use series =>
    cases ho
    cases hh
    exact ⟨rfl, by simp [act], .inl rfl⟩
  | erase seriesId =>
    cases ho
    cases hh
    exact ⟨rfl, by simp [act], .inr ⟨seriesId, hw, rfl⟩⟩

theorem work_adding (s s' : Threads) (fresh : List UInt16) (hs : Consistent s)
    (h : step s (.work fresh) = some s') (todo : Todo) (ht : s'.worker = some todo)
    (hl : Locked todo) : s'.holder = some .worker := by
  obtain ⟨before, order, holder, hw, -, hh, rfl⟩ := work_some s s' fresh h
  cases before with
  | find seriesId =>
    simp only [act] at ht
    split at ht <;> cases ht <;> exact absurd hl id
  | lock seriesId made =>
    simp only [hold] at hh
    split at hh
    · cases hh
      rfl
    · cases hh
  | insert seriesId made =>
    cases hh
    exact hs.adding _ hw trivial
  | unlock result =>
    cases ht
    exact absurd hl id
  | use series => cases ht
  | erase seriesId => cases ht

theorem step_consistent (s s' : Threads) (e : Event) (hs : Consistent s)
    (h : step s e = some s') : Consistent s' := by
  cases e with
  | receive msg =>
    simp only [step] at h
    split at h
    · cases h
      refine ⟨hs.keys, hs.nodup, hs.drawing, ?_⟩
      rintro todo ⟨⟩ hl
      cases msg <;> exact absurd hl id
    · cases h
  | work fresh =>
    refine ⟨?_, ?_, fun hdraw => ?_, fun todo ht hl => work_adding s s' fresh hs h todo ht hl⟩
    · obtain ⟨todo, order, holder, -, ho, -, rfl⟩ := work_some s s' fresh h
      exact (reorder_keys s.chart s.order fresh order todo hs.keys hs.nodup ho).1
    · obtain ⟨todo, order, holder, -, ho, -, rfl⟩ := work_some s s' fresh h
      exact (reorder_keys s.chart s.order fresh order todo hs.keys hs.nodup ho).2
    · have hrender : s'.render = s.render := by
        obtain ⟨todo, order, holder, -, -, -, rfl⟩ := work_some s s' fresh h
        rfl
      exact (work_drawing s s' fresh hs h (hrender ▸ hdraw)).1
  | lock drawn =>
    simp only [step] at h
    split at h
    · rename_i hfree
      cases h
      refine ⟨hs.keys, hs.nodup, fun _ => rfl, fun todo ht hl => ?_⟩
      have := hs.adding todo ht hl
      rw [hfree] at this
      cases this
    · cases h
  | advance =>
    obtain ⟨pass, hp, h⟩ := Option.bind_eq_some_iff.mp h
    obtain ⟨v, -, h⟩ := Option.bind_eq_some_iff.mp h
    obtain ⟨it, -, rfl⟩ := Option.map_eq_some_iff.mp h
    exact ⟨hs.keys, hs.nodup, fun _ => hs.drawing (by simp [hp]), hs.adding⟩
  | unlock =>
    obtain ⟨pass, hp, h⟩ := Option.bind_eq_some_iff.mp h
    split at h
    · cases h
      refine ⟨hs.keys, hs.nodup, by simp, fun todo ht hl => ?_⟩
      have hheld := hs.drawing (by simp [hp])
      rw [hs.adding todo ht hl] at hheld
      cases hheld
    · cases h

theorem next_append (v : UInt16) (visited rest : List UInt16)
    (hnd : (visited ++ v::rest).Nodup) : next v (visited ++ v::rest) = some rest.head? := by
  induction visited with
  | nil => simp [next]
  | cons w visited ih =>
    obtain ⟨hw, hrest⟩ := List.nodup_cons.mp hnd
    have hne : w ≠ v := fun hwv => hw (by simp [hwv])
    simp only [List.cons_append, next, if_neg hne]
    exact ih hrest

theorem advance_steady (order : List UInt16) (hnd : order.Nodup) (pass : Pass)
    (hp : pass.Steady order) (v : UInt16) (hv : pass.it = some v) (it : Option UInt16)
    (hit : next v order = some it) :
    Pass.Steady { pass with visited := pass.visited ++ [v], it := it } order := by
  obtain ⟨hsame, hwalk⟩ := hp
  refine ⟨hsame, fun hdrawn => ?_⟩
  obtain ⟨rest, hsplit, hhead⟩ := hwalk hdrawn
  cases rest with
  | nil =>
    rw [hv] at hhead
    cases hhead
  | cons w rest =>
    obtain rfl : v = w := by simpa [hv] using hhead
    refine ⟨rest, by simp [hsplit], ?_⟩
    rw [hsame, hsplit] at hit hnd
    rw [next_append v _ rest hnd] at hit
    exact (Option.some.inj hit).symm

theorem step_sound (s s' : Threads) (e : Event) (hq : Consistent s) (hs : Sound s)
    (h : step s e = some s') : Sound s' ↔ Gentle s e := by
  cases e with
  | receive msg =>
    simp only [step] at h
    split at h
    · cases h
      exact ⟨fun _ => trivial, fun _ => ⟨hs.steady, hs.complete⟩⟩
    · cases h
  | work fresh =>
    have hrest : s'.render = s.render ∧ s'.finished = s.finished := by
      obtain ⟨todo, order, holder, -, -, -, rfl⟩ := work_some s s' fresh h
      exact ⟨rfl, rfl⟩
    constructor
    · intro hs' seriesId hw hdraw hmem
      obtain ⟨pass, hp⟩ := Option.ne_none_iff_exists'.mp hdraw
      have hsame : s'.order = s.order :=
        (hs'.steady pass (hrest.1.trans hp)).1.trans (hs.steady pass hp).1.symm
      have hin := (hq.keys seriesId).mpr hmem
      have hlen := congrArg List.length ((work_erase s s' fresh seriesId h hw).symm.trans hsame)
      rw [List.length_erase_of_mem hin] at hlen
      have := List.length_pos_of_mem hin
      omega
    · intro hgentle
      refine ⟨fun pass hp => ?_, hrest.2 ▸ hs.complete⟩
      rw [hrest.1] at hp
      have hdraw : s.render ≠ none := by simp [hp]
      have hsame : s'.order = s.order := by
        obtain ⟨-, -, hkept | ⟨seriesId, hw, horder⟩⟩ := work_drawing s s' fresh hq h hdraw
        · exact hkept
        · rw [horder, List.erase_of_not_mem]
          rw [hq.keys]
          exact hgentle seriesId hw hdraw
      rw [hsame]
      exact hs.steady pass hp
  | lock drawn =>
    simp only [step] at h
    split at h
    · cases h
      refine ⟨fun _ => trivial, fun _ => ⟨?_, hs.complete⟩⟩
      rintro pass ⟨⟩
      refine ⟨rfl, fun hd => ⟨s.order, rfl, ?_⟩⟩
      simp only at hd
      simp [hd]
    · cases h
  | advance =>
    obtain ⟨pass, hp, h⟩ := Option.bind_eq_some_iff.mp h
    obtain ⟨v, hv, h⟩ := Option.bind_eq_some_iff.mp h
    obtain ⟨it, hit, rfl⟩ := Option.map_eq_some_iff.mp h
    refine ⟨fun _ => trivial, fun _ => ⟨?_, hs.complete⟩⟩
    rintro pass' ⟨⟩
    exact advance_steady s.order hq.nodup pass (hs.steady pass hp) v hv it hit
  | unlock =>
    obtain ⟨pass, hp, h⟩ := Option.bind_eq_some_iff.mp h
    split at h
    · rename_i hend
      cases h
      refine ⟨fun _ => trivial, fun _ => ⟨by simp, fun old hold => ?_⟩⟩
      rcases List.mem_append.mp hold with hold | hold
      · exact hs.complete old hold
      · obtain rfl := List.mem_singleton.mp hold
        intro hdrawn
        obtain ⟨hsame, hwalk⟩ := hs.steady old hp
        obtain ⟨rest, hsplit, hhead⟩ := hwalk hdrawn
        have hnil : rest = [] := by simpa [hend] using hhead.symm
        rw [hnil, List.append_nil] at hsplit
        exact ⟨hsplit.symm, hsplit ▸ hsame ▸ hq.nodup⟩
    · cases h

/-- Over every interleaving: the walks are sound in every state exactly when no
series in the chart is erased during one. -/
theorem walks_sound_iff (events : List Event) (s : Threads) (h : run step start events = some s) :
    (∀ pre post m, events = pre ++ post → run step start pre = some m → Sound m) ↔
      ∀ pre e post m, events = pre ++ e::post → run step start pre = some m → Gentle m e :=
  run_exact step Consistent Sound Gentle start start_consistent
    ⟨by simp [start], by simp [start]⟩ (fun m e m' hm hstep => step_consistent m m' e hm hstep)
    (fun m e m' hq hm hstep => step_sound m m' e hq hm hstep) events s h

def busyFrame : List Event :=
  [.receive (.updateVariable ⟨1, 0⟩ 5), .work [], .work [], .work [1], .work [], .work [],
    .receive (.updateVariable ⟨2, 0⟩ 6), .work [], .work [], .work [2, 1], .work [], .work [],
    .lock true, .receive (.updateVariable ⟨1, 7⟩ 8), .advance, .work [], .work [],
    .receive (.removeVariable ⟨9⟩), .work [], .advance, .unlock]

theorem walks_sound_iff_busyFrame :
    (run step start busyFrame).map (fun s => s.finished.map Pass.visited) = some [[2, 1]] ∧
    ((∀ pre post m, busyFrame = pre ++ post → run step start pre = some m → Sound m) ↔
      ∀ pre e post m, busyFrame = pre ++ e::post → run step start pre = some m → Gentle m e) :=
  ⟨rfl, walks_sound_iff busyFrame _ rfl⟩

def erasedUnderWalk : List Event :=
  [.receive (.updateVariable ⟨1, 0⟩ 5), .work [], .work [], .work [1], .work [], .work [],
    .lock true, .receive (.removeVariable ⟨1⟩), .work []]

theorem erasedUnderWalk_unsound :
    ∃ s, run step start erasedUnderWalk = some s ∧ ¬ Sound s ∧ step s .advance = none := by
  refine ⟨_, rfl, fun h => ?_, rfl⟩
  have := (h.steady _ rfl).1
  cases this

end BusPlot.ChartThreads
