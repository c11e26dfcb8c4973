import BusPlot.PlotChart
import BusPlot.Library.PartialRun

/-!
# Many callers of one chart

Any number of callers take turns, one access to the map at a time. A call of
`GetOrAddSeries` that finds nothing makes a series of its own and inserts it
later, when the id may be taken. `now` counts the steps; `returned` keeps the
calls of `GetOrAddSeries` with their first and last step, and `removed` the
steps of `RemoveSeries`.
-/

set_option autoImplicit false

namespace BusPlot.ChartCallers
open BusPlot.PlotSeries BusPlot.PlotChart PartialRun

variable {κ : Type} [DecidableEq κ]

structure Adding where
  seriesId : UInt16
  first : ℕ
  made : SharedPtr

structure Return where
  seriesId : UInt16
  first : ℕ
  last : ℕ
  result : SharedPtr

structure Callers (κ : Type) where
  chart : Chart
  now : ℕ
  adding : AList fun _ : κ => Adding
  returned : List Return
  removed : List (UInt16 × ℕ)

def start : Callers κ := ⟨.empty, 0, ∅, [], []⟩

inductive Event (κ : Type)
  | find (k : κ) (seriesId : UInt16)
  | insert (k : κ)
  | addSeries (k : κ) (seriesId : UInt16)
  | addSeriesPtr (k : κ) (seriesId : UInt16) (series : SharedPtr)
  | removeSeries (k : κ) (seriesId : UInt16)

def Known (s : Callers κ) (series : SharedPtr) : Prop :=
  (∀ i ∈ series, i < s.chart.heap.length) ∧ ∀ entry ∈ s.adding.entries, entry.2.made ≠ series

instance (s : Callers κ) (series : SharedPtr) : Decidable (Known s series) :=
  inferInstanceAs (Decidable ((∀ i ∈ series, _) ∧ ∀ entry ∈ s.adding.entries, _))

def step (s : Callers κ) : Event κ → Option (Callers κ)
  | .find k seriesId =>
    if k ∈ s.adding then none
    else
      match s.chart.series.lookup seriesId with
      | some p => some { s with
          now := s.now+1
          returned := s.returned ++ [⟨seriesId, s.now, s.now, p⟩] }
      | none =>
        let made := s.chart.makeShared (.make (varLabel seriesId))
        some { s with
          chart := made.1
          now := s.now+1
          adding := s.adding.insert k ⟨seriesId, s.now, made.2⟩ }
  | .insert k =>
    (s.adding.lookup k).map fun a =>
      let added := s.chart.addSeriesPtr a.seriesId a.made
      { s with
        chart := added.1
        now := s.now+1
        adding := s.adding.erase k
        returned := s.returned ++
          [⟨a.seriesId, a.first, s.now, if added.2 then a.made else none⟩] }
  | .addSeries k seriesId =>
    if k ∈ s.adding then none
    else some { s with chart := (s.chart.addSeries seriesId).1, now := s.now+1 }
  | .addSeriesPtr k seriesId series =>
    if k ∈ s.adding ∨ ¬ Known s series then none
    else some { s with chart := (s.chart.addSeriesPtr seriesId series).1, now := s.now+1 }
  | .removeSeries k seriesId =>
    if k ∈ s.adding then none
    else some { s with
      chart := (s.chart.removeSeries seriesId).1
      now := s.now+1
      removed := s.removed ++ [(seriesId, s.now)] }

def Removed (s : Callers κ) (seriesId : UInt16) (a b : ℕ) : Prop :=
  ∃ t, (seriesId, t) ∈ s.removed ∧ a ≤ t ∧ t ≤ b

structure Sound (s : Callers κ) : Prop where
  found : ∀ r ∈ s.returned, r.result ≠ none
  same : ∀ x ∈ s.returned, ∀ y ∈ s.returned, x.seriesId = y.seriesId → x.first ≤ y.first →
    ¬ Removed s x.seriesId x.first y.last → x.result = y.result

/-- A lookup finds no null series, and an insertion comes while the id is free
and before another call, begun behind its lookup, has returned a series that
was not removed first. -/
def Unraced (s : Callers κ) : Event κ → Prop
  | .find _ seriesId => s.chart.series.lookup seriesId ≠ some none
  | .insert k => ∀ a, s.adding.lookup k = some a → a.seriesId ∉ s.chart.series ∧
      ∀ y ∈ s.returned, y.seriesId = a.seriesId → a.first ≤ y.first →
        Removed s a.seriesId a.first y.last
  | _ => True

theorem call_alone (s : Callers κ) (k : κ) (seriesId : UInt16) (hk : k ∉ s.adding) :
    ∃ events s' last, run step s events = some s' ∧
      s'.chart = (s.chart.getOrAddSeries seriesId).1 ∧
      s'.returned = s.returned ++
        [⟨seriesId, s.now, last, (s.chart.getOrAddSeries seriesId).2⟩] := by
  cases h : s.chart.series.lookup seriesId with
  | some p =>
    obtain ⟨s', hs', hchart, hreturned⟩ : ∃ s', step s (.find k seriesId) = some s' ∧
        s'.chart = s.chart ∧ s'.returned = s.returned ++ [⟨seriesId, s.now, s.now, p⟩] := by
      simp [step, hk, h]
    exact ⟨[.find k seriesId], s', s.now, by simp [run, hs'],
      by simp [Chart.getOrAddSeries, h, hchart], by simp [Chart.getOrAddSeries, h, hreturned]⟩
  | none =>
    obtain ⟨m, hm, hchart, hnow, hadding, hreturned⟩ : ∃ m, step s (.find k seriesId) = some m ∧
        m.chart = (s.chart.makeShared (.make (varLabel seriesId))).1 ∧ m.now = s.now+1 ∧
        m.adding.lookup k = some ⟨seriesId, s.now, some s.chart.heap.length⟩ ∧
        m.returned = s.returned := by
      simp [step, hk, h, Chart.makeShared]
    obtain ⟨s', hs', hchart', hreturned'⟩ : ∃ s', step m (.insert k) = some s' ∧
        s'.chart = (s.chart.getOrAddSeries seriesId).1 ∧
        s'.returned = s.returned ++
          [⟨seriesId, s.now, s.now+1, (s.chart.getOrAddSeries seriesId).2⟩] := by
      simp only [step, hadding, Option.map_some, hchart, hnow, hreturned, Chart.getOrAddSeries, h,
        Chart.addSeries]
      exact ⟨_, rfl, rfl, rfl⟩
    exact ⟨[.find k seriesId, .insert k], s', s.now+1, by simp [run, hm, hs'], hchart', hreturned'⟩

theorem step_find (s s' : Callers κ) (k : κ) (seriesId : UInt16)
    (h : step s (.find k seriesId) = some s') :
    (∃ p, s.chart.series.lookup seriesId = some p ∧ s' = { s with
        now := s.now+1
        returned := s.returned ++ [⟨seriesId, s.now, s.now, p⟩] }) ∨
      s.chart.series.lookup seriesId = none ∧ s' = { s with
        chart := (s.chart.makeShared (.make (varLabel seriesId))).1
        now := s.now+1
        adding := s.adding.insert k ⟨seriesId, s.now, some s.chart.heap.length⟩ } := by
  simp only [step] at h
  split at h
  · cases h
  · split at h
    · rename_i p hp
      cases h
      exact .inl ⟨p, hp, rfl⟩
    · rename_i hp
      cases h
      exact .inr ⟨hp, rfl⟩

theorem step_addSeries (s s' : Callers κ) (k : κ) (seriesId : UInt16)
    (h : step s (.addSeries k seriesId) = some s') :
    s' = { s with chart := (s.chart.addSeries seriesId).1, now := s.now+1 } := by
  simp only [step] at h
  split at h
  · cases h
  · exact (Option.some.inj h).symm

theorem step_addSeriesPtr (s s' : Callers κ) (k : κ) (seriesId : UInt16) (series : SharedPtr)
    (h : step s (.addSeriesPtr k seriesId series) = some s') : Known s series ∧
      s' = { s with chart := (s.chart.addSeriesPtr seriesId series).1, now := s.now+1 } := by
  simp only [step] at h
  split at h
  · cases h
  · rename_i hguard
    exact ⟨not_not.mp (not_or.mp hguard).2, (Option.some.inj h).symm⟩

theorem step_removeSeries (s s' : Callers κ) (k : κ) (seriesId : UInt16)
    (h : step s (.removeSeries k seriesId) = some s') :
    s' = { s with
      chart := (s.chart.removeSeries seriesId).1
      now := s.now+1
      removed := s.removed ++ [(seriesId, s.now)] } := by
  simp only [step] at h
  split at h
  · cases h
  · exact (Option.some.inj h).symm

structure Own (s : Callers κ) (a : Adding) (i : ℕ) : Prop where
  made : a.made = some i
  notInChart : ∀ v, s.chart.series.lookup v ≠ some (some i)
  notReturned : ∀ r ∈ s.returned, r.result ≠ some i

structure Fresh (s : Callers κ) : Prop where
  chart : ∀ v i, s.chart.series.lookup v = some (some i) → i < s.chart.heap.length
  results : ∀ r ∈ s.returned, ∀ i, r.result = some i → i < s.chart.heap.length
  bounded : ∀ k a i, s.adding.lookup k = some a → a.made = some i → i < s.chart.heap.length
  own : ∀ k a, s.adding.lookup k = some a → ∃ i, Own s a i
  apart : ∀ j k a b, s.adding.lookup j = some a → s.adding.lookup k = some b →
    a.made = b.made → j = k

theorem addSeriesPtr_taken (c : Chart) (seriesId : UInt16) (p : SharedPtr)
    (h : seriesId ∈ c.series) : c.addSeriesPtr seriesId p = (c, false) :=
  if_pos h

theorem addSeriesPtr_free (c : Chart) (seriesId : UInt16) (p : SharedPtr)
    (h : seriesId ∉ c.series) : c.addSeriesPtr seriesId p =
      ({ c with series := c.series.insert seriesId p }, true) :=
  if_neg h

/-- An insertion leaves the map alone or puts the pointer under the id. -/
theorem addSeriesPtr_lookup (c : Chart) (seriesId v : UInt16) (p q : SharedPtr)
    (h : (c.addSeriesPtr seriesId p).1.series.lookup v = some q) :
    c.series.lookup v = some q ∨ seriesId ∉ c.series ∧ v = seriesId ∧ q = p := by
  by_cases hid : seriesId ∈ c.series
  · rw [addSeriesPtr_taken c seriesId p hid] at h
    exact .inl h
  · rw [addSeriesPtr_free c seriesId p hid] at h
    by_cases hv : v = seriesId
    · subst hv
      rw [AList.lookup_insert] at h
      exact .inr ⟨hid, rfl, (Option.some.inj h).symm⟩
    · rw [AList.lookup_insert_ne hv] at h
      exact .inl h

theorem addSeriesPtr_heap (c : Chart) (seriesId : UInt16) (p : SharedPtr) :
    (c.addSeriesPtr seriesId p).1.heap = c.heap := by
  unfold Chart.addSeriesPtr
  split <;> rfl

theorem lookup_erased {k j : κ} {m : AList fun _ : κ => Adding} {a : Adding}
    (h : (m.erase k).lookup j = some a) : j ≠ k ∧ m.lookup j = some a := by
  by_cases hj : j = k
  · subst hj
    simp at h
  · rw [AList.lookup_erase_ne hj] at h
    exact ⟨hj, h⟩

/-- Steps that hand nothing new to anybody: the map loses entries or gains one
that is not some caller's own, and the results are of the same kind. -/
theorem fresh_mono (s s' : Callers κ) (hs : Fresh s)
    (hheap : s.chart.heap.length ≤ s'.chart.heap.length)
    (hadding : ∀ k a, s'.adding.lookup k = some a → s.adding.lookup k = some a)
    (hchart : ∀ v i, s'.chart.series.lookup v = some (some i) →
      s.chart.series.lookup v = some (some i) ∨ i < s'.chart.heap.length ∧
        ∀ k a, s'.adding.lookup k = some a → a.made ≠ some i)
    (hreturned : ∀ r ∈ s'.returned, ∀ i, r.result = some i → r ∈ s.returned ∨
      i < s'.chart.heap.length ∧ ∀ k a, s'.adding.lookup k = some a → a.made ≠ some i) :
    Fresh s' := by
  refine ⟨fun v i h => ?_, fun r hr i h => ?_, fun k a i h hi => ?_, fun k a h => ?_, ?_⟩
  · rcases hchart v i h with hold | ⟨hlt, -⟩
    · exact Nat.lt_of_lt_of_le (hs.chart v i hold) hheap
    · exact hlt
  · rcases hreturned r hr i h with hold | ⟨hlt, -⟩
    · exact Nat.lt_of_lt_of_le (hs.results r hold i h) hheap
    · exact hlt
  · exact Nat.lt_of_lt_of_le (hs.bounded k a i (hadding k a h) hi) hheap
  · obtain ⟨i, hmade, hnot, hret⟩ := hs.own k a (hadding k a h)
    refine ⟨i, hmade, fun v hv => ?_, fun r hr hri => ?_⟩
    · rcases hchart v i hv with hold | ⟨-, hother⟩
      · exact hnot v hold
      · exact hother k a h hmade
    · rcases hreturned r hr i hri with hold | ⟨-, hother⟩
      · exact hret r hold hri
      · exact hother k a h hmade
  · exact fun j k a b hj hk => hs.apart j k a b (hadding j a hj) (hadding k b hk)

theorem fresh_made (s : Callers κ) (hs : Fresh s) (k : κ) (a : Adding)
    (ha : a.made = some s.chart.heap.length) (x : Series) :
    Fresh { s with
      chart := (s.chart.makeShared x).1, now := s.now+1, adding := s.adding.insert k a } := by
  have grown : ∀ i, i ≤ s.chart.heap.length → i < (s.chart.makeShared x).1.heap.length := by
    intro i hi
    simp only [Chart.makeShared, List.length_append, List.length_singleton]
    omega
  have split : ∀ j b, (s.adding.insert k a).lookup j = some b →
      j = k ∧ b = a ∨ j ≠ k ∧ s.adding.lookup j = some b := by
    intro j b h
    by_cases hj : j = k
    · subst hj
      rw [AList.lookup_insert] at h
      exact .inl ⟨rfl, (Option.some.inj h).symm⟩
    · rw [AList.lookup_insert_ne hj] at h
      exact .inr ⟨hj, h⟩
  refine ⟨fun v i h => ?_, fun r hr i h => ?_, fun j b i h hi => ?_, fun j b h => ?_, ?_⟩
  · exact grown i (Nat.le_of_lt (hs.chart v i h))
  · exact grown i (Nat.le_of_lt (hs.results r hr i h))
  · rcases split j b h with ⟨-, rfl⟩ | ⟨-, hold⟩
    · rw [ha] at hi
      cases hi
      exact grown _ (Nat.le_refl _)
    · exact grown i (Nat.le_of_lt (hs.bounded j b i hold hi))
  · rcases split j b h with ⟨-, rfl⟩ | ⟨-, hold⟩
    · refine ⟨s.chart.heap.length, ha, fun v hv => ?_, fun r hr hri => ?_⟩
      · exact absurd (hs.chart v _ hv) (lt_irrefl _)
      · exact absurd (hs.results r hr _ hri) (lt_irrefl _)
    · obtain ⟨i, hmade, hnot, hret⟩ := hs.own j b hold
      exact ⟨i, hmade, hnot, hret⟩
  · intro i j b c hi hj hbc
    rcases split i b hi with ⟨rfl, rfl⟩ | ⟨-, hib⟩ <;> rcases split j c hj with ⟨rfl, rfl⟩ | ⟨-, hjc⟩
    · rfl
    · exact absurd (hs.bounded j c _ hjc (hbc ▸ ha)) (lt_irrefl _)
    · exact absurd (hs.bounded i b _ hib (hbc.trans ha)) (lt_irrefl _)
    · exact hs.apart i j b c hib hjc hbc

theorem start_fresh : Fresh (start : Callers κ) := by
  constructor <;> simp [start, Chart.empty]

theorem step_fresh (s s' : Callers κ) (e : Event κ) (hs : Fresh s) (h : step s e = some s') :
    Fresh s' := by
  cases e with
  | find k seriesId =>
    rcases step_find s s' k seriesId h with ⟨p, hp, rfl⟩ | ⟨-, rfl⟩
    · refine fresh_mono s _ hs (le_refl _) (fun _ _ h => h) (fun _ _ h => .inl h) ?_
      intro r hr i hi
      rcases List.mem_append.mp hr with hr | hr
      · exact .inl hr
      · obtain rfl := List.mem_singleton.mp hr
        cases hi
        refine .inr ⟨hs.chart seriesId i hp, fun k a ha hmade => ?_⟩
        obtain ⟨j, hj, hnot, -⟩ := hs.own k a ha
        rw [hmade] at hj
        cases hj
        exact hnot seriesId hp
    · exact fresh_made s hs k _ rfl _
  | insert k =>
    obtain ⟨a, ha, rfl⟩ := Option.map_eq_some_iff.mp h
    obtain ⟨i, hmade, -, -⟩ := hs.own k a ha
    have known : ∀ j, a.made = some j → j < s.chart.heap.length ∧
        ∀ l b, (s.adding.erase k).lookup l = some b → b.made ≠ some j := by
      intro j hj
      refine ⟨hs.bounded k a j ha hj, fun l b hb hbj => ?_⟩
      obtain ⟨hne, hold⟩ := lookup_erased hb
      exact hne (hs.apart l k b a hold ha (hbj.trans hj.symm))
    refine fresh_mono s _ hs (by simp [addSeriesPtr_heap]) (fun l b hb => (lookup_erased hb).2) ?_ ?_
    · intro v j hv
      rcases addSeriesPtr_lookup _ _ _ _ _ hv with hold | ⟨-, -, hj⟩
      · exact .inl hold
      · simp only [addSeriesPtr_heap]
        exact .inr (known j hj.symm)
    · intro r hr j hj
      rcases List.mem_append.mp hr with hr | hr
      · exact .inl hr
      · obtain rfl := List.mem_singleton.mp hr
        simp only [addSeriesPtr_heap]
        split at hj
        · exact .inr (known j hj)
        · cases hj
  | addSeries k seriesId =>
    obtain rfl := step_addSeries s s' k seriesId h
    have hheap : (s.chart.addSeries seriesId).1.heap.length = s.chart.heap.length+1 := by
      simp [Chart.addSeries, addSeriesPtr_heap, Chart.makeShared]
    refine fresh_mono s _ hs (by simp [hheap]) (fun _ _ h => h) ?_ (fun r hr _ _ => .inl hr)
    intro v i hv
    rcases addSeriesPtr_lookup _ _ _ _ _ hv with hold | ⟨-, -, hi⟩
    · exact .inl hold
    · cases hi
      refine .inr ⟨by simp [hheap], fun l b hb hbi => ?_⟩
      exact absurd (hs.bounded l b _ hb hbi) (lt_irrefl _)
  | addSeriesPtr k seriesId series =>
    obtain ⟨⟨hbound, hother⟩, rfl⟩ := step_addSeriesPtr s s' k seriesId series h
    refine fresh_mono s _ hs (by simp [addSeriesPtr_heap]) (fun _ _ h => h) ?_
      (fun r hr _ _ => .inl hr)
    intro v i hv
    rcases addSeriesPtr_lookup _ _ _ _ _ hv with hold | ⟨-, -, rfl⟩
    · exact .inl hold
    · simp only [addSeriesPtr_heap]
      exact .inr ⟨hbound i rfl, fun l b hb => hother ⟨l, b⟩ (AList.mem_lookup_iff.mp hb)⟩
  | removeSeries k seriesId =>
    obtain rfl := step_removeSeries s s' k seriesId h
    refine fresh_mono s _ hs (le_refl _) (fun _ _ h => h) ?_ (fun r hr _ _ => .inl hr)
    intro v i hv
    by_cases hid : v = seriesId
    · subst hid
      simp [Chart.removeSeries] at hv
    · rw [Chart.removeSeries, AList.lookup_erase_ne hid] at hv
      exact .inl hv

structure History (s : Callers κ) : Prop where
  begun : ∀ k a, s.adding.lookup k = some a → a.first < s.now
  past : ∀ r ∈ s.returned, r.first ≤ r.last ∧ r.last < s.now
  removedPast : ∀ v t, (v, t) ∈ s.removed → t < s.now
  current : ∀ r ∈ s.returned, r.result ≠ none →
    (∀ t, (r.seriesId, t) ∈ s.removed → t < r.first) →
      s.chart.series.lookup r.seriesId = some r.result

theorem addSeriesPtr_keeps (c : Chart) (seriesId v : UInt16) (p q : SharedPtr)
    (h : c.series.lookup v = some q) :
    (c.addSeriesPtr seriesId p).1.series.lookup v = some q := by
  by_cases hid : seriesId ∈ c.series
  · rw [addSeriesPtr_taken c seriesId p hid]
    exact h
  · rw [addSeriesPtr_free c seriesId p hid]
    have hv : v ≠ seriesId := by
      rintro rfl
      rw [AList.lookup_eq_none.mpr hid] at h
      cases h
    exact (AList.lookup_insert_ne hv).trans h

/-- A step that removes nothing and returns at most one more call, whose series
is in the chart. -/
theorem history_mono (s s' : Callers κ) (hs : History s) (more : List Return)
    (hnow : s'.now = s.now+1) (hremoved : s'.removed = s.removed)
    (hreturned : s'.returned = s.returned ++ more)
    (hbegun : ∀ k a, s'.adding.lookup k = some a → a.first ≤ s.now)
    (hchart : ∀ v q, s.chart.series.lookup v = some q → s'.chart.series.lookup v = some q)
    (hmore : ∀ r ∈ more, r.first ≤ s.now ∧ r.last = s.now ∧
      (r.result ≠ none → s'.chart.series.lookup r.seriesId = some r.result)) : History s' := by
  refine ⟨fun k a h => ?_, fun r hr => ?_, fun v t h => ?_, fun r hr hne ht => ?_⟩
  · have := hbegun k a h
    omega
  · rw [hreturned] at hr
    rcases List.mem_append.mp hr with hr | hr
    · have := hs.past r hr
      omega
    · obtain ⟨hfirst, hlast, -⟩ := hmore r hr
      omega
  · rw [hremoved] at h
    have := hs.removedPast v t h
    omega
  · rw [hreturned] at hr
    rw [hremoved] at ht
    rcases List.mem_append.mp hr with hr | hr
    · exact hchart _ _ (hs.current r hr hne ht)
    · exact (hmore r hr).2.2 hne

theorem start_history : History (start : Callers κ) := by
  constructor <;> simp [start]

theorem step_history (s s' : Callers κ) (e : Event κ) (hs : History s) (h : step s e = some s') :
    History s' := by
  have hbegun : ∀ k a, s.adding.lookup k = some a → a.first ≤ s.now :=
    fun k a ha => Nat.le_of_lt (hs.begun k a ha)
  cases e with
  | find k seriesId =>
    rcases step_find s s' k seriesId h with ⟨p, hp, rfl⟩ | ⟨-, rfl⟩
    · refine history_mono s _ hs [⟨seriesId, s.now, s.now, p⟩] rfl rfl rfl hbegun
        (fun _ _ h => h) fun r hr => ?_
      obtain rfl := List.mem_singleton.mp hr
      exact ⟨Nat.le_refl _, rfl, fun _ => hp⟩
    · refine history_mono s _ hs [] rfl rfl (List.append_nil _).symm (fun j a ha => ?_)
        (fun _ _ h => h) (by simp)
      by_cases hj : j = k
      · subst hj
        rw [AList.lookup_insert] at ha
        cases ha
        exact Nat.le_refl _
      · rw [AList.lookup_insert_ne hj] at ha
        exact hbegun j a ha
  | insert k =>
    obtain ⟨a, ha, rfl⟩ := Option.map_eq_some_iff.mp h
    refine history_mono s _ hs [_] rfl rfl rfl (fun j b hb => hbegun j b (lookup_erased hb).2)
      (fun v q hq => addSeriesPtr_keeps _ _ v _ q hq) fun r hr => ?_
    obtain rfl := List.mem_singleton.mp hr
    refine ⟨hbegun k a ha, rfl, fun hne => ?_⟩
    by_cases hid : a.seriesId ∈ s.chart.series
    · simp [addSeriesPtr_taken _ _ _ hid] at hne
    · simp [addSeriesPtr_free _ _ _ hid]
  | addSeries k seriesId =>
    obtain rfl := step_addSeries s s' k seriesId h
    exact history_mono s _ hs [] rfl rfl (List.append_nil _).symm hbegun
      (fun v q hq => addSeriesPtr_keeps _ _ v _ q hq) (by simp)
  | addSeriesPtr k seriesId series =>
    obtain ⟨-, rfl⟩ := step_addSeriesPtr s s' k seriesId series h
    exact history_mono s _ hs [] rfl rfl (List.append_nil _).symm hbegun
      (fun v q hq => addSeriesPtr_keeps _ _ v _ q hq) (by simp)
  | removeSeries k seriesId =>
    obtain rfl := step_removeSeries s s' k seriesId h
    refine ⟨fun j a ha => Nat.lt_succ_of_lt (hs.begun j a ha), fun r hr => ?_, fun v t ht => ?_,
      fun r hr hne ht => ?_⟩
    · obtain ⟨hle, hlt⟩ := hs.past r hr
      exact ⟨hle, Nat.lt_succ_of_lt hlt⟩
    · rcases List.mem_append.mp ht with ht | ht
      · exact Nat.lt_succ_of_lt (hs.removedPast v t ht)
      · cases List.mem_singleton.mp ht
        exact Nat.lt_succ_self _
    · have hid : r.seriesId ≠ seriesId := by
        rintro rfl
        have := ht s.now (by simp)
        have := hs.past r hr
        omega
      rw [Chart.removeSeries, AList.lookup_erase_ne hid]
      exact hs.current r hr hne fun t h => ht t (List.mem_append_left _ h)

/-- The series of a call that returned is in the chart unless it was removed. -/
theorem kept_current (s : Callers κ) (hh : History s) (hs : Sound s) (x : Return)
    (hx : x ∈ s.returned) (hno : ¬ Removed s x.seriesId x.first s.now) :
    s.chart.series.lookup x.seriesId = some x.result := by
  refine hh.current x hx (hs.found x hx) fun t ht => ?_
  by_contra hle
  exact hno ⟨t, ht, by omega, Nat.le_of_lt (hh.removedPast _ t ht)⟩

omit [DecidableEq κ] in
/-- One call more: it has a series, and the same one as the calls it overlaps
with. -/
theorem returned_sound (s s' : Callers κ) (hs : Sound s) (r : Return)
    (hreturned : s'.returned = s.returned ++ [r]) (hremoved : s'.removed = s.removed)
    (hne : r.result ≠ none)
    (hbefore : ∀ x ∈ s.returned, x.seriesId = r.seriesId →
      ¬ Removed s x.seriesId x.first r.last → x.result = r.result)
    (hbehind : ∀ y ∈ s.returned, r.seriesId = y.seriesId → r.first ≤ y.first →
      ¬ Removed s r.seriesId r.first y.last → r.result = y.result) : Sound s' := by
  have hmem : ∀ x ∈ s'.returned, x ∈ s.returned ∨ x = r := by
    intro x hx
    rw [hreturned] at hx
    simpa using hx
  refine ⟨fun x hx => ?_, fun x hx y hy hid hle hno => ?_⟩
  · rcases hmem x hx with hx | rfl
    · exact hs.found x hx
    · exact hne
  · rw [Removed, hremoved] at hno
    rcases hmem x hx with hx | rfl <;> rcases hmem y hy with hy | rfl
    · exact hs.same x hx y hy hid hle hno
    · exact hbefore x hx hid hno
    · exact hbehind y hy hid hle hno
    · rfl

theorem step_sound (s s' : Callers κ) (e : Event κ) (hf : Fresh s) (hh : History s) (hs : Sound s)
    (h : step s e = some s') : Sound s' ↔ Unraced s e := by
  cases e with
  | find k seriesId =>
    rcases step_find s s' k seriesId h with ⟨p, hp, rfl⟩ | ⟨hp, rfl⟩
    · simp only [Unraced, hp, ne_eq, Option.some.injEq]
      constructor
      · intro hs'
        exact hs'.found ⟨seriesId, s.now, s.now, p⟩ (by simp)
      · intro hne
        refine returned_sound s _ hs _ rfl rfl hne (fun x hx hid hno => ?_) fun y hy _ hle _ => ?_
        · have hcur := kept_current s hh hs x hx hno
          rw [hid, hp] at hcur
          exact (Option.some.inj hcur).symm
        · have := hh.past y hy
          simp only at hle
          omega
    · simp only [Unraced, hp]
      exact ⟨fun _ => by simp, fun _ => ⟨hs.found, hs.same⟩⟩
  | insert k =>
    obtain ⟨a, ha, rfl⟩ := Option.map_eq_some_iff.mp h
    obtain ⟨i, hmade, -, hnot⟩ := hf.own k a ha
    by_cases hid : a.seriesId ∈ s.chart.series
    · -- the insertion loses and the call returns a null pointer
      constructor
      · intro hs'
        refine absurd ?_ (hs'.found ⟨a.seriesId, a.first, s.now, none⟩ ?_)
        · rfl
        · simp [addSeriesPtr_taken _ _ _ hid]
      · intro hrace
        exact absurd hid (hrace a ha).1
    · simp only [addSeriesPtr_free _ _ _ hid, if_true]
      constructor
      · intro hs' b hb
        rw [ha] at hb
        cases hb
        refine ⟨hid, fun y hy hya hle => ?_⟩
        by_contra hno
        have hsame := hs'.same ⟨a.seriesId, a.first, s.now, a.made⟩ (by simp) y (by simp [hy])
          hya.symm hle hno
        exact hnot y hy (hsame.symm.trans hmade)
      · intro hrace
        obtain ⟨-, hfirst⟩ := hrace a ha
        refine returned_sound s _ hs _ rfl rfl (by simp [hmade]) (fun x hx hxy hno => ?_)
          fun y hy hya hle hno => absurd (hfirst y hy hya.symm hle) hno
        have hcur := kept_current s hh hs x hx hno
        rw [hxy, AList.lookup_eq_none.mpr hid] at hcur
        cases hcur
  | addSeries k seriesId =>
    obtain rfl := step_addSeries s s' k seriesId h
    exact ⟨fun _ => trivial, fun _ => ⟨hs.found, hs.same⟩⟩
  | addSeriesPtr k seriesId series =>
    obtain ⟨-, rfl⟩ := step_addSeriesPtr s s' k seriesId series h
    exact ⟨fun _ => trivial, fun _ => ⟨hs.found, hs.same⟩⟩
  | removeSeries k seriesId =>
    obtain rfl := step_removeSeries s s' k seriesId h
    refine ⟨fun _ => trivial, fun _ => ⟨hs.found, fun x hx y hy hid hle hno => ?_⟩⟩
    refine hs.same x hx y hy hid hle ?_
    rintro ⟨t, ht, hbounds⟩
    exact hno ⟨t, List.mem_append_left _ ht, hbounds⟩

/-- Over every interleaving of any number of callers: all calls return the
chart's series, in every state, exactly when no insertion is raced. -/
theorem calls_sound_iff (events : List (Event κ)) (s : Callers κ)
    (h : run step start events = some s) :
    (∀ pre post m, events = pre ++ post → run step start pre = some m → Sound m) ↔
      ∀ pre e post m, events = pre ++ e::post → run step start pre = some m → Unraced m e :=
  run_exact step (fun s => Fresh s ∧ History s) Sound Unraced start ⟨start_fresh, start_history⟩
    ⟨by simp [start], by simp [start]⟩
    (fun m e m' hm hstep => ⟨step_fresh m m' e hm.1 hstep, step_history m m' e hm.2 hstep⟩)
    (fun m e m' hq hm hstep => step_sound m m' e hq.1 hq.2 hm hstep) events s h

def inTurn : List (Event Bool) := [.find false 1, .insert false, .find true 1]

theorem calls_sound_iff_inTurn :
    (∀ pre post m, inTurn = pre ++ post → run step start pre = some m → Sound m) ↔
      ∀ pre e post m, inTurn = pre ++ e::post → run step start pre = some m → Unraced m e :=
  calls_sound_iff inTurn _ rfl

def raced : List (Event Bool) := [.find false 1, .find true 1, .insert false, .insert true]

theorem raced_null : ∃ s, run step start raced = some s ∧ ¬ Sound s := by
  obtain ⟨s, hs, hreturned⟩ : ∃ s, run step start raced = some s ∧
      s.returned = [⟨1, 0, 2, some 0⟩, ⟨1, 1, 3, none⟩] := ⟨_, rfl, rfl⟩
  exact ⟨s, hs, fun h => h.found ⟨1, 1, 3, none⟩ (by simp [hreturned]) rfl⟩

end BusPlot.ChartCallers
