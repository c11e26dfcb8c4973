import Mathlib.Data.List.Induction
import Mathlib.Data.Option.Basic

/-!
# Runs of a partial step function

A step that is not possible in a state gives `none`, and so does every run
through it. The rules below are the induction on a run, stated once: an
invariant may speak of the inputs consumed so far, a property may be kept by the
steps that meet a condition, and two machines may be run side by side under a
relation.
-/

set_option autoImplicit false

namespace PartialRun

variable {σ τ ι : Type*}

def run (step : σ → ι → Option σ) : σ → List ι → Option σ
  | s, [] => some s
  | s, i::is => (step s i).bind fun s' => run step s' is

theorem run_append (step : σ → ι → Option σ) (s : σ) (is js : List ι) :
    run step s (is ++ js) = (run step s is).bind fun s' => run step s' js := by
  induction is generalizing s with
  | nil => rfl
  | cons i is ih =>
    cases h : step s i with
    | none => simp [run, h]
    | some s' => simp [run, h, ih]

theorem run_snoc (step : σ → ι → Option σ) (s : σ) (is : List ι) (i : ι) :
    run step s (is ++ [i]) = (run step s is).bind fun s' => step s' i := by
  rw [run_append]
  congr 1
  funext s'
  cases h : step s' i <;> simp [run, h]

theorem run_split (step : σ → ι → Option σ) (s t : σ) (is js : List ι)
    (h : run step s (is ++ js) = some t) :
    ∃ m, run step s is = some m ∧ run step m js = some t := by
  rw [run_append] at h
  exact Option.bind_eq_some_iff.mp h

/-- A property of the inputs so far and the state reached that holds at the
start and survives each step holds at the end of every run. -/
theorem run_history (step : σ → ι → Option σ) (P : List ι → σ → Prop) (s : σ) (h0 : P [] s)
    (hstep : ∀ is m i m', P is m → step m i = some m' → P (is ++ [i]) m')
    (is : List ι) (t : σ) (h : run step s is = some t) : P is t := by
  induction is using List.reverseRecOn generalizing t with
  | nil =>
    obtain rfl : s = t := by simpa [run] using h
    exact h0
  | append_singleton is i ih =>
    rw [run_snoc] at h
    obtain ⟨m, hm, hi⟩ := Option.bind_eq_some_iff.mp h
    exact hstep is m i t (ih m hm) hi

theorem run_invariant (step : σ → ι → Option σ) (P : σ → Prop) (s : σ) (h0 : P s)
    (hstep : ∀ m i m', P m → step m i = some m' → P m')
    (is : List ι) (t : σ) (h : run step s is = some t) : P t :=
  run_history step (fun _ m => P m) s h0 (fun _ m i m' hm hi => hstep m i m' hm hi) is t h

/-- The places of a list with one more element at the end: the new one, and the
old ones with the new element behind them. -/
theorem split_snoc (is : List ι) (x : ι) (pre : List ι) (i : ι) (post : List ι) :
    is ++ [x] = pre ++ i::post ↔
      post = [] ∧ is = pre ∧ x = i ∨ ∃ post', post = post' ++ [x] ∧ is = pre ++ i::post' := by
  constructor
  · intro h
    rcases List.eq_nil_or_concat post with rfl | ⟨post', y, rfl⟩
    · obtain ⟨his, hx⟩ := List.append_inj' h rfl
      exact .inl ⟨rfl, his, List.singleton_inj.mp hx⟩
    · rw [List.concat_eq_append, ← List.cons_append, ← List.append_assoc] at h
      obtain ⟨his, hx⟩ := List.append_inj' h rfl
      exact .inr ⟨post', by rw [List.concat_eq_append, List.singleton_inj.mp hx], his⟩
  · rintro (⟨rfl, rfl, rfl⟩ | ⟨post', rfl, rfl⟩)
    · rfl
    · simp

/-- A condition on every place of a list with one more element at the end. -/
theorem forall_split_snoc (C : List ι → ι → Prop) (is : List ι) (x : ι) :
    (∀ pre i post, is ++ [x] = pre ++ i::post → C pre i) ↔
      (∀ pre i post, is = pre ++ i::post → C pre i) ∧ C is x := by
  constructor
  · intro h
    exact ⟨fun pre i post hs => h pre i _ ((split_snoc _ _ _ _ _).mpr (.inr ⟨post, rfl, hs⟩)),
      h is x [] rfl⟩
  · rintro ⟨h, hx⟩ pre i post hs
    rcases (split_snoc _ _ _ _ _).mp hs with ⟨-, rfl, rfl⟩ | ⟨post', -, hs'⟩
    · exact hx
    · exact h pre i post' hs'

theorem exists_split_snoc (C : List ι → ι → Prop) (is : List ι) (x : ι) :
    (∃ pre i post, is ++ [x] = pre ++ i::post ∧ C pre i) ↔
      (∃ pre i post, is = pre ++ i::post ∧ C pre i) ∨ C is x := by
  have h := forall_split_snoc (fun pre i => ¬ C pre i) is x
  rw [← not_iff_not]
  simpa only [not_exists, not_and, not_or] using h

/-- A property that every step keeps under a condition on the state before it
holds throughout a run all of whose steps meet the condition. -/
theorem run_keeps (step : σ → ι → Option σ) (Q P : σ → Prop) (C : σ → ι → Prop) (s : σ)
    (hQ : Q s) (hP : P s) (hQstep : ∀ m i m', Q m → step m i = some m' → Q m')
    (hstep : ∀ m i m', Q m → P m → C m i → step m i = some m' → P m') (is : List ι)
    (hall : ∀ pre i post m, is = pre ++ i::post → run step s pre = some m → C m i)
    (pre post : List ι) (m : σ) (hsplit : is = pre ++ post) (h : run step s pre = some m) :
    P m := by
  induction pre using List.reverseRecOn generalizing post m with
  | nil =>
    obtain rfl : s = m := by simpa [run] using h
    exact hP
  | append_singleton pre i ih =>
    rw [run_snoc] at h
    obtain ⟨m', hm', hone⟩ := Option.bind_eq_some_iff.mp h
    have hsplit' : is = pre ++ i::post := by rw [hsplit, List.append_assoc]; rfl
    exact hstep m' i m (run_invariant step Q s hQ hQstep pre m' hm') (ih _ m' hsplit' hm')
      (hall pre i post m' hsplit' hm') hone

/-- Where each step keeps a property exactly under the condition, a run keeps
it throughout exactly when all its steps meet the condition. -/
theorem run_exact (step : σ → ι → Option σ) (Q P : σ → Prop) (C : σ → ι → Prop) (s : σ)
    (hQ : Q s) (hP : P s) (hQstep : ∀ m i m', Q m → step m i = some m' → Q m')
    (hstep : ∀ m i m', Q m → P m → step m i = some m' → (P m' ↔ C m i))
    (is : List ι) (t : σ) (h : run step s is = some t) :
    (∀ pre post m, is = pre ++ post → run step s pre = some m → P m) ↔
      (∀ pre i post m, is = pre ++ i::post → run step s pre = some m → C m i) := by
  constructor
  · rintro hall pre i post m rfl hm
    have hsplit : pre ++ i::post = (pre ++ [i]) ++ post := by simp
    rw [hsplit] at h
    obtain ⟨m', hm', -⟩ := run_split step s t _ post h
    have hone := hm'
    rw [run_snoc, hm] at hone
    exact (hstep m i m' (run_invariant step Q s hQ hQstep pre m hm)
      (hall pre (i::post) m rfl hm) hone).mp (hall _ post m' hsplit hm')
  · intro hall pre post m hsplit hm
    exact run_keeps step Q P C s hQ hP hQstep (fun m i m' hq hp hc hone =>
      (hstep m i m' hq hp hone).mpr hc) is hall pre post m hsplit hm

def Along (step : σ → ι → Option σ) (C : σ → ι → Prop) : σ → List ι → Prop
  | _, [] => True
  | s, i::is => C s i ∧ ∀ s' ∈ step s i, Along step C s' is

instance Along.decidable (step : σ → ι → Option σ) (C : σ → ι → Prop)
    [∀ s i, Decidable (C s i)] : ∀ (s : σ) (is : List ι), Decidable (Along step C s is)
  | _, [] => inferInstanceAs (Decidable True)
  | s, i::is =>
    have : ∀ s', Decidable (Along step C s' is) := fun s' => Along.decidable step C s' is
    inferInstanceAs (Decidable (C s i ∧ ∀ s' ∈ step s i, Along step C s' is))

theorem along_append (step : σ → ι → Option σ) (C : σ → ι → Prop) (s : σ) (is js : List ι) :
    Along step C s (is ++ js) ↔
      Along step C s is ∧ ∀ m, run step s is = some m → Along step C m js := by
  induction is generalizing s with
  | nil => simp [Along, run]
  | cons i is ih =>
    simp only [List.cons_append, Along, ih, run, Option.bind_eq_some_iff, Option.mem_def]
    constructor
    · rintro ⟨hi, hrest⟩
      exact ⟨⟨hi, fun s' hs' => (hrest s' hs').1⟩, fun m ⟨s', hs', hm⟩ => (hrest s' hs').2 m hm⟩
    · rintro ⟨⟨hi, hrest⟩, hlast⟩
      exact ⟨hi, fun s' hs' => ⟨hrest s' hs', fun m hm => hlast m ⟨s', hs', hm⟩⟩⟩

theorem along_of_forall (step : σ → ι → Option σ) (C : σ → ι → Prop) (s : σ) (is : List ι)
    (h : ∀ i ∈ is, ∀ m, C m i) : Along step C s is := by
  induction is generalizing s with
  | nil => trivial
  | cons i is ih =>
    exact ⟨h i (by simp) s, fun s' _ => ih s' fun j hj => h j (by simp [hj])⟩

/-- A property of the inputs so far and the state reached that survives each step
which meets a condition holds at the end of every run along which all do. -/
theorem run_along (step : σ → ι → Option σ) (C : σ → ι → Prop) (P : List ι → σ → Prop) (s : σ)
    (h0 : P [] s)
    (hstep : ∀ is m i m', P is m → C m i → step m i = some m' → P (is ++ [i]) m')
    (is : List ι) (hall : Along step C s is) (t : σ) (h : run step s is = some t) : P is t := by
  induction is using List.reverseRecOn generalizing t with
  | nil =>
    obtain rfl : s = t := by simpa [run] using h
    exact h0
  | append_singleton is i ih =>
    rw [run_snoc] at h
    obtain ⟨m, hm, hi⟩ := Option.bind_eq_some_iff.mp h
    obtain ⟨hbefore, hlast⟩ := (along_append step C s is [i]).mp hall
    exact hstep is m i t (ih hbefore m hm) (hlast m hm).1 hi

/-- Two machines whose related states step on the same inputs, to related
states again, have the same runs up to the relation. The step may use an
invariant of the first machine. -/
theorem run_related (f : σ → ι → Option σ) (g : τ → ι → Option τ) (P : σ → Prop)
    (R : σ → τ → Prop) (hP : ∀ s i s', P s → f s i = some s' → P s')
    (hstep : ∀ s t i, P s → R s t → Option.Rel R (f s i) (g t i))
    (s : σ) (t : τ) (hs : P s) (hst : R s t) (is : List ι) :
    Option.Rel R (run f s is) (run g t is) := by
  induction is generalizing s t with
  | nil => exact .some hst
  | cons i is ih =>
    have hr := hstep s t i hs hst
    simp only [run]
    cases hf : f s i with
    | none =>
      rw [hf] at hr
      cases hg : g t i with
      | none => exact .none
      | some t' => rw [hg] at hr; cases hr
    | some s' =>
      rw [hf] at hr
      cases hg : g t i with
      | none => rw [hg] at hr; cases hr
      | some t' =>
        rw [hg] at hr
        cases hr with
        | some hr => exact ih s' t' (hP s i s' hs hf) hr

def trace {κ : Type*} (step : σ → ι → Option σ) (shown : σ → ι → σ → List κ) :
    σ → List ι → List κ
  | _, [] => []
  | s, i::is =>
    match step s i with
    | none => []
    | some s' => shown s i s' ++ trace step shown s' is

/-- If what each step that meets a condition shows can be run on a second machine, so
can what a whole run shows along which all do. -/
theorem run_traced {κ : Type*} (f : σ → ι → Option σ) (g : τ → κ → Option τ)
    (shown : σ → ι → σ → List κ) (R : σ → τ → Prop) (C : σ → ι → Prop)
    (hstep : ∀ m i m' n, R m n → C m i → f m i = some m' →
      ∃ n', run g n (shown m i m') = some n' ∧ R m' n')
    (s s' : σ) (t : τ) (hst : R s t) (is : List ι) (hall : Along f C s is)
    (h : run f s is = some s') :
    ∃ t', run g t (trace f shown s is) = some t' ∧ R s' t' := by
  induction is generalizing s t with
  | nil =>
    obtain rfl : s = s' := by simpa [run] using h
    exact ⟨t, rfl, hst⟩
  | cons i is ih =>
    obtain ⟨m, hm, hrest⟩ := Option.bind_eq_some_iff.mp h
    obtain ⟨n, hn, hR⟩ := hstep s i m t hst hall.1 hm
    obtain ⟨t', ht', hR'⟩ := ih m n hR (hall.2 m hm) hrest
    refine ⟨t', ?_, hR'⟩
    simp only [trace, hm, run_append, hn]
    exact ht'

end PartialRun
