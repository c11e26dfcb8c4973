import Mathlib.Data.List.Forall2
import Mathlib.Logic.Function.Basic
import Mathlib.Tactic.Common

/-!
# Programs that push and pop

Only the depths of the stacks are kept. `Moves p ks a ls` says that `p`, above
whatever is on the stacks already, takes the entries `ks` to the entries `ls`,
and never finds a stack empty on the way; in what order different stacks were
pushed does not matter.
-/

set_option autoImplicit false

namespace StackDepths

abbrev Walk (κ : Type) := StateT (κ → ℕ) Option

variable {κ α β : Type}

def whenever (b : Bool) (p : Walk κ Unit) : Walk κ Unit := if b then p else pure ()

variable [DecidableEq κ]

def push (k : κ) : Walk κ Unit := fun d => some ((), Function.update d k (d k+1))

def pop (k : κ) : Walk κ Unit := fun d =>
  if d k = 0 then none else some ((), Function.update d k (d k-1))

def clear (k : κ) : Walk κ Unit := fun d => some ((), Function.update d k 0)

def above (d : κ → ℕ) (ks : List κ) : κ → ℕ := fun k => d k+ks.count k

theorem above_nil (d : κ → ℕ) : above d [] = d := by
  funext k
  simp [above]

theorem above_append (d : κ → ℕ) (ks ls : List κ) : above (above d ls) ks = above d (ks ++ ls) := by
  funext k
  simp only [above, List.count_append]
  omega

theorem above_perm (d : κ → ℕ) (ks ls : List κ) (h : ks.Perm ls) : above d ks = above d ls := by
  funext k
  rw [above, above, h.count_eq]

theorem above_eq_self (d : κ → ℕ) (ks : List κ) : above d ks = d ↔ ks = [] := by
  constructor
  · intro h
    apply List.eq_nil_iff_forall_not_mem.mpr
    intro k hk
    have hpos := List.count_pos_iff.mpr hk
    have hk := congrFun h k
    simp only [above] at hk
    omega
  · rintro rfl
    exact above_nil d

def Moves (p : Walk κ α) (ks : List κ) (a : α) (ls : List κ) : Prop :=
  ∀ d, p (above d ks) = some (a, above d ls)

theorem moves_pure (a : α) (ks : List κ) : Moves (pure a : Walk κ α) ks a ks :=
  fun _ => rfl

theorem moves_bind {p : Walk κ α} {f : α → Walk κ β} {ks ls ms : List κ} {a : α} {b : β}
    (hp : Moves p ks a ls) (hf : Moves (f a) ls b ms) : Moves (p >>= f) ks b ms := by
  intro d
  show (p (above d ks)).bind _ = _
  rw [hp d]
  exact hf d

theorem moves_push (k : κ) (ks : List κ) : Moves (push k) ks () (k::ks) := by
  intro d
  have hd : Function.update (above d ks) k (above d ks k+1) = above d (k::ks) := by
    funext j
    by_cases hj : j = k
    · subst hj
      simp [above, Nat.add_assoc]
    · have hkj : k ≠ j := fun h => hj h.symm
      simp [above, hj, hkj]
  rw [push, hd]

theorem moves_pop (k : κ) (ks : List κ) (hk : k ∈ ks) : Moves (pop k) ks () (ks.erase k) := by
  intro d
  have hpos := List.count_pos_iff.mpr hk
  have hd : Function.update (above d ks) k (above d ks k-1) = above d (ks.erase k) := by
    funext j
    by_cases hj : j = k
    · subst hj
      simp only [above, Function.update_self, List.count_erase_self]
      omega
    · simp [above, hj, List.count_erase_of_ne]
  have h0 : ¬ above d ks k = 0 := by
    simp only [above]
    omega
  rw [pop, if_neg h0, hd]

theorem moves_pop_top (k : κ) (ks : List κ) : Moves (pop k) (k::ks) () ks := by
  have h := moves_pop k (k::ks) List.mem_cons_self
  rwa [List.erase_cons_head] at h

theorem moves_frame {p : Walk κ α} {ks ls : List κ} {a : α} (h : Moves p ks a ls) (rs : List κ) :
    Moves p (ks ++ rs) a (ls ++ rs) := by
  intro d
  rw [← above_append, ← above_append]
  exact h (above d rs)

theorem moves_perm {p : Walk κ α} {ks ls ls' : List κ} {a : α} (h : Moves p ks a ls)
    (hperm : ls.Perm ls') : Moves p ks a ls' := by
  intro d
  rw [h d, above_perm d ls ls' hperm]

theorem moves_whenever (b : Bool) {p : Walk κ Unit} {ks ls : List κ} (h : Moves p ks () ls) :
    Moves (whenever b p) ks () (if b then ls else ks) := by
  cases b with
  | false => exact moves_pure () ks
  | true => exact h

theorem moves_nested (j k : κ) (ks : List κ) :
    Moves (do push j; push k; pop k; pop j) ks () ks := by
  apply moves_bind (moves_push j ks)
  apply moves_bind (moves_push k (j::ks))
  apply moves_bind (moves_pop_top k (j::ks))
  exact moves_pop_top j ks

/-- Around a program that leaves `ls`, a push and its pop leave `ls` too. -/
theorem moves_within (k : κ) {p : Walk κ Unit} {ls : List κ} (h : Moves p [] () ls) :
    Moves (do push k; p; pop k) [] () ls := by
  have hpop := moves_pop k (ls ++ [k]) (List.mem_append_right ls (List.mem_singleton_self k))
  have hperm : ((ls ++ [k]).erase k).Perm ls := by
    have h1 : (ls ++ [k]).Perm (k::ls) := List.perm_append_singleton k ls
    have h2 := h1.erase k
    rwa [List.erase_cons_head] at h2
  apply moves_bind (moves_push k [])
  apply moves_bind (moves_frame h [k])
  exact moves_perm hpop hperm

theorem moves_forM {f : α → Walk κ Unit} (xs : List α) {ks : List κ}
    (h : ∀ x ∈ xs, Moves (f x) ks () ks) : Moves (xs.forM f) ks () ks := by
  induction xs with
  | nil => exact moves_pure () ks
  | cons x xs ih =>
    apply moves_bind (h x (by simp))
    exact ih fun y hy => h y (by simp [hy])

omit [DecidableEq κ] in
/-- A program that runs from all depths runs for a whole list of inputs. -/
theorem mapM_runs (f : α → Walk κ β) (R : α → β → Prop)
    (h : ∀ x d, ∃ y d', f x d = some (y, d') ∧ R x y) (xs : List α) (d : κ → ℕ) :
    ∃ ys d', xs.mapM f d = some (ys, d') ∧ List.Forall₂ R xs ys := by
  induction xs generalizing d with
  | nil => exact ⟨[], d, rfl, .nil⟩
  | cons x xs ih =>
    obtain ⟨y, d', hy, hR⟩ := h x d
    obtain ⟨ys, d'', hys, hall⟩ := ih d'
    refine ⟨y::ys, d'', ?_, .cons hR hall⟩
    rw [List.mapM_cons]
    show (f x d).bind _ = _
    rw [hy]
    show (xs.mapM f d').bind _ = _
    rw [hys]
    rfl

omit [DecidableEq κ] in
theorem exists_related {R : α → β → Prop} {xs : List α} {ys : List β}
    (h : List.Forall₂ R xs ys) : ∀ y ∈ ys, ∃ x ∈ xs, R x y := by
  induction h with
  | nil => simp
  | @cons x y xs ys hxy _ ih =>
    intro z hz
    rcases List.mem_cons.mp hz with rfl | hz
    · exact ⟨x, List.mem_cons_self, hxy⟩
    · obtain ⟨x', hx', hR⟩ := ih z hz
      exact ⟨x', List.mem_cons_of_mem x hx', hR⟩

omit [DecidableEq κ] in
theorem forall_mem_related {R : α → β → Prop} {P : β → Prop} {Q : α → Prop}
    (hR : ∀ x y, R x y → (P y ↔ Q x)) {xs : List α} {ys : List β} (h : List.Forall₂ R xs ys) :
    (∀ y ∈ ys, P y) ↔ ∀ x ∈ xs, Q x := by
  induction h with
  | nil => simp
  | cons hxy _ ih => rw [List.forall_mem_cons, List.forall_mem_cons, hR _ _ hxy, ih]

end StackDepths
