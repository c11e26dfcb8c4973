import Mathlib.Data.List.Basic
import Mathlib.Tactic.Common

/-!
# Search by halving

The loop behind `std::lower_bound` and `std::upper_bound`: look at the middle,
at offset `len/2`, go on behind it when the predicate holds there and before it
when not. On a list that is partitioned by the predicate the result is the
number of elements it holds of; on any other list it is some place.
-/

set_option autoImplicit false

namespace HalvingSearch

variable {α : Type*}

def search (p : α → Bool) (xs : List α) : ℕ :=
  match _h : xs.drop (xs.length/2) with
  | [] => 0
  | x::upper =>
    if p x then xs.length/2+1 + search p upper else search p (xs.take (xs.length/2))
  termination_by xs.length
  decreasing_by
    all_goals
      have hlen := congrArg List.length _h
      simp only [List.length_drop, List.length_cons, List.length_take] at hlen ⊢
      omega

theorem search_nil (p : α → Bool) : search p [] = 0 := by
  rw [search]
  split
  · rfl
  · rename_i h
    simp at h

theorem search_middle (p : α → Bool) (lower : List α) (x : α) (upper : List α)
    (h : lower.length = (lower ++ x::upper).length/2) :
    search p (lower ++ x::upper) =
      if p x then lower.length+1 + search p upper else search p lower := by
  have hdrop : (lower ++ x::upper).drop ((lower ++ x::upper).length/2) = x::upper := by
    rw [← h, List.drop_left]
  rw [search]
  split
  · rename_i hnil
    rw [hdrop] at hnil
    cases hnil
  · rename_i y rest hcons
    rw [hdrop] at hcons
    cases hcons
    rw [← h, List.take_left]

/-- A list is empty, or its middle stands between two shorter lists. -/
theorem halves (xs : List α) : xs = [] ∨ ∃ lower x upper, xs = lower ++ x::upper ∧
    lower.length = (lower ++ x::upper).length/2 := by
  cases hd : xs.drop (xs.length/2) with
  | nil =>
    have hlen := congrArg List.length hd
    simp only [List.length_drop, List.length_nil] at hlen
    exact .inl (List.length_eq_zero_iff.mp (by omega))
  | cons x upper =>
    have hlen := congrArg List.length hd
    simp only [List.length_drop, List.length_cons] at hlen
    have hxs : xs = xs.take (xs.length/2) ++ x::upper := by rw [← hd, List.take_append_drop]
    refine .inr ⟨xs.take (xs.length/2), x, upper, hxs, ?_⟩
    rw [← hxs, List.length_take]
    omega

/-- What holds of the empty list and goes from both halves to the whole holds of
every list. -/
theorem halving_induction (motive : List α → Prop) (nil : motive [])
    (middle : ∀ lower x upper, lower.length = (lower ++ x::upper).length/2 → motive lower →
      motive upper → motive (lower ++ x::upper)) (xs : List α) : motive xs := by
  induction hn : xs.length using Nat.strongRecOn generalizing xs with
  | ind n ih =>
    rcases halves xs with rfl | ⟨lower, x, upper, rfl, h⟩
    · exact nil
    · have hlen : (lower ++ x::upper).length = lower.length+(upper.length+1) := by simp
      exact middle lower x upper h (ih _ (by omega) lower rfl) (ih _ (by omega) upper rfl)

theorem search_le (p : α → Bool) (xs : List α) : search p xs ≤ xs.length := by
  induction xs using halving_induction with
  | nil => rw [search_nil]; exact Nat.le_refl 0
  | middle lower x upper h ihl ihu =>
    rw [search_middle p lower x upper h, List.length_append, List.length_cons]
    split <;> omega

theorem search_mono (p q : α → Bool) (xs : List α) (h : ∀ x ∈ xs, p x = true → q x = true) :
    search p xs ≤ search q xs := by
  induction xs using halving_induction with
  | nil => rw [search_nil]; exact Nat.zero_le _
  | middle lower x upper hm ihl ihu =>
    have hlower := ihl fun y hy => h y (by simp [hy])
    have hupper := ihu fun y hy => h y (by simp [hy])
    have hx := h x (by simp)
    rw [search_middle p lower x upper hm, search_middle q lower x upper hm]
    cases hp : p x with
    | true =>
      rw [hx hp, if_pos rfl, if_pos rfl]
      omega
    | false =>
      have hle := search_le p lower
      rw [if_neg Bool.false_ne_true]
      split <;> omega

theorem search_congr (p q : α → Bool) (xs : List α) (h : ∀ x ∈ xs, p x = q x) :
    search p xs = search q xs :=
  Nat.le_antisymm (search_mono p q xs fun x hx hp => h x hx ▸ hp)
    (search_mono q p xs fun x hx hq => (h x hx).symm ▸ hq)

theorem search_map {β : Type*} (f : α → β) (p : β → Bool) (xs : List α) :
    search p (xs.map f) = search (fun x => p (f x)) xs := by
  induction xs using halving_induction with
  | nil => rw [List.map_nil, search_nil, search_nil]
  | middle lower x upper h ihl ihu =>
    have hm : (lower.map f).length = (lower.map f ++ f x::upper.map f).length/2 := by
      simpa using h
    rw [List.map_append, List.map_cons, search_middle p _ _ _ hm, search_middle _ lower x upper h,
      ihl, ihu, List.length_map]

theorem search_all (p : α → Bool) (xs : List α) (h : ∀ x ∈ xs, p x = true) :
    search p xs = xs.length := by
  induction xs using halving_induction with
  | nil => exact search_nil p
  | middle lower x upper hm ihl ihu =>
    rw [search_middle p lower x upper hm, if_pos (h x (by simp)),
      ihu fun y hy => h y (by simp [hy]), List.length_append, List.length_cons]
    omega

theorem search_partitioned (p : α → Bool) (xs : List α)
    (h : xs.Pairwise fun a b => p b = true → p a = true) : search p xs = xs.countP p := by
  induction xs using halving_induction with
  | nil => exact search_nil p
  | middle lower x upper hm ihl ihu =>
    obtain ⟨hlower, hrest, hcross⟩ := List.pairwise_append.mp h
    obtain ⟨hx, hupper⟩ := List.pairwise_cons.mp hrest
    rw [search_middle p lower x upper hm, List.countP_append, ihl hlower, ihu hupper]
    cases hp : p x with
    | true =>
      have hall : lower.countP p = lower.length :=
        List.countP_eq_length.mpr fun y hy => hcross y hy x (by simp) hp
      rw [if_pos rfl, List.countP_cons_of_pos hp, hall]
      omega
    | false =>
      have hnone : upper.countP p = 0 :=
        List.countP_eq_zero.mpr fun y hy hpy => by simp [hx y hy hpy] at hp
      rw [if_neg Bool.false_ne_true, List.countP_cons_of_neg (by simp [hp]), hnone]
      rfl

/-- A partitioned list is what the predicate holds of, and then the rest. -/
theorem filter_partitioned (p : α → Bool) (xs : List α)
    (h : xs.Pairwise fun a b => p b = true → p a = true) :
    xs.filter p ++ xs.filter (fun x => !p x) = xs := by
  induction xs with
  | nil => rfl
  | cons x xs ih =>
    obtain ⟨hx, hrest⟩ := List.pairwise_cons.mp h
    cases hp : p x with
    | true => simp [hp, ih hrest]
    | false =>
      have hnone : ∀ y ∈ xs, p y = false := by
        intro y hy
        by_contra hpy
        simp [hx y hy (Bool.not_eq_false _ ▸ hpy)] at hp
      have hall : xs.filter (fun y => !p y) = xs :=
        List.filter_eq_self.mpr fun y hy => by simp [hnone y hy]
      have hempty : xs.filter p = [] :=
        List.filter_eq_nil_iff.mpr fun y hy => by simp [hnone y hy]
      simp [hp, hall, hempty]

theorem take_search (p : α → Bool) (xs : List α)
    (h : xs.Pairwise fun a b => p b = true → p a = true) :
    xs.take (search p xs) = xs.filter p := by
  rw [search_partitioned p xs h, List.countP_eq_length_filter]
  calc xs.take (xs.filter p).length
    _ = (xs.filter p ++ xs.filter fun x => !p x).take (xs.filter p).length := by
        rw [filter_partitioned p xs h]
    _ = xs.filter p := List.take_left

theorem drop_search (p : α → Bool) (xs : List α)
    (h : xs.Pairwise fun a b => p b = true → p a = true) :
    xs.drop (search p xs) = xs.filter fun x => !p x := by
  rw [search_partitioned p xs h, List.countP_eq_length_filter]
  calc xs.drop (xs.filter p).length
    _ = (xs.filter p ++ xs.filter fun x => !p x).drop (xs.filter p).length := by
        rw [filter_partitioned p xs h]
    _ = xs.filter fun x => !p x := List.drop_left

/-- Between two searches stands what the weaker predicate holds of and the
stronger one does not. -/
theorem between_searches (p q : α → Bool) (xs : List α)
    (hp : xs.Pairwise fun a b => p b = true → p a = true)
    (hq : xs.Pairwise fun a b => q b = true → q a = true) (h : ∀ x ∈ xs, p x = true → q x = true) :
    (xs.take (search q xs)).drop (search p xs) = xs.filter fun x => !p x && q x := by
  have hcount : search p xs = search p (xs.filter q) := by
    have hsub : (xs.filter q).Pairwise fun a b => p b = true → p a = true := hp.filter q
    rw [search_partitioned p xs hp, search_partitioned p _ hsub, List.countP_filter]
    apply List.countP_congr
    intro x hx
    simp only [Bool.and_eq_true]
    exact ⟨fun hpx => ⟨hpx, h x hx hpx⟩, And.left⟩
  rw [take_search q xs hq, hcount, drop_search p _ (hp.filter q), List.filter_filter]

/-- An element that only the weaker of two predicates holds of moves the search
on a partitioned list. -/
theorem search_lt (p q : α → Bool) (xs : List α)
    (hp : xs.Pairwise fun a b => p b = true → p a = true)
    (hq : xs.Pairwise fun a b => q b = true → q a = true) (h : ∀ x ∈ xs, p x = true → q x = true)
    (x : α) (hx : x ∈ xs) (hpx : p x = false) (hqx : q x = true) : search p xs < search q xs := by
  rw [search_partitioned p xs hp, search_partitioned q xs hq,
    List.countP_eq_countP_filter_add xs q p]
  have hsame : (xs.filter p).countP q = xs.countP p :=
    calc (xs.filter p).countP q
      _ = (xs.filter p).length := List.countP_eq_length.mpr fun y hy =>
          h y (List.mem_filter.mp hy).1 (List.mem_filter.mp hy).2
      _ = xs.countP p := List.countP_eq_length_filter.symm
  have hmore : 0 < (xs.filter fun y => !p y).countP q :=
    List.countP_pos_iff.mpr ⟨x, List.mem_filter.mpr ⟨hx, by simp [hpx]⟩, hqx⟩
  omega

end HalvingSearch
