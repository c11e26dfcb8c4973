import Mathlib.Data.List.Basic
import Mathlib.Tactic.Common

/-!
# Messages that end in their own checksum

The register over a whole message reads zero for one end of it only, the
checksum of what stands before. Testing a message and completing it are then
two sides of one fact.
-/

set_option autoImplicit false

namespace AppendedChecksum

structure Scheme (α ρ : Type*) where
  sum : List α → ρ
  zero : ρ
  size : ℕ
  tail : ρ → List α
  tail_length : ∀ r, (tail r).length = size
  residue : ∀ front last, last.length = size →
    (sum (front ++ last) = zero ↔ last = tail (sum front))

namespace Scheme

variable {α ρ : Type*} (S : Scheme α ρ)

def front (m : List α) : List α := m.take (m.length-S.size)

def last (m : List α) : List α := m.drop (m.length-S.size)

def Accepts (m : List α) : Prop := S.last m = S.tail (S.sum (S.front m))

def stamp (m : List α) : List α := S.front m ++ S.tail (S.sum (S.front m))

theorem front_append_last (m : List α) : S.front m ++ S.last m = m :=
  List.take_append_drop _ m

theorem last_length (m : List α) (h : S.size ≤ m.length) : (S.last m).length = S.size := by
  rw [last, List.length_drop]
  omega

theorem front_length (m : List α) : (S.front m).length = m.length-S.size := by
  rw [front, List.length_take]
  omega

theorem front_append (as bs : List α) (h : bs.length = S.size) : S.front (as ++ bs) = as := by
  rw [front, List.length_append, h, Nat.add_sub_cancel, List.take_left]

theorem last_append (as bs : List α) (h : bs.length = S.size) : S.last (as ++ bs) = bs := by
  rw [last, List.length_append, h, Nat.add_sub_cancel, List.drop_left]

theorem accepts_append (as bs : List α) (h : bs.length = S.size) :
    S.Accepts (as ++ bs) ↔ bs = S.tail (S.sum as) := by
  rw [Accepts, S.front_append as bs h, S.last_append as bs h]

theorem accepts_residue (m : List α) (h : S.size ≤ m.length) :
    S.Accepts m ↔ S.sum m = S.zero := by
  have hres := S.residue (S.front m) (S.last m) (S.last_length m h)
  rw [S.front_append_last] at hres
  exact hres.symm

theorem stamp_eq_self (m : List α) : S.stamp m = m ↔ S.Accepts m := by
  constructor
  · intro h
    rw [stamp] at h
    exact (List.append_cancel_left (h.trans (S.front_append_last m).symm)).symm
  · intro h
    rw [stamp, ← h]
    exact S.front_append_last m

theorem stamp_accepts (m : List α) : S.Accepts (S.stamp m) :=
  (S.accepts_append _ _ (S.tail_length _)).mpr rfl

theorem stamp_length (m : List α) (h : S.size ≤ m.length) : (S.stamp m).length = m.length := by
  rw [stamp, List.length_append, front_length, S.tail_length]
  omega

theorem stamp_front (m : List α) : S.front (S.stamp m) = S.front m :=
  S.front_append _ _ (S.tail_length _)

end Scheme

end AppendedChecksum
