import Mathlib.Logic.Equiv.Defs
import Mathlib.Tactic.Common

/-!
# Packed records

A layout writes a value as a fixed number of symbols with nothing in between and
reads it back from the start of a run. Reading what was written gives the value
back, and writing what was read gives the symbols back, so no symbol is without
a meaning. Both laws are part of a layout; fields, rows of fields and renamings
are put together from layouts and inherit them.
-/

set_option autoImplicit false

structure PackedRecord (β α : Type*) where
  size : ℕ
  encode : α → List β
  decode : List β → α
  encode_length : ∀ a, (encode a).length = size
  decode_encode : ∀ a rest, decode (encode a ++ rest) = a
  encode_decode : ∀ bs, size ≤ bs.length → encode (decode bs) = bs.take size

namespace PackedRecord

variable {β α γ : Type*}

def symbol (default : β) : PackedRecord β β where
  size := 1
  encode b := [b]
  decode bs := bs.headD default
  encode_length _ := rfl
  decode_encode _ _ := rfl
  encode_decode bs h := by
    cases bs with
    | nil => simp at h
    | cons b bs => simp

def pair (L : PackedRecord β α) (M : PackedRecord β γ) : PackedRecord β (α × γ) where
  size := L.size+M.size
  encode a := L.encode a.1 ++ M.encode a.2
  decode bs := (L.decode bs, M.decode (bs.drop L.size))
  encode_length a := by rw [List.length_append, L.encode_length, M.encode_length]
  decode_encode a rest := by
    rw [List.append_assoc, L.decode_encode, List.drop_left' (L.encode_length a.1),
      M.decode_encode]
  encode_decode bs h := by
    rw [L.encode_decode bs (by omega), M.encode_decode _ (by rw [List.length_drop]; omega),
      List.take_add]

def via (L : PackedRecord β α) (e : α ≃ γ) : PackedRecord β γ where
  size := L.size
  encode c := L.encode (e.symm c)
  decode bs := e (L.decode bs)
  encode_length c := L.encode_length _
  decode_encode c rest := by rw [L.decode_encode, Equiv.apply_symm_apply]
  encode_decode bs h := by rw [Equiv.symm_apply_apply, L.encode_decode bs h]

def decodeMany (L : PackedRecord β α) : ℕ → List β → List α
  | 0, _ => []
  | n+1, bs => L.decode bs::decodeMany L n (bs.drop L.size)

theorem decodeMany_length (L : PackedRecord β α) (n : ℕ) (bs : List β) :
    (L.decodeMany n bs).length = n := by
  induction n generalizing bs with
  | zero => rfl
  | succ n ih => rw [decodeMany, List.length_cons, ih]

theorem decodeMany_encode (L : PackedRecord β α) (as : List α) (rest : List β) :
    L.decodeMany as.length (as.flatMap L.encode ++ rest) = as := by
  induction as with
  | nil => rfl
  | cons a as ih =>
    rw [List.flatMap_cons, List.append_assoc, List.length_cons, decodeMany, L.decode_encode,
      List.drop_left' (L.encode_length a), ih]

theorem encode_decodeMany (L : PackedRecord β α) (n : ℕ) (bs : List β)
    (h : n*L.size ≤ bs.length) :
    (L.decodeMany n bs).flatMap L.encode = bs.take (n*L.size) := by
  induction n generalizing bs with
  | zero => simp [decodeMany]
  | succ n ih =>
    rw [Nat.succ_mul] at h
    rw [decodeMany, List.flatMap_cons, L.encode_decode bs (by omega),
      ih _ (by rw [List.length_drop]; omega), Nat.succ_mul, Nat.add_comm, List.take_add]

theorem flatMap_encode_length (L : PackedRecord β α) (as : List α) :
    (as.flatMap L.encode).length = as.length*L.size := by
  induction as with
  | nil => simp
  | cons a as ih =>
    rw [List.flatMap_cons, List.length_append, L.encode_length, ih, List.length_cons, Nat.succ_mul,
      Nat.add_comm]

def row (L : PackedRecord β α) (n : ℕ) : PackedRecord β (Vector α n) where
  size := n*L.size
  encode v := v.toList.flatMap L.encode
  decode bs := ⟨(L.decodeMany n bs).toArray, L.decodeMany_length n bs⟩
  encode_length v := by rw [flatMap_encode_length, Vector.length_toList]
  decode_encode v rest := by
    have h := L.decodeMany_encode v.toList rest
    rw [Vector.length_toList] at h
    apply Vector.toList_inj.mp
    exact h
  encode_decode bs h := L.encode_decodeMany n bs h

end PackedRecord
