import BusPlot.CrcBitwise
import BusPlot.Library.AppendedChecksum
import Mathlib.Data.List.GetD

/-!
# Verification as the zero-residue test

Both checksum pairs treat a message longer than two bytes by one scheme and
leave a shorter one alone. What the scheme gives then holds of the code: the
tail that is appended is the only one that is accepted.
-/

set_option autoImplicit false

namespace BusPlot.CrcTail
open BusPlot.Crc BusPlot.CrcBitwise ReflectedRegister AppendedChecksum

structure Bounded (verify : Pointer → ℕ → Bool) (append : Pointer → ℕ → Pointer) : Prop where
  short : ∀ (message : Pointer) (length : ℕ), length ≤ 2 →
    append message length = message ∧ verify message length = false
  verify_beyond : ∀ bytes rest : List UInt8,
    verify (some (bytes ++ rest)) bytes.length = verify (some bytes) bytes.length
  append_beyond : ∀ bytes rest : List UInt8,
    append (some (bytes ++ rest)) bytes.length =
      (append (some bytes) bytes.length).map (· ++ rest)

structure ExactTail (verify : Pointer → ℕ → Bool) (append : Pointer → ℕ → Pointer) (size : ℕ)
    (residue : List UInt8 → Prop) : Prop extends Bounded verify append where
  verify_residue : ∀ bytes : List UInt8, 2 < bytes.length →
    (verify (some bytes) bytes.length = true ↔ residue bytes)
  verify_unchanged : ∀ bytes : List UInt8, 2 < bytes.length →
    (verify (some bytes) bytes.length = true ↔ append (some bytes) bytes.length = some bytes)
  append_front : ∀ bytes : List UInt8, 2 < bytes.length → ∃ after : List UInt8,
    append (some bytes) bytes.length = some after ∧ after.length = bytes.length ∧
      after.take (bytes.length-size) = bytes.take (bytes.length-size) ∧
      verify (some after) bytes.length = true
  tail_unique : ∀ front : List UInt8, 2 < front.length+size →
    ∃! tail : List UInt8, tail.length = size ∧
      verify (some (front ++ tail)) (front.length+size) = true

structure Follows {ρ : Type*} (S : Scheme UInt8 ρ) (verify : Pointer → ℕ → Bool)
    (append : Pointer → ℕ → Pointer) : Prop extends Bounded verify append where
  size_le : S.size ≤ 2
  accepts : ∀ front last : List UInt8, last.length = S.size → 2 < front.length+S.size →
    (verify (some (front ++ last)) (front.length+S.size) = true ↔ last = S.tail (S.sum front))
  stamps : ∀ front last : List UInt8, last.length = S.size → 2 < front.length+S.size →
    append (some (front ++ last)) (front.length+S.size) = some (front ++ S.tail (S.sum front))

section
variable {ρ : Type*} (S : Scheme UInt8 ρ) (verify : Pointer → ℕ → Bool)
  (append : Pointer → ℕ → Pointer) (hS : Follows S verify append)
include hS

theorem verify_accepts (bytes : List UInt8) (h : 2 < bytes.length) :
    verify (some bytes) bytes.length = true ↔ S.Accepts bytes := by
  have hsize := hS.size_le
  have hfront : (S.front bytes).length+S.size = bytes.length := by
    rw [S.front_length]
    omega
  have hv := hS.accepts (S.front bytes) (S.last bytes) (S.last_length bytes (by omega)) (by omega)
  rw [S.front_append_last, hfront] at hv
  exact hv

theorem append_stamp (bytes : List UInt8) (h : 2 < bytes.length) :
    append (some bytes) bytes.length = some (S.stamp bytes) := by
  have hsize := hS.size_le
  have hfront : (S.front bytes).length+S.size = bytes.length := by
    rw [S.front_length]
    omega
  have ha := hS.stamps (S.front bytes) (S.last bytes) (S.last_length bytes (by omega)) (by omega)
  rw [S.front_append_last, hfront] at ha
  exact ha

theorem exactTail_of_follows :
    ExactTail verify append S.size fun bytes => S.sum bytes = S.zero where
  verify_residue := by
    intro bytes h
    have hsize := hS.size_le
    exact (verify_accepts S verify append hS bytes h).trans (S.accepts_residue bytes (by omega))
  verify_unchanged := by
    intro bytes h
    rw [verify_accepts S verify append hS bytes h, append_stamp S verify append hS bytes h,
      Option.some.injEq, S.stamp_eq_self]
  append_front := by
    intro bytes h
    have hsize := hS.size_le
    have hlen := S.stamp_length bytes (by omega)
    have hfront := S.stamp_front bytes
    rw [Scheme.front, Scheme.front, hlen] at hfront
    have hv := (verify_accepts S verify append hS (S.stamp bytes) (by omega)).mpr
      (S.stamp_accepts bytes)
    rw [hlen] at hv
    exact ⟨S.stamp bytes, append_stamp S verify append hS bytes h, hlen, hfront, hv⟩
  tail_unique := by
    intro front h
    apply ExistsUnique.intro (S.tail (S.sum front))
    · exact ⟨S.tail_length _, (hS.accepts front _ (S.tail_length _) h).mpr rfl⟩
    · rintro tail ⟨ht, hv⟩
      exact (hS.accepts front tail ht h).mp hv
  toBounded := hS.toBounded

end

def crc16Scheme : Scheme UInt8 UInt16 where
  sum := crc16
  zero := 0
  size := 2
  tail := tailBytes
  tail_length := fun _ => rfl
  residue := by
    intro front last h
    obtain ⟨lo, hi, rfl⟩ := List.length_eq_two.mp h
    exact crc16_residue front lo hi

theorem crc16_bounded : Bounded verifyCRC16Checksum appendCRC16Checksum where
  short := by
    intro message length h
    cases message with
    | none => exact ⟨rfl, rfl⟩
    | some bytes => exact ⟨if_pos h, if_pos h⟩
  verify_beyond := by
    intro bytes rest
    by_cases h : bytes.length ≤ 2
    · rw [verifyCRC16Checksum, verifyCRC16Checksum, if_pos h, if_pos h]
    · rw [verifyCRC16Checksum, verifyCRC16Checksum, if_neg h, if_neg h,
        getCRC16Checksum_within bytes rest _ (Nat.sub_le _ 2),
        List.getD_append _ _ _ _ (by omega), List.getD_append _ _ _ _ (by omega)]
  append_beyond := by
    intro bytes rest
    by_cases h : bytes.length ≤ 2
    · rw [appendCRC16Checksum, appendCRC16Checksum, if_pos h, if_pos h, Option.map_some]
    · have h1 : bytes.length-2 < bytes.length := by omega
      have h2 : bytes.length-1 < bytes.length := by omega
      rw [appendCRC16Checksum, appendCRC16Checksum, if_neg h, if_neg h,
        getCRC16Checksum_within bytes rest _ (Nat.sub_le _ 2)]
      simp [h1, h2]

theorem crc16_follows : Follows crc16Scheme verifyCRC16Checksum appendCRC16Checksum where
  toBounded := crc16_bounded
  size_le := le_refl 2
  accepts := by
    intro front last hlast h
    obtain ⟨lo, hi, rfl⟩ := List.length_eq_two.mp hlast
    exact verify_append_iff front lo hi (Nat.lt_of_add_lt_add_right (n := 2) h)
  stamps := by
    intro front last hlast h
    obtain ⟨lo, hi, rfl⟩ := List.length_eq_two.mp hlast
    exact append_eq front lo hi (Nat.lt_of_add_lt_add_right (n := 2) h)

theorem crc8_residue (pre : List UInt8) (c : UInt8) : crc8 (pre ++ [c]) = 0 ↔ c = crc8 pre := by
  have hstep : crc8 (pre ++ [c]) = crc8Step (crc8 pre) c := by
    rw [crc8, getCRC8Checksum, List.take_length, List.foldl_append, crc8, getCRC8Checksum,
      List.take_length]
    rfl
  rw [hstep, ← UInt8.toBitVec_inj, crc8Step_feed, feed_word _ (by decide), BitVec.setWidth_eq,
    eq_comm (a := c), ← UInt8.toBitVec_inj (a := crc8 pre)]
  exact (shifts_eq_zero _ (by decide) (by decide) 8 _).trans (xor_eq_zero _ _)

def crc8Scheme : Scheme UInt8 UInt8 where
  sum := crc8
  zero := 0
  size := 1
  tail := fun r => [r]
  tail_length := fun _ => rfl
  residue := by
    intro front last h
    obtain ⟨c, rfl⟩ := List.length_eq_one_iff.mp h
    rw [crc8_residue, List.singleton_inj]

theorem crc8_bounded : Bounded verifyCRC8Checksum appendCRC8Checksum where
  short := by
    intro message length h
    cases message with
    | none => exact ⟨rfl, rfl⟩
    | some bytes => exact ⟨if_pos h, if_pos h⟩
  verify_beyond := by
    intro bytes rest
    by_cases h : bytes.length ≤ 2
    · rw [verifyCRC8Checksum, verifyCRC8Checksum, if_pos h, if_pos h]
    · rw [verifyCRC8Checksum, verifyCRC8Checksum, if_neg h, if_neg h,
        getCRC8Checksum_within bytes rest _ (Nat.sub_le _ 1),
        List.getD_append _ _ _ _ (by omega)]
  append_beyond := by
    intro bytes rest
    by_cases h : bytes.length ≤ 2
    · rw [appendCRC8Checksum, appendCRC8Checksum, if_pos h, if_pos h, Option.map_some]
    · rw [appendCRC8Checksum, appendCRC8Checksum, if_neg h, if_neg h,
        getCRC8Checksum_within bytes rest _ (Nat.sub_le _ 1),
        List.set_append_left _ _ (by omega), Option.map_some]

theorem crc8_follows : Follows crc8Scheme verifyCRC8Checksum appendCRC8Checksum where
  toBounded := crc8_bounded
  size_le := Nat.le_succ 1
  accepts := by
    intro front last hlast h
    obtain ⟨c, rfl⟩ := List.length_eq_one_iff.mp hlast
    apply Iff.trans _ List.singleton_inj.symm
    exact verify8_append_iff front c (Nat.lt_of_add_lt_add_right (n := 1) h)
  stamps := by
    intro front last hlast h
    obtain ⟨c, rfl⟩ := List.length_eq_one_iff.mp hlast
    exact append8_eq front c (Nat.lt_of_add_lt_add_right (n := 1) h)

/-- The residue of both checksums is zero, and their tails are exact. -/
theorem tails_exact :
    ExactTail verifyCRC16Checksum appendCRC16Checksum 2
      (fun bytes => getCRC16Checksum (some bytes) bytes.length 0xFFFF = 0) ∧
    ExactTail verifyCRC8Checksum appendCRC8Checksum 1
      (fun bytes => getCRC8Checksum bytes bytes.length 0xFF = 0) := by
  constructor
  · exact exactTail_of_follows crc16Scheme _ _ crc16_follows
  · exact exactTail_of_follows crc8Scheme _ _ crc8_follows

end BusPlot.CrcTail
