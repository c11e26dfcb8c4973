import BusPlot.Crc

/-!
# Flipped bits of a frame

Bit `i` of byte `j` has the position `8*j+i`, the order in which the register
takes the bits and a serial line sends them. On every frame that a one-byte
length allows, the sixteen-bit checksum notices up to three flipped bits; on
frames of any length it notices a burst that fits into the register.
-/

set_option autoImplicit false

namespace BusPlot.CrcDistance
open BusPlot.Crc ReflectedRegister

def flipBit (k : ℕ) (bytes : List UInt8) : List UInt8 :=
  bytes.modify (k/8) fun b => ⟨b.toBitVec ^^^ (1#8 <<< (k % 8))⟩

def damage (ks : List ℕ) (bytes : List UInt8) : List UInt8 := ks.foldr flipBit bytes

theorem flipBit_length (k : ℕ) (bytes : List UInt8) : (flipBit k bytes).length = bytes.length := by
  simp [flipBit]

theorem damage_length (ks : List ℕ) (bytes : List UInt8) :
    (damage ks bytes).length = bytes.length := by
  induction ks with
  | nil => rfl
  | cons k ks ih => exact (flipBit_length k _).trans ih

theorem modify_append (f : Bool → Bool) (as bs : List Bool) (k : ℕ) :
    (as ++ bs).modify k f =
      if k < as.length then as.modify k f ++ bs else as ++ bs.modify (k-as.length) f := by
  induction as generalizing k with
  | nil => simp
  | cons a as ih =>
    cases k with
    | zero => simp
    | succ k =>
      simp only [List.cons_append, List.modify_succ_cons, ih, List.length_cons,
        Nat.add_lt_add_iff_right, Nat.add_sub_add_right]
      split <;> rfl

theorem messageBits_flipBit (k : ℕ) (bytes : List UInt8) :
    messageBits (flipBit k bytes) = (messageBits bytes).modify k (!·) := by
  induction bytes generalizing k with
  | nil => simp [flipBit, messageBits]
  | cons b bytes ih =>
    rw [messageBits_cons, modify_append, bits_length]
    by_cases hk : k < 8
    · rw [if_pos hk, flipBit, show k/8 = 0 by omega, List.modify_zero_cons, messageBits_cons,
        Nat.mod_eq_of_lt hk, bits_flip]
    · rw [if_neg hk, flipBit, show k/8 = (k-8)/8+1 by omega, show k % 8 = (k-8) % 8 by omega,
        List.modify_succ_cons, messageBits_cons, ← ih (k-8), flipBit]

theorem messageBits_damage (ks : List ℕ) (bytes : List UInt8) :
    messageBits (damage ks bytes) = flipAll ks (messageBits bytes) := by
  induction ks with
  | nil => rfl
  | cons k ks ih => exact (messageBits_flipBit k _).trans (congrArg (List.modify · k (!·)) ih)

set_option maxRecDepth 20000 in
theorem ccitt_aperiodic : Aperiodic ccitt 2088 :=
  aperiodic_of_avoids ccitt 2087 (by decide +kernel)

/-- An accepted frame stays accepted when the register does not see the change. -/
theorem verify_damage (bytes : List UInt8) (h2 : 2 < bytes.length)
    (hv : verifyCRC16Checksum (some bytes) bytes.length = true) (ks : List ℕ) :
    verifyCRC16Checksum (some (damage ks bytes)) bytes.length = true ↔
      feed ccitt crc16Init.toBitVec (flipAll ks (messageBits bytes)) =
        feed ccitt crc16Init.toBitVec (messageBits bytes) := by
  have hlen := damage_length ks bytes
  rw [(verify_residue bytes h2).mp hv, ← messageBits_damage, ← hlen,
    verify_residue _ (by omega)]

theorem damage_rejected (bytes : List UInt8) (h2 : 2 < bytes.length) (h261 : bytes.length ≤ 261)
    (hv : verifyCRC16Checksum (some bytes) bytes.length = true) (ks : List ℕ)
    (hks : ∀ k ∈ ks, k < 8*bytes.length) (hnd : ks.Nodup) (h0 : ks ≠ []) (h3 : ks.length ≤ 3) :
    verifyCRC16Checksum (some (damage ks bytes)) bytes.length = false := by
  have hbits := messageBits_length bytes
  rw [← Bool.not_eq_true, verify_damage bytes h2 hv]
  exact flips_detected ccitt (by decide) (by decide) (by decide) (by decide) _ _
    (aperiodic_mono ccitt _ _ ccitt_aperiodic (by omega)) ks (by rw [hbits]; exact hks) hnd h0 h3

/-- Two frames that the register takes to the same value differ in four bits. -/
theorem accepted_apart (a b : List UInt8) (h2 : 2 < a.length) (h261 : a.length ≤ 261)
    (hlen : b.length = a.length) (hne : a ≠ b)
    (ha : verifyCRC16Checksum (some a) a.length = true)
    (hb : verifyCRC16Checksum (some b) b.length = true) :
    4 ≤ (differing (messageBits a) (messageBits b)).length := by
  have hbits := messageBits_length a
  have hzero := ((verify_residue a h2).mp ha).trans ((verify_residue b (by omega)).mp hb).symm
  apply differing_four ccitt (by decide) (by decide) (by decide) (by decide) crc16Init.toBitVec
    _ _ (by rw [hbits, messageBits_length, hlen])
    (aperiodic_mono ccitt _ _ ccitt_aperiodic (by omega)) _ hzero
  intro h
  exact hne (messageBits_injective h)

/-- The frames of `n` bytes that are accepted form a code of distance four: up
to three flipped bits take none of them into another, and no two of them are
closer than four bits. -/
theorem hamming_distance (n : ℕ) (h3 : 3 ≤ n) (h261 : n ≤ 261) (bytes : List UInt8)
    (hn : bytes.length = n) (hv : verifyCRC16Checksum (some bytes) n = true) :
    (∀ ks : List ℕ, (∀ k ∈ ks, k < 8*n) → ks.Nodup → 1 ≤ ks.length → ks.length ≤ 3 →
      verifyCRC16Checksum (some (damage ks bytes)) n = false) ∧
    ∀ other : List UInt8, other.length = n → other ≠ bytes →
      verifyCRC16Checksum (some other) n = true →
        4 ≤ (differing (messageBits bytes) (messageBits other)).length := by
  subst hn
  constructor
  · intro ks hks hnd h1 hle
    have h0 : ks ≠ [] := List.ne_nil_of_length_pos h1
    exact damage_rejected bytes h3 h261 hv ks hks hnd h0 hle
  · intro other hlen hne hother
    exact accepted_apart bytes other h3 h261 hlen hne.symm hv (by rw [hlen]; exact hother)

/-- The removal of variable 7, with three bits flipped and beside the removal of
variable 8. -/
theorem hamming_distance_removal :
    verifyCRC16Checksum
      (some (damage [0, 9, 63] [0xA5, 0x02, 0x30, 0x00, 0x07, 0x00, 0x47, 0x8B])) 8 = false ∧
    4 ≤ (differing (messageBits [0xA5, 0x02, 0x30, 0x00, 0x07, 0x00, 0x47, 0x8B])
      (messageBits [0xA5, 0x02, 0x30, 0x00, 0x08, 0x00, 0x8F, 0x08])).length := by
  have h := hamming_distance 8 (by decide) (by decide)
    [0xA5, 0x02, 0x30, 0x00, 0x07, 0x00, 0x47, 0x8B] rfl (by decide)
  constructor
  · exact h.1 [0, 9, 63] (by decide) (by decide) (by decide) (by decide)
  · exact h.2 [0xA5, 0x02, 0x30, 0x00, 0x08, 0x00, 0x8F, 0x08] rfl (by decide) (by decide)

/-- Flipped bits within sixteen positions are noticed, whatever the length of
the frame and wherever they lie in it. -/
theorem burst_rejected (bytes : List UInt8) (h2 : 2 < bytes.length)
    (hv : verifyCRC16Checksum (some bytes) bytes.length = true) (start : ℕ) (ks : List ℕ)
    (hks : ∀ k ∈ ks, k < 8*bytes.length) (hnd : ks.Nodup) (h0 : ks ≠ [])
    (hburst : ∀ k ∈ ks, start ≤ k ∧ k < start+16) :
    verifyCRC16Checksum (some (damage ks bytes)) bytes.length = false := by
  have hbits := messageBits_length bytes
  rw [← Bool.not_eq_true, verify_damage bytes h2 hv]
  exact burst_detected ccitt (by decide) (by decide) _ _ start ks (by rw [hbits]; exact hks) hnd h0
    hburst

/-- The removal of variable 7, hit across the border of its checksum. -/
theorem burst_rejected_removal :
    verifyCRC16Checksum
      (some (damage [39, 40, 54] [0xA5, 0x02, 0x30, 0x00, 0x07, 0x00, 0x47, 0x8B])) 8 = false :=
  burst_rejected [0xA5, 0x02, 0x30, 0x00, 0x07, 0x00, 0x47, 0x8B] (by decide) (by decide) 39
    [39, 40, 54] (by decide) (by decide) (by decide) (by decide)

end BusPlot.CrcDistance
