import BusPlot.CrcDistance
import BusPlot.CrcTail

/-!
# Errors in general

Whether flipped bits are noticed is a question about the flipped bits alone. Both
polynomials have an even number of terms, so an odd number of flipped bits is
always noticed.
-/

set_option autoImplicit false

namespace BusPlot.CrcErrors
open BusPlot.Crc BusPlot.CrcBitwise BusPlot.CrcTail BusPlot.CrcDistance ReflectedRegister

structure Residual {w : ℕ} (poly init : BitVec w) (verify : Pointer → ℕ → Bool) : Prop where
  width : 0 < w
  top : poly.getLsbD (w-1) = true
  odd : parity poly = true
  one : parity 1#w = true
  verify_iff : ∀ bytes : List UInt8, 2 < bytes.length →
    (verify (some bytes) bytes.length = true ↔ feed poly init (messageBits bytes) = 0#w)

theorem crc16_residual : Residual ccitt crc16Init.toBitVec verifyCRC16Checksum where
  width := by decide
  top := by decide
  odd := by decide
  one := by decide
  verify_iff := verify_residue

theorem crc8_residual : Residual (0x31#8).reverse crc8Init.toBitVec verifyCRC8Checksum where
  width := by decide
  top := by decide
  odd := by decide
  one := by decide
  verify_iff := by
    intro bytes h
    have htail := exactTail_of_follows crc8Scheme _ _ crc8_follows
    have hbits := getCRC8Checksum_bitwise bytes bytes.length crc8Init
    rw [bitwise, List.take_length] at hbits
    rw [htail.verify_residue bytes h, ← hbits, ← UInt8.toBitVec_inj]
    rfl

section
variable {w : ℕ} (poly init : BitVec w) (verify : Pointer → ℕ → Bool)
  (hR : Residual poly init verify)
include hR

theorem verify_syndrome (bytes : List UInt8) (h2 : 2 < bytes.length)
    (hv : verify (some bytes) bytes.length = true) (ks : List ℕ)
    (hks : ∀ k ∈ ks, k < 8*bytes.length) :
    verify (some (damage ks bytes)) bytes.length = true ↔
      syndrome poly (8*bytes.length) ks = 0#w := by
  have hlen := damage_length ks bytes
  have hbits := messageBits_length bytes
  have hfed := feed_flipAll_eq poly init (messageBits bytes) ks (by rw [hbits]; exact hks)
  rw [(hR.verify_iff bytes h2).mp hv, hbits] at hfed
  rw [← hfed, ← messageBits_damage, ← hlen, hR.verify_iff _ (by omega)]

theorem verify_moved (a b : List UInt8) (ha2 : 2 < a.length) (hb2 : 2 < b.length)
    (ha : verify (some a) a.length = true) (hb : verify (some b) b.length = true) (ks : List ℕ)
    (d : ℕ) (hka : ∀ k ∈ ks, k < 8*a.length) (hkb : ∀ k ∈ ks, k+d < 8*b.length) :
    verify (some (damage ks a)) a.length =
      verify (some (damage (ks.map (·+d)) b)) b.length := by
  have hmoved : ∀ k ∈ ks.map (·+d), k < 8*b.length := by
    intro k hk
    obtain ⟨j, hj, rfl⟩ := List.mem_map.mp hk
    exact hkb j hj
  rw [Bool.eq_iff_iff, verify_syndrome poly init verify hR a ha2 ha ks hka,
    verify_syndrome poly init verify hR b hb2 hb _ hmoved]
  exact syndrome_place poly hR.width hR.top _ _ d ks (fun k hk => (hka k hk).le)
    fun k hk => (hkb k hk).le

theorem verify_joined (bytes : List UInt8) (h2 : 2 < bytes.length)
    (hv : verify (some bytes) bytes.length = true) (ks js : List ℕ)
    (hks : ∀ k ∈ ks, k < 8*bytes.length) (hjs : ∀ k ∈ js, k < 8*bytes.length)
    (hunseen : verify (some (damage ks bytes)) bytes.length = true) :
    verify (some (damage (ks ++ js) bytes)) bytes.length =
      verify (some (damage js bytes)) bytes.length := by
  have hboth : ∀ k ∈ ks ++ js, k < 8*bytes.length := by
    intro k hk
    rcases List.mem_append.mp hk with h | h
    · exact hks k h
    · exact hjs k h
  have hzero := (verify_syndrome poly init verify hR bytes h2 hv ks hks).mp hunseen
  rw [Bool.eq_iff_iff, verify_syndrome poly init verify hR bytes h2 hv _ hboth,
    verify_syndrome poly init verify hR bytes h2 hv js hjs, syndrome_append, hzero,
    BitVec.zero_xor]

theorem verify_odd (bytes : List UInt8) (h2 : 2 < bytes.length)
    (hv : verify (some bytes) bytes.length = true) (ks : List ℕ)
    (hks : ∀ k ∈ ks, k < 8*bytes.length) (hodd : ks.length % 2 = 1) :
    verify (some (damage ks bytes)) bytes.length = false := by
  rw [← Bool.not_eq_true, verify_syndrome poly init verify hR bytes h2 hv ks hks]
  exact syndrome_odd poly hR.odd hR.one _ ks hodd

end

structure ByPattern (verify : Pointer → ℕ → Bool) : Prop where
  moved : ∀ a b : List UInt8, 2 < a.length → 2 < b.length → verify (some a) a.length = true →
    verify (some b) b.length = true → ∀ (ks : List ℕ) (d : ℕ), (∀ k ∈ ks, k < 8*a.length) →
    (∀ k ∈ ks, k+d < 8*b.length) → verify (some (damage ks a)) a.length =
      verify (some (damage (ks.map (·+d)) b)) b.length
  joined : ∀ bytes : List UInt8, 2 < bytes.length → verify (some bytes) bytes.length = true →
    ∀ ks js : List ℕ, (∀ k ∈ ks, k < 8*bytes.length) → (∀ k ∈ js, k < 8*bytes.length) →
    verify (some (damage ks bytes)) bytes.length = true →
      verify (some (damage (ks ++ js) bytes)) bytes.length =
        verify (some (damage js bytes)) bytes.length
  odd : ∀ bytes : List UInt8, 2 < bytes.length → verify (some bytes) bytes.length = true →
    ∀ ks : List ℕ, (∀ k ∈ ks, k < 8*bytes.length) → ks.length % 2 = 1 →
      verify (some (damage ks bytes)) bytes.length = false

theorem byPattern_of_residual {w : ℕ} (poly init : BitVec w) (verify : Pointer → ℕ → Bool)
    (hR : Residual poly init verify) : ByPattern verify where
  moved := verify_moved poly init verify hR
  joined := verify_joined poly init verify hR
  odd := verify_odd poly init verify hR

/-- Both checks see the flipped bits and nothing else. -/
theorem errors_by_pattern : ByPattern verifyCRC16Checksum ∧ ByPattern verifyCRC8Checksum := by
  constructor
  · exact byPattern_of_residual _ _ _ crc16_residual
  · exact byPattern_of_residual _ _ _ crc8_residual

end BusPlot.CrcErrors
