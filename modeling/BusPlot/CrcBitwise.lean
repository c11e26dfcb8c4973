import BusPlot.Crc

/-!
# The checksums without tables

A device at the other end of the line may compute its frame tail bit by bit.
The polynomials are written in the usual order here and reflected where the
register, which takes the least significant bit of a byte first, needs them.
-/

set_option autoImplicit false

namespace BusPlot.CrcBitwise
open BusPlot.Crc ReflectedRegister

variable {w : ℕ} (poly : BitVec w)

def bitwise (r : BitVec w) (bytes : List UInt8) : BitVec w :=
  feed poly.reverse r (messageBits bytes)

def serialStep (r : BitVec w) (b : UInt8) : BitVec w :=
  shifts poly.reverse 8 (r ^^^ b.toBitVec.setWidth w)

def serial (r : BitVec w) (bytes : List UInt8) : BitVec w := bytes.foldl (serialStep poly) r

theorem serialStep_feed (hw : 8 ≤ w) (r : BitVec w) (b : UInt8) :
    serialStep poly r b = feed poly.reverse r (bits 8 b.toBitVec) :=
  (feed_word poly.reverse hw r b.toBitVec).symm

theorem serial_bitwise (hw : 8 ≤ w) (r : BitVec w) (bytes : List UInt8) :
    serial poly r bytes = bitwise poly r bytes :=
  foldl_feed poly.reverse id (serialStep poly) (serialStep_feed poly hw) bytes r

theorem ccitt_reverse : ccitt = (0x1021#16).reverse := by
  decide

theorem crc8Table_entry (i : Fin 256) :
    (crc8Table.get i).toBitVec = shifts (0x31#8).reverse 8 (BitVec.ofNat 8 i.val) := by
  apply table_entry crc8Table UInt8.toBitVec fun i =>
    shifts (0x31#8).reverse 8 (BitVec.ofNat 8 i)
  decide +kernel

theorem crc8Step_feed (ucCRC8 chData : UInt8) :
    (crc8Step ucCRC8 chData).toBitVec =
      feed (0x31#8).reverse ucCRC8.toBitVec (bits 8 chData.toBitVec) := by
  have hindex : BitVec.ofNat 8 (ucCRC8 ^^^ chData).toFin.val =
      ucCRC8.toBitVec ^^^ chData.toBitVec := by
    apply BitVec.eq_of_toNat_eq
    simp
  rw [feed_word _ (by decide), BitVec.setWidth_eq, crc8Step, crc8Table_entry, hindex]

theorem getCRC16Checksum_bitwise (bytes : List UInt8) (length : ℕ) (wCRC : UInt16) :
    (getCRC16Checksum (some bytes) length wCRC).toBitVec =
      bitwise 0x1021#16 wCRC.toBitVec (bytes.take length) := by
  rw [bitwise, ← ccitt_reverse]
  exact foldl_feed ccitt UInt16.toBitVec crc16Step crc16Step_feed (bytes.take length) wCRC

theorem getCRC8Checksum_bitwise (bytes : List UInt8) (length : ℕ) (ucCRC8 : UInt8) :
    (getCRC8Checksum bytes length ucCRC8).toBitVec =
      bitwise 0x31#8 ucCRC8.toBitVec (bytes.take length) :=
  foldl_feed _ UInt8.toBitVec crc8Step crc8Step_feed (bytes.take length) ucCRC8

def deviceFrame16 (front : List UInt8) : List UInt8 :=
  let r := serial 0x1021#16 0xFFFF#16 front
  front ++ [⟨r.setWidth 8⟩, ⟨(r >>> 8).setWidth 8⟩]

def deviceFrame8 (front : List UInt8) : List UInt8 := front ++ [⟨serial 0x31#8 0xFF#8 front⟩]

theorem deviceFrame16_append (front : List UInt8) (lo hi : UInt8) (hfront : 0 < front.length) :
    appendCRC16Checksum (some (front ++ [lo, hi])) (front.length+2) =
      some (deviceFrame16 front) := by
  have hr : serial 0x1021#16 0xFFFF#16 front = (crc16 front).toBitVec := by
    rw [serial_bitwise _ (by decide), crc16, getCRC16Checksum_bitwise, List.take_length]
    rfl
  have hlow : ∀ x : UInt16, (x &&& 0x00ff).toUInt8 = ⟨x.toBitVec.setWidth 8⟩ := by
    intro x
    rw [← UInt8.toNat_inj, UInt16.toNat_toUInt8, UInt16.toNat_and]
    show (x.toNat &&& (2^8-1)) % 256 = (x.toBitVec.setWidth 8).toNat
    rw [Nat.and_two_pow_sub_one_eq_mod, BitVec.toNat_setWidth, UInt16.toNat_toBitVec]
    omega
  rw [append_eq front lo hi hfront, deviceFrame16, hr, tailBytes, hlow, hlow]
  rfl

/-- The removal of variable 7. -/
example : deviceFrame16 [0xA5, 0x02, 0x30, 0x00, 0x07, 0x00] =
    [0xA5, 0x02, 0x30, 0x00, 0x07, 0x00, 0x47, 0x8B] := by
  decide +kernel

theorem deviceFrame8_append (front : List UInt8) (c : UInt8) (hfront : 1 < front.length) :
    appendCRC8Checksum (some (front ++ [c])) (front.length+1) = some (deviceFrame8 front) := by
  have hr : serial 0x31#8 0xFF#8 front = (crc8 front).toBitVec := by
    rw [serial_bitwise _ (by decide), crc8, getCRC8Checksum_bitwise, List.take_length]
    rfl
  rw [append8_eq front c hfront, deviceFrame8, hr]

/-- The table-driven loops are the bit-serial registers, from any register value and over any
stretch of bytes, and so are the loops of a device: it computes the same tail. -/
theorem tables_bitwise (bytes : List UInt8) (length : ℕ) (wCRC : UInt16) (ucCRC8 : UInt8) :
    ((0x1021#16).reverse = 0x8408#16 ∧ (0x31#8).reverse = 0x8C#8) ∧
    ((getCRC16Checksum (some bytes) length wCRC).toBitVec =
        bitwise 0x1021#16 wCRC.toBitVec (bytes.take length) ∧
      (getCRC8Checksum bytes length ucCRC8).toBitVec =
        bitwise 0x31#8 ucCRC8.toBitVec (bytes.take length)) ∧
    ((getCRC16Checksum (some bytes) length wCRC).toBitVec =
        serial 0x1021#16 wCRC.toBitVec (bytes.take length) ∧
      (getCRC8Checksum bytes length ucCRC8).toBitVec =
        serial 0x31#8 ucCRC8.toBitVec (bytes.take length)) ∧
    ∀ a b lo hi : UInt8,
      appendCRC16Checksum (some (a :: bytes ++ [lo, hi])) (bytes.length+3) =
        some (deviceFrame16 (a :: bytes)) ∧
      appendCRC8Checksum (some (a :: b :: bytes ++ [lo])) (bytes.length+3) =
        some (deviceFrame8 (a :: b :: bytes)) := by
  have h16 := getCRC16Checksum_bitwise bytes length wCRC
  have h8 := getCRC8Checksum_bitwise bytes length ucCRC8
  refine ⟨⟨by decide, by decide⟩, ⟨h16, h8⟩, ⟨?_, ?_⟩, ?_⟩
  · rw [h16, serial_bitwise _ (by decide)]
  · rw [h8, serial_bitwise _ (by decide)]
  · intro a b lo hi
    constructor
    · exact deviceFrame16_append (a :: bytes) lo hi (Nat.succ_pos _)
    · exact deviceFrame8_append (a :: b :: bytes) lo (Nat.succ_lt_succ (Nat.succ_pos _))

end BusPlot.CrcBitwise
