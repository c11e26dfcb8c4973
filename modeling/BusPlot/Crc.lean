import BusPlot.Library.ReflectedRegister
import Mathlib.Tactic.Common

/-!
# The frame checksums

The two tables and the table-driven loops are those of the code. A pointer
argument is the list of bytes from the pointer to the end of its object, or
`none` for a null pointer; no caller passes a length beyond that end.
-/

set_option autoImplicit false

namespace BusPlot.Crc
open ReflectedRegister

abbrev Pointer := Option (List UInt8)

def crc8Init : UInt8 := 0xff
def crc16Init : UInt16 := 0xffff

set_option maxRecDepth 4000 in
def crc8Table : Vector UInt8 256 := #v[
  0x00, 0x5e, 0xbc, 0xe2, 0x61, 0x3f, 0xdd, 0x83, 0xc2, 0x9c, 0x7e, 0x20, 0xa3, 0xfd, 0x1f, 0x41,
  0x9d, 0xc3, 0x21, 0x7f, 0xfc, 0xa2, 0x40, 0x1e, 0x5f, 0x01, 0xe3, 0xbd, 0x3e, 0x60, 0x82, 0xdc,
  0x23, 0x7d, 0x9f, 0xc1, 0x42, 0x1c, 0xfe, 0xa0, 0xe1, 0xbf, 0x5d, 0x03, 0x80, 0xde, 0x3c, 0x62,
  0xbe, 0xe0, 0x02, 0x5c, 0xdf, 0x81, 0x63, 0x3d, 0x7c, 0x22, 0xc0, 0x9e, 0x1d, 0x43, 0xa1, 0xff,
  0x46, 0x18, 0xfa, 0xa4, 0x27, 0x79, 0x9b, 0xc5, 0x84, 0xda, 0x38, 0x66, 0xe5, 0xbb, 0x59, 0x07,
  0xdb, 0x85, 0x67, 0x39, 0xba, 0xe4, 0x06, 0x58, 0x19, 0x47, 0xa5, 0xfb, 0x78, 0x26, 0xc4, 0x9a,
  0x65, 0x3b, 0xd9, 0x87, 0x04, 0x5a, 0xb8, 0xe6, 0xa7, 0xf9, 0x1b, 0x45, 0xc6, 0x98, 0x7a, 0x24,
  0xf8, 0xa6, 0x44, 0x1a, 0x99, 0xc7, 0x25, 0x7b, 0x3a, 0x64, 0x86, 0xd8, 0x5b, 0x05, 0xe7, 0xb9,
  0x8c, 0xd2, 0x30, 0x6e, 0xed, 0xb3, 0x51, 0x0f, 0x4e, 0x10, 0xf2, 0xac, 0x2f, 0x71, 0x93, 0xcd,
  0x11, 0x4f, 0xad, 0xf3, 0x70, 0x2e, 0xcc, 0x92, 0xd3, 0x8d, 0x6f, 0x31, 0xb2, 0xec, 0x0e, 0x50,
  0xaf, 0xf1, 0x13, 0x4d, 0xce, 0x90, 0x72, 0x2c, 0x6d, 0x33, 0xd1, 0x8f, 0x0c, 0x52, 0xb0, 0xee,
  0x32, 0x6c, 0x8e, 0xd0, 0x53, 0x0d, 0xef, 0xb1, 0xf0, 0xae, 0x4c, 0x12, 0x91, 0xcf, 0x2d, 0x73,
  0xca, 0x94, 0x76, 0x28, 0xab, 0xf5, 0x17, 0x49, 0x08, 0x56, 0xb4, 0xea, 0x69, 0x37, 0xd5, 0x8b,
  0x57, 0x09, 0xeb, 0xb5, 0x36, 0x68, 0x8a, 0xd4, 0x95, 0xcb, 0x29, 0x77, 0xf4, 0xaa, 0x48, 0x16,
  0xe9, 0xb7, 0x55, 0x0b, 0x88, 0xd6, 0x34, 0x6a, 0x2b, 0x75, 0x97, 0xc9, 0x4a, 0x14, 0xf6, 0xa8,
  0x74, 0x2a, 0xc8, 0x96, 0x15, 0x4b, 0xa9, 0xf7, 0xb6, 0xe8, 0x0a, 0x54, 0xd7, 0x89, 0x6b, 0x35]

set_option maxRecDepth 4000 in
def wideCRCTable : Vector UInt16 256 := #v[
  0x0000, 0x1189, 0x2312, 0x329b, 0x4624, 0x57ad, 0x6536, 0x74bf,
  0x8c48, 0x9dc1, 0xaf5a, 0xbed3, 0xca6c, 0xdbe5, 0xe97e, 0xf8f7,
  0x1081, 0x0108, 0x3393, 0x221a, 0x56a5, 0x472c, 0x75b7, 0x643e,
  0x9cc9, 0x8d40, 0xbfdb, 0xae52, 0xdaed, 0xcb64, 0xf9ff, 0xe876,
  0x2102, 0x308b, 0x0210, 0x1399, 0x6726, 0x76af, 0x4434, 0x55bd,
  0xad4a, 0xbcc3, 0x8e58, 0x9fd1, 0xeb6e, 0xfae7, 0xc87c, 0xd9f5,
  0x3183, 0x200a, 0x1291, 0x0318, 0x77a7, 0x662e, 0x54b5, 0x453c,
  0xbdcb, 0xac42, 0x9ed9, 0x8f50, 0xfbef, 0xea66, 0xd8fd, 0xc974,
  0x4204, 0x538d, 0x6116, 0x709f, 0x0420, 0x15a9, 0x2732, 0x36bb,
  0xce4c, 0xdfc5, 0xed5e, 0xfcd7, 0x8868, 0x99e1, 0xab7a, 0xbaf3,
  0x5285, 0x430c, 0x7197, 0x601e, 0x14a1, 0x0528, 0x37b3, 0x263a,
  0xdecd, 0xcf44, 0xfddf, 0xec56, 0x98e9, 0x8960, 0xbbfb, 0xaa72,
  0x6306, 0x728f, 0x4014, 0x519d, 0x2522, 0x34ab, 0x0630, 0x17b9,
  0xef4e, 0xfec7, 0xcc5c, 0xddd5, 0xa96a, 0xb8e3, 0x8a78, 0x9bf1,
  0x7387, 0x620e, 0x5095, 0x411C, 0x35a3, 0x242a, 0x16b1, 0x0738,
  0xffcf, 0xee46, 0xdcdd, 0xcd54, 0xb9eb, 0xa862, 0x9af9, 0x8b70,
  0x8408, 0x9581, 0xa71a, 0xb693, 0xc22c, 0xd3a5, 0xe13e, 0xf0b7,
  0x0840, 0x19c9, 0x2b52, 0x3adb, 0x4e64, 0x5fed, 0x6d76, 0x7cff,
  0x9489, 0x8500, 0xb79b, 0xa612, 0xd2ad, 0xc324, 0xf1bf, 0xe036,
  0x18c1, 0x0948, 0x3bd3, 0x2a5a, 0x5ee5, 0x4f6c, 0x7df7, 0x6c7e,
  0xa50a, 0xb483, 0x8618, 0x9791, 0xe32e, 0xf2a7, 0xc03c, 0xd1b5,
  0x2942, 0x38cb, 0x0a50, 0x1bd9, 0x6f66, 0x7eef, 0x4c74, 0x5dfd,
  0xb58b, 0xa402, 0x9699, 0x8710, 0xf3af, 0xe226, 0xd0bd, 0xc134,
  0x39c3, 0x284a, 0x1ad1, 0x0b58, 0x7fe7, 0x6e6e, 0x5cf5, 0x4d7c,
  0xc60c, 0xd785, 0xe51e, 0xf497, 0x8028, 0x91a1, 0xa33a, 0xb2b3,
  0x4a44, 0x5bcd, 0x6956, 0x78df, 0x0c60, 0x1de9, 0x2f72, 0x3efb,
  0xd68d, 0xc704, 0xf59f, 0xe416, 0x90a9, 0x8120, 0xb3bb, 0xa232,
  0x5ac5, 0x4b4c, 0x79d7, 0x685e, 0x1ce1, 0x0d68, 0x3ff3, 0x2e7a,
  0xe70e, 0xf687, 0xc41c, 0xd595, 0xa12a, 0xb0a3, 0x8238, 0x93b1,
  0x6b46, 0x7acf, 0x4854, 0x59dd, 0x2d62, 0x3ceb, 0x0e70, 0x1ff9,
  0xf78f, 0xe606, 0xd49d, 0xc514, 0xb1ab, 0xa022, 0x92b9, 0x8330,
  0x7bc7, 0x6a4e, 0x58d5, 0x495c, 0x3de3, 0x2c6a, 0x1ef1, 0x0f78]

def crc8Step (ucCRC8 chData : UInt8) : UInt8 :=
  crc8Table.get (ucCRC8 ^^^ chData).toFin

def getCRC8Checksum (message : List UInt8) (length : ℕ) (ucCRC8 : UInt8) : UInt8 :=
  (message.take length).foldl crc8Step ucCRC8

def verifyCRC8Checksum (message : Pointer) (length : ℕ) : Bool :=
  match message with
  | none => false
  | some bytes =>
    if length ≤ 2 then false
    else getCRC8Checksum bytes (length-1) crc8Init == bytes.getD (length-1) 0

def appendCRC8Checksum (message : Pointer) (length : ℕ) : Pointer :=
  match message with
  | none => none
  | some bytes =>
    if length ≤ 2 then some bytes
    else some (bytes.set (length-1) (getCRC8Checksum bytes (length-1) crc8Init))

theorem index_lt (x : UInt16) : (x &&& 0x00ff).toNat < 256 := by
  rw [UInt16.toNat_and]
  exact Nat.lt_of_le_of_lt Nat.and_le_right (by decide)

def crc16Step (wCRC : UInt16) (chData : UInt8) : UInt16 :=
  (wCRC >>> 8) ^^^ wideCRCTable.get ⟨((wCRC ^^^ chData.toUInt16) &&& 0x00ff).toNat, index_lt _⟩

def getCRC16Checksum (message : Pointer) (length : ℕ) (wCRC : UInt16) : UInt16 :=
  match message with
  | none => 0xFFFF
  | some bytes => (bytes.take length).foldl crc16Step wCRC

def verifyCRC16Checksum (message : Pointer) (length : ℕ) : Bool :=
  match message with
  | none => false
  | some bytes =>
    if length ≤ 2 then false
    else
      let wExpected := getCRC16Checksum (some bytes) (length-2) crc16Init
      wExpected &&& 0xff == (bytes.getD (length-2) 0).toUInt16 &&
        (wExpected >>> 8) &&& 0xff == (bytes.getD (length-1) 0).toUInt16

def appendCRC16Checksum (message : Pointer) (length : ℕ) : Pointer :=
  match message with
  | none => none
  | some bytes =>
    if length ≤ 2 then some bytes
    else
      let wCRC := getCRC16Checksum (some bytes) (length-2) crc16Init
      some ((bytes.set (length-2) (wCRC &&& 0x00ff).toUInt8).set (length-1)
        ((wCRC >>> 8) &&& 0x00ff).toUInt8)

def ccitt : BitVec 16 := 0x8408

theorem table_entry {α β : Type*} {n : ℕ} (table : Vector α n) (f : α → β) (g : ℕ → β)
    (h : table.toList.map f = (List.range n).map g) (i : Fin n) : f (table.get i) = g i := by
  have hi := congrArg (fun entries => entries[i.val]?) h
  simpa [Vector.get] using hi

theorem wideCRCTable_entry (i : Fin 256) :
    (wideCRCTable.get i).toBitVec = shifts ccitt 8 (BitVec.ofNat 16 i.val) := by
  -- one pass over the table, where a lookup for each index would walk it 256 times
  apply table_entry wideCRCTable UInt16.toBitVec fun i => shifts ccitt 8 (BitVec.ofNat 16 i)
  decide +kernel

def messageBits (bytes : List UInt8) : List Bool := bytes.flatMap fun b => bits 8 b.toBitVec

theorem messageBits_cons (b : UInt8) (bytes : List UInt8) :
    messageBits (b::bytes) = bits 8 b.toBitVec ++ messageBits bytes := rfl

theorem messageBits_append (as bs : List UInt8) :
    messageBits (as ++ bs) = messageBits as ++ messageBits bs :=
  List.flatMap_append

theorem messageBits_length (bytes : List UInt8) : (messageBits bytes).length = 8*bytes.length := by
  induction bytes with
  | nil => rfl
  | cons b bytes ih =>
    rw [messageBits_cons, List.length_append, bits_length, ih, List.length_cons]
    omega

theorem messageBits_injective : Function.Injective messageBits := by
  intro as
  induction as with
  | nil =>
    intro bs h
    have hlen := congrArg List.length h
    rw [messageBits_length, messageBits_length] at hlen
    exact (List.eq_nil_of_length_eq_zero (by simpa using hlen.symm)).symm
  | cons a as ih =>
    intro bs h
    cases bs with
    | nil =>
      have hlen := congrArg List.length h
      simp [messageBits_length] at hlen
    | cons b bs =>
      rw [messageBits_cons, messageBits_cons] at h
      obtain ⟨hbits, hrest⟩ := List.append_inj h (by rw [bits_length, bits_length])
      have hab : a = b := UInt8.toBitVec_inj.mp (bits_injective 8 hbits)
      rw [hab, ih hrest]

/-- A loop whose step does with a byte what the register does with its bits
does with a message what the register does. -/
theorem foldl_feed {σ : Type*} {w : ℕ} (poly : BitVec w) (register : σ → BitVec w)
    (step : σ → UInt8 → σ)
    (hstep : ∀ s b, register (step s b) = feed poly (register s) (bits 8 b.toBitVec))
    (bytes : List UInt8) (s : σ) :
    register (bytes.foldl step s) = feed poly (register s) (messageBits bytes) := by
  induction bytes generalizing s with
  | nil => rfl
  | cons b bytes ih => rw [List.foldl_cons, ih, hstep, messageBits_cons, feed_append]

theorem crc16Step_feed (wCRC : UInt16) (chData : UInt8) :
    (crc16Step wCRC chData).toBitVec = feed ccitt wCRC.toBitVec (bits 8 chData.toBitVec) := by
  have hindex : ∀ x : UInt16, BitVec.ofNat 16 (x &&& 0x00ff).toNat = x.toBitVec &&& 0xff#16 := by
    intro x
    apply BitVec.eq_of_toNat_eq
    simp
  have hlow : ∀ x : BitVec 16, bits 8 (x &&& 0xff#16) = bits 8 x := by
    intro x
    apply List.map_congr_left
    intro i hi
    have hi : i < 8 := List.mem_range.mp hi
    have : (0xff#16).getLsbD i = true := by
      revert i
      decide
    rw [BitVec.getLsbD_and, this, Bool.and_true]
  have hzero : ∀ x : BitVec 16, (x &&& 0xff#16) >>> 8 = 0#16 := by
    intro x
    apply BitVec.eq_of_getLsbD_eq
    intro i hi
    have : ∀ i < 16, (0xff#16).getLsbD (8+i) = false := by decide
    rw [BitVec.getLsbD_ushiftRight, BitVec.getLsbD_and, this i hi, Bool.and_false]
    simp
  rw [feed_word ccitt (by decide), shifts_low ccitt 8 _ _ (hlow _) (hzero _),
    BitVec.ushiftRight_xor_distrib, setWidth_high, BitVec.xor_zero, crc16Step,
    UInt16.toBitVec_xor, wideCRCTable_entry, hindex]
  rfl

def crc16 (bytes : List UInt8) : UInt16 := getCRC16Checksum (some bytes) bytes.length crc16Init

theorem getCRC16Checksum_within (bytes rest : List UInt8) (length : ℕ) (h : length ≤ bytes.length)
    (wCRC : UInt16) :
    getCRC16Checksum (some (bytes ++ rest)) length wCRC =
      getCRC16Checksum (some bytes) length wCRC := by
  rw [getCRC16Checksum, getCRC16Checksum, List.take_append_of_le_length h]

theorem getCRC16Checksum_append (bytes rest : List UInt8) (wCRC : UInt16) :
    getCRC16Checksum (some (bytes ++ rest)) bytes.length wCRC =
      getCRC16Checksum (some bytes) bytes.length wCRC :=
  getCRC16Checksum_within bytes rest bytes.length (le_refl _) wCRC

theorem crc16_feed (bytes : List UInt8) :
    (crc16 bytes).toBitVec = feed ccitt crc16Init.toBitVec (messageBits bytes) := by
  rw [crc16, getCRC16Checksum, List.take_length]
  exact foldl_feed ccitt UInt16.toBitVec crc16Step crc16Step_feed bytes crc16Init

def tailBytes (wCRC : UInt16) : List UInt8 :=
  [(wCRC &&& 0x00ff).toUInt8, ((wCRC >>> 8) &&& 0x00ff).toUInt8]

theorem low_byte_iff (x : UInt16) (b : UInt8) :
    x &&& 0xff = b.toUInt16 ↔ b = (x &&& 0x00ff).toUInt8 := by
  rw [← UInt16.toNat_inj, ← UInt8.toNat_inj]
  have hb := b.toNat_lt
  have hx : (x &&& 0xff).toNat < 256 := index_lt x
  simp only [UInt8.toNat_toUInt16, UInt16.toNat_toUInt8]
  omega

/-- `verifyCRC16Checksum` accepts what `appendCRC16Checksum` writes, and
nothing else. -/
theorem verify_append_iff (pre : List UInt8) (lo hi : UInt8) (hpre : 0 < pre.length) :
    verifyCRC16Checksum (some (pre ++ [lo, hi])) (pre.length+2) = true ↔
      [lo, hi] = tailBytes (crc16 pre) := by
  have h2 : ¬ pre.length+2 ≤ 2 := by omega
  have hlo : (pre ++ [lo, hi]).getD pre.length 0 = lo := by simp
  have hhi : (pre ++ [lo, hi]).getD (pre.length+1) 0 = hi := by simp
  simp only [verifyCRC16Checksum, if_neg h2, Nat.add_sub_cancel, hlo,
    show pre.length+2-1 = pre.length+1 by omega, hhi, getCRC16Checksum_append,
    Bool.and_eq_true, beq_iff_eq, low_byte_iff]
  simp [tailBytes, crc16]

theorem append_eq (pre : List UInt8) (lo hi : UInt8) (hpre : 0 < pre.length) :
    appendCRC16Checksum (some (pre ++ [lo, hi])) (pre.length+2) =
      some (pre ++ tailBytes (crc16 pre)) := by
  have h2 : ¬ pre.length+2 ≤ 2 := by omega
  simp only [appendCRC16Checksum, if_neg h2, Nat.add_sub_cancel, getCRC16Checksum_append,
    show pre.length+2-1 = pre.length+1 by omega]
  simp [tailBytes, crc16]

theorem getCRC8Checksum_within (bytes rest : List UInt8) (length : ℕ) (h : length ≤ bytes.length)
    (ucCRC8 : UInt8) :
    getCRC8Checksum (bytes ++ rest) length ucCRC8 = getCRC8Checksum bytes length ucCRC8 := by
  rw [getCRC8Checksum, getCRC8Checksum, List.take_append_of_le_length h]

theorem getCRC8Checksum_append (bytes rest : List UInt8) (ucCRC8 : UInt8) :
    getCRC8Checksum (bytes ++ rest) bytes.length ucCRC8 =
      getCRC8Checksum bytes bytes.length ucCRC8 :=
  getCRC8Checksum_within bytes rest bytes.length (le_refl _) ucCRC8

def crc8 (bytes : List UInt8) : UInt8 := getCRC8Checksum bytes bytes.length crc8Init

theorem verify8_append_iff (pre : List UInt8) (c : UInt8) (hpre : 1 < pre.length) :
    verifyCRC8Checksum (some (pre ++ [c])) (pre.length+1) = true ↔ c = crc8 pre := by
  have h2 : ¬ pre.length+1 ≤ 2 := by omega
  have hc : (pre ++ [c]).getD pre.length 0 = c := by simp
  simp only [verifyCRC8Checksum, if_neg h2, Nat.add_sub_cancel, getCRC8Checksum_append, hc,
    beq_iff_eq]
  exact eq_comm

theorem append8_eq (pre : List UInt8) (c : UInt8) (hpre : 1 < pre.length) :
    appendCRC8Checksum (some (pre ++ [c])) (pre.length+1) = some (pre ++ [crc8 pre]) := by
  have h2 : ¬ pre.length+1 ≤ 2 := by omega
  simp only [appendCRC8Checksum, if_neg h2, Nat.add_sub_cancel, getCRC8Checksum_append]
  simp [crc8]

theorem tailBytes_word (x : UInt16) (lo hi : UInt8) :
    [lo, hi] = tailBytes x ↔ x.toBitVec = hi.toBitVec ++ lo.toBitVec := by
  have key : x.toBitVec = hi.toBitVec ++ lo.toBitVec ↔ x.toNat = hi.toNat*256+lo.toNat := by
    rw [← BitVec.toNat_inj, BitVec.toNat_append, Nat.shiftLeft_eq, Nat.mul_comm,
      ← Nat.two_pow_add_eq_or_of_lt lo.toBitVec.isLt, Nat.mul_comm]
    rfl
  rw [key]
  have hx := x.toNat_lt
  have hl := lo.toNat_lt
  have hh := hi.toNat_lt
  have hand : ∀ y : UInt16, (y &&& 255).toNat = y.toNat % 256 := by
    intro y
    rw [UInt16.toNat_and]
    exact Nat.and_two_pow_sub_one_eq_mod y.toNat 8
  simp only [tailBytes, List.cons.injEq, and_true, ← UInt8.toNat_inj, UInt16.toNat_toUInt8, hand,
    UInt16.toNat_shiftRight, Nat.shiftRight_eq_div_pow]
  simp
  omega

/-- The tail takes the register to zero, and no other two bytes do. -/
theorem crc16_residue (pre : List UInt8) (lo hi : UInt8) :
    crc16 (pre ++ [lo, hi]) = 0 ↔ [lo, hi] = tailBytes (crc16 pre) := by
  have hbits : messageBits [lo, hi] = bits 16 (hi.toBitVec ++ lo.toBitVec) := by
    rw [show 16 = 8+8 from rfl, bits_append]
    simp [messageBits]
  rw [← UInt16.toBitVec_inj, tailBytes_word, crc16_feed, crc16_feed, messageBits_append,
    feed_append, hbits, feed_word ccitt (by decide), BitVec.setWidth_eq]
  exact (shifts_eq_zero ccitt (by decide) (by decide) 16 _).trans (xor_eq_zero _ _)

theorem tail_split (bytes : List UInt8) (n : ℕ) (hl : bytes.length = n+2) :
    ∃ lo hi : UInt8, bytes = bytes.take n ++ [lo, hi] := by
  have hdrop : (bytes.drop n).length = 2 := by
    rw [List.length_drop]
    omega
  obtain ⟨lo, hi, hlh⟩ := List.length_eq_two.mp hdrop
  exact ⟨lo, hi, by rw [← hlh, List.take_append_drop]⟩

theorem verify_residue (bytes : List UInt8) (h : 2 < bytes.length) :
    verifyCRC16Checksum (some bytes) bytes.length = true ↔
      feed ccitt crc16Init.toBitVec (messageBits bytes) = 0#16 := by
  obtain ⟨lo, hi, hsplit⟩ := tail_split bytes (bytes.length-2) (by omega)
  obtain ⟨pre, rfl⟩ : ∃ pre, bytes = pre ++ [lo, hi] := ⟨_, hsplit⟩
  have hpre : 0 < pre.length := by simpa using h
  rw [show (pre ++ [lo, hi]).length = pre.length+2 by simp, verify_append_iff pre lo hi hpre,
    ← crc16_residue, ← crc16_feed, ← UInt16.toBitVec_inj]
  rfl

end BusPlot.Crc
