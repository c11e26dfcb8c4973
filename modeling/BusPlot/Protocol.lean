import BusPlot.Crc

/-!
# Frames on the wire

The structures are packed, so a frame is its fields' bytes one after another,
two-byte fields low byte first as on the little-endian targets the project is
built for. A request type is known to the receiver by its command and its size.
-/

set_option autoImplicit false

namespace BusPlot.Protocol
open BusPlot.Crc

def SOF : UInt8 := 0xA5

def wordBytes (x : UInt16) : List UInt8 := [x.toUInt8, (x >>> 8).toUInt8]

def wordAt (bytes : List UInt8) (i : ℕ) : UInt16 :=
  UInt16.ofNat ((bytes.getD i 0).toNat+256*(bytes.getD (i+1) 0).toNat)

theorem wordBytes_wordAt (bytes : List UInt8) (i : ℕ) :
    wordBytes (wordAt bytes i) = [bytes.getD i 0, bytes.getD (i+1) 0] := by
  unfold wordAt wordBytes
  generalize bytes.getD i 0 = lo
  generalize bytes.getD (i+1) 0 = hi
  have hl := lo.toNat_lt
  have hh := hi.toNat_lt
  simp only [List.cons.injEq, and_true, ← UInt8.toNat_inj, UInt16.toNat_toUInt8,
    UInt16.toNat_shiftRight, UInt16.toNat_ofNat', Nat.shiftRight_eq_div_pow]
  simp
  omega

theorem wordAt_wordBytes (x : UInt16) (pre rest : List UInt8) :
    wordAt (pre ++ (wordBytes x ++ rest)) pre.length = x := by
  have hx := x.toNat_lt
  have h0 : (pre ++ (wordBytes x ++ rest)).getD pre.length 0 = x.toUInt8 := by simp [wordBytes]
  have h1 : (pre ++ (wordBytes x ++ rest)).getD (pre.length+1) 0 = (x >>> 8).toUInt8 := by
    simp [wordBytes]
  rw [wordAt, h0, h1, ← UInt16.toNat_inj]
  simp only [UInt16.toNat_toUInt8, UInt16.toNat_shiftRight, UInt16.toNat_ofNat',
    Nat.shiftRight_eq_div_pow]
  simp
  omega

theorem wordBytes_tail (x : UInt16) : wordBytes x = tailBytes x := by
  have low : ∀ y : UInt16, (y &&& 0x00ff).toUInt8 = y.toUInt8 := by
    intro y
    rw [← UInt8.toNat_inj, UInt16.toNat_toUInt8, UInt16.toNat_toUInt8, UInt16.toNat_and,
      show (0x00ff : UInt16).toNat = 2^8-1 from rfl, Nat.and_two_pow_sub_one_eq_mod, Nat.mod_mod]
  rw [wordBytes, tailBytes, low, low]

structure FrameHeader where
  dataLength : UInt8
  command : UInt16
  deriving DecidableEq, Repr

def FrameHeader.size : ℕ := 3

def FrameHeader.bytes (h : FrameHeader) : List UInt8 := h.dataLength::wordBytes h.command

def FrameHeader.ofBytes (bytes : List UInt8) : FrameHeader := ⟨bytes.getD 0 0, wordAt bytes 1⟩

theorem FrameHeader.bytes_length (h : FrameHeader) : h.bytes.length = 3 := rfl

theorem FrameHeader.ofBytes_bytes (h : FrameHeader) (rest : List UInt8) :
    FrameHeader.ofBytes (h.bytes ++ rest) = h := by
  have := wordAt_wordBytes h.command [h.dataLength] rest
  simp only [List.singleton_append, List.length_singleton] at this
  simp [FrameHeader.ofBytes, FrameHeader.bytes, this]

theorem FrameHeader.bytes_ofBytes (bytes : List UInt8) (hl : bytes.length = 3) :
    (FrameHeader.ofBytes bytes).bytes = bytes := by
  match bytes, hl with
  | [b0, b1, b2], _ => simp [FrameHeader.bytes, FrameHeader.ofBytes, wordBytes_wordAt]

structure FrameTail where
  crc16 : UInt16
  deriving DecidableEq, Repr

def FrameTail.bytes (t : FrameTail) : List UInt8 := wordBytes t.crc16

structure ReqType where
  command : UInt16
  size : ℕ
  size_pos : 0 < size
  deriving DecidableEq, Repr

abbrev ReqType.Body (T : ReqType) := Vector UInt8 T.size

structure RPCRequest (T : ReqType) where
  sof : UInt8
  header : FrameHeader
  request : T.Body
  tail : FrameTail

def ReqType.frameSize (T : ReqType) : ℕ := 1+FrameHeader.size+T.size+2

def RPCRequest.bytes {T : ReqType} (r : RPCRequest T) : List UInt8 :=
  r.sof::(r.header.bytes ++ (r.request.toList ++ r.tail.bytes))

theorem RPCRequest.bytes_length {T : ReqType} (r : RPCRequest T) :
    r.bytes.length = T.frameSize := by
  simp [RPCRequest.bytes, FrameHeader.bytes, FrameTail.bytes, wordBytes, ReqType.frameSize,
    FrameHeader.size]
  omega

def ReqType.bodyOf (T : ReqType) (bytes : List UInt8) : T.Body :=
  Vector.ofFn fun i => bytes.getD i.val 0

theorem bodyOf_append (T : ReqType) (body : T.Body) (rest : List UInt8) :
    T.bodyOf (body.toList ++ rest) = body := by
  apply Vector.ext
  intro i hi
  have : (body.toList ++ rest)[i]? = some body[i] := by
    rw [List.getElem?_append_left (by simpa using hi)]
    simp [hi]
  simp [ReqType.bodyOf, this]

theorem toList_bodyOf (T : ReqType) (bytes : List UInt8) (hl : T.size ≤ bytes.length) :
    (T.bodyOf bytes).toList = bytes.take T.size := by
  apply List.ext_getElem
  · simp [hl]
  · intro i h1 h2
    have hi : i < bytes.length := by
      rw [List.length_take] at h2
      omega
    simp [ReqType.bodyOf, hi]

def RPCRequest.ofBytes (T : ReqType) (bytes : List UInt8) : RPCRequest T where
  sof := bytes.getD 0 0
  header := .ofBytes (bytes.drop 1)
  request := T.bodyOf (bytes.drop (1+FrameHeader.size))
  tail := ⟨wordAt (bytes.drop (1+FrameHeader.size+T.size)) 0⟩

theorem ofBytes_frame (T : ReqType) (sof : UInt8) (h : FrameHeader) (body : T.Body) (x : UInt16) :
    RPCRequest.ofBytes T (sof::(h.bytes ++ (body.toList ++ wordBytes x))) =
      ⟨sof, h, body, ⟨x⟩⟩ := by
  have hbody : (sof::(h.bytes ++ (body.toList ++ wordBytes x))).drop (1+FrameHeader.size) =
      body.toList ++ wordBytes x := rfl
  have htail : (sof::(h.bytes ++ (body.toList ++ wordBytes x))).drop (1+FrameHeader.size+T.size) =
      wordBytes x := by
    rw [← List.drop_drop, hbody, List.drop_left' (by simp)]
  have hword := wordAt_wordBytes x [] []
  simp only [List.append_nil, List.nil_append, List.length_nil] at hword
  rw [RPCRequest.ofBytes, hbody, htail, hword, bodyOf_append]
  simp [FrameHeader.ofBytes_bytes]

def headerOf (T : ReqType) : FrameHeader := ⟨UInt8.ofNat T.size, T.command⟩

/-- `FrameHeader{sizeof(ReqType), ...}` does not compile for a type of more
than 255 bytes; results about built frames ask for the bound. -/
def makeRequest (T : ReqType) (requestBody : T.Body) : RPCRequest T :=
  let req : RPCRequest T := ⟨SOF, headerOf T, requestBody, ⟨0⟩⟩
  .ofBytes T ((appendCRC16Checksum (some req.bytes) T.frameSize).getD [])

def checked (T : ReqType) (body : T.Body) : List UInt8 :=
  SOF::((headerOf T).bytes ++ body.toList)

theorem checked_length (T : ReqType) (body : T.Body) :
    (checked T body).length = 4+T.size := by
  simp [checked, FrameHeader.bytes_length]
  omega

theorem makeRequest_bytes (T : ReqType) (body : T.Body) :
    (makeRequest T body).bytes = checked T body ++ tailBytes (crc16 (checked T body)) := by
  have hreq : (RPCRequest.mk SOF (headerOf T) body ⟨0⟩).bytes = checked T body ++ [0, 0] := by
    simp [RPCRequest.bytes, checked, FrameTail.bytes, wordBytes]
  have hsize : T.frameSize = (checked T body).length+2 := by
    rw [checked_length, ReqType.frameSize, FrameHeader.size]
  have hframe : ∀ x : UInt16, checked T body ++ tailBytes x =
      SOF::((headerOf T).bytes ++ (body.toList ++ wordBytes x)) := by
    intro x
    simp [checked, wordBytes_tail]
  rw [makeRequest, hreq, hsize, append_eq _ _ _ (by rw [checked_length]; omega),
    Option.getD_some, hframe, ofBytes_frame]
  rfl

def variableAliasReq : ReqType := ⟨0x0010, 12, by decide⟩
def updateVariableReq : ReqType := ⟨0x0020, 6, by decide⟩
def removeVariableReq : ReqType := ⟨0x0030, 2, by decide⟩
def applyArgumentReq : ReqType := ⟨0x0040, 36, by decide⟩

end BusPlot.Protocol
