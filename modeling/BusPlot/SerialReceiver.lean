import BusPlot.Protocol
import BusPlot.Library.PartialRun
import Mathlib.Data.List.AList

/-!
# The receiving half of the serial link

The callbacks of one connection over their three buffers. Each handler arms the
next read itself; `pending` holds the reads armed on the port in the order of
their calls, so a forgotten or a doubled one shows. `invoked` records the calls
of message handlers and is read by nobody. Handlers are taken to return.
-/

set_option autoImplicit false

namespace BusPlot.SerialReceiver
open BusPlot.Crc BusPlot.Protocol

variable {η : Type*}

def maxBodySize : ℕ := 512

structure Callback (η : Type*) where
  reqType : ReqType
  process : η
  deriving DecidableEq

structure Invocation (η : Type*) where
  callback : Callback η
  request : callback.reqType.Body

structure Callbacks (η : Type*) where
  table : AList fun _ : UInt16 => Callback η
  keyed : ∀ command callback, table.lookup command = some callback →
    callback.reqType.command = command

def Callbacks.empty : Callbacks η := ⟨∅, by simp⟩

def Callbacks.find (m : Callbacks η) (command : UInt16) : Option (Callback η) :=
  m.table.lookup command

def Callbacks.insert (m : Callbacks η) (callback : Callback η) : Callbacks η × Bool :=
  if callback.reqType.command ∈ m.table then (m, false)
  else
    (⟨m.table.insert callback.reqType.command callback, by
      intro command c h
      by_cases hc : command = callback.reqType.command
      · subst hc
        rw [AList.lookup_insert] at h
        cases h
        rfl
      · rw [AList.lookup_insert_ne hc] at h
        exact m.keyed command c h⟩, true)

inductive Buffer
  | sofBuffer
  | headerBuffer
  | bodyBuffer
  deriving DecidableEq, Repr

def Buffer.size : Buffer → ℕ
  | .sofBuffer => 1
  | .headerBuffer => FrameHeader.size
  | .bodyBuffer => maxBodySize

inductive ReadHandler (η : Type*)
  | readSOFHandler
  | readHeaderHandler
  | readBodyHandler (callback : Callback η)

structure AsyncRead (η : Type*) where
  buffer : Buffer
  transferExactly : ℕ
  handler : ReadHandler η

/-- A read is complete when its condition holds or its buffer is full. -/
def AsyncRead.length (op : AsyncRead η) : ℕ := min op.transferExactly op.buffer.size

structure Receiver (η : Type*) where
  callbacks : Callbacks η
  sofBuffer : Vector UInt8 1
  headerBuffer : Vector UInt8 3
  bodyBuffer : Vector UInt8 512
  pending : List (AsyncRead η)
  invoked : List (Invocation η)

namespace Receiver

def fresh : Receiver η :=
  ⟨.empty, .replicate 1 0, .replicate 3 0, .replicate 512 0, [], []⟩

def registerMessage (r : Receiver η) (callback : Callback η) : Receiver η × Bool :=
  ({ r with callbacks := (r.callbacks.insert callback).1 }, (r.callbacks.insert callback).2)

def readAsync (r : Receiver η) (buffer : Buffer) (handler : ReadHandler η) : Receiver η :=
  { r with pending := r.pending ++ [⟨buffer, buffer.size, handler⟩] }

def startGrabbing (r : Receiver η) : Receiver η := r.readAsync .sofBuffer .readSOFHandler

def header (r : Receiver η) : FrameHeader := .ofBytes r.headerBuffer.toList

def readSOFHandler (r : Receiver η) (err : Bool) : Receiver η :=
  if err then r
  else if r.sofBuffer[0] = SOF then r.readAsync .headerBuffer .readHeaderHandler
  else r.readAsync .sofBuffer .readSOFHandler

def handleRequest (r : Receiver η) (callback : Callback η) (dataLength : ℕ) : Receiver η :=
  if dataLength ≠ callback.reqType.size then r.readAsync .sofBuffer .readSOFHandler
  else { r with pending := r.pending ++
    [⟨.bodyBuffer, callback.reqType.frameSize-FrameHeader.size-1, .readBodyHandler callback⟩] }

def readHeaderHandler (r : Receiver η) (err : Bool) : Receiver η :=
  if err then r.readAsync .sofBuffer .readSOFHandler
  else
    match r.callbacks.find r.header.command with
    | none => r.readAsync .sofBuffer .readSOFHandler
    | some callback => r.handleRequest callback r.header.dataLength.toNat

def copyTo (dst : List UInt8) (offset : ℕ) (src : List UInt8) : List UInt8 :=
  dst.take offset ++ src ++ dst.drop (offset+src.length)

def copied (callback : Callback η) : ℕ := callback.reqType.frameSize-FrameHeader.size-1

def process (r : Receiver η) (callback : Callback η) (request : callback.reqType.Body) :
    Receiver η :=
  { r with invoked := r.invoked ++ [⟨callback, request⟩] }

def readBodyHandler (r : Receiver η) (err : Bool) (callback : Callback η) : Receiver η :=
  let T := callback.reqType
  if err then r.readAsync .sofBuffer .readSOFHandler
  else
    let buf : RPCRequest T := ⟨SOF, r.header, .replicate T.size 0, ⟨0⟩⟩
    let bytes := copyTo buf.bytes (1+FrameHeader.size)
      (r.bodyBuffer.toList.take (copied callback))
    if !verifyCRC16Checksum (some bytes) T.frameSize then r.readAsync .sofBuffer .readSOFHandler
    else
      (r.process callback (RPCRequest.ofBytes T bytes).request).readAsync
        .sofBuffer .readSOFHandler

def handle (r : Receiver η) (err : Bool) : ReadHandler η → Receiver η
  | .readSOFHandler => r.readSOFHandler err
  | .readHeaderHandler => r.readHeaderHandler err
  | .readBodyHandler callback => r.readBodyHandler err callback

def overwrite {n : ℕ} (buffer : Vector UInt8 n) (bytes : List UInt8) : Vector UInt8 n :=
  Vector.ofFn fun i => bytes.getD i.val buffer[i]

def fill (r : Receiver η) (bytes : List UInt8) : Buffer → Receiver η
  | .sofBuffer => { r with sofBuffer := overwrite r.sofBuffer bytes }
  | .headerBuffer => { r with headerBuffer := overwrite r.headerBuffer bytes }
  | .bodyBuffer => { r with bodyBuffer := overwrite r.bodyBuffer bytes }

end Receiver

structure Completion where
  err : Bool
  bytes : List UInt8
  deriving DecidableEq, Repr

def Completion.Ends (c : Completion) (op : AsyncRead η) : Prop :=
  if c.err then c.bytes.length ≤ op.length else c.bytes.length = op.length

instance (c : Completion) (op : AsyncRead η) : Decidable (c.Ends op) := by
  unfold Completion.Ends
  infer_instance

namespace Receiver

def complete (r : Receiver η) (c : Completion) : Option (Receiver η) :=
  match r.pending with
  | [] => none
  | op::rest =>
    if c.Ends op then some (({ r with pending := rest }.fill c.bytes op.buffer).handle c.err op.handler)
    else none

def run (r : Receiver η) (cs : List Completion) : Option (Receiver η) :=
  PartialRun.run complete r cs

def registered (regs : List (Callback η)) : Receiver η :=
  regs.foldl (fun r callback => (r.registerMessage callback).1) fresh

def started (regs : List (Callback η)) : Receiver η := (registered regs).startGrabbing

end Receiver

def sofRead : AsyncRead η := ⟨.sofBuffer, 1, .readSOFHandler⟩

def headerRead : AsyncRead η := ⟨.headerBuffer, 3, .readHeaderHandler⟩

def bodyRead (callback : Callback η) : AsyncRead η :=
  ⟨.bodyBuffer, callback.reqType.size+2, .readBodyHandler callback⟩

theorem bodyRead_inj (a b : Callback η) : bodyRead a = bodyRead b ↔ a = b := by
  refine ⟨fun h => ?_, congrArg bodyRead⟩
  have := congrArg AsyncRead.handler h
  simpa [bodyRead] using this

def Callbacks.select (m : Callbacks η) (header : FrameHeader) : Option (Callback η) :=
  (m.find header.command).filter fun callback => header.dataLength.toNat = callback.reqType.size

theorem select_iff (m : Callbacks η) (header : FrameHeader) (callback : Callback η) :
    m.select header = some callback ↔ m.find header.command = some callback ∧
      header.dataLength.toNat = callback.reqType.size := by
  simp [Callbacks.select, Option.filter_eq_some_iff]

theorem select_header (m : Callbacks η) (header : FrameHeader) (callback : Callback η)
    (h : m.select header = some callback) :
    header = headerOf callback.reqType ∧ callback.reqType.size ≤ 255 ∧
      m.find callback.reqType.command = some callback := by
  obtain ⟨hfind, hlen⟩ := (select_iff m header callback).mp h
  have hkey := m.keyed header.command callback hfind
  have hlt := header.dataLength.toNat_lt
  refine ⟨?_, by omega, by rw [hkey]; exact hfind⟩
  cases header
  simp only [headerOf, FrameHeader.mk.injEq]
  refine ⟨?_, hkey.symm⟩
  rw [← UInt8.toNat_inj, UInt8.toNat_ofNat', ← hlen, Nat.mod_eq_of_lt hlt]

theorem select_headerOf (m : Callbacks η) (callback : Callback η)
    (hfind : m.find callback.reqType.command = some callback)
    (hsize : callback.reqType.size ≤ 255) :
    m.select (headerOf callback.reqType) = some callback := by
  refine (select_iff _ _ _).mpr ⟨hfind, ?_⟩
  simp only [headerOf, UInt8.toNat_ofNat']
  omega

def judge (callback : Callback η) (head body : List UInt8) : Option (Invocation η) :=
  if verifyCRC16Checksum (some (SOF::(head ++ body))) callback.reqType.frameSize then
    some ⟨callback, callback.reqType.bodyOf body⟩
  else none

theorem toList_overwrite {n : ℕ} (buffer : Vector UInt8 n) (bytes : List UInt8)
    (hl : bytes.length ≤ n) : (Receiver.overwrite buffer bytes).toList.take bytes.length = bytes := by
  apply List.ext_getElem
  · simp [hl]
  · intro i h1 h2
    simp [Receiver.overwrite, h2]

theorem toList_overwrite_full {n : ℕ} (buffer : Vector UInt8 n) (bytes : List UInt8)
    (hl : bytes.length = n) : (Receiver.overwrite buffer bytes).toList = bytes := by
  have := toList_overwrite buffer bytes (by omega)
  rwa [hl, List.take_of_length_le (by simp)] at this

theorem overwrite_zero (buffer : Vector UInt8 1) (b : UInt8) :
    (Receiver.overwrite buffer [b])[0] = b := by
  simp [Receiver.overwrite]

attribute [irreducible] Receiver.overwrite

theorem ends_ok (bytes : List UInt8) (op : AsyncRead η) :
    (⟨false, bytes⟩ : Completion).Ends op ↔ bytes.length = op.length := by
  simp [Completion.Ends]

theorem ends_failed (bytes : List UInt8) (op : AsyncRead η) :
    (⟨true, bytes⟩ : Completion).Ends op ↔ bytes.length ≤ op.length := by
  simp [Completion.Ends]

theorem bodyRead_length (callback : Callback η) (hs : callback.reqType.size ≤ 255) :
    (bodyRead callback).length = callback.reqType.size+2 := by
  simp only [AsyncRead.length, bodyRead, Buffer.size, maxBodySize]
  omega

namespace Receiver

@[simp] theorem fill_callbacks (r : Receiver η) (bytes : List UInt8) (buffer : Buffer) :
    (r.fill bytes buffer).callbacks = r.callbacks := by
  cases buffer <;> simp only [fill]

@[simp] theorem fill_invoked (r : Receiver η) (bytes : List UInt8) (buffer : Buffer) :
    (r.fill bytes buffer).invoked = r.invoked := by
  cases buffer <;> simp only [fill]

theorem complete_one (r : Receiver η) (op : AsyncRead η) (hp : r.pending = [op]) (c : Completion)
    (he : c.Ends op) :
    r.complete c = some (({ r with pending := [] }.fill c.bytes op.buffer).handle c.err op.handler) := by
  simp only [complete, hp, if_pos he]

theorem complete_dead (r : Receiver η) (hp : r.pending = []) (c : Completion) :
    r.complete c = none := by
  simp only [complete, hp]

theorem complete_refused (r : Receiver η) (op : AsyncRead η) (hp : r.pending = [op])
    (c : Completion) (he : ¬ c.Ends op) : r.complete c = none := by
  simp only [complete, hp, if_neg he]

theorem complete_ends (r r' : Receiver η) (op : AsyncRead η) (hp : r.pending = [op])
    (c : Completion) (h : r.complete c = some r') : c.Ends op := by
  by_contra he
  simp [complete_refused r op hp c he] at h

theorem complete_sofRead (r : Receiver η) (hp : r.pending = [sofRead]) (b : UInt8) :
    r.complete ⟨false, [b]⟩ = some { r with
      sofBuffer := overwrite r.sofBuffer [b]
      pending := [if b = SOF then headerRead else sofRead] } := by
  have hb := overwrite_zero r.sofBuffer b
  rw [complete_one r sofRead hp _ ((ends_ok _ _).mpr rfl)]
  simp only [sofRead, fill, handle, readSOFHandler, hb, Bool.false_eq_true, if_false]
  split <;> rfl

theorem complete_headerRead (r : Receiver η) (hp : r.pending = [headerRead])
    (bytes : List UInt8) (hl : bytes.length = 3) :
    r.complete ⟨false, bytes⟩ = some { r with
      headerBuffer := overwrite r.headerBuffer bytes
      pending := [match r.callbacks.select (.ofBytes bytes) with
        | none => sofRead
        | some callback => bodyRead callback] } := by
  have hb := toList_overwrite_full r.headerBuffer bytes hl
  rw [complete_one r headerRead hp _ ((ends_ok _ _).mpr hl)]
  simp only [headerRead, fill, handle, readHeaderHandler, header, hb, Bool.false_eq_true, if_false,
    Callbacks.select]
  cases hf : r.callbacks.find (FrameHeader.ofBytes bytes).command with
  | none => rfl
  | some callback =>
    by_cases hlen : (FrameHeader.ofBytes bytes).dataLength.toNat = callback.reqType.size
    · simp only [handleRequest, hlen, ne_eq, not_true, if_false, Option.filter_some, decide_true,
        if_true, bodyRead, ReqType.frameSize, FrameHeader.size, List.nil_append]
      congr 4
      omega
    · simp only [handleRequest, hlen, ne_eq, not_false_iff, if_true, Option.filter_some,
        decide_false, Bool.false_eq_true, if_false]
      rfl

/-- The copy replaces the request and the tail of the rebuilt frame. -/
theorem copyTo_frame (T : ReqType) (header : FrameHeader) (bytes : List UInt8)
    (hl : bytes.length = T.size+2) :
    copyTo (RPCRequest.mk (T := T) SOF header (.replicate T.size 0) ⟨0⟩).bytes
      (1+FrameHeader.size) bytes = SOF::(header.bytes ++ bytes) := by
  have h4 : (RPCRequest.mk (T := T) SOF header (.replicate T.size 0) ⟨0⟩).bytes.length ≤
      1+FrameHeader.size+bytes.length := by
    rw [RPCRequest.bytes_length, ReqType.frameSize, hl]
    omega
  rw [copyTo, List.drop_eq_nil_of_le h4]
  simp [RPCRequest.bytes, FrameHeader.size, FrameHeader.bytes, wordBytes]

theorem readBodyHandler_ok (r : Receiver η) (callback : Callback η) (bytes : List UInt8)
    (hl : bytes.length = callback.reqType.size+2)
    (hb : r.bodyBuffer.toList.take (copied callback) = bytes) :
    r.readBodyHandler false callback = { r with
      pending := r.pending ++ [sofRead]
      invoked := r.invoked ++ (judge callback r.header.bytes bytes).toList } := by
  have hbody : (RPCRequest.ofBytes callback.reqType (SOF::(r.header.bytes ++ bytes))).request =
      callback.reqType.bodyOf bytes := rfl
  simp only [readBodyHandler, Bool.false_eq_true, if_false, hb, copyTo_frame _ _ bytes hl, hbody,
    judge]
  cases verifyCRC16Checksum (some (SOF::(r.header.bytes ++ bytes))) callback.reqType.frameSize
  · simp [readAsync, sofRead, Buffer.size]
  · simp [readAsync, process, sofRead, Buffer.size]

theorem complete_bodyRead (r : Receiver η) (callback : Callback η)
    (hp : r.pending = [bodyRead callback]) (hs : callback.reqType.size ≤ 255)
    (bytes : List UInt8) (hl : bytes.length = callback.reqType.size+2) :
    r.complete ⟨false, bytes⟩ = some { r with
      bodyBuffer := overwrite r.bodyBuffer bytes
      pending := [sofRead]
      invoked := r.invoked ++ (judge callback r.header.bytes bytes).toList } := by
  have hend : (⟨false, bytes⟩ : Completion).Ends (bodyRead callback) :=
    (ends_ok _ _).mpr (hl.trans (bodyRead_length callback hs).symm)
  have hcopy : (overwrite r.bodyBuffer bytes).toList.take (copied callback) = bytes := by
    rw [copied, ReqType.frameSize, FrameHeader.size,
      show 1+3+callback.reqType.size+2-3-1 = bytes.length by omega]
    exact toList_overwrite r.bodyBuffer bytes (by omega)
  rw [complete_one r (bodyRead callback) hp _ hend]
  simp only [bodyRead, fill, handle]
  rw [readBodyHandler_ok { r with pending := [], bodyBuffer := overwrite r.bodyBuffer bytes }
    callback bytes hl hcopy]
  simp only [List.nil_append, header]

/-- A failed search for a start byte arms nothing; every other failure goes
back to the search. -/
theorem complete_failed (r : Receiver η) (op : AsyncRead η) (hp : r.pending = [op])
    (bytes : List UInt8) (hl : bytes.length ≤ op.length) :
    r.complete ⟨true, bytes⟩ = some { r.fill bytes op.buffer with
      pending := match op.handler with
        | .readSOFHandler => []
        | _ => [sofRead] } := by
  rw [complete_one r op hp _ ((ends_failed _ _).mpr hl)]
  cases op.buffer <;> cases op.handler <;>
    simp [fill, handle, readSOFHandler, readHeaderHandler, readBodyHandler, readAsync, sofRead,
      Buffer.size]

end Receiver

end BusPlot.SerialReceiver
