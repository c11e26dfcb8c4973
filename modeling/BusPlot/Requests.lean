import BusPlot.Handlers
import BusPlot.SerialDamage
import BusPlot.SerialSections
import BusPlot.Library.PackedRecord

/-!
# Typed requests

The four request structures as packed records, floats as their thirty-two bits.
`RegisterMessage` and `Request` are templates over a structure; a request type
here is one with its command, and its layout has the size that the frames give.
-/

set_option autoImplicit false

namespace BusPlot.Requests
open BusPlot.Protocol BusPlot.SerialReceiver BusPlot.SerialInvariant BusPlot.SerialStream
open BusPlot.SerialDelivery BusPlot.SerialSections BusPlot.Handlers Framing

def byte : PackedRecord UInt8 UInt8 := .symbol 0

def word : PackedRecord UInt8 UInt16 where
  size := 2
  encode := wordBytes
  decode bs := wordAt bs 0
  encode_length _ := rfl
  decode_encode x rest := wordAt_wordBytes x [] rest
  encode_decode bs h := by
    match bs, h with
    | b0::b1::bs, _ => simp [wordBytes_wordAt]

def floatWords : UInt16 × UInt16 ≃ UInt32 where
  toFun w := UInt32.ofNat (w.1.toNat+65536*w.2.toNat)
  invFun x := (UInt16.ofNat x.toNat, UInt16.ofNat (x.toNat/65536))
  left_inv w := by
    have hl := w.1.toNat_lt
    have hh := w.2.toNat_lt
    ext <;> simp [UInt16.toNat_ofNat']
    all_goals omega
  right_inv x := by
    have hx := x.toNat_lt
    rw [← UInt32.toNat_inj]
    simp [UInt16.toNat_ofNat', UInt32.toNat_ofNat']
    omega

def float : PackedRecord UInt8 UInt32 := (word.pair word).via floatWords

structure Argument where
  scale : UInt32
  outMax : UInt32
  value : UInt32
  deriving DecidableEq, Repr

structure ApplyArgumentReq where
  p : Argument
  i : Argument
  d : Argument
  deriving DecidableEq, Repr

def argument : PackedRecord UInt8 Argument :=
  (float.pair (float.pair float)).via
    ⟨fun a => ⟨a.1, a.2.1, a.2.2⟩, fun a => (a.scale, a.outMax, a.value), fun _ => rfl, fun _ => rfl⟩

structure RequestType (α : Type) where
  reqType : ReqType
  layout : PackedRecord UInt8 α
  fits : layout.size = reqType.size

def variableAlias : RequestType VariableAliasReq where
  reqType := variableAliasReq
  layout := (word.pair (byte.row 10)).via
    ⟨fun f => ⟨f.1, f.2⟩, fun r => (r.variableId, r.aliasBytes), fun _ => rfl, fun _ => rfl⟩
  fits := rfl

def updateVariable : RequestType UpdateVariableReq where
  reqType := updateVariableReq
  layout := (word.pair float).via
    ⟨fun f => ⟨f.1, f.2⟩, fun r => (r.variableId, r.value), fun _ => rfl, fun _ => rfl⟩
  fits := rfl

def removeVariable : RequestType RemoveVariableReq where
  reqType := removeVariableReq
  layout := word.via ⟨fun v => ⟨v⟩, fun r => r.variableId, fun _ => rfl, fun _ => rfl⟩
  fits := rfl

def applyArgument : RequestType ApplyArgumentReq where
  reqType := applyArgumentReq
  layout := (argument.pair (argument.pair argument)).via
    ⟨fun f => ⟨f.1, f.2.1, f.2.2⟩, fun r => (r.p, r.i, r.d), fun _ => rfl, fun _ => rfl⟩
  fits := rfl

namespace RequestType

variable {α : Type} {η : Type*} (R : RequestType α)

def body (a : α) : R.reqType.Body :=
  ⟨(R.layout.encode a).toArray, (R.layout.encode_length a).trans R.fits⟩

def read (bytes : List UInt8) : α := R.layout.decode bytes

def call (process : η) (a : α) : Invocation η := ⟨⟨R.reqType, process⟩, R.body a⟩

theorem body_toList (a : α) : (R.body a).toList = R.layout.encode a := rfl

theorem read_body (a : α) : R.read (R.body a).toList = a := by
  have h := R.layout.decode_encode a []
  rwa [List.append_nil] at h

/-- There is no padding: every body is the representation of a structure. -/
theorem body_read (body : R.reqType.Body) : R.body (R.read body.toList) = body := by
  have hlen : body.toList.length = R.layout.size := (Vector.length_toList ..).trans R.fits.symm
  apply Vector.toList_inj.mp
  rw [body_toList, read, R.layout.encode_decode _ (le_of_eq hlen.symm), ← hlen, List.take_length]

end RequestType

inductive Kind
  | variableAlias
  | updateVariable
  | removeVariable
  | applyArgument
  deriving DecidableEq, Repr

inductive Request
  | variableAlias (req : VariableAliasReq)
  | updateVariable (req : UpdateVariableReq)
  | removeVariable (req : RemoveVariableReq)
  | applyArgument (req : ApplyArgumentReq)
  deriving DecidableEq, Repr

def Kind.callback : Kind → Callback Kind
  | .variableAlias => ⟨variableAliasReq, .variableAlias⟩
  | .updateVariable => ⟨updateVariableReq, .updateVariable⟩
  | .removeVariable => ⟨removeVariableReq, .removeVariable⟩
  | .applyArgument => ⟨applyArgumentReq, .applyArgument⟩

def Request.kind : Request → Kind
  | .variableAlias _ => .variableAlias
  | .updateVariable _ => .updateVariable
  | .removeVariable _ => .removeVariable
  | .applyArgument _ => .applyArgument

def Request.call : Request → Invocation Kind
  | .variableAlias req => Requests.variableAlias.call .variableAlias req
  | .updateVariable req => Requests.updateVariable.call .updateVariable req
  | .removeVariable req => Requests.removeVariable.call .removeVariable req
  | .applyArgument req => Requests.applyArgument.call .applyArgument req

def Request.ofCall (call : Invocation Kind) : Request :=
  match call.callback.process with
  | .variableAlias => .variableAlias (Requests.variableAlias.read call.request.toList)
  | .updateVariable => .updateVariable (Requests.updateVariable.read call.request.toList)
  | .removeVariable => .removeVariable (Requests.removeVariable.read call.request.toList)
  | .applyArgument => .applyArgument (Requests.applyArgument.read call.request.toList)

theorem call_callback (r : Request) : r.call.callback = r.kind.callback := by
  cases r <;> rfl

theorem ofCall_call (r : Request) : Request.ofCall r.call = r := by
  cases r with
  | variableAlias req => exact congrArg Request.variableAlias (variableAlias.read_body req)
  | updateVariable req => exact congrArg Request.updateVariable (updateVariable.read_body req)
  | removeVariable req => exact congrArg Request.removeVariable (removeVariable.read_body req)
  | applyArgument req => exact congrArg Request.applyArgument (applyArgument.read_body req)

theorem call_ofCall (kind : Kind) (body : kind.callback.reqType.Body) :
    (Request.ofCall ⟨kind.callback, body⟩).call = ⟨kind.callback, body⟩ := by
  cases kind with
  | variableAlias => exact congrArg (Invocation.mk _) (variableAlias.body_read body)
  | updateVariable => exact congrArg (Invocation.mk _) (updateVariable.body_read body)
  | removeVariable => exact congrArg (Invocation.mk _) (removeVariable.body_read body)
  | applyArgument => exact congrArg (Invocation.mk _) (applyArgument.body_read body)

def registrations (kinds : List Kind) : List (Callback Kind) := kinds.map Kind.callback

theorem registrations_nodup (kinds : List Kind) (h : kinds.Nodup) :
    ((registrations kinds).map (·.reqType.command)).Nodup := by
  rw [registrations, List.map_map]
  refine h.map fun a b hab => ?_
  revert hab
  cases a <;> cases b <;> decide

theorem registrations_size (kinds : List Kind) :
    ∀ callback ∈ registrations kinds, callback.reqType.size ≤ 255 := by
  intro callback h
  obtain ⟨kind, -, rfl⟩ := List.mem_map.mp h
  cases kind <;> decide

theorem registrations_known (kinds : List Kind) (h : kinds.Nodup) (kind : Kind)
    (hk : kind ∈ kinds) : Known (Receiver.registered (registrations kinds)).callbacks
      kind.callback := by
  have hmem : kind.callback ∈ registrations kinds := List.mem_map_of_mem hk
  exact known_of_find _ _ (find_of_mem _ _ (registrations_nodup kinds h) hmem)
    (registrations_size kinds _ hmem)

theorem token_output {η : Type*} (m : Callbacks η) (t : (wire m).Token) :
    t.output = [] ∨ ∃ call, t.output = [call] ∧ t.word = image call ∧ Known m call.callback := by
  cases t with
  | idle b hb => exact .inl rfl
  | rejected head hl hn => exact .inl rfl
  | frame callback head body hl hsel hbody =>
    cases haccept : judge callback head body with
    | none => exact .inl (congrArg Option.toList haccept)
    | some call =>
      have himage := judge_image m callback head body call hl hbody hsel haccept
      obtain ⟨-, hsize, hfind⟩ := select_header m _ callback hsel
      have hcallback : callback = call.callback := by
        unfold judge at haccept
        simp only [Option.ite_none_right_eq_some, Option.some.injEq] at haccept
        rw [← haccept.2]
      exact .inr ⟨call, congrArg Option.toList haccept, himage.symm, hcallback ▸ ⟨hfind, hsize⟩⟩

/-- Whatever stream is received, the frames of its calls stand in it one behind
the other. -/
theorem scan_accounted {η : Type*} (m : Callbacks η) (stream : List UInt8) :
    ∃ (traffic : List (List UInt8 × Invocation η)) (last : List UInt8),
      stream = traffic.flatMap (fun t => t.1 ++ image t.2) ++ last ∧
      (scan (.search : (wire m).Phase) stream).2 = traffic.map Prod.snd ∧
      ∀ t ∈ traffic, Known m t.2.callback := by
  have tokens : ∀ ts : List (wire m).Token,
      ∃ (traffic : List (List UInt8 × Invocation η)) (last : List UInt8),
        ts.flatMap Token.word = traffic.flatMap (fun t => t.1 ++ image t.2) ++ last ∧
        ts.flatMap Token.output = traffic.map Prod.snd ∧
        ∀ t ∈ traffic, Known m t.2.callback := by
    intro ts
    induction ts with
    | nil => exact ⟨[], [], rfl, rfl, by simp⟩
    | cons t ts ih =>
      obtain ⟨traffic, last, hword, hout, hk⟩ := ih
      rcases token_output m t with hnone | ⟨call, hcall, himage, hknown⟩
      · cases traffic with
        | nil =>
          exact ⟨[], t.word ++ last, by simp [hword], by simp [hnone, hout], by simp⟩
        | cons u traffic =>
          refine ⟨(t.word ++ u.1, u.2)::traffic, last, ?_, ?_, fun v hv => ?_⟩
          · simp [hword]
          · simp [hnone, hout]
          · rcases List.mem_cons.mp hv with rfl | hv
            · exact hk u (by simp)
            · exact hk v (by simp [hv])
      · refine ⟨([], call)::traffic, last, ?_, ?_, fun v hv => ?_⟩
        · simp [hword, himage]
        · simp [hcall, hout]
        · rcases List.mem_cons.mp hv with rfl | hv
          · exact hknown
          · exact hk v hv
  obtain ⟨ts, rest, hstream, hopen, -⟩ := tokenise (F := wire m) stream
  obtain ⟨traffic, last, hword, hout, hk⟩ := tokens ts
  refine ⟨traffic, last ++ rest, ?_, ?_, hk⟩
  · rw [hstream, hword, List.append_assoc]
  · rw [hstream, scan_append, scan_tokens, hopen, List.append_nil, hout]

theorem known_kind (kinds : List Kind) (callback : Callback Kind)
    (h : Known (Receiver.registered (registrations kinds)).callbacks callback) :
    ∃ kind ∈ kinds, kind.callback = callback := by
  have hfind := h.1
  rw [registered_find] at hfind
  exact List.mem_map.mp (List.mem_of_find?_eq_some hfind)

/-- Requests of registered kinds, sent among idle bytes and delivered in any
pieces, are what the handlers read. And of whatever arrives every call is the
call of a request, and the frames of these requests stand in the stream one
behind the other. -/
theorem requests_read_back (kinds : List Kind) (hnd : kinds.Nodup) (chunks : List (List UInt8)) :
    (∀ (traffic : List (List UInt8 × Request)) (last : List UInt8),
      (∀ t ∈ traffic, (∀ b ∈ t.1, b ≠ SOF) ∧ t.2.kind ∈ kinds) → (∀ b ∈ last, b ≠ SOF) →
      chunks.flatten = traffic.flatMap (fun t => t.1 ++ image t.2.call) ++ last →
        (alone (registrations kinds) chunks).receiver.invoked.map Request.ofCall =
          traffic.map Prod.snd) ∧
    ∃ (traffic : List (List UInt8 × Request)) (last : List UInt8),
      chunks.flatten = traffic.flatMap (fun t => t.1 ++ image t.2.call) ++ last ∧
      (alone (registrations kinds) chunks).receiver.invoked = traffic.map (·.2.call) ∧
      ∀ t ∈ traffic, t.2.kind ∈ kinds := by
  have hcalls : (alone (registrations kinds) chunks).receiver.invoked = _ :=
    grabbing_invoked (registrations kinds) chunks
  constructor
  · intro traffic last ht hlast hflat
    have hscan := scan_traffic (Receiver.registered (registrations kinds)).callbacks
      (traffic.map fun t => (t.1, t.2.call)) (by
        rintro _ hmem
        obtain ⟨t, htraffic, rfl⟩ := List.mem_map.mp hmem
        obtain ⟨hidle, hkind⟩ := ht t htraffic
        refine ⟨hidle, ?_⟩
        rw [call_callback]
        exact registrations_known kinds hnd t.2.kind hkind)
    rw [List.flatMap_map] at hscan
    rw [hcalls, hflat, scan_append, hscan, scan_idles (F := wire _) last hlast]
    simp [Function.comp_def, ofCall_call]
  · obtain ⟨traffic, last, hflat, hscan, hk⟩ :=
      scan_accounted (Receiver.registered (registrations kinds)).callbacks chunks.flatten
    have typed : ∀ t ∈ traffic, (Request.ofCall t.2).kind ∈ kinds ∧
        (Request.ofCall t.2).call = t.2 := by
      rintro ⟨noise, callback, body⟩ ht
      obtain ⟨kind, hmem, rfl⟩ := known_kind kinds callback (hk _ ht)
      refine ⟨?_, call_ofCall kind body⟩
      cases kind <;> exact hmem
    refine ⟨traffic.map fun t => (t.1, Request.ofCall t.2), last, ?_, ?_, ?_⟩
    · rw [hflat, List.flatMap_map]
      congr 1
      apply List.flatMap_congr
      intro t ht
      rw [(typed t ht).2]
    · rw [hcalls, hscan, List.map_map]
      apply List.map_congr_left
      intro t ht
      exact (typed t ht).2.symm
    · intro t ht
      obtain ⟨u, hu, rfl⟩ := List.mem_map.mp ht
      exact (typed u hu).1

def updateThenRemoval : List (List UInt8 × Request) :=
  [([0x01, 0x02], .updateVariable ⟨7, 0x3F800000⟩), ([0x03], .removeVariable ⟨7⟩)]

theorem requests_read_back_removal :
    let stream := updateThenRemoval.flatMap (fun t => t.1 ++ image t.2.call) ++ [0x04]
    let invoked := (alone (registrations [.removeVariable, .updateVariable])
      [stream.take 9, stream.drop 9]).receiver.invoked
    invoked.map Request.ofCall = updateThenRemoval.map Prod.snd ∧
    ∃ (traffic : List (List UInt8 × Request)) (last : List UInt8),
      [stream.take 9, stream.drop 9].flatten =
        traffic.flatMap (fun t => t.1 ++ image t.2.call) ++ last ∧
      invoked = traffic.map (·.2.call) ∧
      ∀ t ∈ traffic, t.2.kind ∈ [Kind.removeVariable, .updateVariable] := by
  intro stream invoked
  obtain ⟨hread, hframes⟩ :=
    requests_read_back [.removeVariable, .updateVariable] (by decide)
      [stream.take 9, stream.drop 9]
  refine ⟨hread updateThenRemoval [0x04] (by decide +kernel) (by decide +kernel) ?_, hframes⟩
  rw [List.flatten_cons, List.flatten_cons, List.flatten_nil, List.append_nil,
    List.take_append_drop]

local instance three_neZero : NeZero 3 := ⟨by decide⟩

def handleArgumentApplying (controlMatrix : Vector (Vector UInt32 3) 3) : ApplyArgumentReq where
  p := ⟨(controlMatrix.get 0).get 0, (controlMatrix.get 0).get 1, (controlMatrix.get 0).get 2⟩
  i := ⟨(controlMatrix.get 1).get 0, (controlMatrix.get 1).get 1, (controlMatrix.get 1).get 2⟩
  d := ⟨(controlMatrix.get 2).get 0, (controlMatrix.get 2).get 1, (controlMatrix.get 2).get 2⟩

def matrix : PackedRecord UInt8 (Vector (Vector UInt32 3) 3) := (float.row 3).row 3

theorem toList_three {α : Type} (v : Vector α 3) : v.toList = [v.get 0, v.get 1, v.get 2] := by
  match v with
  | ⟨⟨[a, b, c]⟩, _⟩ => rfl

/-- The request is the matrix byte by byte: the rows are P, I and D, and in each
of them scale, limit and value. -/
theorem body_matrix (controlMatrix : Vector (Vector UInt32 3) 3) :
    (applyArgument.body (handleArgumentApplying controlMatrix)).toList =
      matrix.encode controlMatrix := by
  simp [applyArgument, RequestType.body_toList, matrix, PackedRecord.row, PackedRecord.via,
    PackedRecord.pair, argument, handleArgumentApplying, toList_three]

/-- Whoever registers the request gets the matrices that were applied, in their
order, whatever idle bytes lie between them and however they are delivered. -/
theorem arguments_arrive (kinds : List Kind) (hnd : kinds.Nodup) (hk : .applyArgument ∈ kinds)
    (applied : List (List UInt8 × Vector (Vector UInt32 3) 3))
    (hidle : ∀ t ∈ applied, ∀ b ∈ t.1, b ≠ SOF) (chunks : List (List UInt8))
    (h : chunks.flatten = applied.flatMap fun t =>
      t.1 ++ image (Request.applyArgument (handleArgumentApplying t.2)).call) :
    (alone (registrations kinds) chunks).receiver.invoked.map
        (fun call => matrix.decode call.request.toList) = applied.map Prod.snd := by
  have hscan := scan_traffic (Receiver.registered (registrations kinds)).callbacks
    (applied.map fun t => (t.1, (Request.applyArgument (handleArgumentApplying t.2)).call)) (by
      rintro _ hmem
      obtain ⟨t, ht, rfl⟩ := List.mem_map.mp hmem
      exact ⟨hidle t ht, registrations_known kinds hnd _ hk⟩)
  rw [List.flatMap_map] at hscan
  have hcalls : (alone (registrations kinds) chunks).receiver.invoked = _ :=
    grabbing_invoked (registrations kinds) chunks
  rw [hcalls, h, hscan, List.map_map, List.map_map]
  apply List.map_congr_left
  intro t _
  have hbody := matrix.decode_encode t.2 []
  rw [List.append_nil, ← body_matrix] at hbody
  exact hbody

def appliedTwice : List (List UInt8 × Vector (Vector UInt32 3) 3) :=
  [([0x01, 0x02], #v[#v[1, 2, 3], #v[4, 5, 6], #v[7, 8, 9]]),
    ([0x03], #v[#v[11, 12, 13], #v[14, 15, 16], #v[17, 18, 19]])]

theorem arguments_arrive_twice :
    let stream := appliedTwice.flatMap fun t =>
      t.1 ++ image (Request.applyArgument (handleArgumentApplying t.2)).call
    (alone (registrations [.updateVariable, .applyArgument])
        [stream.take 20, stream.drop 20]).receiver.invoked.map
      (fun call => matrix.decode call.request.toList) = appliedTwice.map Prod.snd := by
  intro stream
  refine arguments_arrive [.updateVariable, .applyArgument] (by decide) (by decide) appliedTwice
    (by decide +kernel) _ ?_
  rw [List.flatten_cons, List.flatten_cons, List.flatten_nil, List.append_nil,
    List.take_append_drop]

end BusPlot.Requests
