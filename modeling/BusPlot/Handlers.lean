import BusPlot.PlotChart
import BusPlot.Protocol
import BusPlot.Library.PartialRun

/-!
# The message handlers

The handlers of `main.cpp` on the chart of the window. A handler has no result
where it would follow a null pointer or read memory that is not there. The
request lies in the frame that the receiver rebuilt, so the bytes behind it are
the checksum and then whatever the stack holds.
-/

set_option autoImplicit false

namespace BusPlot.Handlers
open BusPlot.Protocol BusPlot.PlotSeries BusPlot.PlotChart

structure VariableAliasReq where
  variableId : UInt16
  aliasBytes : Vector UInt8 10
  deriving DecidableEq, Repr

structure UpdateVariableReq where
  variableId : UInt16
  value : UInt32
  deriving DecidableEq, Repr

structure RemoveVariableReq where
  variableId : UInt16
  deriving DecidableEq, Repr

def VariableAliasReq.ofBody (body : variableAliasReq.Body) : VariableAliasReq :=
  ⟨wordAt body.toList 0, Vector.ofFn fun i => body.toList.getD (2+i.val) 0⟩

def characters (memory : List UInt8) : List UInt8 := memory.takeWhile (· ≠ 0)

def bytesRead (memory : List UInt8) : ℕ := (characters memory).length+1

def cString (memory : List UInt8) : Option (List UInt8) :=
  if bytesRead memory ≤ memory.length then some (characters memory) else none

def handleVariableAliasRequest (c : Chart) (req : VariableAliasReq) (behind : List UInt8) :
    Option Chart :=
  let series := c.getOrAddSeries req.variableId
  (cString (req.aliasBytes.toList ++ behind)).bind fun label =>
    series.1.update series.2 (·.setLabel label)

def handleUpdateVariableRequest (c : Chart) (req : UpdateVariableReq) (now : ℤ) : Option Chart :=
  let series := c.getOrAddSeries req.variableId
  series.1.update series.2 (·.addData ⟨now, req.value⟩)

def handleRemoveVariableRequest (c : Chart) (req : RemoveVariableReq) : Option Chart :=
  some (c.removeSeries req.variableId).1

/-- A handled message with what its handler finds in the environment: the
memory behind the request, the reading of the clock. -/
inductive Message
  | variableAlias (req : VariableAliasReq) (behind : List UInt8)
  | updateVariable (req : UpdateVariableReq) (now : ℤ)
  | removeVariable (req : RemoveVariableReq)

def Message.id : Message → UInt16
  | .variableAlias req _ => req.variableId
  | .updateVariable req _ => req.variableId
  | .removeVariable req => req.variableId

def handle (c : Chart) : Message → Option Chart
  | .variableAlias req behind => handleVariableAliasRequest c req behind
  | .updateVariable req now => handleUpdateVariableRequest c req now
  | .removeVariable req => handleRemoveVariableRequest c req

def handleAll (c : Chart) (log : List Message) : Option Chart := PartialRun.run handle c log

theorem characters_append (field behind : List UInt8) :
    characters (field ++ behind) =
      if 0 ∈ field then characters field else field ++ characters behind := by
  induction field with
  | nil => simp
  | cons b field ih =>
    by_cases hb : b = 0
    · simp [characters, hb]
    · have hb' : ¬ 0 = b := fun h => hb h.symm
      rw [characters] at ih
      simp only [characters, List.cons_append, List.takeWhile_cons, hb, ne_eq, not_false_eq_true,
        decide_true, if_true, ih, List.mem_cons, hb', false_or]
      split <;> rfl

theorem characters_length (field : List UInt8) (h : 0 ∈ field) :
    (characters field).length < field.length := by
  induction field with
  | nil => simp at h
  | cons b field ih =>
    by_cases hb : b = 0
    · simp [characters, hb]
    · have hmem : 0 ∈ field := by
        rcases List.mem_cons.mp h with h0 | h0
        · exact absurd h0.symm hb
        · exact h0
      have := ih hmem
      simp only [characters, List.takeWhile_cons, hb, ne_eq, not_false_eq_true, decide_true,
        if_true, List.length_cons] at this ⊢
      omega

theorem cString_terminated (field behind : List UInt8) (h : 0 ∈ field) :
    cString (field ++ behind) = some (characters field) := by
  have hlen := characters_length field h
  rw [cString, bytesRead, characters_append, if_pos h, List.length_append, if_pos (by omega)]

theorem bytesRead_le_iff (field behind : List UInt8) :
    bytesRead (field ++ behind) ≤ field.length ↔ 0 ∈ field := by
  rw [bytesRead, characters_append]
  split
  · rename_i h
    exact ⟨fun _ => h, fun _ => characters_length field h⟩
  · rename_i h
    simp only [List.length_append, h, iff_false]
    omega

def Message.effect (msg : Message) (old : Option Series) : Option Series :=
  match msg with
  | .variableAlias req _ =>
    some ((old.getD (.make (varLabel msg.id))).setLabel (characters req.aliasBytes.toList))
  | .updateVariable req now =>
    some ((old.getD (.make (varLabel msg.id))).addData ⟨now, req.value⟩)
  | .removeVariable _ => none

def Message.Terminated : Message → Prop
  | .variableAlias req _ => 0 ∈ req.aliasBytes.toList
  | _ => True

/-- The handlers have the effect of their message on its variable and leave
every other one alone. -/
theorem handle_spec (c : Chart) (hc : c.Linked) (msg : Message) (hm : msg.Terminated) :
    ∃ c', handle c msg = some c' ∧ c'.Linked ∧
      ∀ v, c'.view v = if v = msg.id then msg.effect (c.view msg.id) else c.view v := by
  cases msg with
  | variableAlias req behind =>
    simp only [handle, handleVariableAliasRequest, cString_terminated _ behind hm, Option.bind_some]
    exact c.edit_spec hc req.variableId (·.setLabel (characters req.aliasBytes.toList))
  | updateVariable req now => exact c.edit_spec hc req.variableId (·.addData ⟨now, req.value⟩)
  | removeVariable req =>
    obtain ⟨hlinked, hview⟩ := c.removeSeries_spec hc req.variableId
    exact ⟨_, rfl, hlinked, hview⟩

/-- Whatever an alias holds, the chart stays linked and the samples are those of
the effect. -/
theorem handle_data (c c' : Chart) (hc : c.Linked) (msg : Message) (h : handle c msg = some c') :
    c'.Linked ∧ ∀ v, (c'.view v).map (·.data) =
      if v = msg.id then (msg.effect (c.view msg.id)).map (·.data) else (c.view v).map (·.data) := by
  have edited : ∀ f : Series → Series,
      (c.getOrAddSeries msg.id).1.update (c.getOrAddSeries msg.id).2 f = some c' →
        c'.Linked ∧ ∀ v, c'.view v = if v = msg.id then
          some (f ((c.view msg.id).getD (.make (varLabel msg.id)))) else c.view v := by
    intro f hf
    obtain ⟨c'', hedit, hlinked, hview⟩ := c.edit_spec hc msg.id f
    obtain rfl : c'' = c' := by simpa [hedit] using hf
    exact ⟨hlinked, hview⟩
  cases msg with
  | variableAlias req behind =>
    obtain ⟨label, -, hlabel⟩ := Option.bind_eq_some_iff.mp h
    obtain ⟨hlinked, hview⟩ := edited _ hlabel
    refine ⟨hlinked, fun v => ?_⟩
    rw [hview]
    split <;> rfl
  | updateVariable req now =>
    obtain ⟨hlinked, hview⟩ := edited _ h
    refine ⟨hlinked, fun v => ?_⟩
    rw [hview]
    split <;> rfl
  | removeVariable req =>
    cases h
    obtain ⟨hlinked, hview⟩ := c.removeSeries_spec hc req.variableId
    refine ⟨hlinked, fun v => ?_⟩
    rw [hview]
    split <;> simp [Message.id, Message.effect, *]

theorem handle_linked (c c' : Chart) (hc : c.Linked) (msg : Message)
    (h : handle c msg = some c') : c'.Linked :=
  (handle_data c c' hc msg h).1

theorem handleAll_linked (log : List Message) (c : Chart) (h : handleAll .empty log = some c) :
    c.Linked :=
  PartialRun.run_invariant handle Chart.Linked .empty Chart.empty_linked
    (fun m msg m' hm hstep => handle_linked m m' hm msg hstep) log c h

def DecodedInside (c : Chart) (body : variableAliasReq.Body) (stack : List UInt8) : Prop :=
  let req := VariableAliasReq.ofBody body
  let behind := (makeRequest variableAliasReq body).tail.bytes ++ stack
  (∃ c', handleVariableAliasRequest c req behind = some c' ∧
    (c'.view req.variableId).map (·.label) = some (characters req.aliasBytes.toList)) ∧
  (characters req.aliasBytes.toList).length ≤ 10 ∧
  bytesRead (req.aliasBytes.toList ++ behind) ≤ 10

/-- In every chart the handlers can have made, decoding stays inside the field
exactly when the field has a zero byte. -/
theorem decoded_inside_iff (log : List Message) (c : Chart)
    (hc : handleAll .empty log = some c) (body : variableAliasReq.Body) (stack : List UInt8) :
    DecodedInside c body stack ↔ 0 ∈ (VariableAliasReq.ofBody body).aliasBytes.toList := by
  unfold DecodedInside
  generalize VariableAliasReq.ofBody body = req
  generalize (makeRequest variableAliasReq body).tail.bytes ++ stack = behind
  have hten : req.aliasBytes.toList.length = 10 := Vector.length_toList
  have hread := bytesRead_le_iff req.aliasBytes.toList behind
  rw [hten] at hread
  constructor
  · rintro ⟨-, -, hinside⟩
    exact hread.mp hinside
  · intro hz
    have hshort := characters_length req.aliasBytes.toList hz
    obtain ⟨c', hhandle, -, hview⟩ :=
      handle_spec c (handleAll_linked log c hc) (.variableAlias req behind) hz
    have hlabel : (c'.view req.variableId).map (·.label) =
        some (characters req.aliasBytes.toList) := by
      rw [hview, Message.id, if_pos rfl]
      rfl
    exact ⟨⟨c', hhandle, hlabel⟩, by omega, hread.mpr hz⟩

def fullName : variableAliasReq.Body :=
  #v[0x01, 0x00, 0x41, 0x42, 0x43, 0x44, 0x45, 0x46, 0x47, 0x48, 0x49, 0x4A]

theorem decoded_inside_iff_fullName :
    DecodedInside .empty fullName [0x00] ↔
      0 ∈ (VariableAliasReq.ofBody fullName).aliasBytes.toList :=
  decoded_inside_iff [] .empty rfl fullName [0x00]

theorem fullName_reads_checksum :
    ¬ DecodedInside .empty fullName [0x00] ∧
      ((handleVariableAliasRequest .empty (.ofBody fullName)
        ((makeRequest variableAliasReq fullName).tail.bytes ++ [0x00])).bind
          fun c => (c.view 0x0001).map (·.label)) =
        some (fullName.toList.drop 2 ++ (makeRequest variableAliasReq fullName).tail.bytes) := by
  refine ⟨?_, by decide +kernel⟩
  rintro ⟨-, -, hread⟩
  revert hread
  decide +kernel

end BusPlot.Handlers
