import BusPlot.SerialReceiver

/-!
# The registrations of the program

`main` registers three messages before the link is opened. `ApplyArgumentReq`
belongs to the protocol and has no handler here.
-/

set_option autoImplicit false

namespace BusPlot.Registrations
open BusPlot.Protocol BusPlot.SerialReceiver

inductive Handler
  | handleVariableAliasRequest
  | handleUpdateVariableRequest
  | handleRemoveVariableRequest
  deriving DecidableEq, Repr

def aliasCallback : Callback Handler := ⟨variableAliasReq, .handleVariableAliasRequest⟩
def updateCallback : Callback Handler := ⟨updateVariableReq, .handleUpdateVariableRequest⟩
def removeCallback : Callback Handler := ⟨removeVariableReq, .handleRemoveVariableRequest⟩

def mainCallbacks : List (Callback Handler) := [aliasCallback, updateCallback, removeCallback]

theorem mainCallbacks_nodup : (mainCallbacks.map (·.reqType.command)).Nodup := by decide

theorem mainCallbacks_size : ∀ callback ∈ mainCallbacks, callback.reqType.size ≤ 255 := by decide

def removeSeven : Invocation Handler := ⟨removeCallback, #v[0x07, 0x00]⟩

end BusPlot.Registrations
