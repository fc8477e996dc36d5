-- SUMMARY: The gas of a frame does not fall below zero.
import TsEthereum.Evm.OpcodeFrames

/-!
# Gas left

`useGas` stops at zero and the stipend of a call is added, so a frame that starts
with a gas limit of at least zero keeps what it has left there, also where it ends
with an error.
-/

open Program

namespace Interpreter

variable {evm : EVM} {runCall : RunMessage}

/-- Where there is gas, or none, there is no debt afterwards. -/
def Solvent (i i' : Interpreter) : Prop := 0 ≤ i.runState.gasLeft → 0 ≤ i'.runState.gasLeft

instance : IsPreorder Interpreter Solvent where
  refl _ h := h
  trans _ _ _ h h' hgas := h' (h hgas)

namespace Solvent

theorem ordinary (hstipend : 0 ≤ evm.common.param "callStipendGas") : Ordinary evm Solvent where
  routine i i' h hgas := by
    rcases h.gasLeft with hsame | hsolvent
    · exact hsame ▸ hgas
    · exact hsolvent
  stipend _ hgas := add_nonneg hgas hstipend

theorem onRunState {f : RunState → RunState} (h : ∀ r, (f r).gasLeft = r.gasLeft) :
    (Interpreter.onRunState f).Keeps Solvent :=
  keeps_modify fun i hgas => (h i.runState).symm ▸ hgas

theorem localOp (op : Nat) : (Interpreter.localOp evm op).Keeps Solvent :=
  keeps_bind keeps_get fun _ =>
    keeps_bind (onRunState fun _ => rfl) fun _ => Ordinary.ofLocal _

variable (hstipend : 0 ≤ evm.common.param "callStipendGas")

include hstipend

theorem runStep : (Interpreter.runStep evm runCall).Keeps Solvent := by
  have hordinary := ordinary hstipend
  refine keeps_bind keeps_get fun i => keeps_bind (hordinary.opGas _ _) fun gas => ?_
  refine keeps_ite (Ordinary.trap _) (keeps_bind (hordinary.useGas gas) fun _ => ?_)
  exact keeps_bind (onRunState fun _ => rfl) fun _ => hordinary.opHandler (localOp _)

/-- A frame runs into no debt. -/
theorem loop (fuel : Nat) : (Interpreter.loop evm runCall fuel).Keeps Solvent := by
  induction fuel with
  | zero => exact keeps_throw _
  | succ fuel ih =>
    refine keeps_bind keeps_get fun i => ?_
    cases i.runState.code[i.runState.programCounter]? with
    | none => exact keeps_pure _
    | some opCode =>
      refine keeps_bind (onRunState fun _ => rfl) fun _ => ?_
      refine keeps_bind (keeps_attempt (runStep hstipend)) fun outcome => ?_
      split
      · exact ih
      · exact keeps_pure _
      · exact keeps_pure _
      · exact keeps_throw _

end Solvent

end Interpreter
