-- SUMMARY: Relations between the states of a frame that hold across every opcode.
import TsEthereum.Evm.Opcodes

/-!
# Frames of opcodes

An opcode that does not jump and pushes no operands leaves the program counter and
the code alone, and what it does to the gas left ends at zero at the least, or is
the stipend of a call. A relation that allows these changes holds across every such
opcode.
-/

open Program

/-- A change of the run state that keeps its place in the code and makes no debt. -/
structure RunState.Routine (r r' : RunState) : Prop where
  programCounter : r'.programCounter = r.programCounter
  opCode : r'.opCode = r.opCode
  code : r'.code = r.code
  gasLeft : r'.gasLeft = r.gasLeft ∨ 0 ≤ r'.gasLeft

namespace Interpreter

variable {evm : EVM} {runCall : RunMessage} {R : Interpreter → Interpreter → Prop}

/-- The relation allows what opcodes do. -/
structure Ordinary (evm : EVM) (R : Interpreter → Interpreter → Prop) : Prop where
  routine : ∀ i i' : Interpreter, i.runState.Routine i'.runState → R i i'
  stipend : ∀ i : Interpreter, R i { i with runState := { i.runState with
    gasLeft := i.runState.gasLeft + evm.common.param "callStipendGas" } }

namespace Ordinary

variable (hR : Ordinary evm R) {α : Type}

include hR

theorem onRunState {f : RunState → RunState} (h : ∀ r : RunState, r.Routine (f r)) :
    (Interpreter.onRunState f).Keeps R :=
  keeps_modify fun i => hR.routine i _ (h i.runState)

theorem onResult (f : RunResult → RunResult) : (Interpreter.onResult f).Keeps R :=
  keeps_modify fun i => hR.routine i _ ⟨rfl, rfl, rfl, .inl rfl⟩

theorem setContract (contract : Account) : (Interpreter.setContract contract).Keeps R :=
  keeps_modify fun i => hR.routine i _ ⟨rfl, rfl, rfl, .inl rfl⟩

theorem liftEvm (p : Call α) : (Interpreter.liftEvm p).Keeps R :=
  keeps_onPart fun i => hR.routine i _ ⟨rfl, rfl, rfl, .inl rfl⟩

theorem setReturnBytes (returnBytes : Bytes) : (Interpreter.setReturnBytes returnBytes).Keeps R :=
  hR.onRunState fun _ => ⟨rfl, rfl, rfl, .inl rfl⟩

theorem useGas (amount : Int) : (Interpreter.useGas amount).Keeps R := by
  refine ⟨fun i => hR.routine i _ ?_⟩
  refine outcome_of_wp (fun i' : Interpreter => i.runState.Routine i'.runState) ?_
  simp only [Interpreter.useGas, Interpreter.onRunState, wp_bind, wp_modify, wp_get]
  refine wp_when (fun _ => ?_) (fun h => ⟨rfl, rfl, rfl, .inr (not_lt.mp h)⟩)
  simp only [wp_bind, wp_modify]
  exact ⟨rfl, rfl, rfl, .inr (le_refl (0 : Int))⟩

theorem addStipend : (Interpreter.addStipend (evm.common.param "callStipendGas")).Keeps R :=
  keeps_modify hR.stipend

theorem writeCallOutput (outOffset outLength : Int) :
    (Interpreter.writeCallOutput outOffset outLength).Keeps R := by
  refine hR.onRunState fun r => ?_
  dsimp only
  split_ifs <;> exact ⟨rfl, rfl, rfl, .inl rfl⟩

variable [IsPreorder Interpreter R]

omit hR in
theorem trap (e : EVMErrorMessage) : (Interpreter.trap e : Run α).Keeps R := keeps_throw _

omit hR in
theorem ofLocal (r : Except LocalThrow α) : (Interpreter.ofLocal r).Keeps R := by
  cases r with
  | ok a => exact keeps_pure a
  | error e => exact keeps_throw _

theorem push (value : Int) : (Interpreter.push value).Keeps R :=
  keeps_bind keeps_get fun _ =>
    keeps_ite (trap _) (hR.onRunState fun _ => ⟨rfl, rfl, rfl, .inl rfl⟩)

omit hR in
theorem peek (num : Nat) : (Interpreter.peek num).Keeps R :=
  keeps_bind keeps_get fun _ => keeps_ite (trap _) (keeps_pure _)

theorem popN (num : Nat) : (Interpreter.popN num).Keeps R :=
  keeps_bind (peek num) fun _ =>
    keeps_bind (hR.onRunState fun _ => ⟨rfl, rfl, rfl, .inl rfl⟩) fun _ => keeps_pure _

omit hR in
theorem readMemory (offset length : Int) : (Interpreter.readMemory offset length).Keeps R :=
  keeps_bind keeps_get fun _ => keeps_pure _

/-! ## State -/

theorem storageStore (key value : Bytes) : (Interpreter.storageStore key value).Keeps R := by
  refine keeps_bind keeps_get fun i => keeps_bind (hR.liftEvm _) fun _ => ?_
  refine keeps_bind (hR.liftEvm _) fun account => ?_
  cases account with
  | none => exact keeps_throw _
  | some account => exact hR.setContract account

theorem transientStorageStore (key value : Bytes) :
    (Interpreter.transientStorageStore key value).Keeps R :=
  keeps_bind keeps_get fun _ => hR.liftEvm _

theorem finish (returnData : Bytes) : (Interpreter.finish returnData).Keeps R :=
  keeps_bind (hR.onResult _) fun _ => trap _

theorem revert (returnData : Bytes) : (Interpreter.revert returnData).Keeps R :=
  keeps_bind (hR.onResult _) fun _ => trap _

theorem log (data : Bytes) (numberOfTopics : Nat) (topics : List Bytes) :
    (Interpreter.log data numberOfTopics topics).Keeps R :=
  keeps_ite (trap _) (keeps_ite (trap _) (keeps_bind keeps_get fun _ => hR.onResult _))

/-! ## Messages -/

theorem mergeSets (msg : Message) : (Interpreter.mergeSets evm msg).Keeps R := by
  refine keeps_bind (hR.onResult _) fun _ => keeps_when (keeps_bind keeps_get fun i => ?_)
  cases i.result.createdAddresses with
  | some set => exact hR.onResult _
  | none => exact keeps_ite (keeps_pure _) (keeps_throw _)

theorem refresh (results : EVMResult) : (Interpreter.refresh results).Keeps R := by
  refine keeps_bind keeps_get fun i => keeps_bind (hR.liftEvm _) fun account => ?_
  cases account with
  | none => exact keeps_throw _
  | some account =>
    exact keeps_bind (hR.setContract account) fun _ =>
      hR.onRunState fun _ => ⟨rfl, rfl, rfl, .inl rfl⟩

omit hR in
theorem newMessage (msg : Message) : (Interpreter.newMessage msg).Keeps R :=
  keeps_ite (keeps_throw _) (keeps_pure _)

theorem baseCall (msg : Message) : (Interpreter.baseCall evm runCall msg).Keeps R := by
  refine keeps_bind (hR.setReturnBytes []) fun _ => keeps_bind keeps_get fun i => ?_
  refine keeps_ite (keeps_pure _) (keeps_bind (hR.liftEvm _) fun r => ?_)
  refine keeps_bind (hR.onResult _) fun _ => keeps_bind (hR.useGas _) fun _ => ?_
  refine keeps_bind (keeps_when (hR.setReturnBytes _)) fun _ => ?_
  exact keeps_bind (keeps_when (keeps_bind (hR.mergeSets _) fun _ => hR.refresh _)) fun _ =>
    keeps_pure _

theorem createMessage (gasLimit value : Int) (codeToRun : Bytes) (salt : Option Bytes) :
    (Interpreter.createMessage evm runCall gasLimit value codeToRun salt).Keeps R := by
  refine keeps_bind keeps_get fun i => keeps_bind (newMessage _) fun msg => ?_
  refine keeps_bind (hR.liftEvm _) fun r => keeps_bind (hR.onResult _) fun _ => ?_
  refine keeps_bind (hR.useGas _) fun _ => keeps_bind (keeps_when (hR.setReturnBytes _)) fun _ => ?_
  refine keeps_ite (keeps_bind (hR.mergeSets _) fun _ => keeps_bind (hR.refresh _) fun _ => ?_)
    (keeps_pure _)
  cases r.1.createdAddress with
  | some address => exact keeps_pure _
  | none => exact keeps_pure _

theorem create (gasLimit value : Int) (codeToRun : Bytes) (salt : Option Bytes) :
    (Interpreter.create evm runCall gasLimit value codeToRun salt).Keeps R := by
  refine keeps_bind (hR.setReturnBytes []) fun _ => keeps_bind keeps_get fun i => ?_
  refine keeps_ite (keeps_pure _) (keeps_ite (keeps_pure _) ?_)
  refine keeps_bind (hR.setContract _) fun _ => keeps_bind (hR.liftEvm _) fun _ => ?_
  exact keeps_ite (keeps_pure _) (hR.createMessage _ _ _ _)

theorem selfDestruct (toAddress : Address) : (Interpreter.selfDestruct evm toAddress).Keeps R := by
  refine keeps_bind keeps_get fun i => ?_
  refine keeps_bind (keeps_when (hR.onRunState fun _ => ⟨rfl, rfl, rfl, .inl rfl⟩)) fun _ => ?_
  refine keeps_bind (hR.onResult _) fun _ => ?_
  refine keeps_bind (keeps_when (keeps_bind (hR.liftEvm _) fun _ => hR.liftEvm _)) fun _ => ?_
  have hmodify :
      (doModify evm i (decide (toAddress.bytes = i.env.address.bytes))).Keeps R := by
    refine keeps_ite ?_ (keeps_pure _)
    cases i.result.createdAddresses with
    | none => exact keeps_throw _
    | some created => exact keeps_pure _
  exact keeps_bind hmodify fun _ => keeps_bind (keeps_when (hR.liftEvm _)) fun _ => trap _

/-! ## Opcodes -/

theorem warmAll (ws : List Warm) : (Interpreter.warmAll ws).Keeps R := by
  induction ws with
  | nil => exact keeps_pure _
  | cons w ws ih =>
    refine keeps_bind ?_ fun _ => ih
    cases w with
    | address address => exact hR.liftEvm _
    | slot address key => exact hR.liftEvm _

theorem charge (op : Nat) (gas : Int) : (Interpreter.charge evm op gas).Keeps R :=
  keeps_bind keeps_get fun _ => keeps_bind (hR.onRunState fun _ => ⟨rfl, rfl, rfl, .inl rfl⟩) fun _ =>
    keeps_bind (hR.warmAll _) fun _ => ofLocal _

omit hR in
theorem trapStatic : Interpreter.trapStatic.Keeps R :=
  keeps_bind keeps_get fun _ => keeps_when (trap _)

theorem gasHandler (op : Nat) (gas : Int) : (Interpreter.gasHandler evm op gas).Keeps R := by
  refine keeps_ite (keeps_bind trapStatic fun _ => hR.charge _ _) (keeps_ite ?_ (hR.charge _ _))
  exact keeps_bind (peek 7) fun _ => keeps_bind keeps_get fun _ =>
    keeps_ite (trap _) (hR.charge _ _)

theorem opGas (op : Nat) (opInfo : Opcode) : (Interpreter.opGas evm op opInfo).Keeps R :=
  keeps_ite (hR.gasHandler _ _) (keeps_pure _)

theorem takeGasLimit : Interpreter.takeGasLimit.Keeps R :=
  keeps_bind keeps_get fun _ =>
    keeps_bind (hR.onRunState fun _ => ⟨rfl, rfl, rfl, .inl rfl⟩) fun _ => keeps_pure _

theorem opCreate (value offset length : Int) (salt : Option Bytes) :
    (Interpreter.opCreate evm runCall value offset length salt).Keeps R := by
  refine keeps_ite (trap _) (keeps_bind hR.takeGasLimit fun _ => ?_)
  refine keeps_bind (readMemory _ _) fun _ => ?_
  exact keeps_ite (hR.push _) (keeps_bind (hR.create _ _ _ _) fun _ => hR.push _)

theorem addCallStipend (value gasLimit : Int) :
    (Interpreter.addCallStipend evm value gasLimit).Keeps R :=
  keeps_ite (keeps_bind hR.addStipend fun _ => keeps_pure _) (keeps_pure _)

theorem opCALL : (Interpreter.opCALL evm runCall).Keeps R := by
  refine keeps_bind (hR.popN 7) fun args => keeps_bind (readMemory _ _) fun _ => ?_
  refine keeps_bind hR.takeGasLimit fun _ => keeps_bind (hR.addCallStipend _ _) fun _ => ?_
  refine keeps_bind (keeps_bind keeps_get fun _ => keeps_bind (newMessage _) fun _ => hR.baseCall _)
    fun _ => ?_
  exact keeps_bind (hR.writeCallOutput _ _) fun _ => hR.push _

theorem opCALLCODE : (Interpreter.opCALLCODE evm runCall).Keeps R := by
  refine keeps_bind (hR.popN 7) fun args => keeps_bind hR.takeGasLimit fun _ => ?_
  refine keeps_bind (hR.addCallStipend _ _) fun _ => keeps_bind (readMemory _ _) fun _ => ?_
  refine keeps_bind (keeps_bind keeps_get fun _ => keeps_bind (newMessage _) fun _ => hR.baseCall _)
    fun _ => ?_
  exact keeps_bind (hR.writeCallOutput _ _) fun _ => hR.push _

theorem opDELEGATECALL : (Interpreter.opDELEGATECALL evm runCall).Keeps R := by
  refine keeps_bind keeps_get fun _ => keeps_bind (hR.popN 6) fun args => ?_
  refine keeps_bind (readMemory _ _) fun _ => keeps_bind hR.takeGasLimit fun _ => ?_
  refine keeps_bind (keeps_bind keeps_get fun _ => keeps_bind (newMessage _) fun _ => hR.baseCall _)
    fun _ => ?_
  exact keeps_bind (hR.writeCallOutput _ _) fun _ => hR.push _

theorem opSTATICCALL : (Interpreter.opSTATICCALL evm runCall).Keeps R := by
  refine keeps_bind (hR.popN 6) fun args => keeps_bind hR.takeGasLimit fun _ => ?_
  refine keeps_bind (readMemory _ _) fun _ => ?_
  refine keeps_bind (keeps_bind keeps_get fun _ => keeps_bind (newMessage _) fun _ => hR.baseCall _)
    fun _ => ?_
  exact keeps_bind (hR.writeCallOutput _ _) fun _ => hR.push _

/-- An opcode keeps what the local ones keep. -/
theorem opHandler {op : Nat} (hlocal : (localOp evm op).Keeps R) :
    (Interpreter.opHandler evm runCall op).Keeps R := by
  unfold Interpreter.opHandler
  split
  · exact trap _
  · exact keeps_bind (hR.popN 2) fun _ => hR.storageStore _ _
  · exact keeps_bind trapStatic fun _ =>
      keeps_bind (hR.popN 2) fun _ => hR.transientStorageStore _ _
  iterate 5
    · refine keeps_bind keeps_get fun _ => keeps_bind (hR.popN 2) fun _ => ?_
      exact keeps_bind (hR.popN _) fun _ => keeps_bind (readMemory _ _) fun _ => hR.log _ _ _
  · exact keeps_bind (hR.popN 3) fun _ => hR.opCreate _ _ _ _
  · exact hR.opCALL
  · exact hR.opCALLCODE
  · exact keeps_bind (hR.popN 2) fun _ => keeps_bind (readMemory _ _) fun _ => hR.finish _
  · exact hR.opDELEGATECALL
  · exact keeps_bind trapStatic fun _ => keeps_bind (hR.popN 4) fun _ => hR.opCreate _ _ _ _
  · exact hR.opSTATICCALL
  · exact keeps_bind (hR.popN 2) fun _ => keeps_bind (readMemory _ _) fun _ => hR.revert _
  · exact keeps_bind (hR.popN 1) fun _ => hR.selfDestruct _
  · exact hlocal

end Ordinary

end Interpreter
