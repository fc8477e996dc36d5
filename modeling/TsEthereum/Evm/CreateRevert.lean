-- SUMMARY: What a create reports when its init code reverts.
import TsEthereum.Evm.GasLeft
import TsEthereum.Evm.RunCall

/-!
# Creates that revert

`runCall` of a create runs the init code and then checks what it returned. The
checks of the size, the fee and the gas leave the result of an init code that
reverted alone. The check of the first byte does not ask whether there was an
error.
-/

open Program EvmState

namespace EVM

variable (evm : EVM)

/-! ## The call up to the end of the init code -/

/-- `executeCreate` up to the init code: its result where there is nothing to run, else the message
and the new address. -/
def prepareCreate (message : Message) : Call ((EVMResult × Message) ⊕ (Message × Address)) := do
  let account ← EvmState.getAccount message.caller
  reduceSenderBalance (account.getD .new) message
  if evm.common.isActivatedEIP 3860 ∧
      (message.data.length : Int) > evm.common.param "maxInitCodeSize" ∧
      evm.allowUnlimitedInitCodeSize = false then
    pure (.inl (⟨message.to, .failed .INITCODE_SIZE_VIOLATION message.gasLimit⟩, message))
  else
    let code := message.data
    let message := { message with code := some (.bytes code), data := [] }
    let toAddress ← generateAddress evm message
    if evm.common.isActivatedEIP 6780 = true ∧ message.createdAddresses = none then
      .throw (.error "TypeError: Cannot read properties of undefined (reading 'add')")
    else
      let message := atAddress evm message toAddress
      let toAccount ← EvmState.getAccount toAddress
      let toAccount := toAccount.getD .new
      if isCollision toAccount = true then
        pure (.inl (⟨some toAddress, .failed .CREATE_COLLISION message.gasLimit⟩, message))
      else
        let errorMessage ← createAccount evm message toAddress toAccount
        if code = [] ∨ errorMessage.isSome = true then
          pure (.inl (⟨some toAddress, exitEarly message (errorMessage.map caughtError)⟩, message))
        else pure (.inr (message, toAddress))

/-- What `runInitCode` does with the result of the code. -/
def finishCreate (result : ExecResult) (message : Message) (toAddress : Address) :
    Call (EVMResult × Message) := do
  let deposited := depositResult evm message result
  saveCode evm toAddress (isCodestoreOOG evm message result) deposited
  .when (message.depth = 0) (postMessageCleanup evm)
  pure (⟨some toAddress, deposited⟩, message)

/-- `runCall` before it has its message. -/
def enterCall : Message ⊕ RunCallOpts → Call (Option Account)
  | .inl _ => pure none
  | .inr opts => do
    .modify fun s => { s with
      tx := some ⟨opts.gasPrice.getD 0, opts.origin.getD (opts.caller.getD .zero)⟩ }
    let callerAccount ← skipBalance opts
    if opts.message.value < 0 then
      .throw (.error ("value field cannot be negative, received " ++ toString opts.message.value))
    else pure callerAccount

/-- `executeMessage` up to the end of the init code, where it is a create that runs one. -/
def executeToInitCodeEnd (fuel : Nat) (message : Message) :
    Call ((EVMResult × Message) ⊕ (ExecResult × Message × Address)) :=
  match message.to with
  | some toAddress => do
    let r ← executeCall evm (runMessage evm fuel) fuel message toAddress
    pure (.inl r)
  | none => do
    match ← prepareCreate evm message with
    | .inl r => pure (.inl r)
    | .inr (created, toAddress) => do
      let (result, ended) ← runInterpreter evm (runMessage evm fuel) fuel created message.data true
        created.gasLimit
      pure (.inr (result, ended, toAddress))

def runToInitCodeEnd (fuel : Nat) (call : Message ⊕ RunCallOpts) :
    Call ((EVMResult × Message) ⊕ (ExecResult × Message × Address)) := do
  let callerAccount ← enterCall call
  let message ← openMessage evm callerAccount (callMessage call)
  checkpoint evm
  executeToInitCodeEnd evm fuel message

def finishCall : (EVMResult × Message) ⊕ (ExecResult × Message × Address) →
    Call (EVMResult × Message)
  | .inl r => pure r
  | .inr (result, message, toAddress) => finishCreate evm result message toAddress

def closeCall (r : EVMResult × Message) : Call (EVMResult × Message) := do
  let result ← closeMessage evm r.1
  pure (result, r.2)

variable {evm} {fuel : Nat} {s s' : EvmState}

theorem executeCreate_eq (runCall : RunMessage) (message : Message) :
    executeCreate evm runCall fuel message = prepareCreate evm message >>= fun stage =>
      match stage with
      | .inl r => pure r
      | .inr (created, toAddress) => runInitCode evm runCall fuel created message.data toAddress := by
  simp only [executeCreate, prepareCreate, andThen_assoc, ite_andThen, ret_andThen, throw_andThen]

theorem executeMessage_eq (message : Message) :
    executeMessage evm (runMessage evm fuel) fuel message =
      executeToInitCodeEnd evm fuel message >>= finishCall evm := by
  unfold executeMessage executeToInitCodeEnd
  cases message.to with
  | some toAddress => simp only [andThen_assoc, ret_andThen, finishCall, andThen_ret]
  | none =>
    simp only [executeCreate_eq, andThen_assoc]
    congr 1
    funext stage
    cases stage with
    | inl r => rfl
    | inr created =>
      simp only [andThen_assoc, ret_andThen, finishCall]
      rfl

theorem runCall_eq (call : Message ⊕ RunCallOpts) :
    runCall evm fuel call = runToInitCodeEnd evm fuel call >>= finishCall evm >>= closeCall evm := by
  have hwith (callerAccount : Option Account) (message : Message) :
      runCallWith evm (runMessage evm fuel) fuel callerAccount message =
        openMessage evm callerAccount message >>= fun message => checkpoint evm >>= fun _ =>
          executeMessage evm (runMessage evm fuel) fuel message >>= closeCall evm := rfl
  cases call with
  | inl message =>
    have hrun : runCall evm fuel (.inl message) =
        runCallWith evm (runMessage evm fuel) fuel none message := rfl
    simp only [hrun, hwith, executeMessage_eq, runToInitCodeEnd, enterCall, callMessage,
      andThen_assoc, ret_andThen]
  | inr opts =>
    simp only [runCall, hwith, executeMessage_eq, runToInitCodeEnd, enterCall, callMessage,
      andThen_assoc, ret_andThen, ite_andThen, throw_andThen]

/-! ## Init code that reverts -/

/-- A frame uses no more gas than it has. -/
theorem runInterpreter_gas {runCall : RunMessage} (message : Message) (code : Bytes)
    (isCreate : Bool) {gasLimit : Int} (hstipend : 0 ≤ evm.common.param "callStipendGas")
    (hlimit : 0 ≤ gasLimit) (s : EvmState) :
    (runInterpreter evm runCall fuel message code isCreate gasLimit).wp
      (fun r _ => r.1.executionGasUsed ≤ gasLimit ∧ r.2.gasLimit = message.gasLimit)
      (fun _ _ => True) s := by
  simp only [runInterpreter, wp_bind]
  refine wp_of_forall (fun contract s₁ => ?_) (fun _ _ => trivial)
  rw [wp_get]
  cases s₁.tx with
  | none => exact trivial
  | some tx =>
    refine wp_ite (fun _ => trivial) (fun _ => ?_)
    simp only [wp_bind, wp_within]
    refine wp_mono ((Interpreter.Solvent.loop hstipend fuel).wp _) ?_ (fun _ _ _ => trivial)
    intro exceptionError i hsolvent
    have hgas : 0 ≤ i.runState.gasLeft := hsolvent hlimit
    refine ⟨?_, rfl⟩
    unfold frameResult
    dsimp only
    split
    · exact sub_le_self _ hgas
    · exact sub_le_self _ hgas
    · exact sub_le_self _ hgas
    · exact le_rfl

/-- A result that is known without the init code. -/
theorem early_gasLimit {gasLimit : Int} (r : EVMResult × Message) (s : EvmState) :
    (pure (.inl r) : Call ((EVMResult × Message) ⊕ (Message × Address))).wp
      (fun stage _ => ∀ created toAddress, stage = .inr (created, toAddress) →
        created.gasLimit = gasLimit) (fun _ _ => True) s := by
  intro created toAddress hstage
  cases hstage

theorem prepareCreate_gasLimit (message : Message) (s : EvmState) : (prepareCreate evm message).wp
      (fun stage _ => ∀ created toAddress, stage = .inr (created, toAddress) →
        created.gasLimit = message.gasLimit) (fun _ _ => True) s := by
  simp only [prepareCreate, wp_bind]
  refine wp_of_forall (fun account s₁ => ?_) (fun _ _ => trivial)
  refine wp_of_forall (fun _ s₂ => ?_) (fun _ _ => trivial)
  refine wp_ite (fun _ => early_gasLimit _ _) (fun _ => ?_)
  simp only [wp_bind]
  refine wp_of_forall (fun toAddress s₃ => ?_) (fun _ _ => trivial)
  refine wp_ite (fun _ => trivial) (fun _ => ?_)
  simp only [wp_bind]
  refine wp_of_forall (fun toAccount s₄ => ?_) (fun _ _ => trivial)
  refine wp_ite (fun _ => early_gasLimit _ _) (fun _ => ?_)
  simp only [wp_bind]
  refine wp_of_forall (fun errorMessage s₅ => ?_) (fun _ _ => trivial)
  refine wp_ite (fun _ => early_gasLimit _ _) (fun _ => ?_)
  intro created address hcreated
  obtain ⟨rfl, rfl⟩ := Prod.mk.inj (Sum.inr.inj hcreated)
  rfl

theorem enterCall_ready (hs : s.stateManager.Ready) (call : Message ⊕ RunCallOpts) :
    (enterCall call).wp (fun _ s' => s'.stateManager.Ready) (fun _ _ => True) s := by
  cases call with
  | inl message => exact hs
  | inr opts =>
    simp only [enterCall, wp_bind, wp_modify]
    have htx : ∀ tx, ({ s with tx } : EvmState).stateManager.Ready := fun _ => hs
    refine wp_mono (skipBalance_spec (htx _) opts) ?_ (fun _ _ _ => trivial)
    intro callerAccount s₁ hraised
    exact wp_ite (fun _ => trivial) (fun _ => hraised.keeps.below.ready hs)

/-- What becomes of the result of an init code that reverted. -/
theorem depositResult_reverted {message : Message} {result : ExecResult}
    (hrevert : result.exceptionError = some .REVERT)
    (hgas : result.executionGasUsed ≤ message.gasLimit) :
    depositResult evm message result =
      if evm.common.isActivatedEIP 3541 ∧ result.returnValue.head? = some 0xef then
        result.overwrite (INVALID_BYTECODE_RESULT message.gasLimit)
      else result := by
  cases result
  obtain rfl := hrevert
  simp [depositResult, hgas]

/-- A create reports the revert of its init code, with the gas that it used, and stores no code. -/
structure ReportsRevert (s : EvmState) (result : ExecResult) (res : EVMResult) (s' : EvmState) :
    Prop where
  exceptionError : res.execResult.exceptionError = some .REVERT
  returnValue : res.execResult.returnValue = result.returnValue
  executionGasUsed : res.execResult.executionGasUsed = result.executionGasUsed
  codes : s'.stateManager.codeStack.head? = s.stateManager.codeStack.head?

theorem forfeit_fields (result : ExecResult) : (forfeit result).returnValue = result.returnValue ∧
      (forfeit result).executionGasUsed = result.executionGasUsed := by
  unfold forfeit
  split
  · exact ⟨rfl, rfl⟩
  · split <;> exact ⟨rfl, rfl⟩

/-- Closing a message does not touch what it reports. -/
theorem closeMessage_reports (res : EVMResult) (s : EvmState) : (closeMessage evm res).wp
      (fun res' _ => res'.execResult.exceptionError = res.execResult.exceptionError ∧
        res'.execResult.returnValue = res.execResult.returnValue ∧
        res'.execResult.executionGasUsed = res.execResult.executionGasUsed)
      (fun _ _ => True) s := by
  have hfields := forfeit_fields res.execResult
  refine wp_ite (fun _ => ?_) (fun _ => ?_)
  · simp only [wp_bind]
    refine wp_of_forall (fun _ _ => ?_) (fun _ _ => trivial)
    refine wp_of_forall (fun _ _ => ?_) (fun _ _ => trivial)
    exact ⟨forfeit_exceptionError _, hfields⟩
  · simp only [wp_bind]
    refine wp_of_forall (fun _ _ => ?_) (fun _ _ => trivial)
    refine wp_of_forall (fun _ _ => ?_) (fun _ _ => trivial)
    exact ⟨forfeit_exceptionError _, hfields⟩

variable {result : ExecResult}

/-- Where the checks give an error, nothing is saved. -/
theorem finishCreate_failed {message : Message} (toAddress : Address) {e : EVMErrorMessage}
    (he : (depositResult evm message result).exceptionError = some e)
    (hcode : e ≠ .CODESTORE_OUT_OF_GAS) (s : EvmState) :
    ∃ s', finishCreate evm result message toAddress s =
      (.ok (⟨some toAddress, depositResult evm message result⟩, message), s') := by
  have hsave : saveCode evm toAddress (isCodestoreOOG evm message result)
      (depositResult evm message result) = pure () := by
    have hoog : isCodestoreOOG evm message result = false := by
      simp [isCodestoreOOG, he, hcode]
    simp [saveCode, he, hoog]
  have hwp : (finishCreate evm result message toAddress).wp
      (fun r _ => r = (⟨some toAddress, depositResult evm message result⟩, message))
      (fun _ _ => False) s := by
    simp only [finishCreate, hsave, wp_bind]
    refine (wp_pure _).mpr ?_
    exact wp_mono (postMessageCleanup_spec message.depth s) (fun _ _ _ => rfl) (fun _ _ h => h)
  obtain ⟨r, s', hrun, rfl⟩ := wp_total hwp
  exact ⟨s', hrun⟩

variable {ended : Message} {toAddress : Address}

/-- The rest of a call whose init code failed: what the checks give is reported, and no code is
stored. -/
theorem runCall_of_initCode {call : Message ⊕ RunCallOpts} (hs : s.stateManager.Ready)
    (hvalue : 0 ≤ (callMessage call).value) {s' : EvmState}
    (hend : runToInitCodeEnd evm fuel call s = (.ok (.inr (result, ended, toAddress)), s'))
    {e : EVMErrorMessage} (he : (depositResult evm ended result).exceptionError = some e)
    (hcode : e ≠ .CODESTORE_OUT_OF_GAS) :
    ∃ res ended' s'', runCall evm fuel call s = (.ok (res, ended'), s'') ∧
      res.execResult.exceptionError = some e ∧
      res.execResult.returnValue = (depositResult evm ended result).returnValue ∧
      res.execResult.executionGasUsed = (depositResult evm ended result).executionGasUsed ∧
      s''.stateManager.codeStack.head? = s.stateManager.codeStack.head? := by
  obtain ⟨s₅, hfinish⟩ := finishCreate_failed toAddress he hcode s'
  -- the states that the call goes through
  obtain ⟨callerAccount, s₁, henter, hrest⟩ := ok_of_bind hend
  obtain ⟨message, s₂, hopen, hrest⟩ := ok_of_bind hrest
  obtain ⟨⟨⟩, s₃, hcheckpoint, hexecute⟩ := ok_of_bind hrest
  have hs₁ : s₁.stateManager.Ready := wp_ok henter (enterCall_ready hs call)
  obtain ⟨⟨code, rfl⟩, hentered⟩ := wp_ok hopen (openMessage_spec hs₁ callerAccount _)
  have hs₂ := hentered.keeps.below.ready hs₁
  have hspec : (checkpoint evm).wp (fun _ s' => Opened evm s₂ s') (fun _ _ => False) s₂ :=
    checkpoint_spec s₂
  have hopened : Opened evm s₂ s₃ :=
    @wp_ok _ _ _ (fun _ s' => Opened evm s₂ s') (fun _ _ => False) _ _ _ _ hcheckpoint hspec
  have hs₃ : s₃.stateManager.Ready := by
    rw [hopened.stateManager]
    exact SimpleStateManager.ready_checkpoint _
  have hmessage : executeMessage evm (runMessage evm fuel) fuel
      { callMessage call with code } s₃ =
        (.ok (⟨some toAddress, depositResult evm ended result⟩, ended), s₅) := by
    rw [executeMessage_eq]
    exact (bind_of_ok hexecute).trans hfinish
  have hexecuted := wp_ok hmessage
    (@executeMessage_spec evm s₃ { callMessage call with code } _ fuel (runMessage_spec fuel) hs₃
      hvalue)
  have hclose := wp_and (closeMessage_spec hs₂ hopened hexecuted)
    (wp_mono (closeMessage_reports ⟨some toAddress, depositResult evm ended result⟩ s₅)
      (fun _ _ h => h) (fun _ _ _ => trivial))
  obtain ⟨res, s'', hclosed, -, herror, hreturn, hgas⟩ :=
    wp_total (wp_mono hclose (fun _ _ h => h) (fun _ _ h => h.1))
  have hrun : runCall evm fuel call s = (.ok (res, ended), s'') := by
    rw [runCall_eq, andThen_assoc]
    refine (bind_of_ok hend).trans ((bind_of_ok hfinish).trans ?_)
    exact bind_of_ok hclosed
  refine ⟨res, ended, s'', hrun, herror.trans he, hreturn, hgas, ?_⟩
  obtain ⟨s₀, honly, -, hsettled⟩ := wp_ok hrun (runCall_spec fuel call hs hvalue)
  have hreverted := (hsettled.failed e (herror.trans he) hcode).1
  exact (honly.values (hreverted.stateManager ▸ .refl _)).codes

/-- Init code uses no more than the gas of its create. -/
theorem executeToInitCodeEnd_gas {message : Message} (hlimit : 0 ≤ message.gasLimit)
    (hstipend : 0 ≤ evm.common.param "callStipendGas")
    (hexecute : executeToInitCodeEnd evm fuel message s =
      (.ok (.inr (result, ended, toAddress)), s')) : result.executionGasUsed ≤ ended.gasLimit := by
  unfold executeToInitCodeEnd at hexecute
  cases hto : message.to with
  | some address =>
    -- a message to an account has no init code
    simp only [hto] at hexecute
    obtain ⟨r, s₁, -, hr⟩ := ok_of_bind hexecute
    cases hr
  | none =>
    simp only [hto] at hexecute
    obtain ⟨stage, s₁, hprepare, hrest⟩ := ok_of_bind hexecute
    cases stage with
    | inl r => cases hrest
    | inr created =>
      obtain ⟨created, address⟩ := created
      have hcreated : created.gasLimit = message.gasLimit :=
        wp_ok hprepare (prepareCreate_gasLimit message s) created address rfl
      obtain ⟨r, s₂, hinterpreter, hr⟩ := ok_of_bind hrest
      cases hr
      have hgas := wp_ok hinterpreter
        (runInterpreter_gas created message.data true hstipend (hcreated ▸ hlimit) s₁)
      exact hgas.2.symm ▸ hgas.1

theorem runToInitCodeEnd_gas {call : Message ⊕ RunCallOpts} (hs : s.stateManager.Ready)
    (hlimit : 0 ≤ (callMessage call).gasLimit) (hstipend : 0 ≤ evm.common.param "callStipendGas")
    (hend : runToInitCodeEnd evm fuel call s = (.ok (.inr (result, ended, toAddress)), s')) :
    result.executionGasUsed ≤ ended.gasLimit := by
  obtain ⟨callerAccount, s₁, henter, hrest⟩ := ok_of_bind hend
  obtain ⟨message, s₂, hopen, hrest⟩ := ok_of_bind hrest
  obtain ⟨⟨⟩, s₃, -, hexecute⟩ := ok_of_bind hrest
  have hs₁ : s₁.stateManager.Ready := wp_ok henter (enterCall_ready hs call)
  obtain ⟨⟨code, rfl⟩, -⟩ := wp_ok hopen (openMessage_spec hs₁ callerAccount _)
  have hlimit' : 0 ≤ ({ callMessage call with code } : Message).gasLimit := hlimit
  exact executeToInitCodeEnd_gas hlimit' hstipend hexecute

/-- A create reports the revert of its init code unless what it returned starts like an EOF
container. -/
theorem create_reverted_iff {call : Message ⊕ RunCallOpts} (hs : s.stateManager.Ready)
    (hvalue : 0 ≤ (callMessage call).value) (hlimit : 0 ≤ (callMessage call).gasLimit)
    (hstipend : 0 ≤ evm.common.param "callStipendGas") {result : ExecResult} {ended : Message}
    {toAddress : Address}
    (hend : runToInitCodeEnd evm fuel call s = (.ok (.inr (result, ended, toAddress)), s'))
    (hrevert : result.exceptionError = some .REVERT) :
    ∃ res ended' s'', runCall evm fuel call s = (.ok (res, ended'), s'') ∧
      (ReportsRevert s result res s'' ↔
        ¬(evm.common.isActivatedEIP 3541 = true ∧ result.returnValue.head? = some 0xef)) := by
  have hdeposit := @depositResult_reverted evm _ _ hrevert
    (runToInitCodeEnd_gas hs hlimit hstipend hend)
  split at hdeposit
  case isTrue hformat =>
    have he : (depositResult evm ended result).exceptionError = some .INVALID_BYTECODE_RESULT := by
      rw [hdeposit]
      rfl
    obtain ⟨res, ended', s'', hrun, herror, -⟩ := runCall_of_initCode hs hvalue hend he nofun
    refine ⟨res, ended', s'', hrun, fun hreports => ?_, fun h => absurd hformat h⟩
    cases hreports.exceptionError.symm.trans herror
  case isFalse hformat =>
    have he := (congrArg ExecResult.exceptionError hdeposit).trans hrevert
    obtain ⟨res, ended', s'', hrun, herror, hreturn, hgas, hcodes⟩ :=
      runCall_of_initCode hs hvalue hend he nofun
    rw [hdeposit] at hreturn hgas
    exact ⟨res, ended', s'', hrun, fun _ => hformat, fun _ => ⟨herror, hreturn, hgas, hcodes⟩⟩

/-! Init code that reverts with one byte, on London. -/

theorem underflow_ne : EVMErrorMessage.STACK_UNDERFLOW ≠ .CODESTORE_OUT_OF_GAS := by decide

/-- PUSH1 and MSTORE8. -/
def storingHandlers (op : Nat) : LocalHandler := fun r _ _ =>
  match op, r.stack with
  | 0x60, stack =>
    (⟨r.programCounter + 1, (r.code.getD r.programCounter 0).toNat :: stack, r.memory⟩, .ok ())
  | 0x53, offset :: value :: stack =>
    (⟨r.programCounter, stack, r.memory.write offset.toNat [UInt8.ofNat value.toNat]⟩, .ok ())
  | _, stack => (⟨r.programCounter, stack, r.memory⟩, .error (.trap ⟨.STACK_UNDERFLOW, underflow_ne⟩))

def storing : EVM := { bare .London with feeBigInt := fun _ => 3, handlers := storingHandlers }

/-- A create whose init code reverts with `byte`. -/
def revertingOpts (byte : UInt8) : RunCallOpts :=
  { codeOpts [] false with
    «to» := none
    code := none
    data := some [0x60, byte, 0x60, 0x00, 0x53, 0x60, 0x01, 0x60, 0x00, 0xfd] }

/-- What an init code that ends leaves. -/
theorem initCode_end {p : Call ((EVMResult × Message) ⊕ (ExecResult × Message × Address))}
    {error : Option EVMErrorMessage} {returnValue : Bytes}
    (h : ((p s).1.toOption.bind Sum.getRight?).map
      (fun r => (r.1.exceptionError, r.1.returnValue)) = some (error, returnValue)) :
    ∃ result ended toAddress, p s = (.ok (.inr (result, ended, toAddress)), (p s).2) ∧
      result.exceptionError = error ∧ result.returnValue = returnValue := by
  rcases hrun : p s with ⟨e | r | ⟨result, ended, toAddress⟩, s'⟩ <;> rw [hrun] at h
  · cases h
  · cases h
  · obtain ⟨herror, hreturn⟩ := Prod.mk.inj (Option.some.inj h)
    exact ⟨result, ended, toAddress, rfl, herror, hreturn⟩

theorem create_reverted_iff_one :
    ∃ result res ended s'', runCall storing 20 (.inr (revertingOpts 1)) withSlot =
      (.ok (res, ended), s'') ∧ ReportsRevert withSlot result res s'' := by
  have hcode : ((runToInitCodeEnd storing 20 (.inr (revertingOpts 1)) withSlot).1.toOption.bind
      Sum.getRight?).map (fun r => (r.1.exceptionError, r.1.returnValue)) =
        some (some .REVERT, [1]) := by decide +kernel
  obtain ⟨result, ended, toAddress, hend, herror, hreturn⟩ := initCode_end hcode
  obtain ⟨res, ended', s'', hrun, hiff⟩ :=
    create_reverted_iff ready_withSlot (by decide) (by decide) (by decide) hend herror
  refine ⟨result, res, ended', s'', hrun, hiff.mpr fun h => ?_⟩
  rw [hreturn] at h
  exact absurd h.2 (by decide)

/-- The first byte of what an init code reverted with makes it lose its gas. -/
theorem create_reverted_format :
    ¬∀ (evm : EVM) (fuel : Nat) (call : Message ⊕ RunCallOpts) (s s' : EvmState)
      (result : ExecResult) (ended : Message) (toAddress : Address), s.stateManager.Ready →
      0 ≤ (callMessage call).value → 0 ≤ (callMessage call).gasLimit →
      0 ≤ evm.common.param "callStipendGas" →
      runToInitCodeEnd evm fuel call s = (.ok (.inr (result, ended, toAddress)), s') →
      result.exceptionError = some .REVERT →
      ∃ res ended' s'', runCall evm fuel call s = (.ok (res, ended'), s'') ∧
        ReportsRevert s result res s'' := by
  intro hclaim
  have hcode : ((runToInitCodeEnd storing 20 (.inr (revertingOpts 0xef)) withSlot).1.toOption.bind
      Sum.getRight?).map (fun r => (r.1.exceptionError, r.1.returnValue)) =
        some (some .REVERT, [0xef]) := by decide +kernel
  obtain ⟨result, ended, toAddress, hend, herror, -⟩ := initCode_end hcode
  obtain ⟨res, ended', s'', hrun, hreports⟩ := hclaim _ _ _ _ _ _ _ _ ready_withSlot (by decide)
    (by decide) (by decide) hend herror
  have hinvalid : (runCall storing 20 (.inr (revertingOpts 0xef)) withSlot).1.toOption.map
      (fun r => r.1.execResult.exceptionError) = some (some .INVALID_BYTECODE_RESULT) := by
    decide +kernel
  rw [hrun] at hinvalid
  cases (Option.some.inj hinvalid).symm.trans hreports.exceptionError

end EVM
