-- SUMMARY: Messages of the EVM: calls, creates, and the checkpoint around each of them.
import TsEthereum.Evm.Opcodes
import TsEthereum.Rlp.Rlp

/-!
# EVM

`evm.ts`: what a message does to the state before its code runs, the run of the
code, and what becomes of the result. The source's recursion goes through the
interpreter; here a message gets the meaning of the messages below it, and
`runMessage` bounds both their depth and the length of a frame's run.
-/

namespace EVM

variable (evm : EVM)

/-- The error is caught and kept. -/
def caught (p : Call Unit) : Call (Option Throw) := do
  match ← Program.attempt p with
  | .ok () => pure none
  | .error e => pure (some e)

def reduceSenderBalance (account : Account) (message : Message) : Call Unit :=
  if account.balance - message.value < 0 then .throw (.evmError .INSUFFICIENT_BALANCE)
  else EvmState.putAccount message.caller { account with balance := account.balance - message.value }

def addToBalance (toAccount : Account) (address : Address) (message : Message) : Call Unit :=
  if toAccount.balance + message.value > MAX_INTEGER then .throw (.evmError .VALUE_OVERFLOW)
  else EvmState.putAccount address { toAccount with balance := toAccount.balance + message.value }

def postMessageCleanup : Call Unit :=
  .modify fun s =>
    if evm.common.isActivatedEIP 1153 then { s with transientStorage := s.transientStorage.clear }
    else s

/-- The hash that an address is the end of: with a salt that of `generateAddress2`. -/
def addressHash (message : Message) : Call Bytes :=
  match message.salt with
  | some salt =>
    let code := match message.code with
      | some (.bytes code) => code
      | _ => []
    pure (evm.keccak256 ([0xff] ++ message.caller.bytes ++ salt ++ evm.keccak256 code))
  | none => do
    let acc ← EvmState.getAccount message.caller
    let newNonce := (acc.getD .new).nonce - 1
    if newNonce < 0 then .throw (.error "hex string expected, got non-hex character")
    else
      let nonce := if newNonce = 0 then [] else bigIntToBytes newNonce
      pure (evm.keccak256 (Rlp.encode (.list [.bytes message.caller.bytes, .bytes nonce])))

def generateAddress (message : Message) : Call Address := do
  let hash ← addressHash evm message
  match Address.new (hash.drop (hash.length - 20)) with
  | .ok address => pure address
  | .error e => .throw (.error e)

/-- The code at `codeAddress`, through a delegation of EIP-7702. -/
def loadCode (message : Message) : Call Message := do
  match message.code with
  | some _ => pure message
  | none =>
    match message.ownCodeAddress.orElse fun _ => message.to with
    | none => .throw (.error "Missing codeAddress")
    | some codeAddress =>
      if (evm.precompiles (bytesToUnprefixedHex codeAddress.bytes)).isSome then
        pure { message with
          code := some (.precompile (bytesToUnprefixedHex codeAddress.bytes))
          isCompiled := true }
      else
        let code ← EvmState.getCode codeAddress
        if evm.common.isActivatedEIP 7702 ∧ code.take 3 = [0xef, 0x01, 0x00] then
          match Address.new ((code.drop 3).take 21) with
          | .error e => .throw (.error e)
          | .ok address =>
            let code ← EvmState.getCode address
            .when (message.depth = 0) (EvmState.addAlwaysWarmAddress address.toString)
            pure { message with code := some (.bytes code), isCompiled := false }
        else pure { message with code := some (.bytes code), isCompiled := false }

section Frame

variable (runCall : RunMessage) (fuel : Nat)

/-- The interpreter at the start of a frame. -/
def enter (message : Message) (code : Bytes) (isCreate : Bool) (contract : Account)
    (tx : TxContext) (gasLimit : Int) (s : EvmState) : Interpreter where
  runState := {
    programCounter := 0
    opCode := 0xfe
    memory := []
    memoryWordCount := 0
    highestMemCost := 0
    stack := []
    code
    gasRefund := message.gasRefund
    gasLeft := gasLimit
    returnBytes := []
    messageGasLimit := none }
  env := {
    address := message.to.getD .zero
    caller := message.caller
    callData := message.data
    callValue := message.value
    code
    isStatic := message.isStatic
    isCreate
    depth := message.depth
    gasPrice := tx.gasPrice
    origin := tx.origin
    contract
    blobVersionedHashes := message.blobVersionedHashes }
  result := {
    logs := []
    returnValue := none
    selfdestruct := message.selfdestruct.getD .empty
    createdAddresses := message.createdAddresses }
  evm := s

/-- The sets of the message are those that the frame has changed. -/
def leaveSets (message : Message) (i : Interpreter) : Message :=
  { message with
    selfdestruct := message.selfdestruct.map fun _ => i.result.selfdestruct
    createdAddresses := i.result.createdAddresses }

/-- The result of a frame. -/
def frameResult (gasLimit : Int) (exceptionError : Option EVMErrorMessage) (i : Interpreter) :
    ExecResult where
  executionGasUsed :=
    match exceptionError with
    | none | some .REVERT | some .INVALID_EOF_FORMAT => gasLimit - i.runState.gasLeft
    | some _ => gasLimit
  exceptionError
  returnValue := i.result.returnValue.getD []
  logs := some (if exceptionError.isSome then [] else i.result.logs)
  selfdestruct := some (if exceptionError.isSome then .empty else i.result.selfdestruct)
  createdAddresses := if exceptionError.isSome then some .empty else i.result.createdAddresses
  gasRefund := some i.runState.gasRefund

def runInterpreter (message : Message) (code : Bytes) (isCreate : Bool) (gasLimit : Int) :
    Call (ExecResult × Message) := do
  let contract ← EvmState.getAccount (message.to.getD .zero)
  let s ← .get
  match s.tx with
  | none => .throw (.error "TypeError: Cannot read properties of undefined (reading 'gasPrice')")
  | some tx =>
    if evm.missingCliqueSigner = true then
      .throw (.error
        "Must include cliqueSigner function if clique/poa is being used for consensus type")
    else
      let (exceptionError, i) ← .within
        (enter message code isCreate (contract.getD .new) tx gasLimit) Interpreter.evm
        (Interpreter.loop evm runCall fuel)
      pure (frameResult gasLimit exceptionError i, leaveSets message i)

def runPrecompile (address : HexString) (data : Bytes) (gasLimit gasRefund : Int) :
    Call ExecResult :=
  match evm.precompiles address with
  | none => .throw (.error "Invalid precompile")
  | some code =>
    match code data gasLimit with
    | .error e => .throw (.error e)
    | .ok result => pure {
        executionGasUsed := result.executionGasUsed
        exceptionError := result.exceptionError.map Subtype.val
        returnValue := result.returnValue
        logs := none
        selfdestruct := none
        createdAddresses := none
        gasRefund := some gasRefund }

/-- The result of a message whose code does not run. -/
def exitEarly (message : Message) (exceptionError : Option EVMErrorMessage) : ExecResult where
  executionGasUsed := 0
  exceptionError
  returnValue := []
  logs := none
  selfdestruct := none
  createdAddresses := none
  gasRefund := some message.gasRefund

/-- `e.error` of an error that was caught. What is no error of the EVM has none. -/
def caughtError : Throw → EVMErrorMessage
  | .evmError e => e
  | _ => .INTERNAL_ERROR

/-- Delegate calls move no value. -/
def unlessDelegate (message : Message) (p : Call Unit) : Call (Option Throw) :=
  if message.delegatecall = true then pure none else caught p

/-- The value moves, and the last error that was caught is kept. -/
def transfer (message : Message) (toAddress : Address) : Call (Option Throw) := do
  let account ← EvmState.getAccount message.caller
  let reduced ← unlessDelegate message (reduceSenderBalance (account.getD .new) message)
  let toAccount ← EvmState.getAccount toAddress
  let added ← unlessDelegate message (addToBalance (toAccount.getD .new) toAddress message)
  pure (added.orElse fun _ => reduced)

/-- The code of a call, which is a function where it is compiled and bytes where it is not. -/
def runCode (message : Message) : Call (ExecResult × Message) :=
  match message.isCompiled, message.code with
  | true, some (.precompile address) => do
    let result ← runPrecompile evm address message.data message.gasLimit message.gasRefund
    pure (result, message)
  | false, some (.bytes code) => runInterpreter evm runCall fuel message code false message.gasLimit
  | _, _ => .throw (.error "Invalid precompile")

def executeCall (message : Message) (toAddress : Address) : Call (EVMResult × Message) := do
  let errorMessage ← transfer message toAddress
  let message ← loadCode evm message
  if errorMessage.isSome = true ∨ message.code = none ∨ message.code = some (.bytes []) then
    pure (⟨none, exitEarly message (errorMessage.map caughtError)⟩, message)
  else
    let (result, message) ← runCode evm runCall fuel message
    .when (message.depth = 0) (postMessageCleanup evm)
    pure (⟨none, result⟩, message)

/-- What becomes of the result of the code of a create: the fee for the code, and its checks. -/
def depositResult (message : Message) (result : ExecResult) : ExecResult :=
  let returnFee :=
    if result.exceptionError = none then
      (result.returnValue.length : Int) * evm.common.param "createDataGas"
    else 0
  let totalGas := result.executionGasUsed + returnFee
  let allowedCodeSize : Bool :=
    ¬(result.exceptionError = none ∧ evm.common.gteHardfork .SpuriousDragon ∧
      (result.returnValue.length : Int) > evm.common.param "maxCodeSize")
  if totalGas ≤ message.gasLimit ∧ (evm.allowUnlimitedContractSize ∨ allowedCodeSize) then
    if evm.common.isActivatedEIP 3541 ∧ result.returnValue.head? = some 0xef then
      result.overwrite (INVALID_BYTECODE_RESULT message.gasLimit)
    else { result with executionGasUsed := totalGas }
  else if evm.common.gteHardfork .Homestead then
    if allowedCodeSize = false then result.overwrite (CodesizeExceedsMaximumError message.gasLimit)
    else result.overwrite (OOGResult message.gasLimit)
  else if totalGas - returnFee ≤ message.gasLimit then
    result.overwrite (COOGResult (totalGas - returnFee))
  else result.overwrite (OOGResult message.gasLimit)

/-- Whether the code was run but could not be paid for. -/
def isCodestoreOOG (message : Message) (result : ExecResult) : Bool :=
  (depositResult evm message result).exceptionError = some .CODESTORE_OUT_OF_GAS

/-- The new code, or an empty account where the code could not be paid for. -/
def saveCode (toAddress : Address) (codestoreOOG : Bool) (result : ExecResult) : Call Unit :=
  if result.exceptionError = none ∧ result.returnValue ≠ [] then
    EvmState.onStateManager (·.putCode evm.keccak256 toAddress result.returnValue)
  else if codestoreOOG = true ∧ evm.common.gteHardfork .Homestead = false then do
    let account ← EvmState.getAccount toAddress
    EvmState.putAccount toAddress (account.getD .new)
  else pure ()

/-- The account at the new address, with the value in it. -/
def createAccount (message : Message) (toAddress : Address) (toAccount : Account) :
    Call (Option Throw) := do
  EvmState.putAccount toAddress toAccount
  let toAccount ← EvmState.getAccount toAddress
  let toAccount := toAccount.getD .new
  let toAccount := if evm.common.gteHardfork .SpuriousDragon then
    { toAccount with nonce := toAccount.nonce + 1 } else toAccount
  caught (addToBalance toAccount toAddress message)

/-- The message of a create once its address is known. -/
def atAddress (message : Message) (toAddress : Address) : Message :=
  { message with
    «to» := some toAddress
    createdAddresses :=
      if evm.common.isActivatedEIP 6780 then message.createdAddresses.map (·.add toAddress.toString)
      else message.createdAddresses }

def isCollision (toAccount : Account) : Bool :=
  toAccount.nonce > 0 || toAccount.codeHash ≠ KECCAK256_NULL ||
    toAccount.storageRoot ≠ KECCAK256_RLP

/-- The end of a create: its code runs, and what it returns is saved. -/
def runInitCode (message : Message) (code : Bytes) (toAddress : Address) : Call (EVMResult × Message) := do
  let (result, message) ← runInterpreter evm runCall fuel message code true message.gasLimit
  let deposited := depositResult evm message result
  saveCode evm toAddress (isCodestoreOOG evm message result) deposited
  .when (message.depth = 0) (postMessageCleanup evm)
  pure (⟨some toAddress, deposited⟩, message)

def executeCreate (message : Message) : Call (EVMResult × Message) := do
  let account ← EvmState.getAccount message.caller
  reduceSenderBalance (account.getD .new) message
  if evm.common.isActivatedEIP 3860 ∧
      (message.data.length : Int) > evm.common.param "maxInitCodeSize" ∧
      evm.allowUnlimitedInitCodeSize = false then
    pure (⟨message.to, .failed .INITCODE_SIZE_VIOLATION message.gasLimit⟩, message)
  else
    let code := message.data
    let message := { message with code := some (.bytes code), data := [] }
    let toAddress ← generateAddress evm message
    if evm.common.isActivatedEIP 6780 = true ∧ message.createdAddresses = none then
      .throw (.error "TypeError: Cannot read properties of undefined (reading 'add')")
    else
      let message := atAddress evm message toAddress
      let toAccount ← EvmState.getAccount toAddress
      let toAccount := toAccount.getD .new
      if isCollision toAccount = true then
        pure (⟨some toAddress, .failed .CREATE_COLLISION message.gasLimit⟩, message)
      else
        let errorMessage ← createAccount evm message toAddress toAccount
        if code = [] ∨ errorMessage.isSome = true then
          pure (⟨some toAddress, exitEarly message (errorMessage.map caughtError)⟩, message)
        else runInitCode evm runCall fuel message code toAddress

def executeMessage (message : Message) : Call (EVMResult × Message) :=
  match message.to with
  | some toAddress => executeCall evm runCall fuel message toAddress
  | none => executeCreate evm runCall fuel message

/-- A frame that failed gives no refund and destructs nothing. -/
def forfeit (result : ExecResult) : ExecResult :=
  match result.exceptionError with
  | none => result
  | some e =>
    if e = .CODESTORE_OUT_OF_GAS then result
    else { result with
      selfdestruct := some .empty
      createdAddresses := some .empty
      gasRefund := some 0 }

/-- The state is kept, unless there is an error other than the one that Chainstart dismisses. -/
def closeMessage (result : EVMResult) : Call EVMResult := do
  let execResult := forfeit result.execResult
  if execResult.exceptionError.isSome = true ∧ ¬(evm.common.hardfork = .Chainstart ∧
      execResult.exceptionError = some .CODESTORE_OUT_OF_GAS) then
    EvmState.revert
    .when (evm.common.isActivatedEIP 1153 = true) (EvmState.onTransientStorage (·.revert))
    pure { result with execResult := { execResult with logs := some [] } }
  else
    EvmState.commit
    .when (evm.common.isActivatedEIP 1153 = true) (EvmState.onTransientStorage (·.commit))
    pure { result with execResult }

def bumped (account : Account) : Account := { account with nonce := account.nonce + 1 }

/-- The caller, where `runCall` has not read it yet. -/
def readCaller (callerAccount : Option Account) (message : Message) : Call Account :=
  match callerAccount with
  | some account => pure account
  | none => do
    let account ← EvmState.getAccount message.caller
    pure (account.getD .new)

def bumpNonce (callerAccount : Option Account) (message : Message) : Call Unit := do
  let account ← readCaller callerAccount message
  EvmState.putAccount message.caller (bumped account)

/-- What `runCall` does before its checkpoint: the nonce of a caller at depth 0, and the address of a create. -/
def openMessage (callerAccount : Option Account) (message : Message) : Call Message := do
  .when (message.depth = 0) (bumpNonce callerAccount message)
  if message.to = none ∧ evm.common.isActivatedEIP 2929 = true then
    let message := { message with code := some (.bytes message.data) }
    let address ← generateAddress evm message
    EvmState.addWarmedAddress address.bytes
    pure message
  else pure message

def checkpoint : Call Unit := do
  EvmState.checkpoint
  .when (evm.common.isActivatedEIP 1153 = true)
    (.modify fun s => { s with transientStorage := s.transientStorage.checkpoint })

/-- `runCall` once it has its message. -/
def runCallWith (callerAccount : Option Account) (message : Message) :
    Call (EVMResult × Message) := do
  let message ← openMessage evm callerAccount message
  checkpoint evm
  let (result, message) ← executeMessage evm runCall fuel message
  let result ← closeMessage evm result
  pure (result, message)

end Frame

/-- `runCall({ message })`. -/
def runMessage : Nat → RunMessage
  | 0, _ => .throw .outOfFuel
  | fuel + 1, message => runCallWith evm (runMessage fuel) fuel none message

/-- The options of `runCall` without a message. -/
structure RunCallOpts where
  caller : Option Address
  gasPrice : Option Int
  origin : Option Address
  value : Option Int
  skipBalance : Bool
  gasLimit : Option Int
  «to» : Option Address
  data : Option Bytes
  code : Option Bytes
  depth : Option Nat
  isCompiled : Bool
  isStatic : Bool
  salt : Option Bytes
  selfdestruct : Option (OrderedSet HexString)
  createdAddresses : Option (OrderedSet HexString)
  delegatecall : Bool
  blobVersionedHashes : List HexString

/-- `new Message({ .. })` of the options. -/
def RunCallOpts.message (opts : RunCallOpts) : Message where
  «to» := opts.to
  value := opts.value.getD 0
  caller := opts.caller.getD .zero
  gasLimit := opts.gasLimit.getD 0xffffff
  data := opts.data.getD []
  depth := opts.depth.getD 0
  code := opts.code.map .bytes
  ownCodeAddress := none
  isStatic := opts.isStatic
  isCompiled := opts.isCompiled
  salt := opts.salt
  selfdestruct := some (opts.selfdestruct.getD .empty)
  createdAddresses := some (opts.createdAddresses.getD .empty)
  delegatecall := opts.delegatecall
  gasRefund := 0
  blobVersionedHashes := opts.blobVersionedHashes

/-- The caller with enough balance for the value, where `skipBalance` asks for it. -/
def skipBalance (opts : RunCallOpts) : Call (Option Account) :=
  if opts.skipBalance = true then do
    let caller := opts.caller.getD .zero
    let value := opts.value.getD 0
    let callerAccount ← EvmState.getAccount caller
    let callerAccount := callerAccount.getD .new
    if callerAccount.balance < value then
      let callerAccount := { callerAccount with balance := value }
      EvmState.putAccount caller callerAccount
      pure (some callerAccount)
    else pure (some callerAccount)
  else pure none

/-- `runCall(opts)`, with a message or with options for one. -/
def runCall (fuel : Nat) : Message ⊕ RunCallOpts → Call (EVMResult × Message)
  | .inl message => runMessage evm (fuel + 1) message
  | .inr opts => do
    .modify fun s => { s with
      tx := some ⟨opts.gasPrice.getD 0, opts.origin.getD (opts.caller.getD .zero)⟩ }
    let callerAccount ← skipBalance opts
    if opts.message.value < 0 then
      .throw (.error ("value field cannot be negative, received " ++ toString opts.message.value))
    else runCallWith evm (runMessage evm fuel) fuel callerAccount opts.message

end EVM
