-- SUMMARY: The interpreter of one frame: its run state and the operations that opcodes use.
import TsEthereum.Evm.Types

/-!
# Interpreter

`interpreter.ts` without its loop. What an opcode does to nothing but the run
state, and what the dynamic gas handlers charge, are parameters: they may read
everything, and make addresses and slots warm.
-/

/-- The memory. It reads as zero where nothing was written. -/
abbrev Memory := Bytes

namespace Memory

def read (memory : Memory) (offset size : Nat) : Bytes :=
  setLengthRight ((memory.drop offset).take size) size

def write (memory : Memory) (offset : Nat) (value : Bytes) : Memory :=
  setLengthRight memory offset ++ value ++ memory.drop (offset + value.length)

end Memory

structure RunState where
  programCounter : Nat
  opCode : Nat
  memory : Memory
  memoryWordCount : Int
  highestMemCost : Int
  /-- The top first. -/
  stack : List Int
  code : Bytes
  gasRefund : Int
  gasLeft : Int
  returnBytes : Bytes
  messageGasLimit : Option Int

structure Env where
  address : Address
  caller : Address
  callData : Bytes
  callValue : Int
  code : Bytes
  isStatic : Bool
  isCreate : Bool
  depth : Nat
  gasPrice : Int
  origin : Address
  /-- The account at `address`, as it was read last. -/
  contract : Account
  blobVersionedHashes : List HexString

/-- `createdAddresses` is the set that `env.createdAddresses` is, too. -/
structure RunResult where
  logs : List Log
  returnValue : Option Bytes
  selfdestruct : OrderedSet HexString
  createdAddresses : Option (OrderedSet HexString)

structure Interpreter where
  runState : RunState
  env : Env
  result : RunResult
  evm : EvmState

/-- What a handler can throw by itself. -/
inductive LocalThrow where
  | trap (error : Trap)
  | error (message : String)

def LocalThrow.toThrow : LocalThrow → Throw
  | .trap e => .evmError e
  | .error message => .error message

inductive Warm where
  | address (address : Bytes)
  | slot (address key : Bytes)

/-- The part of the run state that opcodes other than those of `Opcodes` change. -/
structure LocalState where
  programCounter : Nat
  stack : List Int
  memory : Memory

/-- An opcode that changes its run state only. -/
abbrev LocalHandler := RunState → Env → EvmState → LocalState × Except LocalThrow Unit

/-- The part of the run state that a gas handler changes. -/
structure Charged where
  memoryWordCount : Int
  highestMemCost : Int
  gasRefund : Int
  messageGasLimit : Option Int

/-- What a gas handler makes of the base fee. -/
abbrev GasHandler :=
  RunState → Env → EvmState → Int → Charged × List Warm × Except LocalThrow Int

abbrev PrecompileFunc := Bytes → Int → Except String PrecompileResult

/-- The fields of the EVM that no call changes. -/
structure EVM where
  common : GlobalConfig
  keccak256 : Bytes → Bytes
  allowUnlimitedContractSize : Bool
  allowUnlimitedInitCodeSize : Bool
  /-- Clique consensus without a `cliqueSigner`. -/
  missingCliqueSigner : Bool
  precompiles : HexString → Option PrecompileFunc
  feeBigInt : Nat → Int
  handlers : Nat → LocalHandler
  dynamicGas : Nat → GasHandler

/-- A program of the interpreter. -/
abbrev Run (α : Type) := Program Throw Interpreter α

/-- A call of the EVM. -/
abbrev Call (α : Type) := Program Throw EvmState α

/-- What `runCall({ message })` is to the interpreter: the result, and the message as the run leaves it. -/
abbrev RunMessage := Message → Call (EVMResult × Message)

namespace Interpreter

def liftEvm {α : Type} (p : Call α) : Run α :=
  .onPart Interpreter.evm (fun evm i => { i with evm }) p

def trap {α : Type} (error : EVMErrorMessage) : Run α := .throw (.evmError error)

def onRunState (f : RunState → RunState) : Run Unit :=
  .modify fun i => { i with runState := f i.runState }

def onResult (f : RunResult → RunResult) : Run Unit :=
  .modify fun i => { i with result := f i.result }

def setContract (contract : Account) : Run Unit :=
  .modify fun i => { i with env := { i.env with contract } }

def setReturnBytes (returnBytes : Bytes) : Run Unit := onRunState ({ · with returnBytes })

/-! ## Gas -/

def useGas (amount : Int) : Run Unit := do
  onRunState fun r => { r with gasLeft := r.gasLeft - amount }
  let i ← .get
  .when (i.runState.gasLeft < 0) do
    onRunState ({ · with gasLeft := 0 })
    trap .OUT_OF_GAS

def refundGas (amount : Int) : Run Unit :=
  onRunState fun r => { r with gasRefund := r.gasRefund + amount }

def addStipend (amount : Int) : Run Unit :=
  onRunState fun r => { r with gasLeft := r.gasLeft + amount }

/-! ## Stack -/

def push (value : Int) : Run Unit := do
  let i ← .get
  if i.runState.stack.length ≥ 1024 then trap .STACK_OVERFLOW
  else onRunState fun r => { r with stack := value :: r.stack }

/-- The items of the stack that `popN` and `peek` give, the top first. -/
def peek (num : Nat) : Run (List Int) := do
  let i ← .get
  if i.runState.stack.length < num then trap .STACK_UNDERFLOW
  else pure (i.runState.stack.take num)

def popN (num : Nat) : Run (List Int) := do
  let items ← peek num
  onRunState fun r => { r with stack := r.stack.drop num }
  pure items

def readMemory (offset length : Int) : Run Bytes := do
  let i ← .get
  pure (if length = 0 then [] else i.runState.memory.read offset.toNat length.toNat)

def writeCallOutput (outOffset outLength : Int) : Run Unit :=
  onRunState fun r =>
    if r.returnBytes.length > 0 then
      let data := r.returnBytes.take outLength.toNat
      if data = [] then r else { r with memory := r.memory.write outOffset.toNat data }
    else r

/-! ## State -/

def storageStore (key value : Bytes) : Run Unit := do
  let i ← .get
  liftEvm (EvmState.onStateManager (·.putStorage i.env.address key value))
  match ← liftEvm (EvmState.getAccount i.env.address) with
  | none => .throw (.error "could not read account while persisting memory")
  | some account => setContract account

def transientStorageStore (key value : Bytes) : Run Unit := do
  let i ← .get
  liftEvm (EvmState.onTransientStorage (·.put i.env.address key value))

def finish (returnData : Bytes) : Run Unit := do
  onResult ({ · with returnValue := some returnData })
  trap .STOP

def revert (returnData : Bytes) : Run Unit := do
  onResult ({ · with returnValue := some returnData })
  trap .REVERT

def log (data : Bytes) (numberOfTopics : Nat) (topics : List Bytes) : Run Unit := do
  if numberOfTopics > 4 then trap .OUT_OF_RANGE
  else if topics.length ≠ numberOfTopics then trap .INTERNAL_ERROR
  else
    let i ← .get
    onResult fun r => { r with logs := r.logs ++ [⟨i.env.address.bytes, topics, data⟩] }

/-! ## Messages -/

section Messages

variable (evm : EVM) (runCall : RunMessage)

def getReturnCode (results : EVMResult) : Int :=
  if results.execResult.exceptionError.isSome then 0 else 1

/-- What a successful message adds to the sets of this frame. -/
def mergeSets (msg : Message) : Run Unit := do
  onResult fun r => { r with
    selfdestruct := (msg.selfdestruct.getD .empty).keys.foldl OrderedMap.add r.selfdestruct }
  .when (evm.common.isActivatedEIP 6780 = true) do
    let created := (msg.createdAddresses.getD .empty).keys
    let i ← .get
    match i.result.createdAddresses with
    | some set => onResult ({ · with createdAddresses := some (created.foldl OrderedMap.add set) })
    | none =>
      if created = [] then pure ()
      else .throw (.error "TypeError: Cannot read properties of undefined (reading 'add')")

/-- The account that the frame works on, read again, and the refund that the message leaves. -/
def refresh (results : EVMResult) : Run Unit := do
  let i ← .get
  match ← liftEvm (EvmState.getAccount i.env.address) with
  | none => .throw (.error "could not read contract account")
  | some account =>
    setContract account
    onRunState ({ · with gasRefund := results.execResult.gasRefund.getD 0 })

/-- The sets of this frame, as a message starts with them. -/
def withSets (i : Interpreter) (msg : Message) : Message :=
  { msg with
    selfdestruct := some i.result.selfdestruct
    gasRefund := i.runState.gasRefund
    createdAddresses :=
      if evm.common.isActivatedEIP 6780 then some (i.result.createdAddresses.getD .empty)
      else msg.createdAddresses }

def addLogs (results : EVMResult) : Run Unit :=
  onResult fun r => { r with logs := r.logs ++ results.execResult.logs.getD [] }

def baseCall (msg : Message) : Run Int := do
  setReturnBytes []
  let i ← .get
  let msg := withSets evm i msg
  -- enough ether, and the depth not exceeded
  if (i.env.depth : Int) ≥ evm.common.param "stackLimit" ∨
      (msg.delegatecall = false ∧ i.env.contract.balance < msg.value) then
    pure 0
  else
    let (results, msg) ← liftEvm (runCall msg)
    addLogs results
    useGas results.execResult.executionGasUsed
    .when (results.execResult.exceptionError = none ∨
        results.execResult.exceptionError = some .REVERT)
      (setReturnBytes results.execResult.returnValue)
    .when (results.execResult.exceptionError = none) do
      mergeSets evm msg
      refresh results
    pure (getReturnCode results)

/-- The check of the message's constructor. -/
def newMessage (msg : Message) : Run Message :=
  if msg.value < 0 then
    .throw (.error ("value field cannot be negative, received " ++ toString msg.value))
  else pure msg

def call (gasLimit : Int) (address : Address) (value : Int) (data : Bytes) : Run Int := do
  let i ← .get
  let msg ← newMessage { Message.new gasLimit with
    caller := i.env.address
    «to» := some address
    value
    data
    isStatic := i.env.isStatic
    depth := i.env.depth + 1
    blobVersionedHashes := i.env.blobVersionedHashes }
  baseCall evm runCall msg

def callCode (gasLimit : Int) (address : Address) (value : Int) (data : Bytes) : Run Int := do
  let i ← .get
  let msg ← newMessage { Message.new gasLimit with
    caller := i.env.address
    «to» := some i.env.address
    ownCodeAddress := some address
    value
    data
    isStatic := i.env.isStatic
    depth := i.env.depth + 1
    blobVersionedHashes := i.env.blobVersionedHashes }
  baseCall evm runCall msg

def callStatic (gasLimit : Int) (address : Address) (value : Int) (data : Bytes) : Run Int := do
  let i ← .get
  let msg ← newMessage { Message.new gasLimit with
    caller := i.env.address
    «to» := some address
    value
    data
    isStatic := true
    depth := i.env.depth + 1
    blobVersionedHashes := i.env.blobVersionedHashes }
  baseCall evm runCall msg

def callDelegate (gasLimit : Int) (address : Address) (value : Int) (data : Bytes) : Run Int := do
  let i ← .get
  let msg ← newMessage { Message.new gasLimit with
    caller := i.env.caller
    «to» := some i.env.address
    ownCodeAddress := some address
    value
    data
    isStatic := i.env.isStatic
    delegatecall := true
    depth := i.env.depth + 1
    blobVersionedHashes := i.env.blobVersionedHashes }
  baseCall evm runCall msg

/-- The part of `create` that follows the checks: the nonce is bumped before the message runs. -/
def createMessage (gasLimit value : Int) (codeToRun : Bytes) (salt : Option Bytes) : Run Int := do
  let i ← .get
  let msg ← newMessage { Message.new gasLimit with
    caller := i.env.address
    value
    data := codeToRun
    salt
    depth := i.env.depth + 1
    blobVersionedHashes := i.env.blobVersionedHashes }
  let (results, msg) ← liftEvm (runCall (withSets evm i msg))
  addLogs results
  useGas results.execResult.executionGasUsed
  .when (results.execResult.exceptionError = some .REVERT)
    (setReturnBytes results.execResult.returnValue)
  if results.execResult.exceptionError = none ∨
      results.execResult.exceptionError = some .CODESTORE_OUT_OF_GAS then
    mergeSets evm msg
    refresh results
    match results.createdAddress with
    | some address => pure (bytesToBigInt address.bytes)
    | none => pure (getReturnCode results)
  else
    pure (getReturnCode results)

def create (gasLimit value : Int) (codeToRun : Bytes) (salt : Option Bytes) : Run Int := do
  setReturnBytes []
  let i ← .get
  if (i.env.depth : Int) ≥ evm.common.param "stackLimit" ∨ i.env.contract.balance < value then
    pure 0
  else if i.env.contract.nonce ≥ MAX_UINT64 then pure 0
  else
    let contract := { i.env.contract with nonce := i.env.contract.nonce + 1 }
    setContract contract
    liftEvm (EvmState.putAccount i.env.address contract)
    if evm.common.isActivatedEIP 3860 ∧ (codeToRun.length : Int) > evm.common.param "maxInitCodeSize" ∧
        evm.allowUnlimitedInitCodeSize = false then
      pure 0
    else createMessage evm runCall gasLimit value codeToRun salt

end Messages

/-! ## Self-destructs -/

/-- Whether the balance is set to 0. With EIP-6780 an account that was not created here keeps what
it sends to itself. -/
def doModify (evm : EVM) (i : Interpreter) (toSelf : Bool) : Run Bool :=
  if evm.common.isActivatedEIP 6780 then
    match i.result.createdAddresses with
    | none => .throw (.error "TypeError: Cannot read properties of undefined (reading 'has')")
    | some created => pure (created.has i.env.address.toString || !toSelf)
  else pure true

def selfDestruct (evm : EVM) (toAddress : Address) : Run Unit := do
  let i ← .get
  let self := bytesToHex i.env.address.bytes
  .when (i.result.selfdestruct.has self = false)
    (refundGas (evm.common.param "selfdestructRefundGas"))
  onResult fun r => { r with selfdestruct := r.selfdestruct.add self }
  let toSelf : Bool := toAddress.bytes = i.env.address.bytes
  .when (toSelf = false) do
    let toAccount ← liftEvm (EvmState.getAccount toAddress)
    let toAccount := toAccount.getD .new
    liftEvm (EvmState.putAccount toAddress
      { toAccount with balance := toAccount.balance + i.env.contract.balance })
  let modify ← doModify evm i toSelf
  .when (modify = true) (liftEvm (EvmState.onStateManager
    (·.modifyAccountFields i.env.address ⟨none, some 0, none, none⟩)))
  trap .STOP

end Interpreter
