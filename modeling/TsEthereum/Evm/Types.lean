-- SUMMARY: Messages, results and errors of the EVM, and the state that its calls share.
import TsEthereum.Base.Program
import TsEthereum.ChainConfig.GlobalConfig
import TsEthereum.Evm.TransientStorage
import TsEthereum.StateManager.SimpleStateManager

/-!
# Types of the EVM

`message.ts`, `errors.ts` and `types.ts`, and the fields of `evm.ts`. EOF code and
the access witnesses of binary trees need EIPs that no hardfork activates, and
custom opcodes are not modelled.
-/

inductive EVMErrorMessage where
  | OUT_OF_GAS
  | CODESTORE_OUT_OF_GAS
  | CODESIZE_EXCEEDS_MAXIMUM
  | STACK_UNDERFLOW
  | STACK_OVERFLOW
  /-- With the place of the jump. -/
  | INVALID_JUMP (location : String)
  | INVALID_OPCODE
  | OUT_OF_RANGE
  | REVERT
  | STATIC_STATE_CHANGE
  | INTERNAL_ERROR
  | CREATE_COLLISION
  | STOP
  | REFUND_EXHAUSTED
  | VALUE_OVERFLOW
  | INSUFFICIENT_BALANCE
  | INVALID_BYTECODE_RESULT
  | INITCODE_SIZE_VIOLATION
  | INVALID_INPUT_LENGTH
  | INVALID_EOF_FORMAT
  | BLS_12_381_POINT_NOT_ON_CURVE
  | BLS_12_381_INPUT_EMPTY
  | FP_NOT_IN_FIELD
  | INVALID_COMMITMENT
  | INVALID_INPUTS
  | INVALID_PROOF
  deriving DecidableEq, Repr

/-- What a program can throw. -/
inductive Throw where
  | evmError (error : EVMErrorMessage)
  /-- Any other JavaScript error. -/
  | error (message : String)
  /-- The model's bound on the length of a run is used up. -/
  | outOfFuel
  deriving DecidableEq, Repr

/-- The errors of opcodes and precompiles. Only `_executeCreate` gives the one that is left out. -/
abbrev Trap := {error : EVMErrorMessage // error ≠ .CODESTORE_OUT_OF_GAS}

structure Log where
  address : Bytes
  topics : List Bytes
  data : Bytes
  deriving DecidableEq, Repr

/-- `Uint8Array | PrecompileFunc`, a precompile by the spelling of its address. -/
inductive Code where
  | bytes (code : Bytes)
  | precompile (address : HexString)
  deriving DecidableEq, Repr

structure Message where
  «to» : Option Address
  value : Int
  caller : Address
  gasLimit : Int
  data : Bytes
  depth : Nat
  code : Option Code
  /-- `_codeAddress`. -/
  ownCodeAddress : Option Address
  isStatic : Bool
  isCompiled : Bool
  salt : Option Bytes
  selfdestruct : Option (OrderedSet HexString)
  createdAddresses : Option (OrderedSet HexString)
  delegatecall : Bool
  /-- The refund at the start of the frame. -/
  gasRefund : Int
  blobVersionedHashes : List HexString

/-- `new Message({ gasLimit })`. -/
def Message.new (gasLimit : Int) : Message where
  «to» := none
  value := 0
  caller := .zero
  gasLimit
  data := []
  depth := 0
  code := none
  ownCodeAddress := none
  isStatic := false
  isCompiled := false
  salt := none
  selfdestruct := none
  createdAddresses := none
  delegatecall := false
  gasRefund := 0
  blobVersionedHashes := []

structure ExecResult where
  executionGasUsed : Int
  exceptionError : Option EVMErrorMessage
  returnValue : Bytes
  logs : Option (List Log)
  selfdestruct : Option (OrderedSet HexString)
  createdAddresses : Option (OrderedSet HexString)
  gasRefund : Option Int

/-- A result with an error and nothing else. -/
def ExecResult.failed (error : EVMErrorMessage) (gasUsed : Int) : ExecResult where
  executionGasUsed := gasUsed
  exceptionError := some error
  returnValue := []
  logs := none
  selfdestruct := none
  createdAddresses := none
  gasRefund := none

def OOGResult (gasLimit : Int) : ExecResult := .failed .OUT_OF_GAS gasLimit
def COOGResult (gasUsedCreateCode : Int) : ExecResult := .failed .CODESTORE_OUT_OF_GAS gasUsedCreateCode
def INVALID_BYTECODE_RESULT (gasLimit : Int) : ExecResult := .failed .INVALID_BYTECODE_RESULT gasLimit
def CodesizeExceedsMaximumError (gasUsed : Int) : ExecResult := .failed .CODESIZE_EXCEEDS_MAXIMUM gasUsed

/-- `{ ...result, ...failure }`: the failures above have these three fields. -/
def ExecResult.overwrite (result failure : ExecResult) : ExecResult :=
  { result with
    executionGasUsed := failure.executionGasUsed
    exceptionError := failure.exceptionError
    returnValue := failure.returnValue }

structure EVMResult where
  createdAddress : Option Address
  execResult : ExecResult

/-- What a precompile gives back. -/
structure PrecompileResult where
  returnValue : Bytes
  executionGasUsed : Int
  exceptionError : Option Trap

/-- `_tx`. -/
structure TxContext where
  gasPrice : Int
  origin : Address

/-- The fields of the EVM that a call changes. -/
structure EvmState where
  journal : Journal SimpleStateManager
  transientStorage : TransientStorage
  tx : Option TxContext

namespace EvmState

def stateManager (s : EvmState) : SimpleStateManager := s.journal.stateManager

/-- `this.journal.f(..)`. -/
def onJournal {α : Type}
    (f : Journal SimpleStateManager → Except String α × Journal SimpleStateManager) :
    Program Throw EvmState α := fun s =>
  match f s.journal with
  | (.ok a, journal) => (.ok a, { s with journal })
  | (.error e, journal) => (.error (.error e), { s with journal })

/-- `this.stateManager.f(..)`. -/
def onStateManager {α : Type} (f : SimpleStateManager → Except String α × SimpleStateManager) :
    Program Throw EvmState α := fun s =>
  match f s.journal.stateManager with
  | (.ok a, stateManager) => (.ok a, { s with journal := { s.journal with stateManager } })
  | (.error e, stateManager) =>
    (.error (.error e), { s with journal := { s.journal with stateManager } })

/-- `this.transientStorage.f(..)`. -/
def onTransientStorage {α : Type} (f : TransientStorage → Except String α × TransientStorage) :
    Program Throw EvmState α := fun s =>
  match f s.transientStorage with
  | (.ok a, transientStorage) => (.ok a, { s with transientStorage })
  | (.error e, transientStorage) => (.error (.error e), { s with transientStorage })

def getAccount (address : Address) : Program Throw EvmState (Option Account) :=
  onStateManager fun s => (s.getAccount address, s)

def getCode (address : Address) : Program Throw EvmState Bytes :=
  onStateManager fun s => (s.getCode address, s)

def putAccount (address : Address) (account : Account) : Program Throw EvmState Unit :=
  onJournal (·.putAccount SimpleStateManager.interface address (some account))

def deleteAccount (address : Address) : Program Throw EvmState Unit :=
  onJournal (·.deleteAccount SimpleStateManager.interface address)

def checkpoint : Program Throw EvmState Unit :=
  onJournal (·.checkpoint SimpleStateManager.interface)

def commit : Program Throw EvmState Unit := onJournal (·.commit SimpleStateManager.interface)

def revert : Program Throw EvmState Unit := onJournal (·.revert SimpleStateManager.interface)

def addWarmedAddress (address : Bytes) : Program Throw EvmState Unit :=
  .modify fun s => { s with journal := s.journal.addWarmedAddress address }

def addAlwaysWarmAddress (address : HexString) : Program Throw EvmState Unit :=
  .modify fun s => { s with journal := s.journal.addAlwaysWarmAddress address false }

end EvmState
