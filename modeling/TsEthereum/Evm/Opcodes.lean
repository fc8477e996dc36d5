-- SUMMARY: The opcodes that end a frame, write to the state, log or send messages, and the step of the interpreter.
import TsEthereum.Evm.Interpreter

/-!
# Opcodes

Of `functions.ts` and `gas.ts` the handlers that do more than change their run
state, and of `codes.ts` which opcodes there are on a hardfork. The gas that is
charged on top of a base fee is a parameter, the checks of static calls are not.
-/

structure Opcode where
  feeBigInt : Int
  dynamicGas : Bool
  isInvalid : Bool

namespace Opcode

/-- `opcodes`. -/
def base : List Nat :=
  List.range 0x0c ++ [0x10, 0x11, 0x12, 0x13, 0x14, 0x15, 0x16, 0x17, 0x18, 0x19, 0x1a, 0x20] ++
    (List.range 0x0d).map (0x30 + ·) ++ (List.range 6).map (0x40 + ·) ++
    (List.range 0x0c).map (0x50 + ·) ++ (List.range 0x45).map (0x60 + ·) ++
    [0xf0, 0xf1, 0xf2, 0xf3, 0xfe, 0xff]

/-- `hardforkOpcodes`: the codes that a hardfork adds. -/
def ofHardfork : List (Hardfork × List Nat) :=
  [(.Homestead, [0xf4]), (.Byzantium, [0xfd, 0xfa, 0x3d, 0x3e]),
    (.Constantinople, [0x1b, 0x1c, 0x1d, 0x3f, 0xf5]), (.Istanbul, [0x46, 0x47])]

/-- `eipOpcodes`, without the EIPs of EOF code. -/
def ofEip : List (Nat × List Nat) :=
  [(1153, [0x5c, 0x5d]), (3198, [0x48]), (3855, [0x5f]), (4844, [0x49]), (5656, [0x5e]),
    (7516, [0x4a]), (7939, [0x1e])]

def available (c : GlobalConfig) (op : Nat) : Bool :=
  base.contains op || ofHardfork.any (fun e => c.gteHardfork e.1 && e.2.contains op) ||
    ofEip.any (fun e => c.isActivatedEIP e.1 && e.2.contains op)

/-- The opcodes with a dynamic gas handler. -/
def dynamic : List Nat :=
  [0x0a, 0x20, 0x31, 0x37, 0x39, 0x3b, 0x3c, 0x3e, 0x3f, 0x51, 0x52, 0x53, 0x54, 0x55, 0x5e, 0xa0,
    0xa1, 0xa2, 0xa3, 0xa4, 0xf0, 0xf1, 0xf2, 0xf3, 0xf4, 0xf5, 0xfa, 0xfd, 0xff]

end Opcode

namespace EVM

variable (evm : EVM)

def lookupOpInfo (op : Nat) : Opcode :=
  if Opcode.available evm.common op ∧ op ≠ 0xfe then
    ⟨evm.feeBigInt op, Opcode.dynamic.contains op, false⟩
  else ⟨evm.feeBigInt 0xfe, false, true⟩

end EVM

namespace Interpreter

/-- A value on the stack as the bytes of a slot. -/
def slotKey (key : Int) : Bytes := setLengthLeft (bigIntToBytes key) 32

/-- The shortest spelling of a value, with none for zero. -/
def slotValue (val : Int) : Bytes := if val = 0 then [] else bigIntToBytes val

def ofLocal {α : Type} : Except LocalThrow α → Run α
  | .ok a => pure a
  | .error e => .throw e.toThrow

def warm : Warm → Run Unit
  | .address address => liftEvm (EvmState.addWarmedAddress address)
  | .slot address key => liftEvm (EvmState.onJournal (·.addWarmedStorage address key))

def warmAll : List Warm → Run Unit
  | [] => pure ()
  | w :: ws => do
    warm w
    warmAll ws

section Handlers

variable (evm : EVM) (runCall : RunMessage)

/-! ## Dynamic gas -/

/-- What `gas.ts` charges for the opcode. -/
def charge (op : Nat) (gas : Int) : Run Int := do
  let i ← .get
  let (charged, warmed, gas) := evm.dynamicGas op i.runState i.env i.evm gas
  onRunState fun r => { r with
    memoryWordCount := charged.memoryWordCount
    highestMemCost := charged.highestMemCost
    gasRefund := charged.gasRefund
    messageGasLimit := charged.messageGasLimit }
  warmAll warmed
  ofLocal gas

/-- The start of the handlers of SSTORE, LOG, CREATE, CREATE2 and SELFDESTRUCT. -/
def trapStatic : Run Unit := do
  let i ← .get
  .when (i.env.isStatic = true) (trap .STATIC_STATE_CHANGE)

def gasHandler (op : Nat) (gas : Int) : Run Int := do
  if op ∈ [0x55, 0xa0, 0xa1, 0xa2, 0xa3, 0xa4, 0xf0, 0xf5, 0xff] then
    trapStatic
    charge evm op gas
  else if op = 0xf1 then
    let args ← peek 7
    let i ← .get
    if i.env.isStatic = true ∧ args.getD 2 0 ≠ 0 then trap .STATIC_STATE_CHANGE
    else charge evm op gas
  else charge evm op gas

/-! ## Handlers -/

def localOp (op : Nat) : Run Unit := do
  let i ← .get
  let (local', outcome) := evm.handlers op i.runState i.env i.evm
  onRunState fun r => { r with
    programCounter := local'.programCounter
    stack := local'.stack
    memory := local'.memory }
  ofLocal outcome

def opSSTORE : Run Unit := do
  let args ← popN 2
  storageStore (slotKey (args.getD 0 0)) (slotValue (args.getD 1 0))

def opTSTORE : Run Unit := do
  trapStatic
  let args ← popN 2
  transientStorageStore (slotKey (args.getD 0 0)) (slotValue (args.getD 1 0))

def opLOG : Run Unit := do
  let i ← .get
  let args ← popN 2
  let topicsCount := i.runState.opCode - 0xa0
  let topics ← popN topicsCount
  let mem ← readMemory (args.getD 0 0) (args.getD 1 0)
  log mem topicsCount (topics.map slotKey)

/-- `runState.messageGasLimit!`, and the field is unset. -/
def takeGasLimit : Run Int := do
  let i ← .get
  onRunState ({ · with messageGasLimit := none })
  pure (i.runState.messageGasLimit.getD 0)

def addCallStipend (value gasLimit : Int) : Run Int :=
  if value ≠ 0 then do
    addStipend (evm.common.param "callStipendGas")
    pure (gasLimit + evm.common.param "callStipendGas")
  else pure gasLimit

/-- The end of CREATE and CREATE2, which differ in their salt. -/
def opCreate (value offset length : Int) (salt : Option Bytes) : Run Unit := do
  if evm.common.isActivatedEIP 3860 ∧ length > evm.common.param "maxInitCodeSize" ∧
      evm.allowUnlimitedInitCodeSize = false then
    trap .INITCODE_SIZE_VIOLATION
  else
    let gasLimit ← takeGasLimit
    let data ← readMemory offset length
    -- the magic of EOF code
    if data.take 2 = [0xef, 0x00] then push 0
    else
      let ret ← create evm runCall gasLimit value data salt
      push ret

def opCREATE : Run Unit := do
  let args ← popN 3
  opCreate evm runCall (args.getD 0 0) (args.getD 1 0) (args.getD 2 0) none

def opCREATE2 : Run Unit := do
  trapStatic
  let args ← popN 4
  opCreate evm runCall (args.getD 0 0) (args.getD 1 0) (args.getD 2 0)
    (some (slotKey (args.getD 3 0)))

def opCALL : Run Unit := do
  let args ← popN 7
  let value := args.getD 2 0
  let data ← readMemory (args.getD 3 0) (args.getD 4 0)
  let gasLimit ← takeGasLimit
  let gasLimit ← addCallStipend evm value gasLimit
  let ret ← call evm runCall gasLimit (Address.fromStackBigInt (args.getD 1 0)) value data
  writeCallOutput (args.getD 5 0) (args.getD 6 0)
  push ret

def opCALLCODE : Run Unit := do
  let args ← popN 7
  let value := args.getD 2 0
  let gasLimit ← takeGasLimit
  let gasLimit ← addCallStipend evm value gasLimit
  let data ← readMemory (args.getD 3 0) (args.getD 4 0)
  let ret ← callCode evm runCall gasLimit (Address.fromStackBigInt (args.getD 1 0)) value data
  writeCallOutput (args.getD 5 0) (args.getD 6 0)
  push ret

def opDELEGATECALL : Run Unit := do
  let i ← .get
  let args ← popN 6
  let data ← readMemory (args.getD 2 0) (args.getD 3 0)
  let gasLimit ← takeGasLimit
  let ret ← callDelegate evm runCall gasLimit (Address.fromStackBigInt (args.getD 1 0))
    i.env.callValue data
  writeCallOutput (args.getD 4 0) (args.getD 5 0)
  push ret

def opSTATICCALL : Run Unit := do
  let args ← popN 6
  let gasLimit ← takeGasLimit
  let data ← readMemory (args.getD 2 0) (args.getD 3 0)
  let ret ← callStatic evm runCall gasLimit (Address.fromStackBigInt (args.getD 1 0)) 0 data
  writeCallOutput (args.getD 4 0) (args.getD 5 0)
  push ret

def opRETURN : Run Unit := do
  let args ← popN 2
  let returnData ← readMemory (args.getD 0 0) (args.getD 1 0)
  finish returnData

def opREVERT : Run Unit := do
  let args ← popN 2
  let returnData ← readMemory (args.getD 0 0) (args.getD 1 0)
  revert returnData

def opSELFDESTRUCT : Run Unit := do
  let args ← popN 1
  selfDestruct evm (Address.fromStackBigInt (args.getD 0 0))

def opHandler : Nat → Run Unit
  | 0x00 => trap .STOP
  | 0x55 => opSSTORE
  | 0x5d => opTSTORE
  | 0xa0 | 0xa1 | 0xa2 | 0xa3 | 0xa4 => opLOG
  | 0xf0 => opCREATE evm runCall
  | 0xf1 => opCALL evm runCall
  | 0xf2 => opCALLCODE evm runCall
  | 0xf3 => opRETURN
  | 0xf4 => opDELEGATECALL evm runCall
  | 0xf5 => opCREATE2 evm runCall
  | 0xfa => opSTATICCALL evm runCall
  | 0xfd => opREVERT
  | 0xff => opSELFDESTRUCT evm
  | op => localOp evm op

/-! ## The loop -/

/-- The base fee, and what the gas handler makes of it. -/
def opGas (op : Nat) (opInfo : Opcode) : Run Int :=
  if opInfo.dynamicGas = true then gasHandler evm op opInfo.feeBigInt else pure opInfo.feeBigInt

def runStep : Run Unit := do
  let i ← .get
  let op := i.runState.opCode
  let opInfo := evm.lookupOpInfo op
  let gas ← opGas evm op opInfo
  if opInfo.isInvalid = true then trap .INVALID_OPCODE
  else
    useGas gas
    onRunState fun r => { r with programCounter := r.programCounter + 1 }
    opHandler evm runCall op

/-- The loop of `run`, and the error that ends it. -/
def loop : Nat → Run (Option EVMErrorMessage)
  | 0 => .throw .outOfFuel
  | fuel + 1 => do
    let i ← .get
    match i.runState.code[i.runState.programCounter]? with
    | none => pure none
    | some opCode =>
      onRunState ({ · with opCode := opCode.toNat })
      match ← Program.attempt (runStep evm runCall) with
      | .ok () => loop fuel
      | .error (.evmError .STOP) => pure none
      | .error (.evmError e) => pure (some e)
      -- what is no error of the EVM is thrown on
      | .error e => .throw e

end Handlers

end Interpreter
