-- SUMMARY: Jump analysis: the tables of opcodes, pushes and jump destinations, and the loop that reads them.
import TsEthereum.Base.InstructionStream
import TsEthereum.Base.Rounds
import TsEthereum.Evm.Opcodes
import Mathlib.Logic.Function.Basic

/-!
# Jump analysis

Until the first jump `run` looks at the bytes of the code. Then it fills tables
once, and takes opcodes, push data and jump destinations from there. `decoding`
is the interpreter that always looks at the bytes.

What the other opcodes do to the run state is a parameter. They do not set the
program counter, and none but PUSH, JUMP and JUMPI reads the tables.
-/

structure OpcodeMapEntry where
  code : Nat
  opcodeInfo : Opcode

/-- The entry of `_opcodeMap`: the one of INVALID where there is no such opcode. -/
def EVM.opcodeEntry (evm : EVM) (op : Nat) : OpcodeMapEntry :=
  if Opcode.available evm.common op then ⟨op, evm.lookupOpInfo op⟩
  else ⟨0xfe, evm.lookupOpInfo 0xfe⟩

/-- The fields that jump analysis fills. -/
structure JumpTables where
  shouldDoJumpAnalysis : Bool
  validJumps : List UInt8
  cachedPushes : Nat → Option Int
  cachedOpcodes : List (Option OpcodeMapEntry)

namespace JumpTables

def fresh : JumpTables := ⟨true, [], fun _ => none, []⟩

/-- The body of the loop at `i`, and `i` as it leaves it. -/
def visit (evm : EVM) (code : Bytes) (i : Nat) (opcode : UInt8) (t : JumpTables) :
    JumpTables × Nat :=
  let t := { t with cachedOpcodes := t.cachedOpcodes.set i (some (evm.opcodeEntry opcode.toNat)) }
  if opcode ≤ 0x7f then
    if opcode ≥ 0x60 then
      let bytesToPush := opcode.toNat - 0x5f
      let pushBytes := (code.drop (i + 1)).take bytesToPush
      let pushBytes := if pushBytes.length < bytesToPush then setLengthRight pushBytes bytesToPush
        else pushBytes
      ({ t with
        cachedPushes := Function.update t.cachedPushes (i + 1) (some (bytesToBigInt pushBytes)) },
        i + bytesToPush)
    else if opcode = 0x5b then ({ t with validJumps := t.validJumps.set i 1 }, i)
    else (t, i)
  else (t, i)

def scan (evm : EVM) (code : Bytes) : Nat → Nat → JumpTables → JumpTables
  | 0, _, t => t
  | fuel + 1, i, t =>
    match code[i]? with
    | none => t
    | some opcode =>
      let (t, i) := visit evm code i opcode t
      scan evm code fuel (i + 1) t

/-- `_getValidJumpDestinations`, as it is stored. -/
def getValidJumpDestinations (evm : EVM) (code : Bytes) : JumpTables :=
  scan evm code code.length 0
    ⟨false, List.replicate code.length 0, fun _ => none, List.replicate code.length none⟩

def jumpIsValid (t : JumpTables) (dest : Nat) : Bool := t.validJumps[dest]? = some 1

end JumpTables

/-! ## Handlers -/

/-- The number of bytes that an opcode pushes. -/
def pushSize (opcode : UInt8) : Nat :=
  if 0x60 ≤ opcode ∧ opcode ≤ 0x7f then opcode.toNat - 0x5f else 0

/-- There is an instruction JUMPDEST. -/
def isDestination (code : Bytes) (dest : Nat) : Bool :=
  code[dest]? = some 0x5b ∧ (InstructionStream.marks pushSize 0 code)[dest]? = some true

/-- A handler that does not set the program counter. -/
abbrev StackHandler := RunState → Env → EvmState → (List Int × Memory) × Except LocalThrow Unit

section Handlers

variable (keccak256 : Bytes → Bytes)

def StackHandler.local (handler : StackHandler) : LocalHandler := fun r env s =>
  let (left, outcome) := handler r env s
  (⟨r.programCounter, left.1, left.2⟩, outcome)

def describeLocation (r : RunState) (env : Env) : String :=
  String.ofList (bytesToHex (keccak256 env.code)) ++ "/" ++
    String.ofList env.address.toString ++ ":" ++ toString ((r.programCounter : Int) - 1)

/-- The end of JUMP and JUMPI. -/
def jumpTo (jumpIsValid : Nat → Bool) (dest : Int) (stack : List Int) (r : RunState) (env : Env) :
    LocalState × Except LocalThrow Unit :=
  let left : LocalState := ⟨r.programCounter, stack, r.memory⟩
  if dest > env.code.length then
    (left, .error (.trap ⟨.INVALID_JUMP (describeLocation keccak256 r env), nofun⟩))
  else if jumpIsValid dest.toNat = false then
    (left, .error (.trap ⟨.INVALID_JUMP (describeLocation keccak256 r env), nofun⟩))
  else ({ left with programCounter := dest.toNat }, .ok ())

def opJUMP (jumpIsValid : Nat → Bool) : LocalHandler := fun r env _ =>
  match r.stack with
  | dest :: stack => jumpTo keccak256 jumpIsValid dest stack r env
  | [] => (⟨r.programCounter, r.stack, r.memory⟩, .error (.trap ⟨.STACK_UNDERFLOW, nofun⟩))

def opJUMPI (jumpIsValid : Nat → Bool) : LocalHandler := fun r env _ =>
  match r.stack with
  | dest :: cond :: stack =>
    if cond ≠ 0 then jumpTo keccak256 jumpIsValid dest stack r env
    else (⟨r.programCounter, stack, r.memory⟩, .ok ())
  | _ => (⟨r.programCounter, r.stack, r.memory⟩, .error (.trap ⟨.STACK_UNDERFLOW, nofun⟩))

/-- The handler of `0x60` to `0x7f`. -/
def opPUSH (t : JumpTables) : LocalHandler := fun r _ _ =>
  let numToPush := r.opCode - 0x5f
  if t.shouldDoJumpAnalysis = false then
    match t.cachedPushes r.programCounter with
    -- behind a PUSH that is in the table of opcodes there is always a value
    | none => (⟨r.programCounter, r.stack, r.memory⟩, .error (.error "undefined"))
    | some value =>
      if r.stack.length ≥ 1024 then
        (⟨r.programCounter, r.stack, r.memory⟩, .error (.trap ⟨.STACK_OVERFLOW, nofun⟩))
      else (⟨r.programCounter + numToPush, value :: r.stack, r.memory⟩, .ok ())
  else
    let loadedBytes := (r.code.drop r.programCounter).take numToPush
    let loadedBytes := if loadedBytes.length < numToPush then setLengthRight loadedBytes numToPush
      else loadedBytes
    let programCounter := r.programCounter + numToPush
    if r.stack.length ≥ 1024 then
      (⟨programCounter, r.stack, r.memory⟩, .error (.trap ⟨.STACK_OVERFLOW, nofun⟩))
    else (⟨programCounter, bytesToBigInt loadedBytes :: r.stack, r.memory⟩, .ok ())

/-- The handlers of opcodes that change their run state only. -/
def localHandlers (other : Nat → StackHandler) (jumpIsValid : RunState → Nat → Bool)
    (t : JumpTables) (op : Nat) : LocalHandler :=
  if op = 0x56 then fun r => opJUMP keccak256 (jumpIsValid r) r
  else if op = 0x57 then fun r => opJUMPI keccak256 (jumpIsValid r) r
  else if 0x60 ≤ op ∧ op ≤ 0x7f then opPUSH t
  else (other op).local

end Handlers

namespace EVM

variable (evm : EVM) (other : Nat → StackHandler)

/-- The handlers that see the tables. -/
def withTables (t : JumpTables) : EVM :=
  { evm with handlers := localHandlers evm.keccak256 other (fun _ => t.jumpIsValid) t }

/-- The handlers that look at the bytes of the code. -/
def decoding : EVM :=
  { evm with
    handlers := localHandlers evm.keccak256 other (fun r => isDestination r.code) .fresh }

end EVM

/-! ## The loop with the tables -/

/-- Whether the loop goes on after a step, and the error that ends it if it does not. -/
def stepResult : Except Throw Unit → Except Throw (Option (Option EVMErrorMessage))
  | .ok () => .ok none
  | .error (.evmError .STOP) => .ok (some none)
  | .error (.evmError e) => .ok (some (some e))
  | .error e => .error e

structure CachedInterpreter where
  interpreter : Interpreter
  tables : JumpTables

/-- A program of the interpreter with its tables. -/
abbrev CachedRun (α : Type) := Program Throw CachedInterpreter α

/-- `runStep` from the entry on. -/
def Interpreter.execute (evm : EVM) (runCall : RunMessage) (opEntry : OpcodeMapEntry) : Run Unit := do
  let gas ← opGas evm opEntry.code opEntry.opcodeInfo
  if opEntry.opcodeInfo.isInvalid = true then trap .INVALID_OPCODE
  else
    useGas gas
    onRunState fun r => { r with programCounter := r.programCounter + 1 }
    opHandler evm runCall opEntry.code

namespace CachedInterpreter

def lift {α : Type} (p : Run α) : CachedRun α :=
  .onPart interpreter (fun interpreter c => { c with interpreter }) p

variable (evm : EVM) (other : Nat → StackHandler) (runCall : RunMessage)

/-- The opcode at the program counter, with its entry where the tables are in use. -/
def fetch (byte : UInt8) : CachedRun (Nat × Option OpcodeMapEntry) := do
  let c ← .get
  if c.tables.shouldDoJumpAnalysis = true then
    .when (byte = 0x56 ∨ byte = 0x57 ∨ byte = 0x5e)
      (.modify fun c => { c with
        tables := .getValidJumpDestinations evm c.interpreter.runState.code })
    pure (byte.toNat, none)
  else
    match c.tables.cachedOpcodes[c.interpreter.runState.programCounter]?.join with
    | none => .throw (.error "TypeError: Cannot read properties of undefined (reading 'opcodeInfo')")
    | some entry => pure (entry.code, some entry)

/-- `runStep`, whose handlers see the tables. -/
def runStep (opcodeObj : Option OpcodeMapEntry) : CachedRun Unit := do
  let c ← .get
  let opEntry := opcodeObj.getD (evm.opcodeEntry c.interpreter.runState.opCode)
  lift (Interpreter.execute (evm.withTables other c.tables) runCall opEntry)

/-- One round of the loop of `run`, and the error that ends it if it does. -/
def round : CachedRun (Option (Option EVMErrorMessage)) := do
  let c ← .get
  match c.interpreter.runState.code[c.interpreter.runState.programCounter]? with
  | none => pure (some none)
  | some byte =>
    let (opCode, opCodeObj) ← fetch evm byte
    lift (Interpreter.onRunState ({ · with opCode }))
    let outcome ← Program.attempt (runStep evm other runCall opCodeObj)
    .ofExcept (stepResult outcome)

end CachedInterpreter

namespace Interpreter

variable (evm : EVM) (runCall : RunMessage)

/-- One round of `loop`. -/
def round : Run (Option (Option EVMErrorMessage)) := do
  let i ← .get
  match i.runState.code[i.runState.programCounter]? with
  | none => pure (some none)
  | some opCode =>
    onRunState ({ · with opCode := opCode.toNat })
    let outcome ← Program.attempt (runStep evm runCall)
    .ofExcept (stepResult outcome)

end Interpreter
