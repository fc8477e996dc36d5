-- SUMMARY: What SSTORE charges and refunds, and the cache of the values that slots had before the transaction.
import TsEthereum.Evm.Opcodes

/-!
# Gas of SSTORE

The handler of `gas.ts` with the rules of EIP-2200 and EIP-1283 and those before
them. A rule is a program over the refund counter of its frame. Whether a slot is
warm and how much gas is left are arguments.
-/

/-! ## Original values -/

structure OriginalStorageCache where
  map : OrderedMap HexString (OrderedMap HexString Bytes)

namespace OriginalStorageCache

def new : OriginalStorageCache := ⟨.empty⟩

/-- What is in the cache. -/
def lookup (c : OriginalStorageCache) (address : Address) (key : Bytes) : Option Bytes :=
  (c.map.get (bytesToUnprefixedHex address.bytes)).bind (·.get (bytesToUnprefixedHex key))

def put (c : OriginalStorageCache) (address : Address) (key value : Bytes) : OriginalStorageCache :=
  let addressHex := bytesToUnprefixedHex address.bytes
  let map := (c.map.get addressHex).getD .empty
  let keyHex := bytesToUnprefixedHex key
  ⟨c.map.set addressHex (if map.has keyHex then map else map.set keyHex value)⟩

/-- `get`, with the cache that it leaves. -/
def get (getStorage : Address → Bytes → Except String Bytes) (c : OriginalStorageCache)
    (address : Address) (key : Bytes) : Except String (Bytes × OriginalStorageCache) :=
  match c.lookup address key with
  | some value => .ok (value, c)
  | none => do
    let value ← getStorage address key
    .ok (value, c.put address key value)

end OriginalStorageCache

/-! ## Rules -/

/-- A program over `runState.gasRefund`. -/
abbrev Refunding (α : Type) := Program EVMErrorMessage Int α

def refundGas (amount : Int) : Refunding Unit := .modify (· + amount)

def subRefund (amount : Int) : Refunding Unit := do
  .modify (· - amount)
  let gasRefund ← .get
  .when (gasRefund < 0) do
    .modify fun _ => 0
    .throw .REFUND_EXHAUSTED

/-- No bytes for the value zero, else 32. -/
def setLengthLeftStorage (value : Bytes) : Bytes :=
  if value = List.replicate value.length 0 then [] else setLengthLeft value 32

section Rules

variable (common : GlobalConfig)

/-- What a slot that was not zero at first gives back and takes when it is cleared and filled. -/
def refundCleared (clearRefund : Int) (currentStorage originalStorage value : Bytes) : Refunding Unit :=
  .when (originalStorage ≠ []) do
    if currentStorage = [] then subRefund clearRefund
    else .when (value = []) (refundGas clearRefund)

/-- What a slot that gets its original value back gives. -/
def refundReset (initRefund cleanRefund : Int) (originalStorage value : Bytes) : Refunding Unit :=
  .when (originalStorage = value) do
    if originalStorage = [] then refundGas initRefund else refundGas cleanRefund

def updateSstoreGasEIP1283 (currentStorage originalStorage value : Bytes) : Refunding Int := do
  if currentStorage = value then pure (common.param "netSstoreNoopGas")
  else if originalStorage = currentStorage then do
    if originalStorage = [] then pure (common.param "netSstoreInitGas")
    else do
      .when (value = []) (refundGas (common.param "netSstoreClearRefundGas"))
      pure (common.param "netSstoreCleanGas")
  else do
    refundCleared (common.param "netSstoreClearRefundGas") currentStorage originalStorage value
    refundReset (common.param "netSstoreResetClearRefundGas")
      (common.param "netSstoreResetRefundGas") originalStorage value
    pure (common.param "netSstoreDirtyGas")

inductive SstoreCost where
  | noop
  | initRefund
  | cleanRefund

def adjustSstoreGasEIP2929 (warm : Bool) (defaultCost : Int) (costName : SstoreCost) : Int :=
  if common.isActivatedEIP 2929 = true ∧ warm = true then
    match costName with
    | .noop => common.param "warmstoragereadGas"
    | .initRefund => common.param "sstoreInitEIP2200Gas" - common.param "warmstoragereadGas"
    | .cleanRefund =>
      common.param "sstoreResetGas" - common.param "coldsloadGas" - common.param "warmstoragereadGas"
  else defaultCost

def updateSstoreGasEIP2200 (gasLeft : Int) (warm : Bool)
    (currentStorage originalStorage value : Bytes) : Refunding Int := do
  if gasLeft ≤ common.param "sstoreSentryEIP2200Gas" then .throw .OUT_OF_GAS
  else if currentStorage = value then
    pure (adjustSstoreGasEIP2929 common warm (common.param "sstoreNoopEIP2200Gas") .noop)
  else if originalStorage = currentStorage then do
    if originalStorage = [] then pure (common.param "sstoreInitEIP2200Gas")
    else do
      .when (value = []) (refundGas (common.param "sstoreClearRefundEIP2200Gas"))
      pure (common.param "sstoreCleanEIP2200Gas")
  else do
    refundCleared (common.param "sstoreClearRefundEIP2200Gas") currentStorage originalStorage value
    refundReset
      (adjustSstoreGasEIP2929 common warm (common.param "sstoreInitRefundEIP2200Gas") .initRefund)
      (adjustSstoreGasEIP2929 common warm (common.param "sstoreCleanRefundEIP2200Gas") .cleanRefund)
      originalStorage value
    pure (common.param "sstoreDirtyEIP2200Gas")

/-- The rule before Constantinople and on Petersburg. -/
def updateSstoreGas (currentStorage value : Bytes) : Refunding Int := do
  if value = [] ∧ currentStorage = [] ∨ value ≠ [] ∧ currentStorage ≠ [] then
    pure (common.param "sstoreResetGas")
  else if value = [] ∧ currentStorage ≠ [] then do
    refundGas (common.param "sstoreRefundGas")
    pure (common.param "sstoreResetGas")
  else pure (common.param "sstoreSetGas")

def accessStorageEIP2929 (warm : Bool) : Int :=
  if common.isActivatedEIP 2929 = true ∧ warm = false then common.param "coldsloadGas" else 0

/-- The gas handler of SSTORE from the values of the slot on. -/
def sstoreGas (gas gasLeft : Int) (warm : Bool) (currentStorage originalStorage value : Bytes) :
    Refunding Int := do
  let current := setLengthLeftStorage currentStorage
  let original := setLengthLeftStorage originalStorage
  let value := setLengthLeftStorage value
  let cost ←
    if common.hardfork = .Constantinople then updateSstoreGasEIP1283 common current original value
    else if common.gteHardfork .Istanbul then
      updateSstoreGasEIP2200 common gasLeft warm current original value
    else updateSstoreGas common current value
  pure (gas + cost + accessStorageEIP2929 common warm)

end Rules
