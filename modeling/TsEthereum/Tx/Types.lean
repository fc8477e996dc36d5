-- SUMMARY: The data that transactions are made of, their options, and the constructor that all of them share.
import TsEthereum.ChainConfig.GlobalConfig
import TsEthereum.Tx.Bytes

/-!
# Transaction data

`tx/src/types.ts` and `util/internal.ts`. The fields of the five types of transaction
data stand in one record. The caches of a transaction and the freezing of the object
change no result and are left out, and so is what `errorMsg` adds to a message.
-/

open Except (throwWhen)

namespace Tx

open Rlp (Item)

inductive TransactionType where
  | Legacy | AccessListEIP2930 | FeeMarketEIP1559 | BlobEIP4844 | EOACodeEIP7702
  deriving DecidableEq, Repr

/-- The first byte of a serialized transaction. -/
def TransactionType.byte : TransactionType → UInt8
  | Legacy => 0 | AccessListEIP2930 => 1 | FeeMarketEIP1559 => 2 | BlobEIP4844 => 3
  | EOACodeEIP7702 => 4

/-- `utils/src/blobs.ts` over the `customCrypto.kzg` object. -/
structure KZG where
  getBlobs : List Char → Except String (List BytesLike)
  blobsToCommitments : List BytesLike → Except String (List BytesLike)
  commitmentsToVersionedHashes : List BytesLike → Except String (List BytesLike)
  blobsToCellProofs : List BytesLike → Except String (List BytesLike)
  blobsToProofs : List BytesLike → List BytesLike → Except String (List BytesLike)

/-- The `GlobalConfig` of a transaction. -/
structure Common extends GlobalConfig where
  chainId_nonneg : 0 ≤ chainId
  kzg : Option KZG

/-- Parameter overrides by name. -/
abbrev ParamsConfig := String → Option Int

/-- The keys are EIP numbers, which no parameter is named by. -/
def paramsTx : ParamsConfig := fun _ => none

namespace Common

/-- `chainId()`. -/
def chainIdBigInt (common : Common) : Nat := common.chainId.toNat

def updateParams (common : Common) (overrides : ParamsConfig) : Common :=
  { common with param := fun name => (overrides name).getD (common.param name) }

end Common

/-- Where no `common` is given, it is `new GlobalConfig({ chain: Mainnet })`. -/
structure TxOptions where
  common : Common
  params : Option ParamsConfig
  allowUnlimitedInitCodeSize : Bool

/-- `getCommon(opts.common)` with the parameters of the options. -/
def TxOptions.updatedCommon (opts : TxOptions) : Common :=
  opts.common.updateParams (opts.params.getD paramsTx)

/-- An access list in the byte format or in the JSON format. -/
inductive AccessListLike where
  | bytes (x : Item)
  | json (items : List (HexString × List HexString))

/-- An item of an authorization list in the JSON format. -/
structure AuthorizationJSON where
  chainId : HexString
  address : HexString
  nonce : HexString
  yParity : HexString
  r : HexString
  s : HexString

inductive AuthorizationListLike where
  | bytes (x : Item)
  | json (items : List AuthorizationJSON)

/-- Versioned hashes as they are decoded, or an array of values. -/
inductive HashesLike where
  | decoded (x : Item)
  | array (values : List BytesLike)

structure TxData where
  chainId : BytesLike := .undefined
  nonce : BytesLike := .undefined
  gasPrice : BytesLike := .undefined
  maxPriorityFeePerGas : BytesLike := .undefined
  maxFeePerGas : BytesLike := .undefined
  gasLimit : BytesLike := .undefined
  «to» : BytesLike := .undefined
  value : BytesLike := .undefined
  data : BytesLike := .undefined
  accessList : Option AccessListLike := none
  authorizationList : Option AuthorizationListLike := none
  maxFeePerBlobGas : BytesLike := .undefined
  blobVersionedHashes : Option HashesLike := none
  v : BytesLike := .undefined
  r : BytesLike := .undefined
  s : BytesLike := .undefined
  networkWrapperVersion : BytesLike := .undefined
  blobsData : Option (List (List Char)) := none
  blobs : Option (List BytesLike) := none
  kzgCommitments : Option (List BytesLike) := none
  kzgProofs : Option (List BytesLike) := none

/-- What the classes of transactions have in common. -/
structure TransactionInterface where
  common : Common
  txOptions : TxOptions
  nonce : Nat
  gasLimit : Nat
  «to» : Option Address
  value : Nat
  data : Bytes
  v : Option Nat
  r : Option Nat
  s : Option Nat

/-- `isSigned` of the legacy capabilities, which the other classes spell out again. -/
def TransactionInterface.isSigned (tx : TransactionInterface) : Bool :=
  tx.v.isSome && tx.r.isSome && tx.s.isSome

/-! ## Validation -/

def txDataKeys : List String :=
  ["nonce", "gasPrice", "gasLimit", "to", "value", "data", "v", "r", "s", "type", "baseFee",
    "maxFeePerGas", "chainId"]

def validateNotArray (values : List (String × BytesLike)) : Except String Unit :=
  values.forM fun (key, value) =>
    throwWhen (txDataKeys.contains key ∧ value.isArray) (key ++ " cannot be an array")

/-- `Object.entries(txData)`, without the lists. -/
def TxData.entries (txData : TxData) : List (String × BytesLike) :=
  [("chainId", txData.chainId), ("nonce", txData.nonce), ("gasPrice", txData.gasPrice),
    ("maxPriorityFeePerGas", txData.maxPriorityFeePerGas), ("maxFeePerGas", txData.maxFeePerGas),
    ("gasLimit", txData.gasLimit), ("to", txData.to), ("value", txData.value),
    ("data", txData.data), ("maxFeePerBlobGas", txData.maxFeePerBlobGas), ("v", txData.v),
    ("r", txData.r), ("s", txData.s), ("networkWrapperVersion", txData.networkWrapperVersion)]

/-- The check of `valueOverflowCheck` for one value. -/
def overflow (bits : Nat) (cannotEqual : Bool) : (String × Option Nat) → Except String Unit
  | (_, none) => .ok ()
  | (key, some value) =>
    let limit := if bits = 64 then "MAX_UINT64 (2^64-1)" else "MAX_INTEGER (2^256-1)"
    if cannotEqual then
      throwWhen (2 ^ bits - 1 ≤ value)
        (key ++ " cannot equal or exceed " ++ limit ++ ", given " ++ toString value)
    else
      throwWhen (2 ^ bits - 1 < value)
        (key ++ " cannot exceed " ++ limit ++ ", given " ++ toString value)

/-- The callers give 64 or 256 bits. -/
def valueOverflowCheck (values : List (String × Option Nat)) (bits : Nat) (cannotEqual : Bool) :
    Except String Unit :=
  values.forM (overflow bits cannotEqual)

def checkMaxInitCodeSize (common : Common) (length : Nat) : Except String Unit :=
  let maxInitCodeSize := common.param "maxInitCodeSize"
  throwWhen (maxInitCodeSize ≠ 0 ∧ maxInitCodeSize < length)
    ("the initcode size of this transaction is too large: it is " ++ toString length ++
      " while the max is " ++ toString maxInitCodeSize)

/-! ## The shared constructor -/

/-- `toB.length > 0 ? new Address(toB) : undefined`. -/
def toAddress (toB : Bytes) : Except String (Option Address) :=
  if toB.length > 0 then some <$> Address.new toB else .ok none

/-- `vB.length > 0 ? bytesToBigInt(vB) : undefined`. -/
def signatureValue (b : Bytes) : Option Nat :=
  if b.length > 0 then some (bytesToBigInt b) else none

/-- What follows "Start validating the data". -/
def validateShared (tx : TransactionInterface) : Except String Unit := do
  valueOverflowCheck [("value", some tx.value), ("r", tx.r), ("s", tx.s)] 256 false
  valueOverflowCheck [("gasLimit", some tx.gasLimit)] 64 false
  valueOverflowCheck [("nonce", some tx.nonce)] 64 true
  let maxGasLimit := tx.common.param "maxTransactionGasLimit"
  throwWhen (tx.common.isActivatedEIP 7825 ∧ maxGasLimit < tx.gasLimit)
    ("Transaction gas limit " ++ toString tx.gasLimit ++ " exceeds the maximum allowed by EIP-7825 ("
      ++ toString maxGasLimit ++ ")")
  if tx.to.isNone ∧ tx.common.isActivatedEIP 3860 ∧ tx.txOptions.allowUnlimitedInitCodeSize = false then
    checkMaxInitCodeSize tx.common tx.data.length
  else .ok ()

def sharedConstructor (txData : TxData) (opts : TxOptions) : Except String TransactionInterface := do
  validateNotArray txData.entries
  let toB ← toBytes txData.to.emptyTo0x
  let address ← toAddress toB
  let vB ← toBytes txData.v
  let rB ← toBytes txData.r
  let sB ← toBytes txData.s
  let nonce ← toBytes txData.nonce
  let gasLimit ← toBytes txData.gasLimit
  let value ← toBytes txData.value
  let data ← toBytes txData.data.emptyTo0x
  let tx : TransactionInterface := {
    common := opts.updatedCommon
    txOptions := opts
    nonce := bytesToBigInt nonce
    gasLimit := bytesToBigInt gasLimit
    «to» := address
    value := bytesToBigInt value
    data := data
    v := signatureValue vB
    r := signatureValue rB
    s := signatureValue sB }
  validateShared tx
  pure tx

/-- The bytes of a value give a number. -/
def Spells (value : BytesLike) (n : Nat) : Prop := ∃ b, toBytes value = .ok b ∧ bytesToBigInt b = n

/-- The bytes of a value give a part of a signature. -/
def SpellsSignature (value : BytesLike) (n : Option Nat) : Prop :=
  ∃ b, toBytes value = .ok b ∧ signatureValue b = n

/-- The data give the fields that all transactions have. -/
structure SpellsShared (txData : TxData) (tx : TransactionInterface) : Prop where
  notArray : validateNotArray txData.entries = .ok ()
  «to» : ∃ b, toBytes txData.to.emptyTo0x = .ok b ∧ toAddress b = .ok tx.to
  v : SpellsSignature txData.v tx.v
  r : SpellsSignature txData.r tx.r
  s : SpellsSignature txData.s tx.s
  nonce : Spells txData.nonce tx.nonce
  gasLimit : Spells txData.gasLimit tx.gasLimit
  value : Spells txData.value tx.value
  data : toBytes txData.data.emptyTo0x = .ok tx.data

/-- The transaction has the options and passes the checks that all transactions pass. -/
structure AcceptsShared (opts : TxOptions) (tx : TransactionInterface) : Prop where
  common : tx.common = opts.updatedCommon
  txOptions : tx.txOptions = opts
  validated : validateShared tx = .ok ()

theorem sharedConstructor_eq_ok {txData : TxData} {opts : TxOptions} {tx : TransactionInterface} :
    sharedConstructor txData opts = .ok tx ↔ SpellsShared txData tx ∧ AcceptsShared opts tx := by
  simp only [sharedConstructor, Except.bind_eq_ok, Except.pure_eq_ok]
  constructor
  · rintro ⟨⟨⟩, harray, _, hto, _, haddress, _, hv, _, hr, _, hs, _, hnonce, _, hgas, _, hvalue, _, hdata,
      ⟨⟩, hvalid, rfl⟩
    exact ⟨⟨harray, ⟨_, hto, haddress⟩, ⟨_, hv, rfl⟩, ⟨_, hr, rfl⟩, ⟨_, hs, rfl⟩, ⟨_, hnonce, rfl⟩,
      ⟨_, hgas, rfl⟩, ⟨_, hvalue, rfl⟩, hdata⟩, ⟨rfl, rfl, hvalid⟩⟩
  · rintro ⟨⟨harray, ⟨_, hto, haddress⟩, ⟨_, hv, ev⟩, ⟨_, hr, er⟩, ⟨_, hs, es⟩, ⟨_, hnonce, enonce⟩,
      ⟨_, hgas, egas⟩, ⟨_, hvalue, evalue⟩, hdata⟩, ⟨hcommon, rfl, hvalid⟩⟩
    refine ⟨(), harray, _, hto, _, haddress, _, hv, _, hr, _, hs, _, hnonce, _, hgas, _, hvalue, _,
      hdata, (), ?_⟩
    simp only [← hcommon, ev, er, es, enonce, egas, evalue]
    exact ⟨hvalid, trivial⟩

end Tx
