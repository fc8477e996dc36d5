-- SUMMARY: Creating, serializing and decoding the transactions of the five types.
import TsEthereum.Tx.Classes

/-!
# Transactions

The `constructors.ts` of the five types, the RLP form of a transaction, and the factory
that reads a serialized transaction of any type.
-/

open Except (throwWhen)

namespace Tx

open Rlp (Item)

/-! ## Constructors -/

def createLegacyTx (txData : TxData) (opts : TxOptions) : Except String LegacyTx :=
  LegacyTx.new txData opts

def createAccessList2930Tx (txData : TxData) (opts : TxOptions) : Except String AccessList2930Tx :=
  AccessList2930Tx.new txData opts

def createFeeMarket1559Tx (txData : TxData) (opts : TxOptions) : Except String FeeMarket1559Tx :=
  FeeMarket1559Tx.new txData opts

def createEOACode7702Tx (txData : TxData) (opts : TxOptions) : Except String EOACode7702Tx :=
  EOACode7702Tx.new txData opts

/-- `value ??= create()`. -/
def orCreate {α : Type} (value : Option α) (create : Except String α) : Except String (Option α) :=
  match value with
  | some x => .ok (some x)
  | none => some <$> create

/-- The blob fields that are derived from blobs. -/
def fillBlobs (kzg : KZG) (opts : TxOptions) (txData : TxData) : Except String TxData :=
  if txData.blobsData.isSome ∨ txData.blobs.isSome then do
    let blobs ← orCreate txData.blobs (match txData.blobsData with
      | some (part :: parts) => kzg.getBlobs (part :: parts).flatten
      | _ => .error "Reduce of empty array with no initial value")
    let kzgCommitments ← orCreate txData.kzgCommitments (kzg.blobsToCommitments (blobs.getD []))
    let hashes ← orCreate txData.blobVersionedHashes
      (HashesLike.array <$> kzg.commitmentsToVersionedHashes (kzgCommitments.getD []))
    let kzgProofs ← orCreate txData.kzgProofs
      (if opts.common.isActivatedEIP 7594 then kzg.blobsToCellProofs (blobs.getD [])
      else kzg.blobsToProofs (blobs.getD []) (kzgCommitments.getD []))
    pure { txData with
      blobs := blobs
      kzgCommitments := kzgCommitments
      blobVersionedHashes := hashes
      kzgProofs := kzgProofs }
  else .ok txData

/-- `opts?.common?.customCrypto?.kzg`, which a blob transaction needs. -/
def requireKzg (opts : TxOptions) : Except String KZG :=
  match opts.common.kzg with
  | some kzg => .ok kzg
  | none => .error ("A common object with customCrypto.kzg initialized required to instantiate a " ++
      "4844 blob tx")

def createBlob4844Tx (txData : TxData) (opts : TxOptions) : Except String Blob4844Tx := do
  let kzg ← requireKzg opts
  throwWhen (txData.blobsData.isSome ∧ txData.blobs.isSome)
    "cannot have both raw blobs data and encoded blobs in constructor"
  let txData ← fillBlobs kzg opts txData
  Blob4844Tx.new txData opts

/-! ## The RLP form -/

def numberItem (n : Nat) : Item := .bytes (bigIntToUnpaddedBytes n)

/-- `this.to !== undefined ? this.to.bytes : new Uint8Array(0)`. -/
def addressItem : Option Address → Item
  | none => .bytes []
  | some address => .bytes address.bytes

/-- `this.v !== undefined ? bigIntToUnpaddedBytes(this.v) : new Uint8Array(0)`. -/
def signatureItem : Option Nat → Item
  | none => .bytes []
  | some n => numberItem n

def LegacyTx.raw (tx : LegacyTx) : List Item :=
  [numberItem tx.nonce, numberItem tx.gasPrice, numberItem tx.gasLimit, addressItem tx.to,
    numberItem tx.value, .bytes tx.data, signatureItem tx.v, signatureItem tx.r, signatureItem tx.s]

def AccessList2930Tx.raw (tx : AccessList2930Tx) : List Item :=
  [numberItem tx.chainId, numberItem tx.nonce, numberItem tx.gasPrice, numberItem tx.gasLimit,
    addressItem tx.to, numberItem tx.value, .bytes tx.data, tx.accessList, signatureItem tx.v,
    signatureItem tx.r, signatureItem tx.s]

def FeeMarket1559Tx.raw (tx : FeeMarket1559Tx) : List Item :=
  [numberItem tx.chainId, numberItem tx.nonce, numberItem tx.maxPriorityFeePerGas,
    numberItem tx.maxFeePerGas, numberItem tx.gasLimit, addressItem tx.to, numberItem tx.value,
    .bytes tx.data, tx.accessList, signatureItem tx.v, signatureItem tx.r, signatureItem tx.s]

def Blob4844Tx.raw (tx : Blob4844Tx) : List Item :=
  [numberItem tx.chainId, numberItem tx.nonce, numberItem tx.maxPriorityFeePerGas,
    numberItem tx.maxFeePerGas, numberItem tx.gasLimit, addressItem tx.to, numberItem tx.value,
    .bytes tx.data, tx.accessList, numberItem tx.maxFeePerBlobGas,
    .list (tx.blobVersionedHashes.map .bytes), signatureItem tx.v, signatureItem tx.r,
    signatureItem tx.s]

def EOACode7702Tx.raw (tx : EOACode7702Tx) : List Item :=
  [numberItem tx.chainId, numberItem tx.nonce, numberItem tx.maxPriorityFeePerGas,
    numberItem tx.maxFeePerGas, numberItem tx.gasLimit, addressItem tx.to, numberItem tx.value,
    .bytes tx.data, tx.accessList, tx.authorizationList, signatureItem tx.v, signatureItem tx.r,
    signatureItem tx.s]

/-! ## Values to transactions -/

/-- `chainId: bytesToBigInt(chainId)`, where `chainId` is no array. -/
def bigIntOf (x : Item) : BytesLike := .bigint (bytesToBigInt (toUint8Array x))

/-- `v !== undefined ? bytesToBigInt(v) : undefined`. -/
def yParityOf : Option Item → BytesLike
  | none => .undefined
  | some v => bigIntOf v

def legacyFromValues (nonce gasPrice gasLimit «to» value data : Item) (v r s : Option Item)
    (opts : TxOptions) : Except String LegacyTx := do
  validateNoLeadingZeroes [("nonce", some nonce), ("gasPrice", some gasPrice),
    ("gasLimit", some gasLimit), ("value", some value), ("v", v), ("r", r), ("s", s)]
  LegacyTx.new {
    nonce := .item nonce
    gasPrice := .item gasPrice
    gasLimit := .item gasLimit
    «to» := .item «to»
    value := .item value
    data := .item data
    v := .ofOption v
    r := .ofOption r
    s := .ofOption s } opts

def createLegacyTxFromBytesArray (values : List Item) (opts : TxOptions) : Except String LegacyTx :=
  match values with
  | [nonce, gasPrice, gasLimit, «to», value, data] =>
    legacyFromValues nonce gasPrice gasLimit «to» value data none none none opts
  | [nonce, gasPrice, gasLimit, «to», value, data, v, r, s] =>
    legacyFromValues nonce gasPrice gasLimit «to» value data (some v) (some r) (some s) opts
  | _ => .error ("Invalid transaction. Only expecting 6 values (for unsigned tx) or 9 values (for " ++
      "signed tx).")

def accessList2930FromValues (chainId nonce gasPrice gasLimit «to» value data accessList : Item)
    (v r s : Option Item) (opts : TxOptions) : Except String AccessList2930Tx := do
  validateNotArray [("chainId", .item chainId), ("v", .ofOption v)]
  validateNoLeadingZeroes [("nonce", some nonce), ("gasPrice", some gasPrice),
    ("gasLimit", some gasLimit), ("value", some value), ("v", v), ("r", r), ("s", s)]
  AccessList2930Tx.new {
    chainId := bigIntOf chainId
    nonce := .item nonce
    gasPrice := .item gasPrice
    gasLimit := .item gasLimit
    «to» := .item «to»
    value := .item value
    data := .item data
    accessList := some (.bytes accessList)
    v := yParityOf v
    r := .ofOption r
    s := .ofOption s } opts

def createAccessList2930TxFromBytesArray (values : List Item) (opts : TxOptions) :
    Except String AccessList2930Tx :=
  match values with
  | [chainId, nonce, gasPrice, gasLimit, «to», value, data, accessList] =>
    accessList2930FromValues chainId nonce gasPrice gasLimit «to» value data accessList none none none
      opts
  | [chainId, nonce, gasPrice, gasLimit, «to», value, data, accessList, v, r, s] =>
    accessList2930FromValues chainId nonce gasPrice gasLimit «to» value data accessList (some v)
      (some r) (some s) opts
  | _ => .error ("Invalid EIP-2930 transaction. Only expecting 8 values (for unsigned tx) or 11 " ++
      "values (for signed tx).")

def feeMarket1559FromValues (chainId nonce maxPriorityFeePerGas maxFeePerGas gasLimit «to» value data
    accessList : Item) (v r s : Option Item) (opts : TxOptions) : Except String FeeMarket1559Tx := do
  validateNotArray [("chainId", .item chainId), ("v", .ofOption v)]
  validateNoLeadingZeroes [("nonce", some nonce),
    ("maxPriorityFeePerGas", some maxPriorityFeePerGas), ("maxFeePerGas", some maxFeePerGas),
    ("gasLimit", some gasLimit), ("value", some value), ("v", v), ("r", r), ("s", s)]
  FeeMarket1559Tx.new {
    chainId := bigIntOf chainId
    nonce := .item nonce
    maxPriorityFeePerGas := .item maxPriorityFeePerGas
    maxFeePerGas := .item maxFeePerGas
    gasLimit := .item gasLimit
    «to» := .item «to»
    value := .item value
    data := .item data
    accessList := some (.bytes accessList)
    v := yParityOf v
    r := .ofOption r
    s := .ofOption s } opts

def create1559FeeMarketTxFromBytesArray (values : List Item) (opts : TxOptions) :
    Except String FeeMarket1559Tx :=
  match values with
  | [chainId, nonce, maxPriorityFeePerGas, maxFeePerGas, gasLimit, «to», value, data, accessList] =>
    feeMarket1559FromValues chainId nonce maxPriorityFeePerGas maxFeePerGas gasLimit «to» value data
      accessList none none none opts
  | [chainId, nonce, maxPriorityFeePerGas, maxFeePerGas, gasLimit, «to», value, data, accessList,
      v, r, s] =>
    feeMarket1559FromValues chainId nonce maxPriorityFeePerGas maxFeePerGas gasLimit «to» value data
      accessList (some v) (some r) (some s) opts
  | _ => .error ("Invalid EIP-1559 transaction. Only expecting 9 values (for unsigned tx) or 12 " ++
      "values (for signed tx).")

def eoaCode7702FromValues (chainId nonce maxPriorityFeePerGas maxFeePerGas gasLimit «to» value data
    accessList authorityList : Item) (v r s : Option Item) (opts : TxOptions) :
    Except String EOACode7702Tx := do
  validateNotArray [("chainId", .item chainId), ("v", .ofOption v)]
  validateNoLeadingZeroes [("nonce", some nonce),
    ("maxPriorityFeePerGas", some maxPriorityFeePerGas), ("maxFeePerGas", some maxFeePerGas),
    ("gasLimit", some gasLimit), ("value", some value), ("v", v), ("r", r), ("s", s)]
  EOACode7702Tx.new {
    chainId := bigIntOf chainId
    nonce := .item nonce
    maxPriorityFeePerGas := .item maxPriorityFeePerGas
    maxFeePerGas := .item maxFeePerGas
    gasLimit := .item gasLimit
    «to» := .item «to»
    value := .item value
    data := .item data
    accessList := some (.bytes accessList)
    authorizationList := some (.bytes authorityList)
    v := yParityOf v
    r := .ofOption r
    s := .ofOption s } opts

def createEOACode7702TxFromBytesArray (values : List Item) (opts : TxOptions) :
    Except String EOACode7702Tx :=
  match values with
  | [chainId, nonce, maxPriorityFeePerGas, maxFeePerGas, gasLimit, «to», value, data, accessList,
      authorityList] =>
    eoaCode7702FromValues chainId nonce maxPriorityFeePerGas maxFeePerGas gasLimit «to» value data
      accessList authorityList none none none opts
  | [chainId, nonce, maxPriorityFeePerGas, maxFeePerGas, gasLimit, «to», value, data, accessList,
      authorityList, v, r, s] =>
    eoaCode7702FromValues chainId nonce maxPriorityFeePerGas maxFeePerGas gasLimit «to» value data
      accessList authorityList (some v) (some r) (some s) opts
  | _ => .error ("Invalid EIP-7702 transaction. Only expecting 10 values (for unsigned tx) or 13 " ++
      "values (for signed tx).")

def blob4844FromValues (chainId nonce maxPriorityFeePerGas maxFeePerGas gasLimit «to» value data
    accessList maxFeePerBlobGas blobVersionedHashes : Item) (v r s : Option Item) (opts : TxOptions) :
    Except String Blob4844Tx := do
  validateNotArray [("chainId", .item chainId), ("v", .ofOption v)]
  validateNoLeadingZeroes [("nonce", some nonce),
    ("maxPriorityFeePerGas", some maxPriorityFeePerGas), ("maxFeePerGas", some maxFeePerGas),
    ("gasLimit", some gasLimit), ("value", some value), ("maxFeePerBlobGas", some maxFeePerBlobGas),
    ("v", v), ("r", r), ("s", s)]
  Blob4844Tx.new {
    chainId := bigIntOf chainId
    nonce := .item nonce
    maxPriorityFeePerGas := .item maxPriorityFeePerGas
    maxFeePerGas := .item maxFeePerGas
    gasLimit := .item gasLimit
    «to» := .item «to»
    value := .item value
    data := .item data
    accessList := some (.bytes accessList)
    maxFeePerBlobGas := .item maxFeePerBlobGas
    blobVersionedHashes := some (.decoded blobVersionedHashes)
    v := yParityOf v
    r := .ofOption r
    s := .ofOption s } opts

def createBlob4844TxFromBytesArray (values : List Item) (opts : TxOptions) :
    Except String Blob4844Tx := do
  let _ ← requireKzg opts
  match values with
  | [chainId, nonce, maxPriorityFeePerGas, maxFeePerGas, gasLimit, «to», value, data, accessList,
      maxFeePerBlobGas, blobVersionedHashes] =>
    blob4844FromValues chainId nonce maxPriorityFeePerGas maxFeePerGas gasLimit «to» value data
      accessList maxFeePerBlobGas blobVersionedHashes none none none opts
  | [chainId, nonce, maxPriorityFeePerGas, maxFeePerGas, gasLimit, «to», value, data, accessList,
      maxFeePerBlobGas, blobVersionedHashes, v, r, s] =>
    blob4844FromValues chainId nonce maxPriorityFeePerGas maxFeePerGas gasLimit «to» value data
      accessList maxFeePerBlobGas blobVersionedHashes (some v) (some r) (some s) opts
  | _ => .error ("Invalid EIP-4844 transaction. Only expecting 11 values (for unsigned tx) or 14 " ++
      "values (for signed tx).")

/-! ## Transactions of any type -/

inductive Transaction where
  | legacy (tx : LegacyTx)
  | accessList2930 (tx : AccessList2930Tx)
  | feeMarket1559 (tx : FeeMarket1559Tx)
  | blob4844 (tx : Blob4844Tx)
  | eoaCode7702 (tx : EOACode7702Tx)

namespace Transaction

def type : Transaction → TransactionType
  | legacy _ => .Legacy
  | accessList2930 _ => .AccessListEIP2930
  | feeMarket1559 _ => .FeeMarketEIP1559
  | blob4844 _ => .BlobEIP4844
  | eoaCode7702 _ => .EOACodeEIP7702

/-- The fields that all classes have. -/
def base : Transaction → TransactionInterface
  | legacy tx => tx.toTransactionInterface
  | accessList2930 tx => tx.toTransactionInterface
  | feeMarket1559 tx => tx.toTransactionInterface
  | blob4844 tx => tx.toTransactionInterface
  | eoaCode7702 tx => tx.toTransactionInterface

def isSigned (tx : Transaction) : Bool := tx.base.isSigned

def raw : Transaction → List Item
  | legacy tx => tx.raw
  | accessList2930 tx => tx.raw
  | feeMarket1559 tx => tx.raw
  | blob4844 tx => tx.raw
  | eoaCode7702 tx => tx.raw

/-- The constructor of a type. -/
def new (type : TransactionType) (txData : TxData) (opts : TxOptions) : Except String Transaction :=
  match type with
  | .Legacy => legacy <$> createLegacyTx txData opts
  | .AccessListEIP2930 => accessList2930 <$> createAccessList2930Tx txData opts
  | .FeeMarketEIP1559 => feeMarket1559 <$> createFeeMarket1559Tx txData opts
  | .BlobEIP4844 => blob4844 <$> createBlob4844Tx txData opts
  | .EOACodeEIP7702 => eoaCode7702 <$> createEOACode7702Tx txData opts

/-- The `createTxFromBytesArray` of a type. -/
def fromBytesArray (type : TransactionType) (values : List Item) (opts : TxOptions) :
    Except String Transaction :=
  match type with
  | .Legacy => legacy <$> createLegacyTxFromBytesArray values opts
  | .AccessListEIP2930 => accessList2930 <$> createAccessList2930TxFromBytesArray values opts
  | .FeeMarketEIP1559 => feeMarket1559 <$> create1559FeeMarketTxFromBytesArray values opts
  | .BlobEIP4844 => blob4844 <$> createBlob4844TxFromBytesArray values opts
  | .EOACodeEIP7702 => eoaCode7702 <$> createEOACode7702TxFromBytesArray values opts

/-- `EIP2718.serialize(tx, base)`. -/
def serializeTyped (type : TransactionType) (base : List Item) : Bytes :=
  type.byte :: Rlp.encode (.list base)

def serialize (tx : Transaction) : Bytes :=
  match tx.type with
  | .Legacy => Rlp.encode (.list tx.raw)
  | type => serializeTyped type tx.raw

/-- The hash of a signed transaction. -/
def hash (keccak256 : Bytes → Bytes) (tx : Transaction) : Except String Bytes :=
  if tx.isSigned then .ok (keccak256 tx.serialize)
  else .error "Cannot call hash method if transaction is not signed"

end Transaction

/-! ## Decoding -/

/-- `RLP.decode` of a serialized transaction, which has to be an array. -/
def decodeValues (payload : Bytes) (notArray : String) : Except String (List Item) :=
  match Rlp.decode payload with
  | .ok (.list values) => .ok values
  | .ok (.bytes _) => .error notArray
  | .error e => .error e.message

def createLegacyTxFromRLP (serialized : Bytes) (opts : TxOptions) : Except String Transaction := do
  let values ← decodeValues serialized "Invalid serialized tx input. Must be array"
  Transaction.fromBytesArray .Legacy values opts

/-- The transaction of a type, of which the message names the EIP. -/
def createTypedTxFromRLP (type : TransactionType) (eip : String) (serialized : Bytes)
    (opts : TxOptions) : Except String Transaction := do
  throwWhen (serialized.take 1 ≠ [type.byte])
    ("Invalid serialized tx input: not an " ++ eip ++ " transaction (wrong tx type, expected: " ++
      toString type.byte ++ ", received: " ++ String.ofList (bytesToHex (serialized.take 1)))
  let values ← decodeValues (serialized.drop 1) "Invalid serialized tx input: must be array"
  Transaction.fromBytesArray type values opts

def createAccessList2930TxFromRLP (serialized : Bytes) (opts : TxOptions) :
    Except String Transaction :=
  createTypedTxFromRLP .AccessListEIP2930 "EIP-2930" serialized opts

def createFeeMarket1559TxFromRLP (serialized : Bytes) (opts : TxOptions) :
    Except String Transaction :=
  createTypedTxFromRLP .FeeMarketEIP1559 "EIP-1559" serialized opts

def createBlob4844TxFromRLP (serialized : Bytes) (opts : TxOptions) :
    Except String Transaction := do
  let _ ← requireKzg opts
  createTypedTxFromRLP .BlobEIP4844 "EIP-4844" serialized opts

def createEOACode7702TxFromRLP (serialized : Bytes) (opts : TxOptions) :
    Except String Transaction :=
  createTypedTxFromRLP .EOACodeEIP7702 "EIP-7702" serialized opts

def createTxFromRLP (data : Bytes) (opts : TxOptions) : Except String Transaction :=
  match data.head? with
  -- `undefined <= 0x7f` is false
  | none => createLegacyTxFromRLP data opts
  | some first =>
    if first ≤ 0x7f then
      match first with
      | 1 => createAccessList2930TxFromRLP data opts
      | 2 => createFeeMarket1559TxFromRLP data opts
      | 3 => createBlob4844TxFromRLP data opts
      | 4 => createEOACode7702TxFromRLP data opts
      | id => .error ("TypedTransaction with ID " ++ toString id ++ " unknown")
    else createLegacyTxFromRLP data opts

end Tx
