-- SUMMARY: The constructors of the five transaction classes.
import TsEthereum.Tx.Types

/-!
# Transaction classes

The constructors read the data into the fields of the class and check them, in the
order of the source. The bodies of the classes repeat each other, and so do the
definitions here.
-/

open Except (throwWhen)

namespace Tx

open Rlp (Item)

/-! ## Capabilities -/

def SECP256K1_ORDER : Nat :=
  0xfffffffffffffffffffffffffffffffebaaedce6af48a03bbfd25e8cd0364141

def SECP256K1_ORDER_DIV_2 : Nat := SECP256K1_ORDER / 2

def validateYParity (tx : TransactionInterface) : Except String Unit :=
  throwWhen (tx.v ≠ none ∧ tx.v ≠ some 0 ∧ tx.v ≠ some 1)
    "The y-parity of the transaction should either be 0 or 1"

def validateHighS (tx : TransactionInterface) : Except String Unit :=
  throwWhen (tx.common.gteHardfork .Homestead ∧ ∃ s ∈ tx.s, SECP256K1_ORDER_DIV_2 < s)
    "Invalid Signature: s-values greater than secp256k1n/2 are considered invalid"

def verifyStorageSlot (slot : Item) : Except String Unit :=
  throwWhen (slot.length ≠ 32)
    "Invalid EIP-2930 transaction: storage slot length should be 32 bytes"

/-- The elements of a byte array are numbers, which have no length. -/
def verifyAccessListItem : Item → Except String Unit
  | .list [address, storageSlots] => do
    throwWhen (address.length ≠ 20)
      "Invalid EIP-2930 transaction: address length should be 20 bytes"
    match storageSlots with
    | .list slots => slots.forM verifyStorageSlot
    | .bytes [] => .ok ()
    | .bytes _ => .error "Invalid EIP-2930 transaction: storage slot length should be 32 bytes"
  | .bytes [_, _] => .error "Invalid EIP-2930 transaction: address length should be 20 bytes"
  | _ => .error "Invalid EIP-2930 transaction: access list item should have 2 elements"

def verifyAccessList : Item → Except String Unit
  | .list items => items.forM verifyAccessListItem
  | .bytes [] => .ok ()
  | .bytes _ => .error "Invalid EIP-2930 transaction: access list item should have 2 elements"

def verifyAuthorizationFields (chainId address nonce yParity r s : Bytes) : Except String Unit := do
  validateNoLeadingZeroes [("yParity", some (.bytes yParity)), ("r", some (.bytes r)),
    ("s", some (.bytes s)), ("nonce", some (.bytes nonce)), ("chainId", some (.bytes chainId))]
  throwWhen (address.length ≠ 20) "Invalid EIP-7702 transaction: address length should be 20 bytes"
  throwWhen (MAX_INTEGER < bytesToBigInt chainId)
    "Invalid EIP-7702 transaction: chainId exceeds 2^256 - 1"
  throwWhen (MAX_UINT64 < bytesToBigInt nonce) "Invalid EIP-7702 transaction: nonce exceeds 2^64 - 1"
  throwWhen (2 ^ 8 ≤ bytesToBigInt yParity)
    "Invalid EIP-7702 transaction: yParity should be fit within 1 byte (0 - 255)"
  throwWhen (MAX_INTEGER < bytesToBigInt r) "Invalid EIP-7702 transaction: r exceeds 2^256 - 1"
  throwWhen (MAX_INTEGER < bytesToBigInt s) "Invalid EIP-7702 transaction: s exceeds 2^256 - 1"

def verifyAuthorizationItem : Item → Except String Unit
  | .list [.bytes chainId, .bytes address, .bytes nonce, .bytes yParity, .bytes r, .bytes s] =>
    verifyAuthorizationFields chainId address nonce yParity r s
  | .list [_, _, _, _, _, _] =>
    .error "Invalid EIP-7702 transaction: authority list element is a list, not bytes"
  -- six numbers: the address has no length
  | .bytes [_, _, _, _, _, _] =>
    .error "Invalid EIP-7702 transaction: address length should be 20 bytes"
  | _ => .error "Invalid EIP-7702 transaction: authorization list item should have 6 elements"

def verifyAuthorizationList : Item → Except String Unit
  | .list [] | .bytes [] => .error "Invalid EIP-7702 transaction: authorization list is empty"
  | .list items => items.forM verifyAuthorizationItem
  | .bytes _ =>
    .error "Invalid EIP-7702 transaction: authorization list item should have 6 elements"

/-! ## Lists in either format -/

/-- `accessListJSONToBytes` of an item. -/
def accessListJSONItemToBytes (item : HexString × List HexString) : Except String Item := do
  let address ← hexToBytes item.1
  let storageKeys ← item.2.mapM hexToBytes
  pure (.list [.bytes address, .list (storageKeys.map .bytes)])

/-- `isAccessListBytes`: the list is empty, or its first item is an array. -/
def isAccessListBytes : Item → Bool
  | .list [] | .bytes [] | .list (.list _ :: _) => true
  | _ => false

/-- What the classes take for the access list. A list that is not in the byte format is taken
for one in the JSON format, and its items have no `address`. -/
def readAccessList : Option AccessListLike → Except String Item
  | none => .ok (.list [])
  | some (.bytes x) =>
    if isAccessListBytes x then .ok x
    else .error "Cannot read properties of undefined (reading 'startsWith')"
  | some (.json items) => Item.list <$> items.mapM accessListJSONItemToBytes

/-- The type has all the fields that are asked for. -/
def eoaCode7702AuthorizationListJSONItemToBytes (item : AuthorizationJSON) : Except String Item := do
  let chainId ← hexToBytes item.chainId
  let address ← hexToBytes item.address
  let nonce ← hexToBytes item.nonce
  let yParity ← hexToBytes item.yParity
  let r ← hexToBytes item.r
  let s ← hexToBytes item.s
  pure (.list [.bytes chainId, .bytes address, .bytes nonce, .bytes yParity, .bytes r, .bytes s])

/-- `isEOACode7702AuthorizationListBytes` is the same test. -/
def readAuthorizationList : Option AuthorizationListLike → Except String Item
  | none => .ok (.list [])
  | some (.bytes x) =>
    if isAccessListBytes x then .ok x
    else .error "EIP-7702 authorization list invalid: chainId is not defined"
  | some (.json items) => Item.list <$> items.mapM eoaCode7702AuthorizationListJSONItemToBytes

/-- `toType(value, TypeOutput.PrefixedHexString)`, as the bytes that the hex string spells. What is
undefined has no length later on. -/
def toHexBytes : BytesLike → Except String Bytes
  | .undefined => .error "Cannot read properties of undefined (reading 'length')"
  | value => toBytes value

/-- The hashes of `(txData.blobVersionedHashes ?? []).map(…)`. The elements of a byte array stay
numbers, which are not of the length of a hash. -/
def readVersionedHashes : Option HashesLike → Except String (List Bytes)
  | none => .ok []
  | some (.decoded (.bytes b)) => .ok (b.map fun x => [x])
  | some (.decoded (.list l)) => l.mapM fun x => toHexBytes (.item x)
  | some (.array values) => values.mapM toHexBytes

/-! ## Legacy transactions -/

/-- `Number(n)`, where no value is `Infinity`: the largest finite number has 1024 bits. -/
def toNumber (n : Nat) : Option Nat :=
  if (Rlp.toNumber n).log2 < 1024 then some (Rlp.toNumber n) else none

theorem toNumber_of_lt {n : Nat} (h : n < 2 ^ 53) : toNumber n = some n := by
  have hlog : n.log2 ≤ 53 := by
    cases n with
    | zero => exact Nat.zero_le 53
    | succ n => exact Nat.le_of_lt ((Nat.log2_lt n.succ_ne_zero).mpr h)
  unfold toNumber
  rw [Rlp.toNumber_of_lt h, if_pos (Nat.lt_of_le_of_lt hlog (Nat.le_of_ble_eq_true rfl))]

def meetsEIP155 (v chainId : Nat) : Bool :=
  let v := toNumber v
  let chainIdDoubled := (toNumber chainId).bind fun c => toNumber (c * 2)
  v = chainIdDoubled.bind (fun c => toNumber (c + 35)) ||
    v = chainIdDoubled.bind (fun c => toNumber (c + 36))

/-- The chain id of a `v` that is neither 27 nor 28. -/
def extractChainID (common : Common) : Option Nat → Except String Nat
  | none => .error ("The number Infinity cannot be converted to a BigInt because it is not an " ++
      "integer")
  | some v => do
    throwWhen (meetsEIP155 v common.chainIdBigInt = false)
      ("Incompatible EIP155-based V " ++ toString v ++ " and chain id " ++
        toString common.chainIdBigInt ++
        ". See the GlobalConfig parameter of the Transaction constructor to set the chain id.")
    let numSub := if Rlp.toNumber (v - 35) % 2 = 0 then 35 else 36
    pure (Rlp.toNumber (v - numSub) / 2)

def validateVAndExtractChainID (common : Common) : Option Nat → Except String (Option Nat)
  | none => .ok none
  | some _v => do
    let v := toNumber _v
    throwWhen (v.any (· < 37) ∧ v ≠ some 27 ∧ v ≠ some 28)
      ("Legacy txs need either v = 27/28 or v >= 37 (EIP-155 replay protection), got v = " ++
        toString (v.getD 0))
    if v ≠ some 0 ∧ common.gteHardfork .SpuriousDragon ∧ v ≠ some 27 ∧ v ≠ some 28 then
      some <$> extractChainID common v
    else .ok none

structure LegacyTx extends TransactionInterface where
  gasPrice : Nat
  /-- `supports(Capability.EIP155ReplayProtection)`. -/
  eip155ReplayProtection : Bool

/-- The capability that the constructor sets. -/
def activeCapability (tx : TransactionInterface) : Bool :=
  tx.common.gteHardfork .SpuriousDragon &&
    (!tx.isSigned || tx.v.any fun v => meetsEIP155 v tx.common.chainIdBigInt)

def LegacyTx.new (txData : TxData) (opts : TxOptions) : Except String LegacyTx := do
  let tx ← sharedConstructor txData opts
  let gasPriceB ← toBytes txData.gasPrice
  let gasPrice := bytesToBigInt gasPriceB
  valueOverflowCheck [("gasPrice", some gasPrice)] 256 false
  let chainId ← validateVAndExtractChainID tx.common tx.v
  throwWhen (chainId ≠ none ∧ chainId ≠ some tx.common.chainIdBigInt)
    ("GlobalConfig chain ID not matching the derived chain ID " ++ toString (chainId.getD 0))
  throwWhen (MAX_INTEGER < gasPrice * tx.gasLimit)
    "gas limit * gasPrice cannot exceed MAX_INTEGER (2^256-1)"
  pure { tx with gasPrice := gasPrice, eip155ReplayProtection := activeCapability tx }

/-! ## Typed transactions -/

/-- The message spells the method `chainId` and not its value. -/
def checkChainId (chainId : BytesLike) (common : Common) : Except String Unit :=
  match chainId with
  | .undefined => .ok ()
  | chainId => do
    let chainIdB ← toBytes chainId
    throwWhen (bytesToBigInt chainIdB ≠ common.chainIdBigInt)
      ("GlobalConfig chain ID not matching the derived chain ID " ++ toString (bytesToBigInt chainIdB))

structure AccessList2930Tx extends TransactionInterface where
  chainId : Nat
  gasPrice : Nat
  accessList : Item

def AccessList2930Tx.new (txData : TxData) (opts : TxOptions) : Except String AccessList2930Tx := do
  let tx ← sharedConstructor txData opts
  checkChainId txData.chainId tx.common
  throwWhen (tx.common.isActivatedEIP 2930 = false) "EIP-2930 not enabled on GlobalConfig"
  let accessList ← readAccessList txData.accessList
  verifyAccessList accessList
  let gasPriceB ← toBytes txData.gasPrice
  let gasPrice := bytesToBigInt gasPriceB
  valueOverflowCheck [("gasPrice", some gasPrice)] 256 false
  throwWhen (MAX_INTEGER < gasPrice * tx.gasLimit) "gasLimit * gasPrice cannot exceed MAX_INTEGER"
  validateYParity tx
  validateHighS tx
  pure { tx with chainId := tx.common.chainIdBigInt, gasPrice := gasPrice, accessList := accessList }

/-- The fields that the classes with a priority fee have in common. -/
structure FeeMarketInterface extends TransactionInterface where
  chainId : Nat
  maxPriorityFeePerGas : Nat
  maxFeePerGas : Nat
  accessList : Item

def checkFees (tx : FeeMarketInterface) : Except String Unit := do
  throwWhen (MAX_INTEGER < tx.gasLimit * tx.maxFeePerGas)
    "gasLimit * maxFeePerGas cannot exceed MAX_INTEGER (2^256-1)"
  throwWhen (tx.maxFeePerGas < tx.maxPriorityFeePerGas)
    "maxFeePerGas cannot be less than maxPriorityFeePerGas (The total must be the larger of the two)"

structure FeeMarket1559Tx extends FeeMarketInterface

def FeeMarket1559Tx.new (txData : TxData) (opts : TxOptions) : Except String FeeMarket1559Tx := do
  let tx ← sharedConstructor txData opts
  checkChainId txData.chainId tx.common
  throwWhen (tx.common.isActivatedEIP 1559 = false) "EIP-1559 not enabled on GlobalConfig"
  let accessList ← readAccessList txData.accessList
  verifyAccessList accessList
  let maxFeePerGas ← toBytes txData.maxFeePerGas
  let maxPriorityFeePerGas ← toBytes txData.maxPriorityFeePerGas
  let tx : FeeMarketInterface := { tx with
    chainId := tx.common.chainIdBigInt
    accessList := accessList
    maxFeePerGas := bytesToBigInt maxFeePerGas
    maxPriorityFeePerGas := bytesToBigInt maxPriorityFeePerGas }
  valueOverflowCheck [("maxFeePerGas", some tx.maxFeePerGas),
    ("maxPriorityFeePerGas", some tx.maxPriorityFeePerGas)] 256 false
  checkFees tx
  validateYParity tx.toTransactionInterface
  validateHighS tx.toTransactionInterface
  pure { tx with }

structure EOACode7702Tx extends FeeMarketInterface where
  authorizationList : Item

def EOACode7702Tx.new (txData : TxData) (opts : TxOptions) : Except String EOACode7702Tx := do
  let tx ← sharedConstructor txData opts
  checkChainId txData.chainId tx.common
  throwWhen (tx.common.isActivatedEIP 7702 = false) "EIP-7702 not enabled on GlobalConfig"
  let accessList ← readAccessList txData.accessList
  verifyAccessList accessList
  let authorizationList ← readAuthorizationList txData.authorizationList
  verifyAuthorizationList authorizationList
  let maxFeePerGas ← toBytes txData.maxFeePerGas
  let maxPriorityFeePerGas ← toBytes txData.maxPriorityFeePerGas
  let tx : FeeMarketInterface := { tx with
    chainId := tx.common.chainIdBigInt
    accessList := accessList
    maxFeePerGas := bytesToBigInt maxFeePerGas
    maxPriorityFeePerGas := bytesToBigInt maxPriorityFeePerGas }
  valueOverflowCheck [("maxFeePerGas", some tx.maxFeePerGas),
    ("maxPriorityFeePerGas", some tx.maxPriorityFeePerGas)] 256 false
  validateNotArray txData.entries
  checkFees tx
  validateYParity tx.toTransactionInterface
  validateHighS tx.toTransactionInterface
  throwWhen (tx.to = none) "tx should have a \"to\" field and cannot be used to create contracts"
  pure { tx with authorizationList := authorizationList }

/-! ## Blob transactions -/

/-- The properties of the "Network Wrapper" format, which are no part of the RLP. -/
structure NetworkWrapper where
  networkWrapperVersion : Option Nat
  blobs : Option (List Bytes)
  kzgCommitments : Option (List Bytes)
  kzgProofs : Option (List Bytes)
  deriving DecidableEq

/-- The canonical format. -/
def NetworkWrapper.none : NetworkWrapper := ⟨.none, .none, .none, .none⟩

structure Blob4844Tx extends FeeMarketInterface where
  maxFeePerBlobGas : Nat
  /-- The bytes of the hashes, which the source keeps as hex strings. -/
  blobVersionedHashes : List Bytes
  networkWrapper : NetworkWrapper

/-- `bytesToInt(toBytes(version))` of a version that is given. -/
def readNetworkWrapperVersion : BytesLike → Except String (Option Nat)
  | .undefined => .ok none
  | version => do
    let b ← toBytes version
    throwWhen (2 ^ 53 ≤ bytesToBigInt b) "Number exceeds 53 bits"
    pure (some (bytesToBigInt b))

def checkNetworkWrapperVersion (common : Common) : Option Nat → Except String Unit
  | none => .ok ()
  | some 1 => throwWhen (common.isActivatedEIP 7594 = false)
      "EIP-7594 not enabled on GlobalConfig for EIP-7594 network wrapper version"
  | some 0 => throwWhen (common.isActivatedEIP 7594)
      "EIP-7594 is active on GlobalConfig for EIP-4844 network wrapper version"
  | some version => .error ("Invalid networkWrapperVersion=" ++ toString version)

/-- `Number.parseInt` of the two hex digits of a byte, in base ten: it stops at a letter. -/
def parseIntByte (b : UInt8) : Option Nat :=
  if 10 ≤ b.toNat / 16 then none
  else if 10 ≤ b.toNat % 16 then some (b.toNat / 16)
  else some (10 * (b.toNat / 16) + b.toNat % 16)

def verifyVersionedHash (common : Common) (hash : Bytes) : Except String Unit := do
  throwWhen (hash.length ≠ 32) "versioned hash is invalid length"
  match hash.head?.bind parseIntByte with
  | none => .error "The number NaN cannot be converted to a BigInt because it is not an integer"
  | some version =>
    throwWhen ((version : Int) ≠ common.param "blobCommitmentVersionKzg")
      "versioned hash does not start with KZG commitment version"

def checkBlobCount (common : Common) (blobs : Nat) : Except String Unit := do
  throwWhen (common.isActivatedEIP 7594 ∧ common.param "maxBlobsPerTx" < blobs)
    ("tx can contain at most " ++ toString (common.param "maxBlobsPerTx") ++ " blobs (EIP-7594)")
  throwWhen (common.param "blobGasPerBlob" = 0) "Division by zero"
  let limitBlobsPerTx := (common.param "maxBlobGasPerBlock").tdiv (common.param "blobGasPerBlob")
  throwWhen (limitBlobsPerTx < blobs) ("tx can contain at most " ++ toString limitBlobsPerTx ++
    " blobs (maxBlobGasPerBlock/blobGasPerBlob)")
  throwWhen (blobs = 0) "tx should contain at least one blob"

/-- `values?.map((value) => toType(value, TypeOutput.PrefixedHexString))`. -/
def readHexBytes : Option (List BytesLike) → Except String (Option (List Bytes))
  | none => .ok none
  | some values => some <$> values.mapM toHexBytes

/-- The version that holds where blobs are given without one. -/
def defaultVersion (common : Common) (version : Option Nat) (blobs : Option (List Bytes)) :
    Option Nat :=
  if version = none ∧ blobs ≠ none then some (if common.isActivatedEIP 7594 then 1 else 0)
  else version

def readNetworkWrapper (txData : TxData) (common : Common) (version : Option Nat) :
    Except String NetworkWrapper := do
  let blobs ← readHexBytes txData.blobs
  let version := defaultVersion common version blobs
  throwWhen (version ≠ none ∧ blobs = none)
    "tx is not allowed to be in network wrapper format if no blob list is provided"
  let kzgCommitments ← readHexBytes txData.kzgCommitments
  let kzgProofs ← readHexBytes txData.kzgProofs
  throwWhen (blobs ≠ none ∧ kzgCommitments = none) "kzgCommitments are mandatory if blobs are provided"
  throwWhen (blobs ≠ none ∧ kzgProofs = none) "kzgProofs are mandatory if blobs are provided"
  pure ⟨version, blobs, kzgCommitments, kzgProofs⟩

/-- `(maxFeePerBlobGas ?? '') === '' ? '0x' : maxFeePerBlobGas`. -/
def BytesLike.missingTo0x : BytesLike → BytesLike
  | undefined => hex ['0', 'x']
  | v => v.emptyTo0x

def Blob4844Tx.new (txData : TxData) (opts : TxOptions) : Except String Blob4844Tx := do
  let networkWrapperVersion ← readNetworkWrapperVersion txData.networkWrapperVersion
  checkNetworkWrapperVersion opts.common networkWrapperVersion
  let tx ← sharedConstructor txData opts
  checkChainId txData.chainId tx.common
  throwWhen (tx.common.isActivatedEIP 1559 = false) "EIP-1559 not enabled on GlobalConfig"
  throwWhen (tx.common.isActivatedEIP 4844 = false) "EIP-4844 not enabled on GlobalConfig"
  let accessList ← readAccessList txData.accessList
  verifyAccessList accessList
  let maxFeePerGas ← toBytes txData.maxFeePerGas
  let maxPriorityFeePerGas ← toBytes txData.maxPriorityFeePerGas
  let tx : FeeMarketInterface := { tx with
    chainId := tx.common.chainIdBigInt
    accessList := accessList
    maxFeePerGas := bytesToBigInt maxFeePerGas
    maxPriorityFeePerGas := bytesToBigInt maxPriorityFeePerGas }
  valueOverflowCheck [("maxFeePerGas", some tx.maxFeePerGas),
    ("maxPriorityFeePerGas", some tx.maxPriorityFeePerGas)] 256 false
  validateNotArray txData.entries
  checkFees tx
  let maxFeePerBlobGas ← toBytes txData.maxFeePerBlobGas.missingTo0x
  let blobVersionedHashes ← readVersionedHashes txData.blobVersionedHashes
  validateYParity tx.toTransactionInterface
  validateHighS tx.toTransactionInterface
  blobVersionedHashes.forM (verifyVersionedHash tx.common)
  checkBlobCount tx.common blobVersionedHashes.length
  throwWhen (tx.to = none) "tx should have a \"to\" field and cannot be used to create contracts"
  let networkWrapper ← readNetworkWrapper txData tx.common networkWrapperVersion
  pure { tx with
    maxFeePerBlobGas := bytesToBigInt maxFeePerBlobGas
    blobVersionedHashes := blobVersionedHashes
    networkWrapper := networkWrapper }

end Tx
