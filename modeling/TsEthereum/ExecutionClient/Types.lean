-- SUMMARY: Transactions and pool objects as the transaction pool and the miner's ordering read them.

/-!
# Pool objects

The parts of a transaction that `service/txpool.ts` and `miner/ordering.ts` read.
Unprefixed hex strings have a fixed length, so an address or a hash is
represented by the number its digits write.
-/

abbrev UnprefixedAddress := Nat
abbrev UnprefixedHash := Nat

/-- The transaction types of `tx/src/types.ts`. -/
inductive TransactionType where
  | legacy
  | accessListEIP2930
  | feeMarketEIP1559
  | blobEIP4844
  | eoaCodeEIP7702
  deriving DecidableEq, Inhabited

/-- A transaction, with the values of the accessors the pool calls. -/
structure TypedTransaction where
  type : TransactionType
  /-- `isSigned()`; `hash()` throws when this is false. -/
  signed : Bool
  hash : UnprefixedHash
  /-- `getSenderAddress()`, or `none` where it throws. -/
  sender : Option UnprefixedAddress
  nonce : Nat
  gasPrice : Nat
  gasLimit : Nat
  value : Nat
  /-- `data.length`. -/
  dataLength : Nat
  deriving DecidableEq, Inhabited

def TypedTransaction.isLegacyTx (tx : TypedTransaction) : Bool := tx.type = .legacy

/-- What the pool stores for one transaction. The `error` field of the source is
never set on a pool object. -/
structure TxPoolObject where
  tx : TypedTransaction
  hash : UnprefixedHash
  added : Int
  deriving DecidableEq, Inhabited
