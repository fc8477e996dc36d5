-- SUMMARY: The state of the transaction pool, its errors, and the few primitive ways in which its operations write their lists.
import TsEthereum.Base.OrderedMap
import TsEthereum.ExecutionClient.QHeap
import TsEthereum.ExecutionClient.Types
import Mathlib.Data.Nat.Digits.Defs

/-!
# The state of the pool

`pending` and `queued` are maps from senders to arrays. Two calls of the pool
can hold the same array, and some code sorts or extends an array in place, so
the state keeps an array store: a map entry names an array, and the contents
stand in the store. An array is only ever attached to one sender of one pool,
and its name says which.
-/

inductive PoolType where
  | pending
  | queued
  deriving DecidableEq, Inhabited

namespace PoolType

def other : PoolType → PoolType
  | pending => queued
  | queued => pending

/-- The name that error texts use. -/
def name : PoolType → String
  | pending => "pending"
  | queued => "queued"

theorem eq_or_eq_other (p q : PoolType) : q = p ∨ q = p.other := by
  cases p <;> cases q <;> simp [other]

theorem other_ne (p : PoolType) : p.other ≠ p := by cases p <;> simp [other]

end PoolType

/-! ## Configuration constants -/

def MIN_GAS_PRICE_BUMP_PERCENT : Nat := 10
def TX_MAX_DATA_SIZE : Nat := 128 * 1024
def MAX_TXS_PER_ACCOUNT : Nat := 100
def GLOBAL_SLOTS : Nat := 4096
def GLOBAL_QUEUE : Nat := 1024
def ACCOUNT_SLOTS : Nat := 16
def ACCOUNT_QUEUE : Nat := 64

/-- `POOLED_STORAGE_TIME_LIMIT`, in minutes. -/
def POOLED_STORAGE_TIME_LIMIT : Int := 20

/-- `HANDLED_CLEANUP_TIME_LIMIT`, in minutes. -/
def HANDLED_CLEANUP_TIME_LIMIT : Int := 60

/-- `Number.MAX_SAFE_INTEGER`. -/
def MAX_SAFE_INTEGER : Nat := 2 ^ 53 - 1

/-! ## Errors -/

/-- What `add` throws, with the values its texts print. -/
inductive TxPoolError where
  /-- thrown by `tx.hash()` or `tx.getSenderAddress()` -/
  | transaction
  /-- thrown by the state manager -/
  | stateRoot
  | notSigned
  | tooLarge (dataLength : Nat)
  | unknownType (type : TransactionType)
  | underpriced (txPrice minPrice : Nat)
  | tooManyTxs (sender : UnprefixedAddress)
  | alreadyInPool (hash : UnprefixedHash)
  | replacementGasTooLow (tip minTip fee minFee : Nat)
  | gasLimitTooHigh (gasLimit blockGasLimit : Nat)
  | nonceTooLow (sender : UnprefixedAddress) (nonce accountNonce : Nat)
  | insufficientBalance (sender : UnprefixedAddress) (need balance : Nat)
  | accountLimit (sender : UnprefixedAddress) (pool : PoolType) (limit : Nat)
  deriving DecidableEq

/-- The lowest `width` hex digits of `n`. -/
def hexDigits (width n : Nat) : String :=
  String.ofList ((List.range width).reverse.map (fun i => Nat.digitChar (n / 16 ^ i % 16)))

def TransactionType.number : TransactionType → Nat
  | .legacy => 0
  | .accessListEIP2930 => 1
  | .feeMarketEIP1559 => 2
  | .blobEIP4844 => 3
  | .eoaCodeEIP7702 => 4

/-- The text of the errors that the pool writes itself. -/
def TxPoolError.message : TxPoolError → Option String
  | transaction => none
  | stateRoot => none
  | notSigned => some "Attempting to add tx to txpool which is not signed"
  | tooLarge n => some
      s!"Tx is too large ({n} bytes) and exceeds the max data size of {TX_MAX_DATA_SIZE} bytes"
  | unknownType t => some s!"tx of type {t.number} unknown"
  | underpriced txPrice minPrice => some
      s!"Transaction underpriced: {txPrice} <= pool minimum {minPrice}"
  | tooManyTxs a => some
      s!"Cannot add tx for 0x{hexDigits 40 a}: already have max amount of txs for this account"
  | alreadyInPool h => some s!"0x{hexDigits 64 h}: this transaction is already in the TxPool"
  | replacementGasTooLow tip minTip fee minFee => some
      s!"replacement gas too low, got tip {tip}, min: {minTip}, got fee {fee}, min: {minFee}"
  | gasLimitTooHigh g b => some
      s!"Tx gaslimit of {g} exceeds block gas limit of {b} (exceeds last block gas limit)"
  | nonceTooLow a n m => some
      s!"0x{hexDigits 40 a} tries to send a tx with nonce {n}, but account has nonce {m} (tx nonce too low)"
  | insufficientBalance a need b => some
      s!"0x{hexDigits 40 a} does not have enough balance to cover transaction costs, need {need}, but have {b} (insufficient balance)"
  | accountLimit a p limit => some
      s!"Cannot add tx: account {hexDigits 40 a} exceeds {p.name} limit of {limit}"

/-! ## The state -/

structure HandledObject where
  address : UnprefixedAddress
  added : Int
  error : Option TxPoolError

/-- An entry of `hashIndex`. -/
structure IndexEntry where
  address : UnprefixedAddress
  poolType : PoolType
  deriving DecidableEq

/-- The fields of `TxPool` that its operations on transactions read. -/
structure TxPool where
  /-- `pending` and `queued`: which array is attached to a sender -/
  pools : PoolType → OrderedMap UnprefixedAddress Nat
  /-- the contents of every array that was ever attached -/
  arrays : PoolType → UnprefixedAddress → Nat → List TxPoolObject
  nextArray : Nat
  /-- `pendingCount` and `queuedCount` -/
  counts : PoolType → Int
  accountNonces : OrderedMap UnprefixedAddress Nat
  locals : OrderedMap UnprefixedHash Unit
  priced : Heap TxPoolObject
  handled : OrderedMap UnprefixedHash HandledObject
  hashIndex : OrderedMap UnprefixedHash IndexEntry
  running : Bool

namespace TxPool

/-- The fields of an account that the pool reads. -/
structure Account where
  nonce : Nat
  balance : Nat

/-- `new Account()`. -/
def Account.new : Account where
  nonce := 0
  balance := 0

/-- The canonical head header: its gas limit, and the accounts under its state
root, or `none` where `setStateRoot` throws. -/
structure Head where
  gasLimit : Nat
  state : Option (UnprefixedAddress → Option Account)

/-- `getAccount(address) ?? new Account()` under the state root of the head. -/
def Head.getAccount (head : Head) (a : UnprefixedAddress) : Option Account :=
  head.state.map (fun accounts => (accounts a).getD Account.new)

/-- What an operation reads from outside the pool. -/
structure Env where
  head : Head
  /-- `Date.now()` -/
  now : Int

/-- `new TxPool(options)`. -/
def new : TxPool where
  pools := fun _ => OrderedMap.empty
  arrays := fun _ _ _ => []
  nextArray := 0
  counts := fun _ => 0
  accountNonces := OrderedMap.empty
  locals := OrderedMap.empty
  priced := Heap.empty
  handled := OrderedMap.empty
  hashIndex := OrderedMap.empty
  running := false

/-! ## Lists -/

/-- `this.pending.get(address) ?? []`, and the same for `queued`. -/
def list (s : TxPool) (p : PoolType) (a : UnprefixedAddress) : List TxPoolObject :=
  match (s.pools p).get a with
  | none => []
  | some i => s.arrays p a i

/-- Replaces the value at one pool and sender. -/
def updateAt {β : Type} (f : PoolType → UnprefixedAddress → β) (p : PoolType) (a : UnprefixedAddress)
    (x : β) : PoolType → UnprefixedAddress → β :=
  fun q b => if q = p ∧ b = a then x else f q b

/-- Writes an array in place. -/
def writeArray (s : TxPool) (p : PoolType) (a : UnprefixedAddress) (i : Nat) (l : List TxPoolObject) :
    TxPool :=
  { s with arrays := updateAt s.arrays p a (Function.update (s.arrays p a) i l) }

/-- `targetPool.set(address, l)` for a new array `l`. -/
def setNew (s : TxPool) (p : PoolType) (a : UnprefixedAddress) (l : List TxPoolObject) : TxPool :=
  { s with
    pools := Function.update s.pools p ((s.pools p).set a s.nextArray)
    arrays := updateAt s.arrays p a (Function.update (s.arrays p a) s.nextArray l)
    nextArray := s.nextArray + 1 }

/-- `targetPool.delete(address)`. -/
def deleteKey (s : TxPool) (p : PoolType) (a : UnprefixedAddress) : TxPool :=
  { s with pools := Function.update s.pools p ((s.pools p).delete a) }

/-- `delete` when the new array is empty, `set` otherwise. -/
def setOrDelete (s : TxPool) (p : PoolType) (a : UnprefixedAddress) (l : List TxPoolObject) : TxPool :=
  if l.isEmpty then s.deleteKey p a else s.setNew p a l

/-- `pendingCount += n` or `queuedCount += n`. -/
def addCount (s : TxPool) (p : PoolType) (n : Int) : TxPool :=
  { s with counts := Function.update s.counts p (s.counts p + n) }

@[simp] theorem updateAt_self {β : Type} (f : PoolType → UnprefixedAddress → β) (p : PoolType)
    (a : UnprefixedAddress) (x : β) : updateAt f p a x p a = x := by
  simp [updateAt]

theorem updateAt_of_pool_ne {β : Type} (f : PoolType → UnprefixedAddress → β) {p q : PoolType}
    (h : q ≠ p) (a b : UnprefixedAddress) (x : β) : updateAt f p a x q b = f q b := by
  simp [updateAt, h]

theorem updateAt_of_address_ne {β : Type} (f : PoolType → UnprefixedAddress → β) (p q : PoolType)
    {a b : UnprefixedAddress} (h : b ≠ a) (x : β) : updateAt f p a x q b = f q b := by
  simp [updateAt, h]

@[simp] theorem list_new (p : PoolType) (a : UnprefixedAddress) : new.list p a = [] := rfl

theorem list_of_attached {s : TxPool} {p : PoolType} {a : UnprefixedAddress} {i : Nat}
    (hi : (s.pools p).get a = some i) : s.list p a = s.arrays p a i := by
  simp only [list, hi]

theorem list_of_absent {s : TxPool} {p : PoolType} {a : UnprefixedAddress}
    (hi : (s.pools p).get a = none) : s.list p a = [] := by
  simp only [list, hi]

/-- A sender without an entry has no objects, so sums over the entries are sums
over all senders. -/
theorem list_of_not_mem {s : TxPool} {p : PoolType} {a : UnprefixedAddress}
    (ha : a ∉ (s.pools p).keys) : s.list p a = [] :=
  list_of_absent (OrderedMap.get_eq_none.mpr ha)

theorem list_setNew (s : TxPool) (p : PoolType) (a : UnprefixedAddress) (l : List TxPoolObject) :
    (s.setNew p a l).list = updateAt s.list p a l := by
  funext q b
  by_cases hq : q = p
  · subst hq
    by_cases hb : b = a
    · subst hb
      simp [list, setNew]
    · simp [list, setNew, updateAt, hb]
  · simp [list, setNew, updateAt, hq]

theorem list_deleteKey (s : TxPool) (p : PoolType) (a : UnprefixedAddress) :
    (s.deleteKey p a).list = updateAt s.list p a [] := by
  funext q b
  by_cases hq : q = p
  · subst hq
    by_cases hb : b = a
    · subst hb
      simp [list, deleteKey]
    · simp [list, deleteKey, updateAt, hb]
  · simp [list, deleteKey, updateAt, hq]

theorem list_setOrDelete (s : TxPool) (p : PoolType) (a : UnprefixedAddress) (l : List TxPoolObject) :
    (s.setOrDelete p a l).list = updateAt s.list p a l := by
  unfold setOrDelete
  split
  · rename_i hl
    rw [list_deleteKey, List.isEmpty_iff.mp hl]
  · exact list_setNew s p a l

/-- Writing the attached array changes the sender's list. -/
theorem list_writeArray {s : TxPool} {p : PoolType} {a : UnprefixedAddress} {i : Nat}
    (hi : (s.pools p).get a = some i) (l : List TxPoolObject) :
    (s.writeArray p a i l).list = updateAt s.list p a l := by
  funext q b
  by_cases hq : q = p ∧ b = a
  · obtain ⟨rfl, rfl⟩ := hq
    simp [list, writeArray, hi]
  · simp [list, writeArray, updateAt, hq]

/-- Writing an array, attached or not, changes no list of another pool or sender. -/
theorem list_writeArray_of_ne (s : TxPool) {p q : PoolType} {a b : UnprefixedAddress}
    (h : ¬(q = p ∧ b = a)) (i : Nat) (l : List TxPoolObject) :
    (s.writeArray p a i l).list q b = s.list q b := by
  simp [list, writeArray, updateAt, h]

/-! The writes of lists and counts leave the other fields alone. -/

section Frame

variable (s : TxPool) (p : PoolType) (a : UnprefixedAddress) (i : Nat) (l : List TxPoolObject) (n : Int)

@[simp] theorem list_addCount : (s.addCount p n).list = s.list := rfl
@[simp] theorem priced_addCount : (s.addCount p n).priced = s.priced := rfl
@[simp] theorem hashIndex_addCount : (s.addCount p n).hashIndex = s.hashIndex := rfl
@[simp] theorem accountNonces_addCount : (s.addCount p n).accountNonces = s.accountNonces := rfl
@[simp] theorem counts_addCount :
    (s.addCount p n).counts = Function.update s.counts p (s.counts p + n) := rfl

@[simp] theorem counts_setNew : (s.setNew p a l).counts = s.counts := rfl
@[simp] theorem counts_writeArray : (s.writeArray p a i l).counts = s.counts := rfl

@[simp] theorem counts_setOrDelete : (s.setOrDelete p a l).counts = s.counts := by
  unfold setOrDelete; split <;> rfl

@[simp] theorem priced_setOrDelete : (s.setOrDelete p a l).priced = s.priced := by
  unfold setOrDelete; split <;> rfl

@[simp] theorem hashIndex_setOrDelete : (s.setOrDelete p a l).hashIndex = s.hashIndex := by
  unfold setOrDelete; split <;> rfl

@[simp] theorem accountNonces_setOrDelete : (s.setOrDelete p a l).accountNonces = s.accountNonces := by
  unfold setOrDelete; split <;> rfl

end Frame

end TxPool
