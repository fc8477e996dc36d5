-- SUMMARY: The operations of the transaction pool, cut at their `await` points, and the calls that complete as functions of the state.
import TsEthereum.ExecutionClient.TxPool.State
import Mathlib.Data.List.Sort

/-!
# The operations of the pool

Each operation of `service/txpool.ts` is written as the synchronous pieces
between its `await`s (`addTx`, `promoteAddr`, `demoteAddr`, ...) and, over them, as
the function that a call computes when nothing else runs in between. A call
returns the new state and what it throws, and `none` when it never returns: the
loop of `enforcePoolLimits` has no other way to fail.
-/

namespace TxPool

/-! ## Prices -/

structure GasPrice where
  tip : Nat
  maxFee : Nat

def txGasPrice (tx : TypedTransaction) : Except TxPoolError GasPrice :=
  if tx.isLegacyTx then .ok { tip := tx.gasPrice, maxFee := tx.gasPrice }
  else .error (.unknownType tx.type)

/-- The comparator of `priced`. `validate` lets only legacy transactions into the
pool, where `txGasPrice` does not throw. -/
def cheaper (a b : TxPoolObject) : Bool := a.tx.gasPrice < b.tx.gasPrice

def getMinPrice (s : TxPool) : Nat :=
  match s.priced.peek with
  | none => 0
  | some lowest => lowest.tx.gasPrice

/-- The loop of `removeFromPriced`, which empties the old heap into a new one. -/
def drain (hash : UnprefixedHash) : Nat → Heap TxPoolObject → Heap TxPoolObject → Heap TxPoolObject
  | 0, _, newHeap => newHeap
  | rounds + 1, heap, newHeap =>
    match heap.remove cheaper with
    | (none, _) => newHeap
    | (some item, heap) =>
      drain hash rounds heap (if item.hash ≠ hash then newHeap.insert cheaper item else newHeap)

def removeFromPriced (s : TxPool) (txObj : TxPoolObject) : TxPool :=
  { s with priced := drain txObj.hash s.priced.length s.priced Heap.empty }

/-! ## Nonces -/

/-- `sort((a, b) => Number(a.tx.nonce - b.tx.nonce))`, which is stable. -/
def sortByNonce (l : List TxPoolObject) : List TxPoolObject :=
  l.insertionSort (fun a b => a.tx.nonce ≤ b.tx.nonce)

/-- The `reduce` over a non-empty list that starts with `o`. -/
def maxNonce (o : TxPoolObject) (l : List TxPoolObject) : Nat :=
  l.foldl (fun max obj => if obj.tx.nonce > max then obj.tx.nonce else max) o.tx.nonce

/-- Account nonce or highest pending + 1. -/
def nextExpectedNonce (accountNonce : Nat) : List TxPoolObject → Nat
  | [] => accountNonce
  | o :: l => maxNonce o (o :: l) + 1

def setNonce (s : TxPool) (a : UnprefixedAddress) (nonce : Nat) : TxPool :=
  { s with accountNonces := s.accountNonces.set a nonce }

/-- The nonce cache, filled from the head where it has no entry. -/
def accountNonce (s : TxPool) (head : Head) (a : UnprefixedAddress) : Except TxPoolError (TxPool × Nat) :=
  match s.accountNonces.get a with
  | some nonce => .ok (s, nonce)
  | none =>
    match head.getAccount a with
    | none => .error .stateRoot
    | some account => .ok (s.setNonce a account.nonce, account.nonce)

/-- `classifyTransaction` once the account nonce is known. -/
def classify (s : TxPool) (tx : TypedTransaction) (a : UnprefixedAddress) (accountNonce : Nat) : PoolType :=
  match s.list .pending a with
  | [] => if tx.nonce = accountNonce then .pending else .queued
  | o :: l =>
    if tx.nonce = maxNonce o (o :: l) + 1 then .pending
    else if tx.nonce = accountNonce then .pending
    else .queued

def clearNonceCache (s : TxPool) : Option UnprefixedAddress → TxPool
  | some a => { s with accountNonces := s.accountNonces.delete a }
  | none => { s with accountNonces := OrderedMap.empty }

/-! ## validate -/

def minBump (price : Nat) : Nat := price + price * MIN_GAS_PRICE_BUMP_PERCENT / 100

def throwIf (c : Bool) (e : TxPoolError) : Except TxPoolError Unit :=
  if c then .error e else .ok ()

def validateTxGasBump (existingTx addedTx : TypedTransaction) : Except TxPoolError Unit := do
  let existing ← txGasPrice existingTx
  let added ← txGasPrice addedTx
  throwIf (added.tip < minBump existing.tip || added.maxFee < minBump existing.maxFee)
    (.replacementGasTooLow added.tip (minBump existing.tip) added.maxFee (minBump existing.maxFee))

/-- `(GLOBAL_SLOTS + GLOBAL_QUEUE) * 0.9`, which is an integer. -/
def UNDERPRICED_THRESHOLD : Int := (GLOBAL_SLOTS + GLOBAL_QUEUE) * 9 / 10

def allTxsForSender (s : TxPool) (a : UnprefixedAddress) : List TxPoolObject :=
  s.list .pending a ++ s.list .queued a

/-- The sender's object with the nonce of `tx`, in `pending` first. -/
def existingTxn (s : TxPool) (tx : TypedTransaction) (a : UnprefixedAddress) : Option TxPoolObject :=
  (s.allTxsForSender a).find? (fun obj => obj.tx.nonce = tx.nonce)

/-- The checks against the existing transaction, if there is one. -/
def validateReplacement (tx : TypedTransaction) : Option TxPoolObject → Except TxPoolError Unit
  | none => .ok ()
  | some existingTxn => do
    throwIf (existingTxn.tx.hash = tx.hash) (.alreadyInPool tx.hash)
    validateTxGasBump existingTxn.tx tx

/-- `validate` up to its first `await`. -/
def validateInPool (s : TxPool) (tx : TypedTransaction) (isLocal : Bool) (a : UnprefixedAddress) :
    Except TxPoolError Unit := do
  throwIf (!tx.signed) .notSigned
  throwIf (tx.dataLength > TX_MAX_DATA_SIZE) (.tooLarge tx.dataLength)
  let price ← txGasPrice tx
  throwIf (!isLocal && s.counts .pending + s.counts .queued ≥ UNDERPRICED_THRESHOLD &&
      price.tip ≤ s.getMinPrice)
    (.underpriced price.tip s.getMinPrice)
  throwIf (!isLocal && (s.allTxsForSender a).length ≥ MAX_TXS_PER_ACCOUNT) (.tooManyTxs a)
  validateReplacement tx (s.existingTxn tx a)

/-- What a transaction can cost its sender. -/
def cost (tx : TypedTransaction) : Nat := tx.value + tx.gasPrice * tx.gasLimit

def validateAccount (tx : TypedTransaction) (a : UnprefixedAddress) (account : Account) :
    Except TxPoolError Unit := do
  throwIf (account.nonce > tx.nonce) (.nonceTooLow a tx.nonce account.nonce)
  throwIf (account.balance < cost tx) (.insufficientBalance a (cost tx) account.balance)

/-- `validate` from its first `await` on; it does not read the pool. -/
def validateAtHead (head : Head) (tx : TypedTransaction) (a : UnprefixedAddress) :
    Except TxPoolError Unit := do
  throwIf (tx.gasLimit > head.gasLimit) (.gasLimitTooHigh tx.gasLimit head.gasLimit)
  match head.getAccount a with
  | none => .error .stateRoot
  | some account => validateAccount tx a account

/-- Checks the transaction against the pool, then against the head. -/
def validate (s : TxPool) (head : Head) (tx : TypedTransaction) (isLocal : Bool) (a : UnprefixedAddress) :
    Except TxPoolError Unit := do
  s.validateInPool tx isLocal a
  validateAtHead head tx a

/-! ## removeByHash, eviction -/

/-- The list that `removeByHash` looks at: `pending` if the hash is there. -/
def poolOfHash (s : TxPool) (hash : UnprefixedHash) (a : UnprefixedAddress) : PoolType :=
  if (s.list .pending a).any (fun obj => obj.hash = hash) then .pending else .queued

/-- The part of `removeByHash` that follows its searches. -/
def takeOut (s : TxPool) (hash : UnprefixedHash) (a : UnprefixedAddress) (pool : PoolType)
    (txObj : TxPoolObject) : TxPool :=
  let s := s.setOrDelete pool a ((s.list pool a).filter (fun obj => obj.hash ≠ hash))
  let s := s.addCount pool (-1)
  let s := s.removeFromPriced txObj
  { s with hashIndex := s.hashIndex.delete hash, locals := s.locals.delete hash }

def removeByHash (s : TxPool) (hash : UnprefixedHash) : TxPool :=
  match s.handled.get hash with
  | none => s
  | some handled =>
    let pool := s.poolOfHash hash handled.address
    match (s.list pool handled.address).find? (fun obj => obj.hash = hash) with
    | none => s
    | some txObj => s.takeOut hash handled.address pool txObj

/-- One round of the search in `evictLowestPriced`. -/
def lowerPriced (s : TxPool) (lowest : Option TxPoolObject) (txObj : TxPoolObject) : Option TxPoolObject :=
  if s.locals.has txObj.hash then lowest
  else if txObj.tx.gasPrice < (lowest.map (fun o => o.tx.gasPrice)).getD MAX_SAFE_INTEGER then some txObj
  else lowest

/-- The transaction that `evictLowestPriced` picks. -/
def lowestPriced (s : TxPool) (pool : PoolType) : Option TxPoolObject :=
  ((s.pools pool).keys.flatMap (s.list pool)).foldl s.lowerPriced none

/-- A loop of `enforcePoolLimits`. A round that removes nothing leaves the state as
it is, so the loop never ends once it outlasts the objects of the pool. -/
def enforceLimit (pool : PoolType) (limit : Int) : Nat → TxPool → Option TxPool
  | fuel, s =>
    if s.counts pool > limit then
      match s.lowestPriced pool with
      | none => some s
      | some lowestTx =>
        match fuel with
        | 0 => none
        | fuel + 1 => enforceLimit pool limit fuel (s.removeByHash lowestTx.hash)
    else some s

/-- The number of pooled objects. -/
def size (s : TxPool) : Nat :=
  (s.pools .pending).sumKeys (fun a => (s.list .pending a).length) +
    (s.pools .queued).sumKeys (fun a => (s.list .queued a).length)

def enforcePoolLimits (s : TxPool) : Option TxPool :=
  (enforceLimit .pending GLOBAL_SLOTS s.size s).bind
    (fun s => enforceLimit .queued GLOBAL_QUEUE s.size s)

/-! ## promoteExecutables -/

/-- How `promoteExecutables` splits a sorted queued list. -/
structure QueuedSplit where
  toPromote : List TxPoolObject
  stale : List TxPoolObject
  remaining : List TxPoolObject

def splitQueued (accountNonce : Nat) : Nat → List TxPoolObject → QueuedSplit
  | _, [] => { toPromote := [], stale := [], remaining := [] }
  | nextExpectedNonce, txObj :: l =>
    if txObj.tx.nonce = nextExpectedNonce then
      let split := splitQueued accountNonce (txObj.tx.nonce + 1) l
      { split with toPromote := txObj :: split.toPromote }
    else
      let split := splitQueued accountNonce nextExpectedNonce l
      if txObj.tx.nonce < accountNonce then { split with stale := txObj :: split.stale }
      else { split with remaining := txObj :: split.remaining }

/-- A stale queued object leaves everything but its list. -/
def dropStale (s : TxPool) (txObj : TxPoolObject) : TxPool :=
  let s := s.addCount .queued (-1)
  let s := s.removeFromPriced txObj
  { s with handled := s.handled.delete txObj.hash, hashIndex := s.hashIndex.delete txObj.hash }

def indexPromoted (a : UnprefixedAddress) (s : TxPool) (txObj : TxPoolObject) : TxPool :=
  { s with hashIndex := s.hashIndex.set txObj.hash { address := a, poolType := .pending } }

/-- Moves `toPromote` behind `pendingTxs`. -/
def movePromoted (s : TxPool) (a : UnprefixedAddress) (pendingTxs toPromote : List TxPoolObject) : TxPool :=
  if toPromote.isEmpty then s
  else
    let s := s.setNew .pending a (sortByNonce (pendingTxs ++ toPromote))
    let s := s.addCount .pending toPromote.length
    let s := s.addCount .queued (-toPromote.length)
    toPromote.foldl (indexPromoted a) s

/-- The split of the array `i` that was read from `queued`. -/
def promoteSplit (s : TxPool) (a : UnprefixedAddress) (i : Nat) (accountNonce : Nat) : QueuedSplit :=
  splitQueued accountNonce (nextExpectedNonce accountNonce (s.list .pending a))
    (sortByNonce (s.arrays .queued a i))

/-- One round of `promoteExecutables` once the account nonce is known: `i` is the
array that the round read from `queued` at its start. -/
def promoteAddr (s : TxPool) (a : UnprefixedAddress) (i : Nat) (accountNonce : Nat) : TxPool :=
  let pendingTxs := s.list .pending a
  let split := s.promoteSplit a i accountNonce
  let s := s.writeArray .queued a i (sortByNonce (s.arrays .queued a i))
  let s := split.stale.foldl dropStale s
  let s := s.movePromoted a pendingTxs split.toPromote
  s.setOrDelete .queued a split.remaining

/-- The loop of `promoteExecutables`; the second component is what it throws. -/
def promoteExecutables (head : Head) : List UnprefixedAddress → TxPool → TxPool × Option TxPoolError
  | [], s => (s, none)
  | a :: addresses, s =>
    match (s.pools .queued).get a with
    | none => promoteExecutables head addresses s
    | some i =>
      if (s.arrays .queued a i).isEmpty then promoteExecutables head addresses s
      else
        match s.accountNonce head a with
        | .error e => (s, some e)
        | .ok (s, nonce) => promoteExecutables head addresses (s.promoteAddr a i nonce)

/-! ## demoteUnexecutables -/

/-- How `demoteUnexecutables` splits a sorted pending list. -/
structure PendingSplit where
  stillPending : List TxPoolObject
  toDemote : List TxPoolObject
  toRemove : List TxPoolObject

/-- `expected` is `lastValidNonce + 1`. -/
def splitPending (account : Account) : Nat → List TxPoolObject → PendingSplit
  | _, [] => { stillPending := [], toDemote := [], toRemove := [] }
  | expected, txObj :: l =>
    if txObj.tx.nonce < account.nonce then
      let split := splitPending account expected l
      { split with toRemove := txObj :: split.toRemove }
    else if account.balance < cost txObj.tx ∨ txObj.tx.nonce ≠ expected then
      let split := splitPending account expected l
      { split with toDemote := txObj :: split.toDemote }
    else
      let split := splitPending account (txObj.tx.nonce + 1) l
      { split with stillPending := txObj :: split.stillPending }

/-- An already mined pending object leaves the count, the heap, `handled` and
`locals`; its `hashIndex` entry stays. -/
def removeMined (s : TxPool) (txObj : TxPoolObject) : TxPool :=
  let s := s.addCount .pending (-1)
  let s := s.removeFromPriced txObj
  { s with handled := s.handled.delete txObj.hash, locals := s.locals.delete txObj.hash }

/-- Moves `toDemote` behind the queued list; the `hashIndex` entries stay. -/
def moveDemoted (s : TxPool) (a : UnprefixedAddress) (toDemote : List TxPoolObject) : TxPool :=
  if toDemote.isEmpty then s
  else
    let s := s.setNew .queued a (sortByNonce (s.list .queued a ++ toDemote))
    let s := s.addCount .pending (-toDemote.length)
    s.addCount .queued toDemote.length

/-- The split of the array `i` that was read from `pending`. -/
def demoteSplit (s : TxPool) (a : UnprefixedAddress) (i : Nat) (account : Account) : PendingSplit :=
  splitPending account account.nonce (sortByNonce (s.arrays .pending a i))

/-- One round of `demoteUnexecutables` once the account is known: `i` is the array
that the round read from `pending` at its start. -/
def demoteAddr (s : TxPool) (a : UnprefixedAddress) (i : Nat) (account : Account) : TxPool :=
  let split := s.demoteSplit a i account
  let s := s.setNonce a account.nonce
  let s := s.writeArray .pending a i (sortByNonce (s.arrays .pending a i))
  let s := split.toRemove.foldl removeMined s
  let s := s.moveDemoted a split.toDemote
  s.setOrDelete .pending a split.stillPending

/-- The loop of `demoteUnexecutables`. A round only writes the entry of its own
sender, so the loop visits the senders that were there at its start. -/
def demoteAddrs (accounts : UnprefixedAddress → Option Account) : List UnprefixedAddress → TxPool → TxPool
  | [], s => s
  | a :: addresses, s =>
    match (s.pools .pending).get a with
    | none => demoteAddrs accounts addresses s
    | some i => demoteAddrs accounts addresses (s.demoteAddr a i ((accounts a).getD Account.new))

/-- Returns at once when the state root cannot be set. -/
def demoteUnexecutables (head : Head) (s : TxPool) : TxPool :=
  match head.state with
  | none => s
  | some accounts => demoteAddrs accounts (s.pools .pending).keys s

/-! ## add -/

def accountLimit : PoolType → Nat
  | .pending => ACCOUNT_SLOTS
  | .queued => ACCOUNT_QUEUE

/-- The object that `add` replaces. -/
def replaced (s : TxPool) (tx : TypedTransaction) (a : UnprefixedAddress) (pool : PoolType) :
    Option TxPoolObject :=
  (s.list pool a).find? (fun obj => obj.tx.nonce = tx.nonce)

/-- The list without the replaced object. -/
def withoutReplaced (s : TxPool) (tx : TypedTransaction) (a : UnprefixedAddress) (pool : PoolType) :
    List TxPoolObject :=
  (s.list pool a).eraseP (fun obj => obj.tx.nonce = tx.nonce)

/-- The replaced object leaves the heap, the index and the count; its list is
written later. -/
def forgetReplaced (s : TxPool) (pool : PoolType) : Option TxPoolObject → TxPool
  | none => s
  | some oldTxObj =>
    let s := s.removeFromPriced oldTxObj
    { s with hashIndex := s.hashIndex.delete oldTxObj.hash }.addCount pool (-1)

/-- `push`, `sort` and `set`: in place on the attached array, unless a replaced
object was filtered out of it. -/
def storeTx (s : TxPool) (a : UnprefixedAddress) (pool : PoolType) (old : Option TxPoolObject)
    (existingTxs : List TxPoolObject) (txObj : TxPoolObject) : TxPool :=
  match old, (s.pools pool).get a with
  | none, some i => s.writeArray pool a i (sortByNonce (existingTxs ++ [txObj]))
  | _, _ => s.setNew pool a (sortByNonce (existingTxs ++ [txObj]))

def newObject (tx : TypedTransaction) (added : Int) : TxPoolObject where
  tx := tx
  hash := tx.hash
  added := added

/-- Enters the new object everywhere, once the replaced one is forgotten. -/
def fileTx (s : TxPool) (tx : TypedTransaction) (isLocal : Bool) (added : Int) (a : UnprefixedAddress)
    (pool : PoolType) (old : Option TxPoolObject) (existingTxs : List TxPoolObject) : TxPool :=
  let txObj := newObject tx added
  let s := s.storeTx a pool old existingTxs txObj
  let s := { s with priced := s.priced.insert cheaper txObj }
  let s := if isLocal then { s with locals := s.locals.set tx.hash () } else s
  let s := s.addCount pool 1
  { s with
    handled := s.handled.set tx.hash { address := a, added := added, error := none }
    hashIndex := s.hashIndex.set tx.hash { address := a, poolType := pool } }

/-- The account has no room in the pool, the replaced object not counted. -/
def exceedsLimit (s : TxPool) (tx : TypedTransaction) (isLocal : Bool) (a : UnprefixedAddress)
    (pool : PoolType) : Bool :=
  !isLocal && (s.withoutReplaced tx a pool).length ≥ accountLimit pool

/-- `add` from the return of `classifyTransaction` to its next `await`. -/
def addTx (s : TxPool) (tx : TypedTransaction) (isLocal : Bool) (added : Int) (a : UnprefixedAddress)
    (pool : PoolType) : TxPool × Option TxPoolError :=
  let old := s.replaced tx a pool
  let forgotten := s.forgetReplaced pool old
  if s.exceedsLimit tx isLocal a pool then
    (forgotten, some (.accountLimit a pool (accountLimit pool)))
  else (forgotten.fileTx tx isLocal added a pool old (s.withoutReplaced tx a pool), none)

/-- The `catch` of `add`. -/
def handleError (s : TxPool) (tx : TypedTransaction) (a : UnprefixedAddress) (added : Int)
    (e : TxPoolError) : TxPool :=
  { s with handled := s.handled.set tx.hash { address := a, added := added, error := some e } }

/-- The promotion that follows an insertion into `pending`. -/
def promoteAfterAdd (head : Head) (a : UnprefixedAddress) (s : TxPool) :
    PoolType → TxPool × Option TxPoolError
  | .pending => promoteExecutables head [a] s
  | .queued => (s, none)

/-- `add` for a transaction that is signed and has a sender. -/
def addFrom (env : Env) (s : TxPool) (tx : TypedTransaction) (isLocal : Bool) (a : UnprefixedAddress) :
    Option (TxPool × Option TxPoolError) :=
  match s.validate env.head tx isLocal a with
  | .error e => some (s.handleError tx a env.now e, some e)
  | .ok () =>
    match s.accountNonce env.head a with
    | .error e => some (s.handleError tx a env.now e, some e)
    | .ok (s, nonce) =>
      let pool := s.classify tx a nonce
      match s.addTx tx isLocal env.now a pool with
      | (s, some e) => some (s.handleError tx a env.now e, some e)
      | (s, none) =>
        match promoteAfterAdd env.head a s pool with
        | (s, some e) => some (s.handleError tx a env.now e, some e)
        | (s, none) => s.enforcePoolLimits.map (fun s => (s, none))

def add (env : Env) (s : TxPool) (tx : TypedTransaction) (isLocal : Bool) :
    Option (TxPool × Option TxPoolError) :=
  if tx.signed then
    match tx.sender with
    | none => some (s, some .transaction)
    | some a => addFrom env s tx isLocal a
  else some (s, some .transaction)

/-! ## Blocks, reorgs and cleanup -/

/-- A block, as its transactions. -/
abbrev BlockTxs := List TypedTransaction

def removeNewBlockTxs (newBlocks : List BlockTxs) (s : TxPool) : TxPool :=
  if s.running then newBlocks.flatten.foldl (fun s tx => s.removeByHash tx.hash) s else s

/-- An orphaned transaction is skipped when it is in a new block or was handled. -/
def skipsOrphan (s : TxPool) (newBlocks : List BlockTxs) (tx : TypedTransaction) : Bool :=
  newBlocks.flatten.any (fun t => t.hash = tx.hash) || s.handled.has tx.hash

/-- The first loop of `handleReorg`: a rejected transaction is skipped. -/
def reinject (env : Env) (newBlocks : List BlockTxs) : List TypedTransaction → TxPool → Option TxPool
  | [], s => some s
  | tx :: txs, s =>
    if s.skipsOrphan newBlocks tx then reinject env newBlocks txs s
    else (add env s tx true).bind (fun r => reinject env newBlocks txs r.1)

def handleReorg (env : Env) (s : TxPool) (oldBlocks newBlocks : List BlockTxs) :
    Option (TxPool × Option TxPoolError) :=
  (reinject env newBlocks oldBlocks.flatten s).map fun s =>
    let s := s.clearNonceCache none
    let s := s.removeNewBlockTxs newBlocks
    let s := s.demoteUnexecutables env.head
    promoteExecutables env.head (s.pools .queued).keys s

/-- An expired object leaves everything but its list and the count. -/
def dropExpired (s : TxPool) (txObj : TxPoolObject) : TxPool :=
  let s := s.removeFromPriced txObj
  { s with
    handled := s.handled.delete txObj.hash
    hashIndex := s.hashIndex.delete txObj.hash
    locals := s.locals.delete txObj.hash }

/-- The objects of a list that `cleanup` drops. -/
def expired (compDate : Int) (pool : PoolType) (s : TxPool) (a : UnprefixedAddress) : List TxPoolObject :=
  (s.list pool a).filter (fun obj => obj.added < compDate)

/-- The objects of a list that `cleanup` keeps. -/
def updatedObjects (compDate : Int) (pool : PoolType) (s : TxPool) (a : UnprefixedAddress) :
    List TxPoolObject :=
  (s.list pool a).filter (fun obj => obj.added ≥ compDate)

def removeExpired (s : TxPool) (pool : PoolType) (a : UnprefixedAddress)
    (expired updatedObjects : List TxPoolObject) : TxPool :=
  let s := s.addCount pool (-expired.length)
  let s := expired.foldl dropExpired s
  s.setOrDelete pool a updatedObjects

/-- One round of `cleanup` over `pending` or `queued`. -/
def cleanupAddr (compDate : Int) (pool : PoolType) (s : TxPool) (a : UnprefixedAddress) : TxPool :=
  if (expired compDate pool s a).isEmpty then s
  else s.removeExpired pool a (expired compDate pool s a) (updatedObjects compDate pool s a)

def cleanupPool (compDate : Int) (pool : PoolType) (s : TxPool) : TxPool :=
  (s.pools pool).keys.foldl (cleanupAddr compDate pool) s

/-- One round over `handled`. -/
def forgetHandled (compDate : Int) (s : TxPool) (hash : UnprefixedHash) : TxPool :=
  match s.handled.get hash with
  | none => s
  | some h => if h.added < compDate then { s with handled := s.handled.delete hash } else s

def cleanupHandled (compDate : Int) (s : TxPool) : TxPool :=
  s.handled.keys.foldl (forgetHandled compDate) s

/-- `cleanup`, without the records of what each peer knows. -/
def cleanup (now : Int) (s : TxPool) : TxPool :=
  let compDate := now - POOLED_STORAGE_TIME_LIMIT * 1000 * 60
  let s := cleanupPool compDate .pending s
  let s := cleanupPool compDate .queued s
  cleanupHandled (now - HANDLED_CLEANUP_TIME_LIMIT * 1000 * 60) s

/-! ## Runs -/

/-- A call of one of the pool's operations. -/
inductive Call where
  | add (tx : TypedTransaction) (isLocal : Bool)
  | promoteExecutables (address : Option UnprefixedAddress)
  | demoteUnexecutables
  | removeByHash (hash : UnprefixedHash)
  | removeNewBlockTxs (newBlocks : List BlockTxs)
  | handleReorg (oldBlocks newBlocks : List BlockTxs)
  | cleanup
  | clearNonceCache (address : Option UnprefixedAddress)
  | start
  | stop

/-- The senders that `promoteExecutables` goes through. -/
def promotedAddresses (s : TxPool) : Option UnprefixedAddress → List UnprefixedAddress
  | some a => [a]
  | none => (s.pools .queued).keys

/-- A call, with what it throws. -/
def call (env : Env) (s : TxPool) : Call → Option (TxPool × Option TxPoolError)
  | .add tx isLocal => s.add env tx isLocal
  | .promoteExecutables a => some (promoteExecutables env.head (s.promotedAddresses a) s)
  | .demoteUnexecutables => some (s.demoteUnexecutables env.head, none)
  | .removeByHash hash => some (s.removeByHash hash, none)
  | .removeNewBlockTxs newBlocks => some (s.removeNewBlockTxs newBlocks, none)
  | .handleReorg oldBlocks newBlocks => s.handleReorg env oldBlocks newBlocks
  | .cleanup => some (s.cleanup env.now, none)
  | .clearNonceCache a => some (s.clearNonceCache a, none)
  | .start => some ({ s with running := true }, none)
  | .stop => some ({ s with running := false }, none)

/-- A run of completed calls, each with the head and the time it reads. -/
def run : List (Env × Call) → TxPool → Option TxPool
  | [], s => some s
  | (env, c) :: calls, s => (s.call env c).bind (fun r => run calls r.1)

end TxPool
