-- SUMMARY: The state manager over a Merkle Patricia trie: accounts, storage tries, their caches and the flush.
import TsEthereum.Tx.Bytes

/-!
# MerkleStateManager

`merkleStateManager.ts` with the caches of `cache/`. A trie is what it holds, and a
root is the trie that it is the root of; the accounts are kept in one trie and the
storage of an account in one of its own. A storage trie that has been looked at is
held by the hash of its address. The entry under the address itself is the same
object and is never looked up, so it is left out. Caches are of the kind that drops
nothing. Of their diffs only the keys are kept that have been changed at the current
checkpoint height, since a flush looks at nothing else.
-/

open Tx (unpadBytes)

namespace MerkleStateManager

abbrev StorageKey := {b : Bytes // b.length = 32}

/-- What a storage trie holds; no bytes where there is no value. -/
abbrev Storage := StorageKey → Bytes

def EMPTY_TRIE_ROOT : Storage := fun _ => []

structure Account where
  nonce : Nat
  balance : Nat
  storageRoot : Storage
  codeHash : Bytes

/-- `new Account()`. -/
def Account.new : Account := ⟨0, 0, EMPTY_TRIE_ROOT, KECCAK256_NULL⟩

/-! ## Caches -/

/-- `AccountCache` and `CodeCache`; an element without a value is known not to exist. -/
structure ItemCache (ν : Type) where
  elements : OrderedMap Address (Option ν)
  changed : OrderedMap Address Unit

namespace ItemCache

variable {ν : Type}

def put (c : ItemCache ν) (address : Address) (value : Option ν) : ItemCache ν where
  elements := c.elements.set address value
  changed := c.changed.set address ()

def del (c : ItemCache ν) (address : Address) : ItemCache ν := c.put address none

/-- The items of a flush. -/
def items (c : ItemCache ν) : List (Address × Option ν) :=
  c.changed.keys.filterMap fun address => (c.elements.get address).map (address, ·)

/-- The diff after a flush. -/
def flushed (c : ItemCache ν) : ItemCache ν := { c with changed := .empty }

end ItemCache

structure StorageCache where
  elements : OrderedMap Address (OrderedMap StorageKey Bytes)
  changed : OrderedMap Address (OrderedMap StorageKey Unit)

namespace StorageCache

def put (c : StorageCache) (address : Address) (key : StorageKey) (value : Bytes) : StorageCache where
  elements := c.elements.set address (((c.elements.get address).getD .empty).set key value)
  changed := c.changed.set address (((c.changed.get address).getD .empty).set key ())

def get (c : StorageCache) (address : Address) (key : StorageKey) : Option Bytes :=
  (c.elements.get address).bind (·.get key)

def clearStorage (c : StorageCache) (address : Address) : StorageCache :=
  { c with elements := c.elements.set address .empty }

/-- The loop of `flush`. -/
def itemsOf (elements : OrderedMap Address (OrderedMap StorageKey Bytes)) :
    List (Address × OrderedMap StorageKey Unit) →
      Except String (List (Address × StorageKey × Option Bytes))
  | [] => .ok []
  | (address, keys) :: diffs =>
    match elements.get address with
    | none => .error "internal error: storage cache map for account should be defined"
    | some storageMap => do
      let items ← itemsOf elements diffs
      .ok (keys.keys.map (fun key => (address, key, storageMap.get key)) ++ items)

def items (c : StorageCache) : Except String (List (Address × StorageKey × Option Bytes)) :=
  itemsOf c.elements c.changed.entries

def flushed (c : StorageCache) : StorageCache := { c with changed := .empty }

end StorageCache

structure Caches where
  account : Option (ItemCache Account)
  code : Option (ItemCache Bytes)
  storage : Option StorageCache

end MerkleStateManager

structure MerkleStateManager where
  _trie : Address → Option MerkleStateManager.Account
  _storageTries : OrderedMap Bytes MerkleStateManager.Storage
  _caches : MerkleStateManager.Caches

namespace MerkleStateManager

/-- A state manager on a trie of accounts, with the caches that it is to have. -/
def new (trie : Address → Option Account) (account code storage : Bool) : MerkleStateManager where
  _trie := trie
  _storageTries := .empty
  _caches :=
    { account := if account then some ⟨.empty, .empty⟩ else none
      code := if code then some ⟨.empty, .empty⟩ else none
      storage := if storage then some ⟨.empty, .empty⟩ else none }

/-! ## Parts of the state -/

def cachedAccount (address : Address) : StateM MerkleStateManager (Option (Option Account)) := fun s =>
  (s._caches.account.bind (·.elements.get address), s)

/-- Nothing happens where accounts are not cached. -/
def cacheAccount (address : Address) (account : Option Account) : StateM MerkleStateManager Unit :=
  fun s => ((), { s with _caches := { s._caches with
    account := s._caches.account.map (·.put address account) } })

def trieAccount (address : Address) : StateM MerkleStateManager (Option Account) := fun s =>
  (s._trie address, s)

def setTrieAccount (address : Address) (account : Option Account) : StateM MerkleStateManager Unit :=
  fun s => ((), { s with _trie := Function.update s._trie address account })

def accountsCached : StateM MerkleStateManager Bool := fun s => (s._caches.account.isSome, s)

def cachedStorage (address : Address) (key : StorageKey) : StateM MerkleStateManager (Option Bytes) :=
  fun s => (s._caches.storage.bind (·.get address key), s)

def cacheStorage (address : Address) (key : StorageKey) (value : Bytes) :
    StateM MerkleStateManager Unit :=
  fun s => ((), { s with _caches := { s._caches with
    storage := s._caches.storage.map (·.put address key value) } })

/-- `Caches.deleteAccount`. -/
def Caches.deleteAccount (c : Caches) (address : Address) : Caches where
  code := c.code.map (·.del address)
  account := c.account.map (·.del address)
  storage := c.storage.map (·.clearStorage address)

/-! ## Accounts -/

def getAccount (address : Address) : StateM MerkleStateManager (Option Account) := do
  match ← cachedAccount address with
  | some elem => pure elem
  | none =>
    let account ← trieAccount address
    cacheAccount address account
    pure account

def putAccount (address : Address) (account : Option Account) : StateM MerkleStateManager Unit := do
  if ← accountsCached then cacheAccount address account
  else setTrieAccount address account

/-- `modifyAccountFields` with a `codeHash`. -/
def setCodeHash (address : Address) (codeHash : Bytes) : StateM MerkleStateManager Unit := do
  let account := (← getAccount address).getD Account.new
  putAccount address (some { account with codeHash })

def deleteAccount (address : Address) : StateM MerkleStateManager Unit := do
  modify fun s => { s with _caches := s._caches.deleteAccount address }
  if ← accountsCached then pure ()
  else setTrieAccount address none

/-! ## Storage -/

variable (keccak : Bytes → Bytes)

def heldTrie (address : Address) : StateM MerkleStateManager (Option Storage) := fun s =>
  (s._storageTries.get (keccak address.bytes), s)

def holdTrie (address : Address) (storageTrie : Storage) : StateM MerkleStateManager Unit := fun s =>
  ((), { s with _storageTries := s._storageTries.set (keccak address.bytes) storageTrie })

/-- The trie that is held, or else the one with the root of the account, which is held from now on. -/
def _getStorageTrie (address : Address) (rootAccount : Account) : StateM MerkleStateManager Storage := do
  match ← heldTrie keccak address with
  | some storageTrie => pure storageTrie
  | none =>
    holdTrie keccak address rootAccount.storageRoot
    pure rootAccount.storageRoot

def getStorage (address : Address) (key : StorageKey) : StateM MerkleStateManager Bytes := do
  match ← cachedStorage address key with
  | some value => pure value
  | none =>
    match ← getAccount address with
    | none => pure []
    | some account =>
      let trie ← _getStorageTrie keccak address account
      cacheStorage address key (trie key)
      pure (trie key)

/-- The storage trie is changed in place, so the one that is held changes with it. -/
def _modifyContractStorage (address : Address) (account : Account) (modifyTrie : Storage → Storage) :
    StateM MerkleStateManager Unit := do
  let storageTrie ← _getStorageTrie keccak address account
  holdTrie keccak address (modifyTrie storageTrie)
  putAccount address (some { account with storageRoot := modifyTrie storageTrie })

/-- No bytes delete the value. -/
def _writeContractStorage (address : Address) (account : Account) (key : StorageKey) (value : Bytes) :
    StateM MerkleStateManager Unit :=
  _modifyContractStorage keccak address account fun trie => Function.update trie key value

/-- `put` of the cache returns nothing, so `??` goes on to the trie in any case. -/
def putStorage (address : Address) (key : StorageKey) (value : Bytes) :
    StateM MerkleStateManager (Except String Unit) := do
  if value.length > 32 then pure (.error "Storage value cannot be longer than 32 bytes")
  else
    match ← getAccount address with
    | none => pure (.error "putStorage() called on non-existing account")
    | some account =>
      cacheStorage address key (unpadBytes value)
      _writeContractStorage keccak address account key (unpadBytes value)
      pure (.ok ())

def clearStorage (address : Address) : StateM MerkleStateManager Unit := do
  let account := (← getAccount address).getD Account.new
  modify fun s => { s with _caches := { s._caches with
    storage := s._caches.storage.map (·.clearStorage address) } }
  _modifyContractStorage keccak address account fun _ => EMPTY_TRIE_ROOT

/-! ## Flushing -/

/-- `_caches.code.flush()`. -/
def flushCode : StateM MerkleStateManager (List (Address × Option Bytes)) := fun s =>
  ((s._caches.code.map ItemCache.items).getD [],
    { s with _caches := { s._caches with code := s._caches.code.map ItemCache.flushed } })

/-- `_caches.storage.flush()`. -/
def flushStorage : StateM MerkleStateManager (Except String (List (Address × StorageKey × Option Bytes))) :=
  fun s =>
    match (s._caches.storage.map StorageCache.items).getD (.ok []) with
    | .error e => (.error e, s)
    | .ok items => (.ok items,
      { s with _caches := { s._caches with storage := s._caches.storage.map StorageCache.flushed } })

/-- `_caches.account.flush()`. -/
def flushAccounts : StateM MerkleStateManager (List (Address × Option Account)) := fun s =>
  ((s._caches.account.map ItemCache.items).getD [],
    { s with _caches := { s._caches with account := s._caches.account.map ItemCache.flushed } })

/-- The code itself goes to the database, which no root depends on. -/
def writeCodeItem (item : Address × Option Bytes) : StateM MerkleStateManager Unit :=
  match item.2 with
  | none => pure ()
  | some code => do
    if (← getAccount item.1).isNone then putAccount item.1 (some Account.new)
    setCodeHash item.1 (keccak code)

def writeStorageItem (item : Address × StorageKey × Option Bytes) : StateM MerkleStateManager Unit := do
  match ← getAccount item.1 with
  | none => pure ()
  | some account => _writeContractStorage keccak item.1 account item.2.1 (item.2.2.getD [])

def writeAccountItem (item : Address × Option Account) : StateM MerkleStateManager Unit :=
  setTrieAccount item.1 item.2

def flush : StateM MerkleStateManager (Except String Unit) := do
  let codeItems ← flushCode
  codeItems.forM (writeCodeItem keccak)
  match ← flushStorage with
  | .error e => pure (.error e)
  | .ok storageItems =>
    storageItems.forM (writeStorageItem keccak)
    let accountItems ← flushAccounts
    accountItems.forM writeAccountItem
    pure (.ok ())

/-- The accounts stand for the root of their trie. -/
def getStateRoot : StateM MerkleStateManager (Except String (Address → Option Account)) := do
  match ← flush keccak with
  | .error e => pure (.error e)
  | .ok _ => fun s => (.ok s._trie, s)

end MerkleStateManager
