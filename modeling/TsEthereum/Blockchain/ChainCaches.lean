-- SUMMARY: The caches in front of the tables of the blockchain, and when they do not show.
import TsEthereum.Blockchain.Database
import TsEthereum.Base.Caching

/-!
# Caches of the chain

`DBManager` keeps a cache for each table but those of the heads. A batch updates
the caches, a read that misses fills them, and an entry may be dropped at any time.
-/

/-- `CacheMap` of `db/manager.ts`. -/
structure ChainCaches (Hash : Type) where
  td : OrderedMap (Nat × Hash) Nat
  header : OrderedMap (Nat × Hash) (BlockHeader Hash)
  body : OrderedMap (Nat × Hash) BlockBody
  numberToHash : OrderedMap Nat Hash
  hashToNumber : OrderedMap Hash Nat

/-- A cache with one of its keys. -/
inductive CacheKey (Hash : Type) where
  | td (blockNumber : Nat) (blockHash : Hash)
  | header (blockNumber : Nat) (blockHash : Hash)
  | body (blockNumber : Nat) (blockHash : Hash)
  | numberToHash (blockNumber : Nat)
  | hashToNumber (blockHash : Hash)

/-- What happens to a cache besides the updates of a batch. -/
inductive CacheEvent (Hash : Type) where
  | fill (key : CacheKey Hash)
  | drop (key : CacheKey Hash)

namespace ChainCaches

variable {Hash : Type} [DecidableEq Hash]

def empty : ChainCaches Hash := ⟨.empty, .empty, .empty, .empty, .empty⟩

/-- `updateCache` of `db/operation.ts`; the heads have no cache. -/
def updateCache (c : ChainCaches Hash) : DBOp Hash → ChainCaches Hash
  | .setHeads _ => c
  | .setHeadHeader _ => c
  | .setHeadBlock _ => c
  | .setHashToNumber blockHash blockNumber =>
    { c with hashToNumber := c.hashToNumber.set blockHash blockNumber }
  | .delHashToNumber blockHash => { c with hashToNumber := c.hashToNumber.delete blockHash }
  | .setNumberToHash blockNumber blockHash =>
    { c with numberToHash := c.numberToHash.set blockNumber blockHash }
  | .delNumberToHash blockNumber => { c with numberToHash := c.numberToHash.delete blockNumber }
  | .setTotalDifficulty blockNumber blockHash td => { c with td := c.td.set (blockNumber, blockHash) td }
  | .delTotalDifficulty blockNumber blockHash => { c with td := c.td.delete (blockNumber, blockHash) }
  | .setBody blockNumber blockHash body => { c with body := c.body.set (blockNumber, blockHash) body }
  | .delBody blockNumber blockHash => { c with body := c.body.delete (blockNumber, blockHash) }
  | .setHeader blockNumber blockHash header =>
    { c with header := c.header.set (blockNumber, blockHash) header }
  | .delHeader blockNumber blockHash => { c with header := c.header.delete (blockNumber, blockHash) }

/-- A read of the database through a cache. -/
def fill (db : ChainDB Hash) (c : ChainCaches Hash) : CacheKey Hash → ChainCaches Hash
  | .td n blockHash => { c with td := db.totalDifficulty.fill c.td (n, blockHash) }
  | .header n blockHash => { c with header := db.header.fill c.header (n, blockHash) }
  | .body n blockHash => { c with body := db.body.fill c.body (n, blockHash) }
  | .numberToHash n => { c with numberToHash := db.numberToHash.fill c.numberToHash n }
  | .hashToNumber blockHash => { c with hashToNumber := db.hashToNumber.fill c.hashToNumber blockHash }

/-- An entry that the cache has no more room for. -/
def drop (c : ChainCaches Hash) : CacheKey Hash → ChainCaches Hash
  | .td n blockHash => { c with td := c.td.delete (n, blockHash) }
  | .header n blockHash => { c with header := c.header.delete (n, blockHash) }
  | .body n blockHash => { c with body := c.body.delete (n, blockHash) }
  | .numberToHash n => { c with numberToHash := c.numberToHash.delete n }
  | .hashToNumber blockHash => { c with hashToNumber := c.hashToNumber.delete blockHash }

def happen (db : ChainDB Hash) (c : ChainCaches Hash) : CacheEvent Hash → ChainCaches Hash
  | .fill key => c.fill db key
  | .drop key => c.drop key

/-- What reads return. -/
def served (c : ChainCaches Hash) (db : ChainDB Hash) : ChainDB Hash :=
  { db with
    hashToNumber := c.hashToNumber.served db.hashToNumber
    numberToHash := c.numberToHash.served db.numberToHash
    totalDifficulty := c.td.served db.totalDifficulty
    body := c.body.served db.body
    header := c.header.served db.header }

/-! ## Caches that hold what the database holds -/

/-- Every cached entry is in the database. -/
structure Coherent (c : ChainCaches Hash) (db : ChainDB Hash) : Prop where
  td : db.totalDifficulty.CacheOf c.td
  header : db.header.CacheOf c.header
  body : db.body.CacheOf c.body
  numberToHash : db.numberToHash.CacheOf c.numberToHash
  hashToNumber : db.hashToNumber.CacheOf c.hashToNumber

variable {c : ChainCaches Hash} {db : ChainDB Hash}

theorem coherent_empty (db : ChainDB Hash) : empty.Coherent db where
  td := OrderedMap.cacheOf_empty
  header := OrderedMap.cacheOf_empty
  body := OrderedMap.cacheOf_empty
  numberToHash := OrderedMap.cacheOf_empty
  hashToNumber := OrderedMap.cacheOf_empty

variable (h : c.Coherent db)
include h

theorem Coherent.served_eq : c.served db = db := by
  unfold served
  rw [h.td.served_eq, h.header.served_eq, h.body.served_eq, h.numberToHash.served_eq,
    h.hashToNumber.served_eq]

theorem Coherent.updateCache (op : DBOp Hash) : (c.updateCache op).Coherent (db.batchOp op) := by
  cases op with
  | setHeads heads => exact { h with }
  | setHeadHeader blockHash => exact { h with }
  | setHeadBlock blockHash => exact { h with }
  | setHashToNumber blockHash n => exact { h with hashToNumber := h.hashToNumber.set blockHash n }
  | delHashToNumber blockHash => exact { h with hashToNumber := h.hashToNumber.delete blockHash }
  | setNumberToHash n blockHash => exact { h with numberToHash := h.numberToHash.set n blockHash }
  | delNumberToHash n => exact { h with numberToHash := h.numberToHash.delete n }
  | setTotalDifficulty n blockHash td => exact { h with td := h.td.set (n, blockHash) td }
  | delTotalDifficulty n blockHash => exact { h with td := h.td.delete (n, blockHash) }
  | setBody n blockHash body => exact { h with body := h.body.set (n, blockHash) body }
  | delBody n blockHash => exact { h with body := h.body.delete (n, blockHash) }
  | setHeader n blockHash header => exact { h with header := h.header.set (n, blockHash) header }
  | delHeader n blockHash => exact { h with header := h.header.delete (n, blockHash) }

/-- A batch that the database takes. -/
theorem Coherent.batch (ops : List (DBOp Hash)) :
    (ops.foldl ChainCaches.updateCache c).Coherent (db.batch ops) := by
  induction ops generalizing c db with
  | nil => exact h
  | cons op ops ih => exact ih (h.updateCache op)

theorem Coherent.happen (e : CacheEvent Hash) : (c.happen db e).Coherent db := by
  cases e with
  | fill key =>
    cases key with
    | td n blockHash => exact { h with td := h.td.fill (n, blockHash) }
    | header n blockHash => exact { h with header := h.header.fill (n, blockHash) }
    | body n blockHash => exact { h with body := h.body.fill (n, blockHash) }
    | numberToHash n => exact { h with numberToHash := h.numberToHash.fill n }
    | hashToNumber blockHash => exact { h with hashToNumber := h.hashToNumber.fill blockHash }
  | drop key =>
    cases key with
    | td n blockHash => exact { h with td := h.td.evict (n, blockHash) }
    | header n blockHash => exact { h with header := h.header.evict (n, blockHash) }
    | body n blockHash => exact { h with body := h.body.evict (n, blockHash) }
    | numberToHash n => exact { h with numberToHash := h.numberToHash.evict n }
    | hashToNumber blockHash => exact { h with hashToNumber := h.hashToNumber.evict blockHash }

theorem Coherent.events (events : List (CacheEvent Hash)) :
    (events.foldl (ChainCaches.happen db) c).Coherent db := by
  induction events generalizing c with
  | nil => exact h
  | cons e events ih => exact ih (h.happen e)

end ChainCaches
