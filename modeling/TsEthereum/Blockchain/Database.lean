-- SUMMARY: The tables in which the blockchain keeps blocks, lookups, total difficulties and heads.
import TsEthereum.Utils.DB

/-!
# Blockchain database

The targets of `db/operation.ts`, each a table of its own. Headers, bodies and
total difficulties are kept under the number and the hash of their block. The
caches of `DBManager` hold what the tables hold and are left out.
-/

/-- What the chain reads of a block header. -/
structure BlockHeader (Hash : Type) where
  parentHash : Hash
  number : Nat
  difficulty : Nat
  timestamp : Nat
  extraData : Nat
  /-- The roots of transactions, uncles and withdrawals are those of an empty body. -/
  emptyBody : Bool
  deriving DecidableEq

/-- What follows the header in the encoding of a block. -/
abbrev BlockBody := List Bytes

structure Block (Hash : Type) where
  header : BlockHeader Hash
  body : BlockBody
  deriving DecidableEq

inductive DBOp (Hash : Type) where
  | setHeads (heads : OrderedMap String Hash)
  | setHeadHeader (blockHash : Hash)
  | setHeadBlock (blockHash : Hash)
  | setHashToNumber (blockHash : Hash) (blockNumber : Nat)
  | delHashToNumber (blockHash : Hash)
  | setNumberToHash (blockNumber : Nat) (blockHash : Hash)
  | delNumberToHash (blockNumber : Nat)
  | setTotalDifficulty (blockNumber : Nat) (blockHash : Hash) (td : Nat)
  | delTotalDifficulty (blockNumber : Nat) (blockHash : Hash)
  | setBody (blockNumber : Nat) (blockHash : Hash) (body : BlockBody)
  | delBody (blockNumber : Nat) (blockHash : Hash)
  | setHeader (blockNumber : Nat) (blockHash : Hash) (header : BlockHeader Hash)
  | delHeader (blockNumber : Nat) (blockHash : Hash)

structure ChainDB (Hash : Type) where
  heads : Option (OrderedMap String Hash)
  headHeader : Option Hash
  headBlock : Option Hash
  hashToNumber : OrderedMap Hash Nat
  numberToHash : OrderedMap Nat Hash
  totalDifficulty : OrderedMap (Nat × Hash) Nat
  body : OrderedMap (Nat × Hash) BlockBody
  header : OrderedMap (Nat × Hash) (BlockHeader Hash)

namespace ChainDB

variable {Hash : Type} [DecidableEq Hash]

def empty : ChainDB Hash := ⟨none, none, none, .empty, .empty, .empty, .empty, .empty⟩

def batchOp (db : ChainDB Hash) : DBOp Hash → ChainDB Hash
  | .setHeads heads => { db with heads := some heads }
  | .setHeadHeader blockHash => { db with headHeader := some blockHash }
  | .setHeadBlock blockHash => { db with headBlock := some blockHash }
  | .setHashToNumber blockHash blockNumber =>
    { db with hashToNumber := db.hashToNumber.set blockHash blockNumber }
  | .delHashToNumber blockHash => { db with hashToNumber := db.hashToNumber.delete blockHash }
  | .setNumberToHash blockNumber blockHash =>
    { db with numberToHash := db.numberToHash.set blockNumber blockHash }
  | .delNumberToHash blockNumber => { db with numberToHash := db.numberToHash.delete blockNumber }
  | .setTotalDifficulty blockNumber blockHash td =>
    { db with totalDifficulty := db.totalDifficulty.set (blockNumber, blockHash) td }
  | .delTotalDifficulty blockNumber blockHash =>
    { db with totalDifficulty := db.totalDifficulty.delete (blockNumber, blockHash) }
  | .setBody blockNumber blockHash body =>
    { db with body := db.body.set (blockNumber, blockHash) body }
  | .delBody blockNumber blockHash => { db with body := db.body.delete (blockNumber, blockHash) }
  | .setHeader blockNumber blockHash header =>
    { db with header := db.header.set (blockNumber, blockHash) header }
  | .delHeader blockNumber blockHash =>
    { db with header := db.header.delete (blockNumber, blockHash) }

/-- `DBManager.batch`. -/
def batch (db : ChainDB Hash) (ops : List (DBOp Hash)) : ChainDB Hash := ops.foldl batchOp db

variable (db : ChainDB Hash)
include db

@[simp] theorem batch_nil : db.batch [] = db := rfl

@[simp] theorem batch_cons (op : DBOp Hash) (ops : List (DBOp Hash)) :
    db.batch (op :: ops) = (db.batchOp op).batch ops := rfl

theorem batch_append (ops ops' : List (DBOp Hash)) :
    db.batch (ops ++ ops') = (db.batch ops).batch ops' := List.foldl_append

end ChainDB
