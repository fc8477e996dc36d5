-- SUMMARY: Putting and deleting blocks, and how the canonical chain and its heads follow.
import TsEthereum.Blockchain.Database

/-!
# Blockchain

The operations of `blockchain.ts` that change the chain. Each runs under the
lock from its first read to its last write, or leaves everything as it was where
it throws, so an operation is a function of the state. Events and the hardfork
of the common are left out.
-/

inductive ChainError where
  /-- Messages that say "not found in DB". -/
  | notFoundInDB (message : String)
  /-- Messages that say "not found in canonical chain". -/
  | notFoundInCanonicalChain (number : Nat)
  | other (message : String)

/-- What is put: a header, or a block where there is a body. -/
structure ChainItem (Hash : Type) where
  header : BlockHeader Hash
  body : Option BlockBody
  /-- The chain and the consensus type of the item's common. -/
  chainId : Nat
  proofOfStake : Bool

structure Blockchain (Hash : Type) where
  db : ChainDB Hash
  _genesisBlock : Block Hash
  _heads : OrderedMap String Hash
  _headHeaderHash : Hash
  _headBlockHash : Hash

/-- The options, and the checks that other packages make. -/
structure BlockchainOptions (Hash : Type) where
  hash : BlockHeader Hash → Hash
  chainId : Nat
  _validateBlocks : Bool
  /-- What `validateHeader` checks of a header and its parent besides number and time. -/
  checkHeader : BlockHeader Hash → BlockHeader Hash → Except ChainError Unit
  /-- What `validateBlock` checks of uncles, transactions and blobs. -/
  checkBlock : Blockchain Hash → Block Hash → Except ChainError Unit
  /-- `validateConsensus`, where it is asked for. -/
  checkConsensus : Blockchain Hash → ChainItem Hash → Except ChainError Unit

namespace Blockchain

variable {Hash : Type} [DecidableEq Hash] (opts : BlockchainOptions Hash)

/-! ## Reading -/

section Reading

variable (s : Blockchain Hash)

/-- `DBManager.hashToNumber`. -/
def hashToNumber (blockHash : Hash) : Except ChainError Nat :=
  match s.db.hashToNumber.get blockHash with
  | none => .error (.notFoundInDB "value not found in DB")
  | some number => .ok number

/-- `DBManager.getHeader`; no header decodes from what is not there. -/
def getHeader (blockHash : Hash) (blockNumber : Nat) : Except ChainError (BlockHeader Hash) :=
  match s.db.header.get (blockNumber, blockHash) with
  | none => .error (.other "invalid header. Less values than expected were received")
  | some header => .ok header

/-- `_getHeader` without a number. -/
def _getHeader (blockHash : Hash) : Except ChainError (BlockHeader Hash) := do
  let number ← s.hashToNumber blockHash
  s.getHeader blockHash number

def getCanonicalHeader (number : Nat) : Except ChainError (BlockHeader Hash) :=
  match s.db.numberToHash.get number with
  | none => .error (.notFoundInCanonicalChain number)
  | some hash => s.getHeader hash number

/-- `DBManager.getTotalDifficulty`; what is not there decodes as zero. -/
def getTotalDifficultyAt (blockHash : Hash) (blockNumber : Nat) : Nat :=
  (s.db.totalDifficulty.get (blockNumber, blockHash)).getD 0

def getTotalDifficulty (blockHash : Hash) : Except ChainError Nat := do
  let number ← s.hashToNumber blockHash
  .ok (s.getTotalDifficultyAt blockHash number)

def getParentTD (header : BlockHeader Hash) : Nat :=
  if header.number = 0 then header.difficulty
  else s.getTotalDifficultyAt header.parentHash (header.number - 1)

/-- `DBManager.getBlock`, once number and hash are known. -/
def getBlockAt (blockHash : Hash) (blockNumber : Nat) : Except ChainError (Block Hash) := do
  let header ← s.getHeader blockHash blockNumber
  match s.db.body.get (blockNumber, blockHash) with
  | some body => .ok ⟨header, body⟩
  | none =>
    if header.emptyBody then .ok ⟨header, []⟩
    else .error (.other "transactionsTrie root should be equal to hash of null")

def getBlockByHash (blockHash : Hash) : Except ChainError (Block Hash) := do
  let number ← s.hashToNumber blockHash
  s.getBlockAt blockHash number

def getBlockByNumber (blockNumber : Nat) : Except ChainError (Block Hash) :=
  match s.db.numberToHash.get blockNumber with
  | none => .error (.notFoundInDB "Block number not found in DB")
  | some hash => s.getBlockAt hash blockNumber

def validateHeader (header : BlockHeader Hash) : Except ChainError Unit :=
  if header.number = 0 then .ok ()
  else do
    let parentHeader ← s._getHeader header.parentHash
    if header.number ≠ parentHeader.number + 1 then .error (.other "invalid number")
    else if header.timestamp ≤ parentHeader.timestamp then .error (.other "invalid timestamp")
    else opts.checkHeader header parentHeader

def validateBlock (block : Block Hash) : Except ChainError Unit := do
  validateHeader opts s block.header
  opts.checkBlock s block
  let _ ← s.getBlockByHash block.header.parentHash
  .ok ()

/-! ## Common ancestors -/

/-- The first loop of `findCommonAncestor`. The number goes down in every round. -/
def descendTo (number : Nat) : Nat → BlockHeader Hash → Except ChainError (BlockHeader Hash)
  | 0, newHeader => .ok newHeader
  | fuel + 1, newHeader =>
    if number ≠ newHeader.number ∧ newHeader.number > 0 then do
      let parent ← s.getHeader newHeader.parentHash (newHeader.number - 1)
      descendTo number fuel parent
    else .ok newHeader

/-- The second loop of `findCommonAncestor`. -/
def descendBoth : Nat → BlockHeader Hash → BlockHeader Hash →
    Except ChainError (BlockHeader Hash × BlockHeader Hash)
  | 0, header, newHeader => .ok (header, newHeader)
  | fuel + 1, header, newHeader =>
    if opts.hash header ≠ opts.hash newHeader ∧ header.number > 0 then do
      let canonical ← s.getCanonicalHeader (header.number - 1)
      let parent ← s.getHeader newHeader.parentHash (newHeader.number - 1)
      descendBoth fuel canonical parent
    else .ok (header, newHeader)

def findCommonAncestor (newHeader : BlockHeader Hash) : Except ChainError (BlockHeader Hash) := do
  let head ← s._getHeader s._headHeaderHash
  let header ← if head.number > newHeader.number then s.getCanonicalHeader newHeader.number
    else .ok head
  let newHeader ← if head.number > newHeader.number then .ok newHeader
    else s.descendTo header.number newHeader.number newHeader
  if header.number ≠ newHeader.number then .error (.other "Failed to find ancient header")
  else do
    let (header, newHeader) ← descendBoth opts s header.number header newHeader
    if opts.hash header ≠ opts.hash newHeader then .error (.other "Failed to find ancient header")
    else .ok header

end Reading

/-! ## Canonical references -/

/-- The heads at `hash` go to `headHash`. -/
def moveHeads (headHash hash : Hash) (s : Blockchain Hash) : Blockchain Hash :=
  { s with
    _heads := s._heads.mapValues fun h => if h = hash then headHash else h
    _headHeaderHash := if s._headHeaderHash = hash then headHash else s._headHeaderHash
    _headBlockHash := if s._headBlockHash = hash then headHash else s._headBlockHash }

/-- The loop of `_deleteCanonicalChainReferences`, and the operations it pushes. -/
def deleteReferences (headHash : Hash) :
    Nat → Nat → Blockchain Hash → Blockchain Hash × List (DBOp Hash)
  | 0, _, s => (s, [])
  | fuel + 1, blockNumber, s =>
    match s.db.numberToHash.get blockNumber with
    | none => (s, [])
    | some hash =>
      let (s, ops) := deleteReferences headHash fuel (blockNumber + 1) (s.moveHeads headHash hash)
      (s, .delNumberToHash blockNumber :: ops)

/-- Every round of the loop reads another entry of the table. -/
def _deleteCanonicalChainReferences (s : Blockchain Hash) (blockNumber : Nat) (headHash : Hash) :
    Blockchain Hash × List (DBOp Hash) :=
  deleteReferences headHash s.db.numberToHash.keys.length blockNumber s

def DBSaveLookups (blockHash : Hash) (blockNumber : Nat) : List (DBOp Hash) :=
  [.setNumberToHash blockNumber blockHash, .setHashToNumber blockHash blockNumber]

/-- What the loop of `_rebuildCanonical` ends with. -/
structure Rebuilt (Hash : Type) where
  currentCanonicalHash : Hash
  staleHeads : List String
  staleHeadBlock : Bool
  ops : List (DBOp Hash)

/-- The loop of `_rebuildCanonical`. -/
def rebuildLoop (s : Blockchain Hash) :
    Nat → BlockHeader Hash → Except ChainError (Rebuilt Hash)
  | currentNumber, header =>
    let staleHash := s.db.numberToHash.get currentNumber
    if staleHash = some (opts.hash header) ∨ header.number = 0 then
      .ok ⟨opts.hash header, [], false, []⟩
    else
      match currentNumber with
      | 0 => .error (.other "invalid header. Less values than expected were received")
      | number + 1 => do
        let parent ← s.getHeader header.parentHash number
        let r ← rebuildLoop s number parent
        .ok
          { r with
            staleHeads := s._heads.keysWhere (fun h => staleHash = some h) ++ r.staleHeads
            staleHeadBlock := decide (staleHash = some s._headBlockHash) || r.staleHeadBlock
            ops := DBSaveLookups (opts.hash header) header.number ++ r.ops }

def _rebuildCanonical (s : Blockchain Hash) (header : BlockHeader Hash) :
    Except ChainError (Blockchain Hash × List (DBOp Hash)) := do
  let r ← rebuildLoop opts s header.number header
  .ok ({ s with
    _heads := r.staleHeads.foldl (fun heads name => heads.set name r.currentCanonicalHash) s._heads
    _headBlockHash := if r.staleHeadBlock then r.currentCanonicalHash else s._headBlockHash }, r.ops)

def _saveHeadOps (s : Blockchain Hash) : List (DBOp Hash) :=
  [.setHeads s._heads, .setHeadHeader s._headHeaderHash, .setHeadBlock s._headBlockHash]

def _saveHeads (s : Blockchain Hash) : Blockchain Hash :=
  { s with db := s.db.batch s._saveHeadOps }

/-! ## Putting -/

def DBSetBlockOrHeader (item : ChainItem Hash) : List (DBOp Hash) :=
  let blockNumber := item.header.number
  let blockHash := opts.hash item.header
  .setHeader blockNumber blockHash item.header ::
    match item.body with
    | none => []
    | some body => [.setBody blockNumber blockHash body]

/-- The item becomes the head of the canonical chain. -/
def adopt (s : Blockchain Hash) (item : ChainItem Hash) :
    Except ChainError (Blockchain Hash × List (DBOp Hash)) := do
  let blockHash := opts.hash item.header
  let _ ← findCommonAncestor opts s item.header
  let s := { s with
    _headHeaderHash := blockHash
    _headBlockHash := if item.body.isSome then blockHash else s._headBlockHash }
  let (s, deleted) := s._deleteCanonicalChainReferences (item.header.number + 1) blockHash
  let (s, rebuilt) ← _rebuildCanonical opts s item.header
  .ok (s, deleted ++ rebuilt)

/-- The heads after an item of the total difficulty `td`. -/
def changeHeads (s : Blockchain Hash) (item : ChainItem Hash) (td currentTdHeader currentTdBlock : Nat) :
    Except ChainError (Blockchain Hash × List (DBOp Hash)) :=
  let blockHash := opts.hash item.header
  if td > currentTdHeader ∨ item.proofOfStake then adopt opts s item
  else
    -- lookup info is saved even where no rebuild is needed
    .ok (if td > currentTdBlock ∧ item.body.isSome then { s with _headBlockHash := blockHash } else s,
      [.setHashToNumber blockHash item.header.number])

def validateItem (s : Blockchain Hash) (item : ChainItem Hash) : Except ChainError Unit :=
  match item.body with
  | some body => if opts._validateBlocks then validateBlock opts s ⟨item.header, body⟩ else .ok ()
  | none => .ok ()

def _putBlockOrHeader (s : Blockchain Hash) (item : ChainItem Hash) :
    Except ChainError (Blockchain Hash) :=
  let header := item.header
  let blockHash := opts.hash header
  if header.number = 0 then
    if opts.hash s._genesisBlock.header = blockHash then .ok s
    else .error (.other "Cannot put a different genesis block than current blockchain genesis: create a new Blockchain")
  else if item.chainId ≠ opts.chainId then
    .error (.other "Chain mismatch while trying to put block or header")
  else do
    validateItem opts s item
    opts.checkConsensus s item
    let currentTdHeader ← s.getTotalDifficulty s._headHeaderHash
    let currentTdBlock ← s.getTotalDifficulty s._headBlockHash
    let td := header.difficulty + s.getParentTD header
    let stored := .setTotalDifficulty header.number blockHash td :: DBSetBlockOrHeader opts item
    let (s, ops) ← changeHeads opts s item td currentTdHeader currentTdBlock
    .ok { s with db := s.db.batch (stored ++ ops ++ s._saveHeadOps) }

def putBlocks (s : Blockchain Hash) (blocks : List (ChainItem Hash)) :
    Except ChainError (Blockchain Hash) := blocks.foldlM (_putBlockOrHeader opts) s

/-! ## Resetting and deleting -/

def resetCanonicalHead (s : Blockchain Hash) (canonicalHead : Nat) :
    Except ChainError (Blockchain Hash) :=
  match s.db.numberToHash.get canonicalHead with
  | none => .error (.other "no block found in DB")
  | some hash => do
    let _ ← s.getHeader hash canonicalHead
    let (s, ops) := s._deleteCanonicalChainReferences (canonicalHead + 1) hash
    .ok { s with db := s.db.batch (ops ++ s._saveHeadOps) }

def delOps (blockHash : Hash) (blockNumber : Nat) : List (DBOp Hash) :=
  [.delHeader blockNumber blockHash, .delBody blockNumber blockHash, .delHashToNumber blockHash,
    .delTotalDifficulty blockNumber blockHash]

/-- `_delChild` where there is a `headHash`. Every call reads another entry of the table. -/
def _delChild (headHash : Hash) : Nat → Blockchain Hash → Hash → Nat →
    Except ChainError (Blockchain Hash × List (DBOp Hash))
  | 0, s, blockHash, blockNumber => .ok (s, delOps blockHash blockNumber)
  | fuel + 1, s, blockHash, blockNumber =>
    let s := { s with
      _headHeaderHash := if s._headHeaderHash = blockHash then headHash else s._headHeaderHash
      _headBlockHash := if s._headBlockHash = blockHash then headHash else s._headBlockHash }
    match s.getCanonicalHeader (blockNumber + 1) with
    | .ok childHeader => do
      let (s, ops) ← _delChild headHash fuel s (opts.hash childHeader) childHeader.number
      .ok (s, delOps blockHash blockNumber ++ ops)
    | .error (.notFoundInCanonicalChain _) => .ok (s, delOps blockHash blockNumber)
    | .error e => .error e

def delBlock (s : Blockchain Hash) (blockHash : Hash) : Except ChainError (Blockchain Hash) := do
  let header ← s._getHeader blockHash
  if s.db.numberToHash.get header.number = some blockHash then do
    let (s, ops) ←
      _delChild opts header.parentHash s.db.numberToHash.keys.length s blockHash header.number
    let (s, deleted) := s._deleteCanonicalChainReferences header.number header.parentHash
    .ok { s with db := s.db.batch (ops ++ deleted) }
  else .ok { s with db := s.db.batch (delOps blockHash header.number) }

/-! ## Creating -/

/-- What `createBlockchain` sets up in a new database. -/
def createBlockchain (genesisBlock : Block Hash) : Blockchain Hash :=
  let genesisHash := opts.hash genesisBlock.header
  { db := ChainDB.empty.batch (.setTotalDifficulty 0 genesisHash genesisBlock.header.difficulty ::
      .setHeader 0 genesisHash genesisBlock.header :: .setBody 0 genesisHash genesisBlock.body ::
      DBSaveLookups genesisHash 0)
    _genesisBlock := genesisBlock
    _heads := .empty
    _headHeaderHash := genesisHash
    _headBlockHash := genesisHash }

/-- The heads that `createBlockchain` loads from the database. -/
def storedHeads (s : Blockchain Hash) : OrderedMap String Hash × Hash × Hash :=
  let genesisHash := opts.hash s._genesisBlock.header
  (s.db.heads.getD .empty, s.db.headHeader.getD genesisHash, s.db.headBlock.getD genesisHash)

def setIteratorHead (s : Blockchain Hash) (tag : String) (headHash : Hash) : Blockchain Hash :=
  _saveHeads { s with _heads := s._heads.set tag headHash }

end Blockchain
