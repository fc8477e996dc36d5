-- SUMMARY: The database manager: its keys and which of them coincide, and what reads return after any interleaving of reads and batches.
import TsEthereum.Utils.Account
import Mathlib.Data.Set.Function

/-!
# DBManager

`db/manager.ts` and the keys of `db/operation.ts`. A read that misses its cache waits
for the database and fills the cache with the answer. A batch updates the caches at
once and the database later. A step of the system is a piece of a call between two
`await`s, or the moment at which the database reads or writes. `lru-cache` may drop
any entry at any time.
-/

namespace DBManager

/-! ## Keys -/

abbrev BlockHash := {b : Bytes // b.length = 32}

/-- A `DBTarget` with the parts of a `DatabaseKey` that its key is made of. -/
inductive DatabaseKey where
  | heads
  | headHeader
  | headBlock
  | hashToNumber (blockHash : BlockHash)
  | numberToHash (blockNumber : Nat)
  | totalDifficulty (blockNumber : Nat) (blockHash : BlockHash)
  | body (blockNumber : Nat) (blockHash : BlockHash)
  | header (blockNumber : Nat) (blockHash : BlockHash)
  | cliqueSignerStates
  | cliqueVotes
  | cliqueBlockSigners
  deriving DecidableEq

/-- The UTF-8 bytes of `heads`, `LastHeader` and `LastBlock`. -/
def HEADS_KEY : Bytes := [0x68, 0x65, 0x61, 0x64, 0x73]
def HEAD_HEADER_KEY : Bytes := [0x4c, 0x61, 0x73, 0x74, 0x48, 0x65, 0x61, 0x64, 0x65, 0x72]
def HEAD_BLOCK_KEY : Bytes := [0x4c, 0x61, 0x73, 0x74, 0x42, 0x6c, 0x6f, 0x63, 0x6b]

/-- `h`, `t`, `n`, `H` and `b`. -/
def HEADER_PREFIX : UInt8 := 0x68
def TD_SUFFIX : UInt8 := 0x74
def NUM_SUFFIX : UInt8 := 0x6e
def BLOCK_HASH_PREFIX : UInt8 := 0x48
def BODY_PREFIX : UInt8 := 0x62

/-- The bytes of the number, as few as it has. -/
def bytesBE8 (n : Nat) : Bytes := bigIntToBytes (n % 2 ^ 64 : Nat)

namespace DatabaseKey

/-- The key in the database. The targets of clique have no case of their own and keep the
empty key. -/
def baseKey : DatabaseKey → Bytes
  | heads => HEADS_KEY
  | headHeader => HEAD_HEADER_KEY
  | headBlock => HEAD_BLOCK_KEY
  | hashToNumber blockHash => BLOCK_HASH_PREFIX :: blockHash.val
  | numberToHash n => HEADER_PREFIX :: (bytesBE8 n ++ [NUM_SUFFIX])
  | totalDifficulty n blockHash => HEADER_PREFIX :: (bytesBE8 n ++ (blockHash.val ++ [TD_SUFFIX]))
  | body n blockHash => BODY_PREFIX :: (bytesBE8 n ++ blockHash.val)
  | header n blockHash => HEADER_PREFIX :: (bytesBE8 n ++ blockHash.val)
  | cliqueSignerStates => []
  | cliqueVotes => []
  | cliqueBlockSigners => []

end DatabaseKey

/-- The caches. -/
inductive CacheName where
  | td
  | header
  | body
  | numberToHash
  | hashToNumber
  deriving DecidableEq

def DatabaseKey.cacheString : DatabaseKey → Option CacheName
  | .hashToNumber _ => some .hashToNumber
  | .numberToHash _ => some .numberToHash
  | .totalDifficulty _ _ => some .td
  | .body _ _ => some .body
  | .header _ _ => some .header
  | .heads => none
  | .headHeader => none
  | .headBlock => none
  | .cliqueSignerStates => none
  | .cliqueVotes => none
  | .cliqueBlockSigners => none

/-! ## Operations and calls -/

/-- `DBOp.set` and `DBOp.del`. -/
inductive DBOp where
  | set (key : DatabaseKey) (value : Bytes)
  | del (key : DatabaseKey)

namespace DBOp

def key : DBOp → DatabaseKey
  | set key _ => key
  | del key => key

/-- What the operation leaves under its key. -/
def value : DBOp → Option Bytes
  | set _ value => some value
  | del _ => none

end DBOp

abbrev Caches := CacheName → Bytes → Option Bytes

def setCache (caches : Caches) (name : CacheName) (key : Bytes) (value : Option Bytes) : Caches :=
  fun n k => if n = name ∧ k = key then value else caches n k

/-- `set` or `del` on the cache of the operation, if it has one. -/
def updateCache (caches : Caches) (op : DBOp) : Caches :=
  match op.key.cacheString with
  | none => caches
  | some name => setCache caches name op.key.baseKey op.value

def writeOp (db : Bytes → Option Bytes) (op : DBOp) : Bytes → Option Bytes :=
  Function.update db op.key.baseKey op.value

/-- A `get` that missed its cache. -/
structure PendingGet where
  key : DatabaseKey
  /-- what the database answered, once it has -/
  read : Option (Option Bytes)

/-- A `batch` that waits for the database. -/
structure PendingBatch where
  call : Nat
  ops : List DBOp
  /-- the database has taken the operations -/
  written : Bool

end DBManager

open DBManager

/-- The manager with its database and the calls that have not settled, batches in the order in
which they were called. -/
structure DBManager where
  _cache : Caches
  _db : Bytes → Option Bytes
  gets : OrderedMap Nat PendingGet
  batches : List PendingBatch

namespace DBManager

/-- A new manager on a database. -/
def new (db : Bytes → Option Bytes) : DBManager where
  _cache := fun _ _ => none
  _db := db
  gets := .empty
  batches := []

def fromCache (s : DBManager) (key : DatabaseKey) : Option Bytes :=
  key.cacheString.bind (fun name => s._cache name key.baseKey)

/-- `get` up to its `await`: the value of the cache, or a read in flight. -/
def get (s : DBManager) (call : Nat) (key : DatabaseKey) : DBManager × Option (DatabaseKey × Option Bytes) :=
  match s.fromCache key with
  | some value => (s, some (key, some value))
  | none => ({ s with gets := s.gets.set call { key := key, read := none } }, none)

/-- The database answers a read. -/
def read (s : DBManager) (call : Nat) : DBManager :=
  match s.gets.get call with
  | some { key := key, read := none } =>
    { s with gets := s.gets.set call { key := key, read := some (s._db key.baseKey) } }
  | _ => s

/-- The cache with what was read. -/
def fillCache (s : DBManager) (key : DatabaseKey) (value : Option Bytes) : DBManager :=
  match key.cacheString, value with
  | some name, some v => { s with _cache := setCache s._cache name key.baseKey (some v) }
  | _, _ => s

/-- `get` from its `await` on. -/
def finishGet (s : DBManager) (call : Nat) : DBManager × Option (DatabaseKey × Option Bytes) :=
  match s.gets.get call with
  | some { key := key, read := some value } =>
    ({ s.fillCache key value with gets := s.gets.delete call }, some (key, value))
  | _ => (s, none)

/-- `batch` up to its `await`. -/
def batch (s : DBManager) (call : Nat) (ops : List DBOp) : DBManager :=
  { s with
    _cache := ops.foldl updateCache s._cache
    batches := s.batches ++ [{ call := call, ops := ops, written := false }] }

/-- The database takes the operations of a batch. -/
def writeBatch (call : Nat) : (Bytes → Option Bytes) → List PendingBatch →
    (Bytes → Option Bytes) × List PendingBatch
  | db, [] => (db, [])
  | db, b :: batches =>
    if b.call = call ∧ b.written = false then (b.ops.foldl writeOp db, { b with written := true } :: batches)
    else
      let rest := writeBatch call db batches
      (rest.1, b :: rest.2)

def write (s : DBManager) (call : Nat) : DBManager :=
  let written := writeBatch call s._db s.batches
  { s with _db := written.1, batches := written.2 }

/-- A batch that has been written resolves. -/
def finishBatch (s : DBManager) (call : Nat) : DBManager :=
  { s with batches := s.batches.filter (fun b => b.call ≠ call || b.written = false) }

/-- A step of a call, of the database or of a cache. -/
inductive Event where
  | get (call : Nat) (key : DatabaseKey)
  | read (call : Nat)
  | finishGet (call : Nat)
  | batch (call : Nat) (ops : List DBOp)
  | write (call : Nat)
  | finishBatch (call : Nat)
  | evict (name : CacheName) (key : Bytes)

/-- A step, with the key and the value of a `get` that returns. -/
def step (s : DBManager) : Event → DBManager × Option (DatabaseKey × Option Bytes)
  | .get call key => if s.gets.has call then (s, none) else s.get call key
  | .read call => (s.read call, none)
  | .finishGet call => s.finishGet call
  | .batch call ops => (s.batch call ops, none)
  | .write call => (s.write call, none)
  | .finishBatch call => (s.finishBatch call, none)
  | .evict name key => ({ s with _cache := setCache s._cache name key none }, none)

def run (events : List Event) (s : DBManager) : DBManager := events.foldl (fun s e => (s.step e).1) s

/-- What the `get` calls of a run return. -/
def returned : List Event → DBManager → List (DatabaseKey × Option Bytes)
  | [], _ => []
  | e :: events, s => (s.step e).2.toList ++ returned events (s.step e).1

/-- No call is under way. -/
def settled (s : DBManager) : Prop := s.gets.keys = [] ∧ s.batches = []

/-! ## What reads should return -/

/-- What the operations leave under a key that had the value `init`. -/
def lastValue (ops : List DBOp) (key : DatabaseKey) (init : Option Bytes) : Option Bytes :=
  ops.foldl (fun value op => if op.key = key then op.value else value) init

/-- The operations of the batches of a run, in the order of their calls. -/
def batched (events : List Event) : List DBOp :=
  events.flatMap fun
    | .batch _ ops => ops
    | _ => []

/-- The keys that a run asks for or writes. -/
def usedKeys (events : List Event) : Set DatabaseKey :=
  {key | (∃ call, .get call key ∈ events) ∨ ∃ op ∈ batched events, op.key = key}

def Event.isBatch : Event → Bool
  | .batch _ _ => true
  | _ => false

/-! ## Steps that keep the caches true -/

def touches (ops : List DBOp) (key : DatabaseKey) : Bool := ops.any (fun op => op.key = key)

/-- The operations that the database is about to take. -/
def nextWrite (call : Nat) : List PendingBatch → List DBOp
  | [] => []
  | b :: batches => if b.call = call ∧ b.written = false then b.ops else nextWrite call batches

/-- No batch that was called earlier and still waits shares a key with the one written now. -/
def writesInTurn (call : Nat) : List PendingBatch → Bool
  | [] => true
  | b :: batches =>
    if b.call = call ∧ b.written = false then true
    else (b.written || (nextWrite call batches).all (fun op => !touches b.ops op.key)) &&
      writesInTurn call batches

/-- The answer of the database will be put into a cache. -/
def PendingGet.fills (g : PendingGet) : Bool :=
  g.key.cacheString.isSome &&
    match g.read with
    | some (some _) => true
    | _ => false

/-- While a read that fills a cache is between the answer of the database and its end, and when
the database answers it, no batch with its key is on its way. -/
def orderly (s : DBManager) : Event → Bool
  | .read call =>
    match s.gets.get call with
    | some { key := key, read := none } =>
      !{ key := key, read := some (s._db key.baseKey) : PendingGet }.fills ||
        s.batches.all (fun b => b.written || !touches b.ops key)
    | _ => true
  | .batch _ ops =>
    s.gets.keys.all (fun call => (s.gets.get call).all (fun g => !g.fills || !touches ops g.key))
  | .write call => writesInTurn call s.batches
  | _ => true

/-- Every step of a run is orderly. -/
def orderlyRun : List Event → DBManager → Bool
  | [], _ => true
  | e :: events, s => s.orderly e && orderlyRun events (s.step e).1

end DBManager
