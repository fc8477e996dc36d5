-- SUMMARY: The database wrapper of the trie with its read cache and checkpoint diffs, as operations on explicit state.
import TsEthereum.Base.OverlayStack
import TsEthereum.Utils.DB

/-!
# CheckpointDB

The state of a `CheckpointDB` and its operations. The LRU cache is a third-party
component: it enters through the operations used of it. `open`, the encodings
and `shallowCopy` are left out.
-/

/-! ## The read cache -/

/-- The operations of the LRU cache that are used; `peek` reads without marking the key
as used. -/
structure LRUCache where
  State : Type
  new : Nat → State
  get : State → Bytes → Option Bytes × State
  peek : State → Bytes → Option Bytes
  set : State → Bytes → Option Bytes → State
  size : State → Nat

/-- What is documented of the LRU cache: a `get` reads and moves nothing but recency, a
`set` stores the value (for `undefined`, removes the key) and may evict other keys. -/
structure LRUCache.Lawful (L : LRUCache) : Prop where
  peek_new : ∀ max k, L.peek (L.new max) k = none
  get_value : ∀ c k, (L.get c k).1 = L.peek c k
  peek_get : ∀ c k k', L.peek (L.get c k).2 k' = L.peek c k'
  peek_set : ∀ c k x k' v, L.peek (L.set c k x) k' = some v →
    if k' = k then x = some v else L.peek c k' = some v

/-! ## State -/

structure Checkpoint where
  keyValueMap : OrderedMap Bytes (Option Bytes)
  root : Bytes

structure CheckpointDB.Counters where
  reads : Nat
  hits : Nat
  writes : Nat

structure CheckpointDB.Stats where
  cache : CheckpointDB.Counters
  db : CheckpointDB.Counters

structure CheckpointDB (L : LRUCache) where
  /-- The innermost checkpoint first. -/
  checkpoints : List Checkpoint
  db : MapDB
  cacheSize : Nat
  _cache : Option L.State
  _stats : CheckpointDB.Stats

namespace CheckpointDB

def Stats.zero : Stats := ⟨⟨0, 0, 0⟩, ⟨0, 0, 0⟩⟩

def Stats.cacheRead (st : Stats) (hit : Bool) : Stats :=
  { st with cache := { st.cache with
      reads := st.cache.reads + 1
      hits := st.cache.hits + hit.toNat } }

def Stats.dbRead (st : Stats) (hit : Bool) : Stats :=
  { st with db := { st.db with
      reads := st.db.reads + 1
      hits := st.db.hits + hit.toNat } }

def Stats.cacheWritten (st : Stats) : Stats :=
  { st with cache := { st.cache with writes := st.cache.writes + 1 } }

def Stats.dbWritten (st : Stats) (n : Nat) : Stats :=
  { st with db := { st.db with writes := st.db.writes + n } }

variable {L : LRUCache}

/-- The constructor. -/
def new (db : MapDB) (cacheSize : Nat) : CheckpointDB L where
  checkpoints := []
  db := db
  cacheSize := cacheSize
  _cache := if cacheSize > 0 then some (L.new cacheSize) else none
  _stats := .zero

def hasCheckpoints (s : CheckpointDB L) : Bool := !s.checkpoints.isEmpty

/-! ## Operations -/

def checkpoint (s : CheckpointDB L) (root : Bytes) : CheckpointDB L :=
  { s with checkpoints := { keyValueMap := .empty, root := root } :: s.checkpoints }

/-- `this._cache?.get(keyHex)`, with its statistics. -/
def readCache (s : CheckpointDB L) (key : Bytes) : Option Bytes × CheckpointDB L :=
  match s._cache with
  | none => (none, s)
  | some c =>
    let (value, c') := L.get c key
    (value, { s with _cache := some c', _stats := s._stats.cacheRead value.isSome })

/-- The entry of the innermost diff that has the key. -/
def findDiff : List Checkpoint → Bytes → Option (Option Bytes)
  | [], _ => none
  | c :: cs, key =>
    match c.keyValueMap.get key with
    | some value => some value
    | none => findDiff cs key

/-- Write into the innermost diff. -/
def setDiff (s : CheckpointDB L) (key : Bytes) (value : Option Bytes) : CheckpointDB L :=
  match s.checkpoints with
  | [] => s
  | c :: cs =>
    { s with checkpoints := { c with keyValueMap := c.keyValueMap.set key value } :: cs }

def setCache (s : CheckpointDB L) (key : Bytes) (value : Option Bytes) : CheckpointDB L :=
  { s with _cache := s._cache.map (L.set · key value) }

/-- The end of `get`: look up from disk, keep the value in the cache and in the innermost
diff. -/
def readDisk (s : CheckpointDB L) (key : Bytes) : Option Bytes × CheckpointDB L :=
  let value := s.db.get key
  let s := { s with _stats := s._stats.dbRead value.isSome }
  (value, (s.setCache key value).setDiff key value)

def get (s : CheckpointDB L) (key : Bytes) : Option Bytes × CheckpointDB L :=
  match s.readCache key with
  | (some value, s) => (some value, s)
  | (none, s) =>
    match findDiff s.checkpoints key with
    | some value => (value, s)
    | none => s.readDisk key

/-- The cache update of a write to disk, with its statistics. -/
def writeCache (s : CheckpointDB L) (key : Bytes) (value : Option Bytes) : CheckpointDB L :=
  match s._cache with
  | none => s
  | some c => { s with _cache := some (L.set c key value), _stats := s._stats.cacheWritten }

def put (s : CheckpointDB L) (key value : Bytes) : CheckpointDB L :=
  if s.hasCheckpoints then
    s.setDiff key (some value)
  else
    { s with db := s.db.set key value, _stats := s._stats.dbWritten 1 }.writeCache key
      (some value)

def del (s : CheckpointDB L) (key : Bytes) : CheckpointDB L :=
  if s.hasCheckpoints then
    s.setDiff key none
  else
    { s with db := s.db.delete key, _stats := s._stats.dbWritten 1 }.writeCache key none

/-- `put` or `del`. -/
def apply (s : CheckpointDB L) : BatchDBOp → CheckpointDB L
  | .put key value => s.put key value
  | .del key => s.del key

def batch (s : CheckpointDB L) (opStack : List BatchDBOp) : CheckpointDB L :=
  if s.hasCheckpoints then
    opStack.foldl apply s
  else
    { s with db := s.db.batch opStack, _stats := s._stats.dbWritten opStack.length }

/-- The database operation that writes an entry of a diff. -/
def flushOp (e : Bytes × Option Bytes) : BatchDBOp :=
  match e.2 with
  | none => .del e.1
  | some value => .put e.1 value

/-- The copy of a diff into the one around it. -/
def dumpInto (keyValueMap current : OrderedMap Bytes (Option Bytes)) :
    OrderedMap Bytes (Option Bytes) :=
  keyValueMap.entries.foldl (fun current e => current.set e.1 e.2) current

/-- `none` is the `TypeError` of a commit without an open checkpoint. -/
def commit (s : CheckpointDB L) : Option (CheckpointDB L) :=
  match s.checkpoints with
  | [] => none
  | c :: [] => some ({ s with checkpoints := [] }.batch (c.keyValueMap.entries.map flushOp))
  | c :: current :: cs =>
    some { s with checkpoints :=
      { current with keyValueMap := dumpInto c.keyValueMap current.keyValueMap } :: cs }

/-- Returns the root recorded by the checkpoint. -/
def revert (s : CheckpointDB L) : Option (Bytes × CheckpointDB L) :=
  match s.checkpoints with
  | [] => none
  | c :: cs => some (c.root, { s with checkpoints := cs })

def setCheckpoints (s : CheckpointDB L) (checkpoints : List Checkpoint) : CheckpointDB L :=
  { s with checkpoints := checkpoints }

def stats (s : CheckpointDB L) (reset : Bool) : Stats × Nat × CheckpointDB L :=
  let size := (s._cache.map L.size).getD 0
  (s._stats, size, if reset then { s with _stats := .zero } else s)

/-! ## Runs -/

inductive Call where
  | put (key value : Bytes)
  | del (key : Bytes)
  | batch (opStack : List BatchDBOp)
  | get (key : Bytes)
  | checkpoint (root : Bytes)
  | commit
  | revert
  deriving DecidableEq, Repr

def call (s : CheckpointDB L) : Call → Option (CheckpointDB L)
  | .put key value => some (s.put key value)
  | .del key => some (s.del key)
  | .batch opStack => some (s.batch opStack)
  | .get key => some (s.get key).2
  | .checkpoint root => some (s.checkpoint root)
  | .commit => s.commit
  | .revert => s.revert.map Prod.snd

def run (s : CheckpointDB L) : List Call → Option (CheckpointDB L)
  | [] => some s
  | c :: cs => (s.call c).bind (run · cs)

end CheckpointDB
