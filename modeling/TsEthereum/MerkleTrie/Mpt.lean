-- SUMMARY: The Merkle Patricia trie: walking to a key, updating and deleting along the stack of nodes, saving the stack, and pruning.
import TsEthereum.MerkleTrie.Node
import Mathlib.Algebra.GroupWithZero.Nat

/-!
# MerklePatriciaTrie

The trie over its database, with the hash function as a parameter. A `stack` of
nodes is a list with the end of the array first. A walk takes as many steps as
its `fuel` at most. Left out are the lock, `keyPrefix`, root persistence,
checkpoints (the database is the one of a `CheckpointDB` without a cache and
without checkpoints) and the `partialPath` of `findPath`.
-/

open Rlp (Item)
open Nibbles

def RLP_EMPTY_STRING : Bytes := [0x80]

structure MPTOpts where
  useKeyHashing : Bool
  useNodePruning : Bool
  deriving DecidableEq, Repr

structure MPT where
  _opts : MPTOpts
  _db : MapDB
  _root : Bytes
  /-- Every operation made on the database; no function of the source reads it. -/
  journal : List BatchDBOp

namespace MPT

/-- `stack` holds the nodes from the end of the path to the root. -/
structure Path where
  node : Option MPTNode
  remaining : Nibbles
  stack : List MPTNode

/-! ## The database and the root -/

def dbBatch (t : MPT) (opStack : List BatchDBOp) : MPT :=
  { t with _db := t._db.batch opStack, journal := t.journal ++ opStack }

/-- Retrieves a node from db by hash, or decodes a raw one. -/
def lookupNode (db : MapDB) : Item → Except MPTError MPTNode
  | .list raw => MPTNode.decodeRawMPTNode raw
  | .bytes node =>
    match db.get node with
    | none => .error .missingNode
    | some value => MPTNode.decodeMPTNode value

variable (hash : Bytes → Bytes)

def EMPTY_TRIE_ROOT : Bytes := hash RLP_EMPTY_STRING

/-- An empty trie on an empty database. -/
def new (opts : MPTOpts) : MPT where
  _opts := opts
  _db := .empty
  _root := EMPTY_TRIE_ROOT hash
  journal := []

/-- The setter `root(value)`. -/
def setRoot (t : MPT) (value : Bytes) : Except MPTError MPT :=
  let _hashLen := (EMPTY_TRIE_ROOT hash).length
  if value.length ≠ _hashLen then
    .error (.invalidRootLength _hashLen value.length)
  else
    .ok { t with _root := value }

def appliedKey (t : MPT) (key : Bytes) : Bytes :=
  if t._opts.useKeyHashing then hash key else key

/-! ## Walking -/

/-- `stack[progress] = node` on an array whose indices so far are at most `progress`. -/
def stackSet (stack : List (Nat × MPTNode)) (progress : Nat) (node : MPTNode) :
    List (Nat × MPTNode) :=
  (progress, node) :: stack.filter (fun e => e.1 ≠ progress)

/-- What a walk has found, with the stack that it leaves behind also where it fails. -/
structure Walk where
  result : Except MPTError (Option MPTNode × Nibbles)
  stack : List (Nat × MPTNode)

/-- The walk of `findPath` from the node `ref`, with `progress` nibbles of the key behind it. -/
def walkPath (db : MapDB) (targetKey : Nibbles) :
    Nat → Item → Nat → List (Nat × MPTNode) → Walk
  | 0, _, _, stack => ⟨.error .outOfFuel, stack⟩
  | fuel + 1, ref, progress, stack =>
    match lookupNode db ref with
    | .error e => ⟨.error e, stack⟩
    | .ok node =>
      let stack := stackSet stack progress node
      let remaining := targetKey.drop progress
      match node with
      | .branch _branches _ =>
        match remaining with
        | [] => ⟨.ok (some node, []), stack⟩
        | branchIndex :: _ =>
          match MPTNode.getBranch _branches branchIndex with
          | none => ⟨.ok (none, remaining), stack⟩
          | some branchNode => walkPath db targetKey fuel branchNode (progress + 1) stack
      | .leaf _nibbles _ =>
        if remaining.length > _nibbles.length then ⟨.ok (none, remaining), stack⟩
        else if _nibbles.isPrefixOf remaining then ⟨.ok (some node, []), stack⟩
        else ⟨.ok (none, remaining), stack⟩
      | .extension _nibbles _value =>
        if _nibbles.isPrefixOf remaining then
          walkPath db targetKey fuel _value (progress + _nibbles.length) stack
        else ⟨.ok (none, remaining), stack⟩

/-- Tries to find a path to the node for the given key. -/
def findPath (fuel : Nat) (t : MPT) (key : Bytes) (throwIfMissing : Bool) :
    Except MPTError Path :=
  let walk := walkPath t._db (bytesToNibbles key) fuel (.bytes t._root) 0 []
  let stack := walk.stack.map Prod.snd
  match walk.result with
  | .ok (node, remaining) => .ok ⟨node, remaining, stack⟩
  | .error .missingNode =>
    if throwIfMissing then .error .missingNode else .ok ⟨none, [], stack⟩
  | .error e => .error e

/-- Gets a value given a `key`; `none` is `null`. -/
def get (fuel : Nat) (t : MPT) (key : Bytes) (throwIfMissing : Bool) :
    Except MPTError (Option Item) := do
  let path ← findPath fuel t (t.appliedKey hash key) throwIfMissing
  match path.node, path.remaining with
  | some node, [] => return node.value
  | _, _ => return none

/-! ## Saving -/

/-- The reference by which `node` is held, with the operation that stores or removes it. -/
def formatNode (opts : MPTOpts) (node : MPTNode) (topLevel : Bool) (opStack : List BatchDBOp)
    (remove : Bool) : Item × List BatchDBOp :=
  let encoded := node.serialize
  if encoded.length ≥ 32 ∨ topLevel then
    let lastRoot := hash encoded
    if remove then
      (.bytes lastRoot, if opts.useNodePruning then opStack ++ [.del lastRoot] else opStack)
    else
      (.bytes lastRoot, opStack ++ [.put lastRoot encoded])
  else
    (.list node.raw, opStack)

/-- `key.splice(key.length - n)`; a negative start counts from the end. -/
def spliceEnd (key : Nibbles) (n : Nat) : Nibbles :=
  if n ≤ key.length then key.take (key.length - n) else key.take (2 * key.length - n)

/-- The node with the reference to the node saved before it, and the rest of the key. -/
def linkNode (node : MPTNode) (key : Nibbles) (lastRoot : Option Item) : MPTNode × Nibbles :=
  match node, lastRoot with
  | .leaf _nibbles _, _ => (node, spliceEnd key _nibbles.length)
  | .extension _nibbles _, _ => (node.setValue lastRoot, spliceEnd key _nibbles.length)
  | .branch _ _, none => (node, key)
  | .branch _ _, some lastRoot =>
    match key.getLast? with
    | none => (node, key)
    | some branchKey => (node.setBranch branchKey lastRoot, key.dropLast)

/-- The loop of `saveStack`. -/
def saveNodes (opts : MPTOpts) :
    List MPTNode → Nibbles → Option Item → List BatchDBOp → Option Item × List BatchDBOp
  | [], _, lastRoot, opStack => (lastRoot, opStack)
  | node :: stack, key, lastRoot, opStack =>
    let (node, key) := linkNode node key lastRoot
    let (lastRoot, opStack) := formatNode hash opts node stack.isEmpty opStack false
    saveNodes opts stack key (some lastRoot) opStack

/-- Saves a stack of nodes to the database; the key follows the stack. -/
def saveStack (t : MPT) (key : Nibbles) (stack : List MPTNode) (opStack : List BatchDBOp) :
    Except MPTError MPT :=
  match saveNodes hash t._opts stack key none opStack with
  | (some (.bytes lastRoot), opStack) => do
    let t ← t.setRoot hash lastRoot
    return t.dbBatch opStack
  | (some (.list lastRoot), _) =>
    .error (.invalidRootLength (EMPTY_TRIE_ROOT hash).length lastRoot.length)
  | (none, opStack) => .ok (t.dbBatch opStack)

/-! ## Updating -/

def createInitialNode (t : MPT) (key value : Bytes) : Except MPTError MPT := do
  let encoded := (MPTNode.leaf (bytesToNibbles key) (.bytes value)).serialize
  let t ← t.setRoot hash (hash encoded)
  return t.dbBatch [.put t._root encoded]

/-- The last node is the leaf of the key. -/
def matchLeaf (key keyRemainder : Nibbles) (lastNode : MPTNode) (stack : List MPTNode) : Bool :=
  match lastNode with
  | .leaf _nibbles _ =>
    let l := (stack.map (fun n => if n.isBranch then 1 else n.keyLength)).sum
    keyRemainder.isEmpty && matchingNibbleLength _nibbles (key.drop l) == _nibbles.length
  | .branch _ _ | .extension _ _ => false

def emptyBranch : MPTNode := .branch (fun _ => .bytes []) (.bytes [])

/-- The branch that takes up a leaf or extension of which `lastKey` is left, with what that
needs saved. -/
def newBranch (opts : MPTOpts) (lastNode : MPTNode) (lastKey : Nibbles) :
    MPTNode × List BatchDBOp :=
  match lastKey with
  | branchKey :: lastKey =>
    if lastKey ≠ [] ∨ lastNode matches .leaf _ _ then
      -- shrinking extension or leaf
      let (formattedNode, toSave) := formatNode hash opts (lastNode.setKey lastKey) false [] false
      (emptyBranch.setBranch branchKey formattedNode, toSave)
    else
      -- remove extension or attaching
      let (_, toSave) := formatNode hash opts lastNode false [] true
      (emptyBranch.setBranch branchKey (lastNode.value.getD default), toSave)
  | [] => (emptyBranch.setValue lastNode.value, [])

/-- What is put in the place of a leaf or extension where the key leaves it: the new nodes,
the last one first, and what they need saved. -/
def splitNode (opts : MPTOpts) (lastNode : MPTNode) (keyRemainder : Nibbles) (value : Bytes) :
    List MPTNode × List BatchDBOp :=
  let matchingLength := matchingNibbleLength lastNode.key keyRemainder
  let newExtNodes :=
    if matchingLength ≠ 0 then
      [MPTNode.extension (lastNode.key.take matchingLength) (.bytes value)]
    else []
  let (newBranchMPTNode, toSave) :=
    newBranch hash opts lastNode (lastNode.key.drop matchingLength)
  match keyRemainder.drop matchingLength with
  | _ :: keyRemainder =>
    (.leaf keyRemainder (.bytes value) :: newBranchMPTNode :: newExtNodes, toSave)
  | [] => (newBranchMPTNode.setValue (some (.bytes value)) :: newExtNodes, toSave)

def updateNode (t : MPT) (k value : Bytes) (keyRemainder : Nibbles) (stack : List MPTNode) :
    Except MPTError MPT :=
  match stack with
  | [] => .error .stackUnderflow
  | lastNode :: stack =>
    let key := bytesToNibbles k
    if matchLeaf key keyRemainder lastNode stack then
      t.saveStack hash key (lastNode.setValue (some (.bytes value)) :: stack) []
    else
      match lastNode with
      | .branch _ _ =>
        match keyRemainder with
        | _ :: keyRemainder =>
          t.saveStack hash key (.leaf keyRemainder (.bytes value) :: lastNode :: stack) []
        | [] => t.saveStack hash key (lastNode.setValue (some (.bytes value)) :: stack) []
      | .leaf _ _ | .extension _ _ =>
        let (newNodes, toSave) := splitNode hash t._opts lastNode keyRemainder value
        t.saveStack hash key (newNodes ++ stack) toSave

/-! ## Deleting -/

/-- The one child `branchNode` of a branch takes its place below `parentNode`. -/
def processBranchMPTNode (key : Nibbles) (branchKey : Nibble) (branchNode : MPTNode)
    (parentNode : Option MPTNode) (stack : List MPTNode) : Nibbles × List MPTNode :=
  match parentNode, branchNode with
  | none, .branch _ _ =>
    (key ++ [branchKey], branchNode :: .extension [branchKey] (.bytes []) :: stack)
  | none, _ =>
    let branchNodeKey := branchKey :: branchNode.key
    (key ++ branchNodeKey, branchNode.setKey branchNodeKey :: stack)
  | some (.branch bs v), .branch _ _ =>
    (key ++ [branchKey],
      branchNode :: .extension [branchKey] (.bytes []) :: .branch bs v :: stack)
  | some (.branch bs v), _ =>
    let branchNodeKey := branchKey :: branchNode.key
    (key ++ branchNodeKey, branchNode.setKey branchNodeKey :: .branch bs v :: stack)
  | some parentNode, .branch _ _ =>
    (key ++ [branchKey],
      branchNode :: parentNode.setKey (parentNode.key ++ [branchKey]) :: stack)
  | some parentNode, _ =>
    let branchNodeKey := branchKey :: branchNode.key
    (key ++ branchNodeKey, branchNode.setKey (parentNode.key ++ branchNodeKey) :: stack)

/-- The database key under which the one child that is left is removed. -/
def collapsedKey (t : MPT) : Item → Bytes
  | .bytes branchNode => branchNode
  | .list raw => t.appliedKey hash (Rlp.encode (.list raw))

/-- The end of `_deleteNode`, with the branch that lost a child or its value. -/
def collapseBranch (t : MPT) (key : Nibbles) (_branches : Nibble → Item) (_value : Item)
    (parentNode : Option MPTNode) (stack : List MPTNode) (opStack : List BatchDBOp) :
    Except MPTError MPT :=
  match MPTNode.getChildren _branches with
  | [(branchNodeKey, branchNode)] => do
    let opStack :=
      if t._opts.useNodePruning then opStack ++ [.del (t.collapsedKey hash branchNode)]
      else opStack
    let foundNode ← lookupNode t._db branchNode
    let (key, stack) := processBranchMPTNode key branchNodeKey foundNode parentNode stack
    t.saveStack hash key stack opStack
  | _ => t.saveStack hash key (.branch _branches _value :: (parentNode.toList ++ stack)) opStack

def deleteNode (t : MPT) (k : Bytes) (stack : List MPTNode) : Except MPTError MPT :=
  match stack with
  | [] => .error .missingLastNode
  | [_] => t.setRoot hash (EMPTY_TRIE_ROOT hash)
  | lastNode :: parentNode :: stack =>
    let key := bytesToNibbles k
    match lastNode, parentNode with
    | .branch _branches _value, _ =>
      -- `value(null)` leaves the value of a branch as it is
      t.collapseBranch hash key _branches _value (some parentNode) stack []
    | _, .branch _branches _value =>
      let key := spliceEnd key lastNode.keyLength
      let opStack := (formatNode hash t._opts lastNode false [] true).2
      let _branches :=
        match key.getLast? with
        | none => _branches
        | some branchKey => Function.update _branches branchKey (.bytes [])
      t.collapseBranch hash key.dropLast _branches _value stack.head? stack.tail opStack
    | _, _ => .error .expectedBranchNode

/-! ## Put and del -/

/-- Removes the nodes of a path, from the root on. -/
def pruneOps (stack : List MPTNode) : List BatchDBOp :=
  stack.reverse.map (fun e => .del (hash e.serialize))

def del (fuel : Nat) (t : MPT) (key : Bytes) (skipKeyTransform : Bool) : Except MPTError MPT := do
  let appliedKey := if skipKeyTransform then key else t.appliedKey hash key
  let path ← findPath fuel t appliedKey false
  match path.node with
  | none => return t
  | some _ =>
    let t' ← t.deleteNode hash appliedKey path.stack
    if t._opts.useNodePruning then
      return t'.dbBatch (pruneOps hash path.stack)
    else
      return t'

/-- The nodes that an update of the value of `key` makes obsolete. -/
def obsolete (fuel : Nat) (t : MPT) (key value : Bytes) (stack : List MPTNode) :
    Except MPTError (List BatchDBOp) := do
  if t._opts.useNodePruning then
    let val ← t.get hash fuel key false
    if val ≠ some (.bytes value) then
      return pruneOps hash stack
    else
      return []
  else
    return []

/-- Stores a given `value` at the given `key` or does a delete if `value` is empty. -/
def put (fuel : Nat) (t : MPT) (key : Bytes) (value : Option Bytes) (skipKeyTransform : Bool) :
    Except MPTError MPT :=
  match value with
  | none | some [] => t.del hash fuel key false
  | some value => do
    let appliedKey := if skipKeyTransform then key else t.appliedKey hash key
    if t._root = EMPTY_TRIE_ROOT hash then
      t.createInitialNode hash appliedKey value
    else
      let path ← findPath fuel t appliedKey false
      let ops ← t.obsolete hash fuel key value path.stack
      let t' ← t.updateNode hash appliedKey value path.remaining path.stack
      return t'.dbBatch ops

end MPT
