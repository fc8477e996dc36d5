-- SUMMARY: The binary tree over its database: merkelization, the walk to a stem, reads and writes.
import TsEthereum.StateManager.BinaryTree.BinaryNode
import TsEthereum.Utils.Account

/-!
# The binary tree

The tree is its root and its database, without checkpoints, cache or a persisted root.
`findPath` walks as long as the database leads it on, and the model's walk takes a
`fuel`. The stacks of `put` are kept with their last element first.
-/

namespace StateManager

structure BinaryTree where
  _root : Bytes
  _db : MapDB

namespace BinaryTree

open BinaryNode

variable (hashFunction : Bytes → Bytes)

/-- The root for an empty tree. -/
def EMPTY_TREE_ROOT : Bytes := List.replicate 32 0

/-- `createBinaryTree` without a root: `createRootNode` deletes under the root of the empty tree. -/
def createBinaryTree : BinaryTree := ⟨EMPTY_TREE_ROOT, MapDB.batch .empty [.del EMPTY_TREE_ROOT]⟩

/-! ## Hashing -/

/-- `null` and 64 zeros hash to 32 zeros. -/
def hash (msg : Option Bytes) : Except String Bytes :=
  match msg with
  | none => .ok (List.replicate 32 0)
  | some msg =>
    if msg.length = 64 ∧ msg.all (· == 0) then .ok (List.replicate 32 0)
    else if msg.length ≠ 32 ∧ msg.length ≠ 64 then .error "Data must be 32 or 64 bytes"
    else .ok (hashFunction msg)

/-- The hashes of the pairs of a layer. -/
def newLayerHashes : List Bytes → Except String (List Bytes)
  | [] => .ok []
  | [_] => .error "Cannot read properties of undefined (reading 'length')"
  | left :: right :: rest => do
    let pair ← hash hashFunction (some (left ++ right))
    let rest ← newLayerHashes rest
    return pair :: rest

/-- The loop over the layers; every turn leaves fewer hashes, so that their number bounds the
turns. -/
def topLayerHashes : Nat → List Bytes → Except String (List Bytes)
  | 0, currentLayerHashes => .ok currentLayerHashes
  | turns + 1, currentLayerHashes =>
    if currentLayerHashes.length > 1 then
      newLayerHashes hashFunction currentLayerHashes >>= topLayerHashes turns
    else .ok currentLayerHashes

def childHash (child : Option ChildBinaryNode) : Except String Bytes :=
  match child with
  | none => hash hashFunction none
  | some child => .ok child.hash

/-- `merkelize` of a node that is not `null`. -/
def merkelize (node : BinaryNode) : Except String Bytes :=
  match node with
  | .internal node => do
    let left ← childHash hashFunction node.leftChild
    let right ← childHash hashFunction node.rightChild
    hash hashFunction (some (left ++ right))
  | .stem node => do
    let valueHashes ← node.values.mapM (hash hashFunction)
    let currentLayerHashes ← topLayerHashes hashFunction valueHashes.length valueHashes
    match currentLayerHashes with
    | [] => .error "Cannot read properties of undefined (reading 'length')"
    | valuesRoot :: _ => hash hashFunction (some (setLengthRight node.stem 32 ++ valuesRoot))

/-! ## Finding a path -/

structure Path where
  node : Option BinaryNode
  remaining : Bits
  stack : List (BinaryNode × Bits)

/-- The child at a bit of the key; behind the key there is none, and its hash cannot be read. -/
def childAt (node : InternalBinaryNode) (index : Option Bool) :
    Except String (Option ChildBinaryNode) :=
  match index with
  | none => .error "Cannot read properties of undefined (reading 'hash')"
  | some index => .ok (node.getChild index)

def pathText (path : Bits) : String :=
  String.intercalate "," (path.map fun bit => if bit then "1" else "0")

/-- The loop of `findPath`, over the stack with its last node first. -/
def followChildren (db : MapDB) (keyInBits : Bits) :
    Nat → Option ChildBinaryNode → List (BinaryNode × Bits) → Except String Path
  | 0, _, _ => .error "out of fuel"
  | _ + 1, none, stack => .ok ⟨none, keyInBits, stack⟩
  | fuel + 1, some childNode, stack =>
    match db.get childNode.hash with
    | none => .error ("missing node at " ++ pathText childNode.path)
    | some rawNode => do
      let decodedNode ← decodeBinaryNode rawNode
      let matchingKeyLength := matchingBitsLength keyInBits childNode.path
      let remaining := keyInBits.drop matchingKeyLength
      if matchingKeyLength = childNode.path.length ∧
          (matchingKeyLength = keyInBits.length ∨ decodedNode.isStemBinaryNode) then
        if matchingKeyLength = keyInBits.length ∧ equalsBits keyInBits childNode.path then
          .ok ⟨some decodedNode, [], stack⟩
        else .ok ⟨none, remaining, (decodedNode, childNode.path) :: stack⟩
      else
        let stack := (decodedNode, keyInBits.take matchingKeyLength) :: stack
        match decodedNode with
        | .stem _ => .ok ⟨none, remaining, stack⟩
        | .internal node =>
          match childAt node keyInBits[matchingKeyLength]? with
          | .error e => .error e
          | .ok none => .ok ⟨none, remaining, stack⟩
          | .ok (some child) => followChildren db keyInBits fuel (some child) stack

/-- Tries to find a path to the node for the given key. -/
def findPath (fuel : Nat) (t : BinaryTree) (keyInBytes : Bytes) : Except String Path :=
  let keyInBits := bytesToBits keyInBytes none
  if t._root = EMPTY_TREE_ROOT then .ok ⟨none, keyInBits, []⟩
  else
    match t._db.get t._root with
    | none => .error "root node should exist"
    | some rawNode => do
      let rootNode ← decodeBinaryNode rawNode
      match rootNode with
      | .stem node =>
        if keyInBytes = node.stem then .ok ⟨some rootNode, [], [(rootNode, [])]⟩
        else .ok ⟨none, keyInBits, [(rootNode, [])]⟩
      | .internal node => do
        let childNode ← childAt node keyInBits[0]?
        followChildren t._db keyInBits fuel childNode [(rootNode, [])]

/-- The values at a stem and a set of suffixes, and no values where the stem is not found. -/
def get (fuel : Nat) (t : BinaryTree) (stem : Bytes) (suffixes : List Nat) :
    Except String (List (Option Bytes)) :=
  if stem.length ≠ 31 then
    .error ("expected stem with length 31; got " ++ toString stem.length)
  else do
    let stemPath ← findPath fuel t stem
    match stemPath.node with
    | some (.stem node) => return suffixes.map node.getValue
    | _ => return []

/-! ## Putting -/

/-- The nodes that `put` has updated, the last one first: the key of each, and `none` for a node
that is removed. -/
abbrev PutStack := List (Bytes × Option BinaryNode)

/-- Sets the values at the suffixes; a suffix without a value makes the hashing of the node throw. -/
def setValues : StemBinaryNode → List Nat → List (Option Bytes) → Except String StemBinaryNode
  | node, [], _ => .ok node
  | _, _ :: _, [] => .error "Cannot read properties of undefined (reading 'length')"
  | node, suffix :: suffixes, value :: values => setValues (node.setValue suffix value) suffixes values

/-- The stem node that `put` updates: the one that was found, or a new one. -/
def stemNodeOf (node : Option BinaryNode) (stem : Bytes) : StemBinaryNode :=
  match node with
  | some (.stem found) => if found.stem = stem then found else StemBinaryNode.create stem
  | _ => StemBinaryNode.create stem

/-- The loop of `updateBranch` from the depth before the given one. -/
def newParents (stemBits : Bits) (parentDiffIndex : Nat) :
    Nat → InternalBinaryNode → List (BinaryNode × Bits) → Except String (List (BinaryNode × Bits))
  | 0, _, putStack => .ok putStack
  | depth + 1, parent, putStack =>
    if depth > parentDiffIndex then do
      let parentHash ← merkelize hashFunction (.internal parent)
      let newParent := InternalBinaryNode.create.setChild stemBits[depth]?
        (some ⟨parentHash, stemBits.take (depth + 1)⟩)
      newParents stemBits parentDiffIndex depth newParent
        ((.internal newParent, stemBits.take depth) :: putStack)
    else .ok putStack

/-- Updates or creates the parent internal node for a given stem node; every node comes with its
own path. -/
def updateBranch (stemNode : StemBinaryNode) (nearestNode : BinaryNode) (pathToNode pathToParent : Bits) :
    Except String (List (BinaryNode × Bits)) :=
  let stemBits := bytesToBits stemNode.stem none
  match nearestNode with
  | .stem nearest => do
    let nearestNodeStemBits := bytesToBits nearest.stem none
    let diffIndex := matchingBitsLength stemBits nearestNodeStemBits
    let parentDiffIndex := matchingBitsLength pathToNode pathToParent
    let stemHash ← merkelize hashFunction (.stem stemNode)
    let nearestHash ← merkelize hashFunction (.stem nearest)
    let newInternal := (InternalBinaryNode.create.setChild stemBits[diffIndex]?
      (some ⟨stemHash, stemBits⟩)).setChild nearestNodeStemBits[diffIndex]?
      (some ⟨nearestHash, nearestNodeStemBits⟩)
    newParents hashFunction stemBits parentDiffIndex diffIndex newInternal
      [(.internal newInternal, stemBits.take diffIndex)]
  | .internal nearest => do
    let stemHash ← merkelize hashFunction (.stem stemNode)
    return [(.internal (nearest.setChild stemBits[pathToNode.length]? (some ⟨stemHash, stemBits⟩)),
      pathToNode)]

/-- Pushes the nodes of `updateBranch`. -/
def pushUpdates (updated : List (BinaryNode × Bits)) (putStack : PutStack) : Except String PutStack := do
  let pushed ← updated.mapM fun update => do
    let key ← merkelize hashFunction update.1
    return (key, some update.1)
  return pushed ++ putStack

/-- Step 2 adds any needed new internal nodes. What is left of the found stack comes with the
updated nodes and the path of the last one. -/
def connectStem (stemNode : StemBinaryNode) (stack : List (BinaryNode × Bits)) (putStack : PutStack) :
    Except String (List (BinaryNode × Bits) × PutStack × Bits) :=
  match stack with
  | (nearestNode, nearestNodePath) :: (parentNode, parentPath) :: rest => do
    let updated ← updateBranch hashFunction stemNode nearestNode nearestNodePath parentPath
    let putStack ← pushUpdates hashFunction updated putStack
    return ((parentNode, parentPath) :: rest, putStack, (updated.head?.map Prod.snd).getD [])
  | stack => return (stack, putStack, [])

/-- Step 3 updates the remaining parents, down to the root node. -/
def updateParents : List (BinaryNode × Bits) → PutStack → Bits →
    Except String (BinaryNode × PutStack × Bits)
  | [(rootNode, _)], putStack, lastUpdatedParentPath =>
    .ok (rootNode, putStack, lastUpdatedParentPath)
  | (.internal node, path) :: stack, (childKey, child) :: putStack, lastUpdatedParentPath => do
    let node := node.setChild lastUpdatedParentPath.getLast? (some ⟨childKey, lastUpdatedParentPath⟩)
    let key ← merkelize hashFunction (.internal node)
    updateParents stack ((key, some (.internal node)) :: (childKey, child) :: putStack) path
  | (.stem _, path) :: _, _, _ =>
    .error ("Expected internal node at path " ++ pathText path ++ ", got [object Object]")
  | _, _, _ => .error "Cannot read properties of undefined (reading '0')"

/-- The chain of internal nodes over the node in which the root is split. -/
def rootParents (stemBits : Bits) :
    Nat → InternalBinaryNode → PutStack → Except String (InternalBinaryNode × PutStack)
  | 0, newRoot, putStack => .ok (newRoot, putStack)
  | depth + 1, newRoot, putStack => do
    let key ← merkelize hashFunction (.internal newRoot)
    let parent := InternalBinaryNode.create.setChild stemBits[depth]?
      (some ⟨key, stemBits.take (depth + 1)⟩)
    rootParents stemBits depth parent ((key, some (.internal newRoot)) :: putStack)

/-- Step 4 updates the root node. A root that is the stem node of the stem was updated with it. -/
def updateRoot (stemNode : StemBinaryNode) (rootNode : BinaryNode) (putStack : PutStack)
    (lastUpdatedParentPath : Bits) : Except String (BinaryNode × PutStack) :=
  let stemBits := bytesToBits stemNode.stem none
  match rootNode with
  | .stem root =>
    if root.stem ≠ stemNode.stem then do
      let rootBits := bytesToBits root.stem none
      let commonPrefixLength := matchingBitsLength rootBits stemBits
      let stemHash ← merkelize hashFunction (.stem stemNode)
      let existingHash ← merkelize hashFunction (.stem root)
      let splitNode := (InternalBinaryNode.create.setChild stemBits[commonPrefixLength]?
        (some ⟨stemHash, stemBits⟩)).setChild rootBits[commonPrefixLength]?
        (some ⟨existingHash, rootBits⟩)
      let (newRoot, putStack) ← rootParents hashFunction stemBits commonPrefixLength splitNode putStack
      return (.internal newRoot, putStack)
    else return (.stem stemNode, putStack)
  | .internal root =>
    match putStack with
    | (_, some childReference) :: _ => do
      let key ← merkelize hashFunction childReference
      let path := if childReference.isStemBinaryNode then stemBits else lastUpdatedParentPath
      return (.internal (root.setChild stemBits[0]? (some ⟨key, path⟩)), putStack)
    | _ => return (.internal root, putStack)

/-- Steps 2 to 4: the updated root node, and the other updated nodes. -/
def updateTree (stemNode : StemBinaryNode) (stack : List (BinaryNode × Bits)) (putStack : PutStack) :
    Except String (BinaryNode × PutStack) := do
  let (stack, putStack, lastUpdatedParentPath) ← connectStem hashFunction stemNode stack putStack
  let (rootNode, putStack, lastUpdatedParentPath) ←
    updateParents hashFunction stack putStack lastUpdatedParentPath
  updateRoot hashFunction stemNode rootNode putStack lastUpdatedParentPath

/-- `root` as a setter. -/
def setRoot (t : BinaryTree) (value : Bytes) : Except String BinaryTree :=
  if value.length ≠ 32 then .error "Invalid root length. Roots are 32 bytes"
  else .ok { t with _root := value }

def saveStack (t : BinaryTree) (putStack : PutStack) : BinaryTree :=
  { t with _db := t._db.batch (putStack.reverse.map fun
    | (key, some node) => .put key node.serialize
    | (key, none) => .del key) }

def _createInitialNode (t : BinaryTree) (stem : Bytes) (indexes : List Nat)
    (values : List (Option Bytes)) : Except String BinaryTree := do
  let initialNode ← setValues (StemBinaryNode.create stem) indexes values
  let root ← merkelize hashFunction (.stem initialNode)
  let t ← setRoot t root
  return { t with _db := t._db.batch [.put root (BinaryNode.stem initialNode).serialize] }

/-- The nodes that `put` updates in a tree with a root, and the root last; nothing where there
is nothing to delete. -/
def updatedNodes (fuel : Nat) (t : BinaryTree) (stem : Bytes) (suffixes : List Nat)
    (values : List (Option Bytes)) : Except String (Option (Bytes × PutStack)) := do
  let foundPath ← findPath fuel t stem
  if foundPath.stack = [] then .error "Root node not found in trie"
  else do
    let stemNode ← setValues (stemNodeOf foundPath.node stem) suffixes values
    let deleted := stemNode.values.all (· == none)
    if deleted ∧ foundPath.node = none then return none
    else do
      let stemKey ← merkelize hashFunction (.stem stemNode)
      let putStack := [(stemKey, if deleted then none else some (.stem stemNode))]
      let (rootNode, putStack) ← updateTree hashFunction stemNode foundPath.stack putStack
      let root ← merkelize hashFunction rootNode
      return some (root, (root, some rootNode) :: putStack)

/-- Stores the values at the suffixes of the stem, and deletes where a value is null. -/
def put (fuel : Nat) (t : BinaryTree) (stem : Bytes) (suffixes : List Nat)
    (values : List (Option Bytes)) : Except String BinaryTree :=
  if stem.length ≠ 31 then
    .error ("expected stem with length 31, got " ++ toString stem.length)
  else if values.length > 0 ∧ values.length ≠ suffixes.length then
    .error ("expected number of values (" ++ toString values.length ++
      ") to equal number of suffixes (" ++ toString suffixes.length ++ ")")
  else if t._root = EMPTY_TREE_ROOT then _createInitialNode hashFunction t stem suffixes values
  else do
    match ← updatedNodes hashFunction fuel t stem suffixes values with
    | none => return t
    | some (root, putStack) => do
      let t ← setRoot t root
      return saveStack t putStack

end BinaryTree

end StateManager
