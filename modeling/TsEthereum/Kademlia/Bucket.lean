-- SUMMARY: The k-bucket: a tree of leaves that are split towards the local id, with its add, get and remove.
import TsEthereum.Base.BitTree
import TsEthereum.Utils.DB

/-!
# K-buckets

A node of the tree is a leaf with contacts, or inner; an inner node has no contacts
and its `noSplit` is not read any more. `add` calls itself after a split, so its model
has the depth of the call stack that it may use. The arbiter is the default one. Left
out are `closest` and the descriptions of the structure.
-/

structure PeerInfo where
  id : Option Bytes
  address : Option String
  udpPort : Option Nat
  tcpPort : Option Nat
  vectorClock : Option Int
  deriving DecidableEq, Repr

/-- A peer with an id. -/
structure Contact where
  info : PeerInfo
  hasId : info.id.isSome = true
  deriving DecidableEq

def Contact.id (contact : Contact) : Bytes := contact.info.id.get contact.hasId

def PeerInfo.toContact (peer : PeerInfo) : Option Contact :=
  if h : peer.id.isSome = true then some ⟨peer, h⟩ else none

/-- A node that has contacts. -/
structure KBucketLeaf where
  contacts : List Contact
  noSplit : Bool
  deriving DecidableEq

abbrev KBucketNode := BitTree KBucketLeaf

inductive KBucketEvent where
  | added (peer : Contact)
  | removed (peer : Contact)
  | ping (contacts : List Contact) (contact : Contact)
  | updated (incumbent selection : Contact)
  deriving DecidableEq

inductive KBucketError where
  | missingId | stackOverflow
  deriving DecidableEq, Repr

def KBucketError.message : KBucketError → String
  | .missingId => "Contact must have an id"
  | .stackOverflow => "Maximum call stack size exceeded"

structure KBucket where
  _localNodeId : Bytes
  _numberOfNodesPerKBucket : Nat
  _numberOfNodesToPing : Nat
  _root : KBucketNode

namespace KBucket

/-- The comparison of vector clocks, `false` where one is `undefined`. -/
def clockGreater (a b : Option Int) : Bool :=
  match a, b with
  | some a, some b => a > b
  | _, _ => false

def arbiter (incumbent candidate : Contact) : Contact :=
  if clockGreater incumbent.info.vectorClock candidate.info.vectorClock then incumbent else candidate

/-- Whether the node for `id` at `bitIndex` is the right one. Bits behind the id count as 0. -/
def _determineNode (id : Bytes) (bitIndex : Nat) : Bool :=
  let bytesDescribedByBitIndex := bitIndex / 8
  let bitIndexWithinByte := bitIndex % 8
  if id.length ≤ bytesDescribedByBitIndex ∧ bitIndexWithinByte ≠ 0 then false
  else
    match id[bytesDescribedByBitIndex]? with
    | none => false
    | some byteUnderConsideration =>
      byteUnderConsideration.toNat &&& (1 <<< (7 - bitIndexWithinByte)) != 0

def createNode : KBucketLeaf := ⟨[], false⟩

def new (localNodeId : Bytes) (numberOfNodesPerKBucket numberOfNodesToPing : Nat) : KBucket :=
  ⟨localNodeId, numberOfNodesPerKBucket, numberOfNodesToPing, .leaf createNode⟩

/-- The leaf that the bits of an id lead to, with the number of bits. -/
def leafOf (b : KBucket) (id : Bytes) : KBucketLeaf × Nat := b._root.find (_determineNode id) 0

def setLeaf (b : KBucket) (id : Bytes) (node : KBucketNode) : KBucket :=
  { b with _root := b._root.replace (_determineNode id) 0 node }

def _indexOf (node : KBucketLeaf) (id : Bytes) : Option Nat :=
  node.contacts.findIdx? (fun contact => contact.id = id)

/-- Puts the contact that the arbiter selects at the end. -/
def _update (node : KBucketLeaf) (index : Nat) (contact : Contact) :
    KBucketLeaf × List KBucketEvent :=
  match node.contacts[index]? with
  | none => (node, [])
  | some incumbent =>
    let selection := arbiter incumbent contact
    if selection = incumbent ∧ incumbent ≠ contact then (node, [])
    else
      ({ node with contacts := node.contacts.eraseIdx index ++ [selection] },
        [.updated incumbent selection])

/-- The contacts go to two new leaves; the one away from the local id is not split again. -/
def _split (localNodeId : Bytes) (node : KBucketLeaf) (bitIndex : Nat) : KBucketNode :=
  let detNode := _determineNode localNodeId bitIndex
  .inner
    (.leaf ⟨node.contacts.filter (fun contact => !_determineNode contact.id bitIndex), detNode⟩)
    (.leaf ⟨node.contacts.filter (fun contact => _determineNode contact.id bitIndex), !detNode⟩)

/-- One call of `add`; without events it has split the leaf and calls itself. -/
def addStep (b : KBucket) (contact : Contact) : KBucket × Option (List KBucketEvent) :=
  let (node, bitIndex) := b.leafOf contact.id
  match _indexOf node contact.id with
  | some index =>
    let (node, events) := _update node index contact
    (b.setLeaf contact.id (.leaf node), some events)
  | none =>
    if node.contacts.length < b._numberOfNodesPerKBucket then
      (b.setLeaf contact.id (.leaf { node with contacts := node.contacts ++ [contact] }),
        some [.added contact])
    else if node.noSplit then
      (b, some [.ping (node.contacts.take b._numberOfNodesToPing) contact])
    else (b.setLeaf contact.id (_split b._localNodeId node bitIndex), none)

def addContact : Nat → KBucket → Contact → KBucket × Except KBucketError (List KBucketEvent)
  | 0, b, _ => (b, .error .stackOverflow)
  | stack + 1, b, contact =>
    match b.addStep contact with
    | (b, some events) => (b, .ok events)
    | (b, none) => addContact stack b contact

/-- Adds a contact; `stack` bounds the calls. -/
def add (stack : Nat) (b : KBucket) (contact : PeerInfo) :
    KBucket × Except KBucketError (List KBucketEvent) :=
  match contact.toContact with
  | none => (b, .error .missingId)
  | some contact => addContact stack b contact

def get (b : KBucket) (id : Bytes) : Option Contact :=
  let (node, _) := b.leafOf id
  (_indexOf node id).bind (fun index => node.contacts[index]?)

def remove (b : KBucket) (id : Bytes) : KBucket × List KBucketEvent :=
  let (node, _) := b.leafOf id
  match _indexOf node id with
  | none => (b, [])
  | some index =>
    (b.setLeaf id (.leaf { node with contacts := node.contacts.eraseIdx index }),
      node.contacts[index]?.toList.map .removed)

/-- The leaves with their paths. -/
def nodes (b : KBucket) : List (List Bool × KBucketLeaf) := b._root.leaves []

def toArray (b : KBucket) : List Contact := b.nodes.flatMap (fun e => e.2.contacts)

def countNode : KBucketNode → Nat
  | .leaf node => node.contacts.length
  | .inner left right => countNode left + countNode right

def count (b : KBucket) : Nat := countNode b._root

end KBucket
