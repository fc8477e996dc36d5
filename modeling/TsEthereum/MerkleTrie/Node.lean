-- SUMMARY: Branch, extension and leaf nodes of the trie, and that decoding reads back a serialized node.
import TsEthereum.Rlp.Rlp
import TsEthereum.MerkleTrie.Nibbles
import Mathlib.Data.List.OfFn

/-!
# Nodes

References and values of a node are RLP items: a child is held by the hash of its
serialization, or as the raw node itself where that is shorter than 32 bytes. An
empty reference is the empty byte string; the source has `null` there until the
node is decoded again.
-/

open Rlp (Item)
open Nibbles

inductive MPTError where
  | missingNode | invalidNode | stackUnderflow | missingLastNode | expectedBranchNode
  | invalidRootLength (hashLen length : Nat)
  | unexpectedRoot | invalidProof
  | rlp (e : Rlp.RlpError)
  /-- Not an error of the source: the model's bound on the length of a walk. -/
  | outOfFuel
  deriving DecidableEq, Repr

namespace MPTError

def message : MPTError → String
  | .missingNode => "Missing node in DB"
  | .invalidNode => "Invalid node"
  | .stackUnderflow => "Stack underflow"
  | .missingLastNode => "missing last node"
  | .expectedBranchNode => "Expected branch node"
  | .invalidRootLength hashLen length =>
    s!"Invalid root length. Roots are {hashLen} bytes, got {length} bytes"
  | .unexpectedRoot => "The provided proof does not have the expected trie root"
  | .invalidProof => "Invalid proof provided"
  | .rlp e => e.message
  | .outOfFuel => ""

end MPTError

inductive MPTNode where
  | branch (_branches : Nibble → Item) (_value : Item)
  | extension (_nibbles : Nibbles) (_value : Item)
  | leaf (_nibbles : Nibbles) (_value : Item)

namespace MPTNode

def isBranch : MPTNode → Bool
  | .branch _ _ => true
  | .extension _ _ | .leaf _ _ => false

/-- `null` for an empty byte string or array. -/
def nonempty (x : Item) : Option Item := if x.length > 0 then some x else none

/-- The getter `value()`; a branch answers `null` for an empty value. -/
def value : MPTNode → Option Item
  | .branch _ _value => nonempty _value
  | .extension _ _value | .leaf _ _value => some _value

/-- The setter `value(v)` of extensions and leaves; a branch ignores `null`. -/
def setValue (v : Option Item) : MPTNode → MPTNode
  | .branch _branches _value => .branch _branches (v.getD _value)
  | .extension _nibbles _value => .extension _nibbles (v.getD _value)
  | .leaf _nibbles _value => .leaf _nibbles (v.getD _value)

/-- `key()`; branches have none. -/
def key : MPTNode → Nibbles
  | .branch _ _ => []
  | .extension _nibbles _ | .leaf _nibbles _ => _nibbles

def setKey (k : Nibbles) : MPTNode → MPTNode
  | .branch _branches _value => .branch _branches _value
  | .extension _ _value => .extension k _value
  | .leaf _ _value => .leaf k _value

def keyLength (node : MPTNode) : Nat := node.key.length

def setBranch (i : Nibble) (v : Item) : MPTNode → MPTNode
  | .branch _branches _value => .branch (Function.update _branches i v) _value
  | node => node

def getBranch (_branches : Nibble → Item) (i : Nibble) : Option Item := nonempty (_branches i)

def getChildren (_branches : Nibble → Item) : List (Nibble × Item) :=
  (List.finRange 16).filterMap (fun i => (getBranch _branches i).map (i, ·))

def encodedKey (_nibbles : Nibbles) (isLeaf : Bool) : Bytes :=
  nibblesTypeToPackedBytes (addHexPrefix _nibbles isLeaf)

def raw : MPTNode → List Item
  | .branch _branches _value => List.ofFn _branches ++ [_value]
  | .extension _nibbles _value => [.bytes (encodedKey _nibbles false), _value]
  | .leaf _nibbles _value => [.bytes (encodedKey _nibbles true), _value]

def serialize (node : MPTNode) : Bytes := Rlp.encode (.list node.raw)

/-! ## Decoding -/

/-- A two-item node whose key is a list and no byte string makes the source compute with
`NaN`; here it is invalid. -/
def decodeRawMPTNode (raw : List Item) : Except MPTError MPTNode :=
  if raw.length = 17 then
    .ok (.branch (fun i => raw.getD i.val default) (raw.getD 16 default))
  else
    match raw with
    | [.bytes k, v] =>
      let nibbles := bytesToNibbles k
      if isTerminator nibbles then
        .ok (.leaf (removeHexPrefix nibbles) v)
      else
        .ok (.extension (removeHexPrefix nibbles) v)
    | _ => .error .invalidNode

def decodeMPTNode (node : Bytes) : Except MPTError MPTNode :=
  match Rlp.decode node with
  | .error e => .error (.rlp e)
  | .ok (.bytes _) => .error .invalidNode
  | .ok (.list raw) => decodeRawMPTNode raw

theorem bytesToNibbles_encodedKey (_nibbles : Nibbles) (isLeaf : Bool) :
    bytesToNibbles (encodedKey _nibbles isLeaf) = addHexPrefix _nibbles isLeaf :=
  bytesToNibbles_packed _ (length_addHexPrefix_even _nibbles isLeaf)

/-- A node comes back from its raw form. -/
theorem decodeRawMPTNode_raw (node : MPTNode) : decodeRawMPTNode node.raw = .ok node := by
  cases node with
  | branch _branches _value =>
    have hlength : (List.ofFn _branches ++ [_value]).length = 17 := by simp
    have hvalue : (List.ofFn _branches ++ [_value]).getD 16 default = _value := by
      simp [List.getD_eq_getElem?_getD]
    have hbranches : (fun i : Nibble => (List.ofFn _branches ++ [_value]).getD i.val default) =
        _branches := by
      funext i
      have hi : i.val < (List.ofFn _branches).length := by simp
      rw [List.getD_eq_getElem?_getD, List.getElem?_append_left hi, List.getElem?_ofFn,
        dif_pos i.isLt]
      rfl
    simp only [raw, decodeRawMPTNode, hlength, if_true, hvalue, hbranches]
  | extension _nibbles _value =>
    simp [raw, decodeRawMPTNode, bytesToNibbles_encodedKey, isTerminator_addHexPrefix,
      removeHexPrefix_addHexPrefix]
  | leaf _nibbles _value =>
    simp [raw, decodeRawMPTNode, bytesToNibbles_encodedKey, isTerminator_addHexPrefix,
      removeHexPrefix_addHexPrefix]

/-- A node comes back from its serialization. -/
theorem decodeMPTNode_serialize {node : MPTNode} (hmax : node.serialize.length < 2 ^ 53) :
    decodeMPTNode node.serialize = .ok node := by
  unfold decodeMPTNode serialize
  rw [Rlp.decode_encode hmax]
  exact decodeRawMPTNode_raw node

theorem raw_injective : Function.Injective raw := by
  intro a b h
  have ha := decodeRawMPTNode_raw a
  rw [h, decodeRawMPTNode_raw] at ha
  exact (Except.ok.inj ha).symm

theorem serialize_injective {a b : MPTNode} (ha : a.serialize.length < 2 ^ 53)
    (h : a.serialize = b.serialize) : a = b :=
  raw_injective (Item.list.inj (Rlp.encode_injective ha h))

end MPTNode
