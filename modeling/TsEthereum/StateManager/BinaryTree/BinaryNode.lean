-- SUMMARY: Bits of byte strings, and the nodes of the binary tree with their serialization.
import TsEthereum.Base.Fallible
import TsEthereum.Rlp.Rlp

/-!
# Nodes of the binary tree

A node is a stem with 256 values, or an internal node with two references, each by
the hash of the child and the bits that lead to it. A bit is a `Bool`.
-/

open List Option Nat

open Rlp (Item)

/-! ## Bits -/

abbrev Bits := List Bool

/-- The bits of the bytes, the most significant bit of a byte first; the bits after the
last byte are 0. -/
def bytesToBits (bytes : Bytes) (bitLength : Option Nat) : Bits :=
  (List.range (bitLength.getD (bytes.length * 8))).map fun i =>
    ((bytes.getD (i / 8) 0).toNat).testBit (7 - i % 8)

/-- The byte of which the bit `7 - j` is `bit j`. -/
def byteOfBits (bit : Nat → Bool) : UInt8 :=
  (List.range 8).foldl (fun byte j => byte ||| UInt8.ofNat ((bit j).toNat <<< (7 - j))) 0

def bitsToBytes (bits : Bits) : Bytes :=
  (List.range ((bits.length + 7) / 8)).map fun byteIndex =>
    byteOfBits fun j => bits.getD (8 * byteIndex + j) false

def matchingBitsLength : Bits → Bits → Nat
  | a :: bits1, b :: bits2 => if a = b then matchingBitsLength bits1 bits2 + 1 else 0
  | _, _ => 0

def equalsBits (bits1 bits2 : Bits) : Bool := decide (bits1 = bits2)

@[simp] theorem length_bytesToBits (bytes : Bytes) (bitLength : Option Nat) :
    (bytesToBits bytes bitLength).length = bitLength.getD (bytes.length * 8) := by
  simp [bytesToBits]

theorem testBit_byteOfBits (bit : Nat → Bool) {j : Nat} (hj : j < 8) :
    (byteOfBits bit).toNat.testBit (7 - j) = bit j := by
  -- The byte depends on eight bits only, and of those all choices are tried.
  have hall : ∀ b0 b1 b2 b3 b4 b5 b6 b7 : Bool, ∀ i : Fin 8,
      (byteOfBits fun j => [b0, b1, b2, b3, b4, b5, b6, b7].getD j false).toNat.testBit (7 - i.val) =
        [b0, b1, b2, b3, b4, b5, b6, b7].getD i.val false := by
    decide +kernel
  have heq := hall (bit 0) (bit 1) (bit 2) (bit 3) (bit 4) (bit 5) (bit 6) (bit 7) ⟨j, hj⟩
  have hget : ∀ i : Fin 8,
      [bit 0, bit 1, bit 2, bit 3, bit 4, bit 5, bit 6, bit 7].getD i.val false = bit i.val
    | 0 | 1 | 2 | 3 | 4 | 5 | 6 | 7 => rfl
  have hbyte : byteOfBits bit = byteOfBits fun j =>
      [bit 0, bit 1, bit 2, bit 3, bit 4, bit 5, bit 6, bit 7].getD j false := rfl
  rw [hbyte, heq]
  exact hget ⟨j, hj⟩

/-- Bits come back from their bytes. -/
theorem bytesToBits_bitsToBytes (bits : Bits) :
    bytesToBits (bitsToBytes bits) (some bits.length) = bits := by
  apply ext_getElem
  · simp
  · intro i hi hi'
    have hbyte : i / 8 < (bits.length + 7) / 8 := by omega
    have hindex : 8 * (i / 8) + i % 8 = i := div_add_mod i 8
    simp only [bytesToBits, bitsToBytes, getElem_map, getElem_range,
      getD_eq_getElem?_getD, getElem?_map, getElem?_range hbyte, map_some,
      getD_some]
    rw [testBit_byteOfBits _ (mod_lt i (by decide)), hindex, getElem?_eq_getElem hi',
      getD_some]

/-- A byte string is told by its bits. -/
theorem bytesToBits_inj {a b : Bytes} (hlen : a.length = b.length)
    (h : bytesToBits a none = bytesToBits b none) : a = b := by
  apply ext_getElem hlen
  intro i hi hi'
  apply UInt8.toNat_inj.mp
  apply eq_of_testBit_eq
  intro j
  rcases Nat.lt_or_ge j 8 with hj | hj
  · have hbit := congrArg (fun bits => bits[8 * i + (7 - j)]?) h
    have hdiv : (8 * i + (7 - j)) / 8 = i := by omega
    have hmod : 7 - (8 * i + (7 - j)) % 8 = j := by omega
    have ha : 8 * i + (7 - j) < a.length * 8 := by omega
    simp only [bytesToBits, getD_none, getElem?_map, ← hlen,
      getElem?_range ha, map_some, hdiv, hmod, Option.some.injEq,
      getD_eq_getElem?_getD, getElem?_eq_getElem hi, getElem?_eq_getElem hi',
      getD_some] at hbit
    exact hbit
  · have hsmall : ∀ x : UInt8, x.toNat.testBit j = false := by
      intro x
      apply testBit_lt_two_pow
      exact Nat.lt_of_lt_of_le x.toNat_lt (Nat.pow_le_pow_right (by decide) hj)
    rw [hsmall, hsmall]

/-- The bits that match are the longest common prefix. -/
theorem matchingBitsLength_spec : ∀ a b : Bits,
    a.take (matchingBitsLength a b) = b.take (matchingBitsLength a b) ∧
      (a.length = b.length → a ≠ b → matchingBitsLength a b < a.length ∧
        a[matchingBitsLength a b]? ≠ b[matchingBitsLength a b]?)
  | [], [] => ⟨rfl, fun _ h => absurd rfl h⟩
  | [], _ :: _ => ⟨rfl, nofun⟩
  | _ :: _, [] => ⟨rfl, nofun⟩
  | x :: a, y :: b => by
    obtain ⟨htake, hdiff⟩ := matchingBitsLength_spec a b
    unfold matchingBitsLength
    split
    · next heq =>
      subst heq
      constructor
      · simp only [take_succ_cons, htake]
      · intro hlen hne
        obtain ⟨hlt, hbit⟩ := hdiff (Nat.succ.inj hlen) (fun h => hne (congrArg _ h))
        exact ⟨succ_lt_succ hlt, hbit⟩
    · next hne =>
      constructor
      · rfl
      · intro _ _
        exact ⟨succ_pos _, fun h => hne (some.inj h)⟩

/-! ## Nodes -/

structure ChildBinaryNode where
  hash : Bytes
  path : Bits
  deriving DecidableEq, Repr

structure InternalBinaryNode where
  leftChild : Option ChildBinaryNode
  rightChild : Option ChildBinaryNode
  deriving DecidableEq, Repr

structure StemBinaryNode where
  stem : Bytes
  values : List (Option Bytes)
  deriving DecidableEq, Repr

inductive BinaryNode where
  | internal (node : InternalBinaryNode)
  | stem (node : StemBinaryNode)
  deriving DecidableEq, Repr

def NODE_WIDTH : Nat := 256

namespace InternalBinaryNode

def create : InternalBinaryNode := ⟨none, none⟩

def getChild (node : InternalBinaryNode) (index : Bool) : Option ChildBinaryNode :=
  if index then node.rightChild else node.leftChild

/-- Without an index no child is set. -/
def setChild (node : InternalBinaryNode) (index : Option Bool) (child : Option ChildBinaryNode) :
    InternalBinaryNode :=
  match index with
  | none => node
  | some false => { node with leftChild := child }
  | some true => { node with rightChild := child }

def rawHash : Option ChildBinaryNode → Bytes
  | none => []
  | some child => child.hash

def rawPath : Option ChildBinaryNode → Bytes
  | none => []
  | some child =>
    Rlp.encode (.list [.bytes [UInt8.ofNat child.path.length], .bytes (bitsToBytes child.path)])

def raw (node : InternalBinaryNode) : List Bytes :=
  [[0], rawHash node.leftChild, rawHash node.rightChild, rawPath node.leftChild,
    rawPath node.rightChild]

def decodeChild (hash rawPath : Bytes) : Except String (Option ChildBinaryNode) :=
  if hash.length = 0 then .ok none
  else
    match Rlp.decode rawPath with
    | .error e => .error e.message
    | .ok (.list [.bytes encodedLength, .bytes encodedPath]) =>
      match encodedLength with
      | [pathLength] => .ok (some ⟨hash, bytesToBits encodedPath (some pathLength.toNat)⟩)
      | _ => .error "Invalid path length encoding"
    | .ok _ => .error "Invalid RLP encoding for child path"

/-- `fromRawNode` of a node of this type. -/
def fromRawNode (rawNode : List Bytes) : Except String InternalBinaryNode :=
  match rawNode with
  | [_, leftChildHash, rightChildHash, leftChildRawPath, rightChildRawPath] => do
    let leftChild ← decodeChild leftChildHash leftChildRawPath
    let rightChild ← decodeChild rightChildHash rightChildRawPath
    return ⟨leftChild, rightChild⟩
  | _ => .error "Invalid node length"

end InternalBinaryNode

namespace StemBinaryNode

def create (stem : Bytes) : StemBinaryNode := ⟨stem, List.replicate NODE_WIDTH none⟩

def getValue (node : StemBinaryNode) (index : Nat) : Option Bytes := node.values.getD index none

def setValue (node : StemBinaryNode) (index : Nat) (value : Option Bytes) : StemBinaryNode :=
  { node with values := node.values.set index value }

def raw (node : StemBinaryNode) : List Bytes :=
  [1] :: node.stem :: node.values.map fun val => val.getD []

/-- `fromRawNode` of a node of this type. -/
def fromRawNode (rawNode : List Bytes) : Except String StemBinaryNode :=
  match rawNode with
  | _ :: stem :: rawValues =>
    if rawValues.length = NODE_WIDTH then
      .ok ⟨stem, rawValues.map fun el => if el.length = 0 then none else some el⟩
    else .error "Invalid node length"
  | _ => .error "Invalid node length"

end StemBinaryNode

namespace BinaryNode

def raw : BinaryNode → List Bytes
  | .internal node => node.raw
  | .stem node => node.raw

def serialize (node : BinaryNode) : Bytes := Rlp.encode (.list (node.raw.map .bytes))

def isStemBinaryNode : BinaryNode → Bool
  | .internal _ => false
  | .stem _ => true

def decodeRawBinaryNode (raw : List Bytes) : Except String BinaryNode :=
  match raw with
  | [] => .error "Cannot read properties of undefined (reading '0')"
  | (0 :: _) :: _ => (InternalBinaryNode.fromRawNode raw).map .internal
  | (1 :: _) :: _ => (StemBinaryNode.fromRawNode raw).map .stem
  | _ => .error "Invalid node type"

/-- The bytes of an item. The source casts; no node is serialized with a list in it, and here
one is invalid. -/
def rawItem : Item → Except String Bytes
  | .bytes b => .ok b
  | .list _ => .error "Invalid node"

def decodeBinaryNode (raw : Bytes) : Except String BinaryNode :=
  match Rlp.decode raw with
  | .error e => .error e.message
  | .ok (.bytes _) => .error "Invalid node"
  | .ok (.list items) => items.mapM rawItem >>= decodeRawBinaryNode

/-! ## A node comes back from its serialization -/

/-- A reference with a hash of 32 bytes and a path of which one byte tells the length. -/
def ReferenceFits : Option ChildBinaryNode → Prop
  | none => True
  | some child => child.hash.length = 32 ∧ child.path.length < 256

/-- A stem of 31 bytes with 256 values, which are 32 bytes long or null. -/
def StemFits (node : StemBinaryNode) : Prop :=
  node.stem.length = 31 ∧ node.values.length = NODE_WIDTH ∧
    ∀ v, some v ∈ node.values → v.length = 32

def Fits : BinaryNode → Prop
  | .internal node => ReferenceFits node.leftChild ∧ ReferenceFits node.rightChild
  | .stem node => StemFits node

/-- A short list of short byte strings has a short encoding. -/
theorem length_encode_raw (raw : List Bytes) (hlen : raw.length ≤ 300)
    (h : ∀ b ∈ raw, b.length ≤ 50) : (Rlp.encode (.list (raw.map .bytes))).length < 2 ^ 53 := by
  have hall : (Rlp.encodeAll (raw.map .bytes)).length ≤ (raw.map Item.bytes).length * 52 := by
    apply Rlp.length_encodeAll_le
    intro x hx
    obtain ⟨b, hb, rfl⟩ := mem_map.mp hx
    have hb := h b hb
    exact (Rlp.length_encodeBytes_le (k := 0) (by omega)).trans (by omega)
  rw [length_map] at hall
  have hlist := Rlp.length_encode_list_le (l := raw.map .bytes) (by omega)
  omega

theorem length_bitsToBytes (bits : Bits) : (bitsToBytes bits).length = (bits.length + 7) / 8 := by
  simp [bitsToBytes]

theorem length_rawPath {child : Option ChildBinaryNode} (h : ReferenceFits child) :
    (InternalBinaryNode.rawPath child).length ≤ 50 := by
  cases child with
  | none => exact Nat.zero_le 50
  | some child =>
    have hbytes := length_bitsToBytes child.path
    have hpath := h.2
    have hfirst := Rlp.length_encodeBytes_le (k := 0) (b := [UInt8.ofNat child.path.length])
      (by simp)
    have hsecond := Rlp.length_encodeBytes_le (k := 0) (b := bitsToBytes child.path) (by omega)
    have hall : (Rlp.encodeAll [.bytes [UInt8.ofNat child.path.length],
        .bytes (bitsToBytes child.path)]).length ≤ 37 := by
      simp only [Rlp.encodeAll, Rlp.encode, append_nil, length_append]
      simp only [length_singleton] at hfirst
      omega
    exact (Rlp.length_encode_list_le (by omega)).trans (by omega)

theorem decodeChild_raw {child : Option ChildBinaryNode} (h : ReferenceFits child) :
    InternalBinaryNode.decodeChild (InternalBinaryNode.rawHash child)
      (InternalBinaryNode.rawPath child) = .ok child := by
  cases child with
  | none => rfl
  | some child =>
    obtain ⟨hhash, hpath⟩ := h
    have hne : ¬ child.hash.length = 0 := by omega
    have hbytes := length_bitsToBytes child.path
    have hdecode := Rlp.decode_encode (length_encode_raw
      [[UInt8.ofNat child.path.length], bitsToBytes child.path] (by simp) (by
        intro b hb
        rcases mem_cons.mp hb with rfl | hb
        · simp
        · rw [mem_singleton.mp hb]
          omega))
    have hlength : (UInt8.ofNat child.path.length).toNat = child.path.length :=
      mod_eq_of_lt hpath
    simp only [map_cons, map_nil] at hdecode
    simp only [InternalBinaryNode.decodeChild, InternalBinaryNode.rawHash,
      InternalBinaryNode.rawPath, if_neg hne, hdecode, hlength, bytesToBits_bitsToBytes]

theorem decodeRawBinaryNode_raw {node : BinaryNode} (h : node.Fits) :
    decodeRawBinaryNode node.raw = .ok node := by
  cases node with
  | internal node =>
    obtain ⟨hleft, hright⟩ := h
    simp only [raw, InternalBinaryNode.raw, decodeRawBinaryNode, InternalBinaryNode.fromRawNode,
      decodeChild_raw hleft, decodeChild_raw hright]
    rfl
  | stem node =>
    obtain ⟨hstem, hwidth, hvalues⟩ := h
    have hback : (node.values.map fun val => val.getD []).map
        (fun el => if el.length = 0 then none else some el) = node.values := by
      rw [List.map_map]
      refine (List.map_congr_left fun val hval => ?_).trans (List.map_id _)
      cases val with
      | none => rfl
      | some v =>
        have hv := hvalues v hval
        exact if_neg (by simp only [Option.getD_some]; omega)
    have hlength : (node.values.map fun val => val.getD []).length = NODE_WIDTH := by
      rw [List.length_map, hwidth]
    simp only [raw, StemBinaryNode.raw, decodeRawBinaryNode, StemBinaryNode.fromRawNode, hlength,
      if_true, hback]
    rfl

theorem mapM_rawItem (raw : List Bytes) : (raw.map Item.bytes).mapM rawItem = .ok raw :=
  @Except.mapM_map _ _ _ Item.bytes rawItem (fun _ => rfl) raw

/-- A node comes back from its serialization. -/
theorem decodeBinaryNode_serialize {node : BinaryNode} (h : node.Fits) :
    decodeBinaryNode node.serialize = .ok node := by
  have hsize : (Rlp.encode (.list (node.raw.map .bytes))).length < 2 ^ 53 := by
    cases node with
    | internal node =>
      refine length_encode_raw _ (show 5 ≤ 300 by decide) ?_
      have hhash : ∀ child, ReferenceFits child → (InternalBinaryNode.rawHash child).length ≤ 50 := by
        intro child hchild
        cases child with
        | none => exact Nat.zero_le 50
        | some child => exact hchild.1.le.trans (by decide)
      simp only [raw, InternalBinaryNode.raw, forall_mem_cons]
      exact ⟨by decide, hhash _ h.1, hhash _ h.2, length_rawPath h.1, length_rawPath h.2,
        fun _ hb => (nomatch hb)⟩
    | stem node =>
      obtain ⟨hstem, hwidth, hvalues⟩ := h
      apply length_encode_raw
      · simp only [raw, StemBinaryNode.raw, length_cons, length_map, hwidth]
        decide
      · simp only [raw, StemBinaryNode.raw, forall_mem_cons]
        refine ⟨by decide, hstem.le.trans (by decide), ?_⟩
        intro b hb
        obtain ⟨val, hval, rfl⟩ := mem_map.mp hb
        cases val with
        | none => exact Nat.zero_le 50
        | some v => exact (hvalues v hval).le.trans (by decide)
  unfold decodeBinaryNode serialize
  rw [Rlp.decode_encode hsize]
  simp only [mapM_rawItem]
  exact decodeRawBinaryNode_raw h

end BinaryNode
