-- SUMMARY: The digests of tries of stem nodes, that merkelize computes them, and the messages that it hashes.
import TsEthereum.Base.SplitTrie
import TsEthereum.StateManager.BinaryTree.BinaryTree

/-!
# Digests

A trie of stem nodes has a digest, and each of its subtries is stored as one node. What
`merkelize` hands to the hash function for a node is kept as a list of messages.
-/

open List

namespace StateManager.BinaryTree

open BinaryNode

abbrev Trie := SplitTrie StemBinaryNode

/-- The bits of the stem lead to a stem node. -/
def stemBits (a : StemBinaryNode) : Bits := bytesToBits a.stem none

variable (hashFunction : Bytes → Bytes)

/-! ## Hashes and messages -/

def isZeros (msg : Bytes) : Bool := decide (msg.length = 64) && msg.all (· == 0)

/-- What `hash` returns. -/
def hashOf : Option Bytes → Bytes
  | none => EMPTY_TREE_ROOT
  | some msg => if isZeros msg then EMPTY_TREE_ROOT else hashFunction msg

/-- The messages on which `hash` calls the hash function. -/
def called : Option Bytes → List Bytes
  | none => []
  | some msg => if isZeros msg then [] else [msg]

def pairHashes : List Bytes → List Bytes
  | left :: right :: rest => hashOf hashFunction (some (left ++ right)) :: pairHashes rest
  | _ => []

def pairCalls : List Bytes → List Bytes
  | left :: right :: rest => called (some (left ++ right)) ++ pairCalls rest
  | _ => []

/-- The layer that stands `height` layers above the given one. -/
def layerAbove : (height : Nat) → List Bytes → List Bytes
  | 0, l => l
  | height + 1, l => layerAbove height (pairHashes hashFunction l)

def layerCalls : (height : Nat) → List Bytes → List Bytes
  | 0, _ => []
  | height + 1, l => pairCalls l ++ layerCalls height (pairHashes hashFunction l)

def valueHashes (a : StemBinaryNode) : List Bytes := a.values.map (hashOf hashFunction)

def valuesRoot (a : StemBinaryNode) : Bytes :=
  (layerAbove hashFunction 8 (valueHashes hashFunction a)).headD EMPTY_TREE_ROOT

/-- The last message for a stem node. -/
def stemMessage (a : StemBinaryNode) : Bytes := setLengthRight a.stem 32 ++ valuesRoot hashFunction a

def referenceHash (child : Option ChildBinaryNode) : Bytes := (child.map (·.hash)).getD EMPTY_TREE_ROOT

/-- The messages on which `merkelize` calls the hash function. -/
def messages : BinaryNode → List Bytes
  | .internal node =>
    called (some (referenceHash node.leftChild ++ referenceHash node.rightChild))
  | .stem a =>
    a.values.flatMap called ++ layerCalls hashFunction 8 (valueHashes hashFunction a) ++
      called (some (stemMessage hashFunction a))

/-! ## Digests of tries -/

def digest : Trie → Bytes
  | .empty => EMPTY_TREE_ROOT
  | .leaf a => hashOf hashFunction (some (stemMessage hashFunction a))
  | .node left right => hashOf hashFunction (some (digest left ++ digest right))

/-- The reference to a subtrie. -/
def reference (p : Bits) (t : Trie) : Option ChildBinaryNode :=
  match t with
  | .empty => none
  | .leaf a => some ⟨digest hashFunction t, stemBits a⟩
  | .node _ _ => some ⟨digest hashFunction t, p⟩

/-- The node that stands for a subtrie which is not empty. -/
def nodeOf (p : Bits) : Trie → BinaryNode
  | .empty => .internal .create
  | .leaf a => .stem a
  | .node left right =>
    .internal ⟨reference hashFunction (p ++ [false]) left, reference hashFunction (p ++ [true]) right⟩

variable {hashFunction}

@[simp] theorem referenceHash_reference (p : Bits) (t : Trie) :
    referenceHash (reference hashFunction p t) = digest hashFunction t := by
  cases t <;> rfl

theorem length_hashOf (hlen : ∀ msg, (hashFunction msg).length = 32) (msg : Option Bytes) :
    (hashOf hashFunction msg).length = 32 := by
  cases msg with
  | none => rfl
  | some msg =>
    simp only [hashOf]
    split
    · rfl
    · exact hlen msg

theorem length_digest (hlen : ∀ msg, (hashFunction msg).length = 32) (t : Trie) :
    (digest hashFunction t).length = 32 := by
  cases t with
  | empty => rfl
  | leaf a => exact length_hashOf hlen _
  | node left right => exact length_hashOf hlen _

variable (hashFunction) in
theorem hash_eq {msg : Bytes} (hmsg : msg.length = 32 ∨ msg.length = 64) :
    hash hashFunction (some msg) = .ok (hashOf hashFunction (some msg)) := by
  have hlength : ¬(msg.length ≠ 32 ∧ msg.length ≠ 64) := by omega
  unfold hash hashOf isZeros
  simp only [Bool.and_eq_true, decide_eq_true_eq, if_neg hlength]
  split <;> rfl

variable {k : Nat} {l : List Bytes}

theorem newLayerHashes_eq (hl : l.length = 2 * k) (h32 : ∀ x ∈ l, x.length = 32) :
    newLayerHashes hashFunction l = .ok (pairHashes hashFunction l) := by
  induction k generalizing l with
  | zero => rw [length_eq_zero_iff.mp hl]; rfl
  | succ k ih =>
    match l, hl with
    | left :: right :: rest, hl =>
      have hleft := h32 left mem_cons_self
      have hright := h32 right (mem_cons_of_mem _ mem_cons_self)
      have hrest := ih (l := rest) (by simpa [Nat.mul_add] using hl) fun x hx =>
        h32 x (mem_cons_of_mem _ (mem_cons_of_mem _ hx))
      have hpair := hash_eq hashFunction
        (.inr (length_append.trans (by omega) : (left ++ right).length = 64))
      simp only [newLayerHashes, hpair, hrest, pairHashes]
      rfl

theorem length_pairHashes (hl : l.length = 2 * k) : (pairHashes hashFunction l).length = k := by
  induction k generalizing l with
  | zero => rw [length_eq_zero_iff.mp hl]; rfl
  | succ k ih =>
    match l, hl with
    | left :: right :: rest, hl =>
      simp only [pairHashes, length_cons, ih (l := rest) (by simpa [Nat.mul_add] using hl)]

theorem mem_pairHashes (hl : l.length = 2 * k) {y : Bytes} (hy : y ∈ pairHashes hashFunction l) :
    ∃ left ∈ l, ∃ right ∈ l, y = hashOf hashFunction (some (left ++ right)) ∧
      ∀ msg ∈ called (some (left ++ right)), msg ∈ pairCalls l := by
  induction k generalizing l with
  | zero => rw [length_eq_zero_iff.mp hl] at hy; cases hy
  | succ k ih =>
    match l, hl with
    | left :: right :: rest, hl =>
      rcases mem_cons.mp hy with rfl | hy
      · exact ⟨left, mem_cons_self, right, mem_cons_of_mem _ mem_cons_self, rfl,
          fun msg hmsg => mem_append_left _ hmsg⟩
      · obtain ⟨a, ha, b, hb, heq, hcalls⟩ := ih (l := rest) (by simpa [Nat.mul_add] using hl) hy
        exact ⟨a, mem_cons_of_mem _ (mem_cons_of_mem _ ha), b,
          mem_cons_of_mem _ (mem_cons_of_mem _ hb), heq,
          fun msg hmsg => mem_append_right _ (hcalls msg hmsg)⟩

theorem length_of_mem_pairHashes (hlen : ∀ msg, (hashFunction msg).length = 32)
    (hl : l.length = 2 * k) : ∀ y ∈ pairHashes hashFunction l, y.length = 32 := by
  intro y hy
  obtain ⟨left, _, right, _, rfl, _⟩ := mem_pairHashes hl hy
  exact length_hashOf hlen _

theorem topLayerHashes_eq (hlen : ∀ msg, (hashFunction msg).length = 32) {height : Nat}
    (turns : Nat) (hl : l.length = 2 ^ height) (hturns : height ≤ turns)
    (h32 : ∀ x ∈ l, x.length = 32) :
    topLayerHashes hashFunction turns l = .ok (layerAbove hashFunction height l) := by
  induction height generalizing turns l with
  | zero =>
    have hone : ¬ l.length > 1 := by rw [hl]; decide
    cases turns with
    | zero => rfl
    | succ turns => simp only [topLayerHashes, if_neg hone, layerAbove]
  | succ height ih =>
    obtain ⟨turns, rfl⟩ := Nat.exists_eq_add_of_le' hturns
    have hdouble : l.length = 2 * 2 ^ height := by rw [hl, Nat.pow_succ, Nat.mul_comm]
    have hmany : l.length > 1 := by
      have := Nat.two_pow_pos height
      omega
    rw [show turns + (height + 1) = turns + height + 1 from rfl]
    simp only [topLayerHashes, if_pos hmany, newLayerHashes_eq hdouble h32, layerAbove]
    exact ih _ (length_pairHashes hdouble) (Nat.le_add_left _ _) (length_of_mem_pairHashes hlen hdouble)

theorem length_layerAbove {height : Nat} (hl : l.length = 2 ^ height) :
    (layerAbove hashFunction height l).length = 1 := by
  induction height generalizing l with
  | zero => exact hl
  | succ height ih =>
    exact ih (length_pairHashes (by rw [hl, Nat.pow_succ, Nat.mul_comm]))

variable (hashFunction) in
theorem mapM_hash {values : List (Option Bytes)} (h32 : ∀ v, some v ∈ values → v.length = 32) :
    values.mapM (hash hashFunction) = .ok (values.map (hashOf hashFunction)) := by
  induction values with
  | nil => rfl
  | cons value values ih =>
    have hvalue : hash hashFunction value = .ok (hashOf hashFunction value) := by
      cases value with
      | none => rfl
      | some v => exact hash_eq hashFunction (.inl (h32 v mem_cons_self))
    rw [mapM_cons, hvalue, ih fun v hv => h32 v (mem_cons_of_mem _ hv)]
    rfl

/-! ## What merkelize computes -/

variable {a : StemBinaryNode}

variable (hashFunction) in
theorem length_valueHashes (ha : StemFits a) : (valueHashes hashFunction a).length = 2 ^ 8 := by
  rw [valueHashes, length_map, ha.2.1]
  rfl

theorem setLengthRight_stem (ha : StemFits a) : setLengthRight a.stem 32 = a.stem ++ [0] := by
  have hstem := ha.1
  have hlt : a.stem.length < 32 := by omega
  rw [setLengthRight, if_pos hlt, hstem]
  rfl

theorem length_setLengthRight_stem (ha : StemFits a) : (setLengthRight a.stem 32).length = 32 := by
  rw [setLengthRight_stem ha, length_append, ha.1]
  rfl

section Merkelize

variable (hlen : ∀ msg, (hashFunction msg).length = 32)

include hlen

theorem length_of_mem_valueHashes (a : StemBinaryNode) :
    ∀ x ∈ valueHashes hashFunction a, x.length = 32 := by
  intro x hx
  obtain ⟨v, _, rfl⟩ := mem_map.mp hx
  exact length_hashOf hlen v

theorem length_of_mem_layerAbove {height : Nat} {l : List Bytes} (hl : l.length = 2 ^ height)
    (h32 : ∀ x ∈ l, x.length = 32) : ∀ x ∈ layerAbove hashFunction height l, x.length = 32 := by
  induction height generalizing l with
  | zero => exact h32
  | succ height ih =>
    have hdouble : l.length = 2 * 2 ^ height := by rw [hl, Nat.pow_succ, Nat.mul_comm]
    exact ih (length_pairHashes hdouble) (length_of_mem_pairHashes hlen hdouble)

variable {a : StemBinaryNode}

/-- The top layer of the values is their root alone. -/
theorem layerAbove_valueHashes (ha : StemFits a) :
    layerAbove hashFunction 8 (valueHashes hashFunction a) = [valuesRoot hashFunction a] ∧
      (valuesRoot hashFunction a).length = 32 := by
  obtain ⟨x, hx⟩ := List.length_eq_one_iff.mp (length_layerAbove (length_valueHashes hashFunction ha))
  have h32 := length_of_mem_layerAbove hlen (length_valueHashes hashFunction ha) (length_of_mem_valueHashes hlen a) x
    (hx ▸ mem_singleton_self x)
  have hroot : valuesRoot hashFunction a = x := by
    unfold valuesRoot
    rw [hx]
    rfl
  rw [hroot]
  exact ⟨hx, h32⟩

theorem length_stemMessage (ha : StemFits a) : (stemMessage hashFunction a).length = 64 := by
  have hroot := (layerAbove_valueHashes hlen ha).2
  simp [stemMessage, setLengthRight_stem ha, ha.1, hroot]

theorem merkelize_stem (ha : StemFits a) :
    merkelize hashFunction (.stem a) = .ok (digest hashFunction (.leaf a)) := by
  have hwidth := length_valueHashes hashFunction ha
  have htop := topLayerHashes_eq hlen (valueHashes hashFunction a).length hwidth
    (by rw [hwidth]; decide) (length_of_mem_valueHashes hlen a)
  rw [(layerAbove_valueHashes hlen ha).1] at htop
  have hmapM := mapM_hash hashFunction ha.2.2
  rw [← valueHashes] at hmapM
  simp only [merkelize, hmapM, bind, Except.bind, htop, digest]
  exact hash_eq hashFunction (.inr (length_stemMessage hlen ha))

theorem merkelize_internal {p : Bits} (left right : Trie) :
    merkelize hashFunction (nodeOf hashFunction p (.node left right)) =
      .ok (digest hashFunction (.node left right)) := by
  have hchild : ∀ (q : Bits) (t : Trie),
      childHash hashFunction (reference hashFunction q t) = .ok (digest hashFunction t) := by
    intro q t
    cases t <;> rfl
  simp only [nodeOf, merkelize, hchild, digest]
  exact hash_eq hashFunction (.inr (by simp [length_digest hlen]))

end Merkelize

/-- A node that stands for a trie fits its serialization. -/
theorem fits_nodeOf (hlen : ∀ msg, (hashFunction msg).length = 32) {p : Bits} {t : Trie}
    (hne : t ≠ .empty) (hp : p.length < 255) (ht : ∀ a ∈ t.leaves, StemFits a) :
    (nodeOf hashFunction p t).Fits := by
  cases t with
  | empty => exact absurd rfl hne
  | leaf a => exact ht a (mem_singleton_self a)
  | node left right =>
    have hside : ∀ (q : Bits) (s : Trie), q.length < 256 → (∀ a ∈ s.leaves, StemFits a) →
        ReferenceFits (reference hashFunction q s) := by
      intro q s hq hs
      cases s with
      | empty => trivial
      | leaf a =>
        have hstem := (hs a (mem_singleton_self a)).1
        refine ⟨length_digest hlen _, ?_⟩
        simp only [stemBits, length_bytesToBits, Option.getD_none, hstem]
        decide
      | node left right => exact ⟨length_digest hlen _, hq⟩
    have hlonger : ∀ b : Bool, (p ++ [b]).length < 256 := by
      intro b
      rw [length_append]
      exact Nat.succ_lt_succ hp
    exact ⟨hside _ left (hlonger false) fun a ha => ht a (mem_append_left _ ha),
      hside _ right (hlonger true) fun a ha => ht a (mem_append_right _ ha)⟩

end StateManager.BinaryTree
