-- SUMMARY: Where the hash function does not collide on the messages of two tries, equal digests come from equal tries.
import TsEthereum.StateManager.BinaryTree.Digest

/-!
# Digests determine tries

The messages of internal nodes and of stem nodes have the same length. That one is not
taken for the other follows from the layers over the values: their number tells how far
down the values are, and a stem node has eight.
-/

open List

namespace StateManager.BinaryTree

open BinaryNode

/-- The hash function does not collide on the messages, and none of them hashes to the zeros that
stand for `null`. -/
structure NoCollision (hashFunction : Bytes → Bytes) (occurring : List Bytes) : Prop where
  injective : ∀ x ∈ occurring, ∀ y ∈ occurring, hashFunction x = hashFunction y → x = y
  nonzero : ∀ x ∈ occurring, hashFunction x ≠ EMPTY_TREE_ROOT

def HasValue (a : StemBinaryNode) : Prop := ∃ v, some v ∈ a.values

/-- The padded stem of a node is not zero and not a hash. -/
def StemNotHash (hashFunction : Bytes → Bytes) (occurring : List Bytes) (a : StemBinaryNode) : Prop :=
  setLengthRight a.stem 32 ≠ EMPTY_TREE_ROOT ∧
    ∀ x ∈ occurring, hashFunction x ≠ setLengthRight a.stem 32

/-- A trie whose messages occur. A stem node without values needs that its stem is no hash. -/
def Occurs (hashFunction : Bytes → Bytes) (occurring : List Bytes) : Trie → Prop
  | .empty => True
  | .leaf a =>
    StemFits a ∧ (HasValue a ∨ StemNotHash hashFunction occurring a) ∧
      ∀ x ∈ messages hashFunction (.stem a), x ∈ occurring
  | .node left right =>
    (left ≠ .empty ∨ right ≠ .empty) ∧
      (∀ x ∈ called (some (digest hashFunction left ++ digest hashFunction right)), x ∈ occurring) ∧
      Occurs hashFunction occurring left ∧ Occurs hashFunction occurring right

variable {hashFunction : Bytes → Bytes} {occurring : List Bytes}

/-! ## Equal hashes -/

/-- A message of two hashes is not hashed exactly where both are zeros. -/
theorem isZeros_append {a b : Bytes} (ha : a.length = 32) (hb : b.length = 32) :
    isZeros (a ++ b) = true ↔ a = EMPTY_TREE_ROOT ∧ b = EMPTY_TREE_ROOT := by
  have hzeros : ∀ x : Bytes, x.length = 32 → ((∀ y ∈ x, y = 0) ↔ x = EMPTY_TREE_ROOT) := by
    intro x hx
    rw [EMPTY_TREE_ROOT, eq_replicate_iff]
    exact ⟨fun h => ⟨hx, h⟩, fun h => h.2⟩
  have hlength : (a ++ b).length = 64 := by rw [length_append, ha, hb]
  simp only [isZeros, hlength, decide_true, Bool.true_and, all_append, Bool.and_eq_true,
    all_eq_true, beq_iff_eq, hzeros a ha, hzeros b hb]

theorem called_append {a b : Bytes} (ha : a.length = 32) (hb : b.length = 32) :
    called (some (a ++ b)) =
      if a = EMPTY_TREE_ROOT ∧ b = EMPTY_TREE_ROOT then [] else [a ++ b] := by
  simp only [called, isZeros_append ha hb]

theorem called_value {v : Bytes} (hv : v.length = 32) : called (some v) = [v] := by
  have hlength : ¬ v.length = 64 := by omega
  simp [called, isZeros, hlength]

theorem hashOf_eq (msg : Option Bytes) :
    hashOf hashFunction msg = ((called msg).head?.map hashFunction).getD EMPTY_TREE_ROOT := by
  cases msg with
  | none => rfl
  | some msg =>
    simp only [hashOf, called]
    split <;> rfl

section NoCollision

variable (hno : NoCollision hashFunction occurring)

include hno

theorem hashOf_ne_zeros {msg : Option Bytes} (hmsg : ∀ x ∈ called msg, x ∈ occurring)
    (hne : called msg ≠ []) : hashOf hashFunction msg ≠ EMPTY_TREE_ROOT := by
  obtain ⟨x, l, hx⟩ := exists_cons_of_ne_nil hne
  rw [hashOf_eq, hx]
  exact hno.nonzero x (hmsg x (hx ▸ mem_cons_self))

theorem called_eq {msg msg' : Option Bytes} (hmsg : ∀ x ∈ called msg, x ∈ occurring)
    (hmsg' : ∀ x ∈ called msg', x ∈ occurring)
    (h : hashOf hashFunction msg = hashOf hashFunction msg') : called msg = called msg' := by
  have hshape : ∀ m : Option Bytes, called m = [] ∨ ∃ x, called m = [x] := by
    intro m
    cases m with
    | none => exact .inl rfl
    | some m =>
      simp only [called]
      split
      · exact .inl rfl
      · exact .inr ⟨m, rfl⟩
  rcases hshape msg with hnil | ⟨x, hx⟩
  · rcases hshape msg' with hnil' | ⟨y, hy⟩
    · rw [hnil, hnil']
    · rw [hashOf_eq msg, hnil] at h
      exact absurd h.symm (hashOf_ne_zeros hno hmsg' (by simp [hy]))
  · rcases hshape msg' with hnil' | ⟨y, hy⟩
    · rw [hashOf_eq msg', hnil'] at h
      exact absurd h (hashOf_ne_zeros hno hmsg (by simp [hx]))
    · rw [hashOf_eq, hashOf_eq, hx, hy] at h
      rw [hx, hy, hno.injective x (hmsg x (by simp [hx])) y (hmsg' y (by simp [hy])) h]

theorem value_eq {v v' : Option Bytes} (hv : ∀ x, v = some x → x.length = 32)
    (hv' : ∀ x, v' = some x → x.length = 32) (hmsg : ∀ x ∈ called v, x ∈ occurring)
    (hmsg' : ∀ x ∈ called v', x ∈ occurring)
    (h : hashOf hashFunction v = hashOf hashFunction v') : v = v' := by
  have hcalled : ∀ w : Option Bytes, (∀ x, w = some x → x.length = 32) → called w = w.toList := by
    intro w hw
    cases w with
    | none => rfl
    | some x => exact called_value (hw x rfl)
  have heq := called_eq hno hmsg hmsg' h
  rw [hcalled v hv, hcalled v' hv'] at heq
  cases v <;> cases v' <;> simp_all

theorem pair_eq {a b a' b' : Bytes} (ha : a.length = 32) (hb : b.length = 32) (ha' : a'.length = 32)
    (hb' : b'.length = 32) (hmsg : ∀ x ∈ called (some (a ++ b)), x ∈ occurring)
    (hmsg' : ∀ x ∈ called (some (a' ++ b')), x ∈ occurring)
    (h : hashOf hashFunction (some (a ++ b)) = hashOf hashFunction (some (a' ++ b'))) :
    a = a' ∧ b = b' := by
  have heq := called_eq hno hmsg hmsg' h
  rw [called_append ha hb, called_append ha' hb'] at heq
  split at heq
  · next hzero =>
    split at heq
    · next hzero' => exact ⟨hzero.1.trans hzero'.1.symm, hzero.2.trans hzero'.2.symm⟩
    · cases heq
  · split at heq
    · cases heq
    · exact append_inj (List.cons.inj heq).1 (ha.trans ha'.symm)

/-! ## Layers -/

theorem pairHashes_inj {k : Nat} {l l' : List Bytes} (hl : l.length = 2 * k)
    (hl' : l'.length = 2 * k) (h32 : ∀ x ∈ l, x.length = 32) (h32' : ∀ x ∈ l', x.length = 32)
    (hmsg : ∀ x ∈ pairCalls l, x ∈ occurring) (hmsg' : ∀ x ∈ pairCalls l', x ∈ occurring)
    (h : pairHashes hashFunction l = pairHashes hashFunction l') : l = l' := by
  induction k generalizing l l' with
  | zero => rw [length_eq_zero_iff.mp hl, length_eq_zero_iff.mp hl']
  | succ k ih =>
    match l, l', hl, hl' with
    | a :: b :: l, a' :: b' :: l', hl, hl' =>
      simp only [pairHashes, List.cons.injEq] at h
      simp only [forall_mem_cons] at h32 h32'
      obtain ⟨rfl, rfl⟩ := pair_eq hno h32.1 h32.2.1 h32'.1 h32'.2.1
        (fun x hx => hmsg x (mem_append_left _ hx))
        (fun x hx => hmsg' x (mem_append_left _ hx)) h.1
      rw [ih (by simpa [Nat.mul_add] using hl) (by simpa [Nat.mul_add] using hl') h32.2.2 h32'.2.2
        (fun x hx => hmsg x (mem_append_right _ hx))
        (fun x hx => hmsg' x (mem_append_right _ hx)) h.2]

theorem layerAbove_inj (hlen : ∀ msg, (hashFunction msg).length = 32) {height : Nat}
    {l l' : List Bytes} (hl : l.length = 2 ^ height) (hl' : l'.length = 2 ^ height)
    (h32 : ∀ x ∈ l, x.length = 32) (h32' : ∀ x ∈ l', x.length = 32)
    (hmsg : ∀ x ∈ layerCalls hashFunction height l, x ∈ occurring)
    (hmsg' : ∀ x ∈ layerCalls hashFunction height l', x ∈ occurring)
    (h : layerAbove hashFunction height l = layerAbove hashFunction height l') : l = l' := by
  induction height generalizing l l' with
  | zero => exact h
  | succ height ih =>
    have hdouble : l.length = 2 * 2 ^ height := by rw [hl, Nat.pow_succ, Nat.mul_comm]
    have hdouble' : l'.length = 2 * 2 ^ height := by rw [hl', Nat.pow_succ, Nat.mul_comm]
    apply pairHashes_inj hno hdouble hdouble' h32 h32'
      (fun x hx => hmsg x (mem_append_left _ hx))
      (fun x hx => hmsg' x (mem_append_left _ hx))
    exact ih (length_pairHashes hdouble) (length_pairHashes hdouble')
      (length_of_mem_pairHashes hlen hdouble) (length_of_mem_pairHashes hlen hdouble')
      (fun x hx => hmsg x (mem_append_right _ hx))
      (fun x hx => hmsg' x (mem_append_right _ hx)) h

end NoCollision

/-- A hash that stands `height` layers over values, of which it has one. -/
inductive LayerHash (hashFunction : Bytes → Bytes) (occurring : List Bytes) : Nat → Bytes → Prop where
  | value {v : Bytes} (hv : v.length = 32) (hmsg : v ∈ occurring) :
    LayerHash hashFunction occurring 0 (hashFunction v)
  | pair {height : Nat} {a b : Bytes} (ha : a.length = 32) (hb : b.length = 32)
    (hmsg : a ++ b ∈ occurring) (hne : a ≠ EMPTY_TREE_ROOT ∨ b ≠ EMPTY_TREE_ROOT)
    (hleft : a ≠ EMPTY_TREE_ROOT → LayerHash hashFunction occurring height a)
    (hright : b ≠ EMPTY_TREE_ROOT → LayerHash hashFunction occurring height b) :
    LayerHash hashFunction occurring (height + 1) (hashFunction (a ++ b))

theorem LayerHash.exists_message {height : Nat} {x : Bytes}
    (h : LayerHash hashFunction occurring height x) : ∃ msg ∈ occurring, hashFunction msg = x := by
  cases h with
  | value _ hmsg => exact ⟨_, hmsg, rfl⟩
  | pair _ _ hmsg _ _ _ => exact ⟨_, hmsg, rfl⟩

theorem layerHash_pairHashes {height k : Nat}
    {l : List Bytes} (hl : l.length = 2 * k) (h32 : ∀ x ∈ l, x.length = 32)
    (hmsg : ∀ x ∈ pairCalls l, x ∈ occurring)
    (h : ∀ x ∈ l, x ≠ EMPTY_TREE_ROOT → LayerHash hashFunction occurring height x) :
    ∀ y ∈ pairHashes hashFunction l, y ≠ EMPTY_TREE_ROOT →
      LayerHash hashFunction occurring (height + 1) y := by
  intro y hy hne
  obtain ⟨a, ha, b, hb, rfl, hcalls⟩ := mem_pairHashes hl hy
  rw [hashOf_eq, called_append (h32 a ha) (h32 b hb)] at hne ⊢
  rw [called_append (h32 a ha) (h32 b hb)] at hcalls
  split at hne
  · exact absurd rfl hne
  · next hzero =>
    rw [if_neg hzero] at hcalls ⊢
    exact .pair (h32 a ha) (h32 b hb) (hmsg _ (hcalls _ (mem_singleton_self _)))
      (not_and_or.mp hzero) (h a ha) (h b hb)

theorem layerHash_layerAbove (hlen : ∀ msg, (hashFunction msg).length = 32) (base : Nat)
    {height : Nat} {l : List Bytes} (hl : l.length = 2 ^ height) (h32 : ∀ x ∈ l, x.length = 32)
    (hmsg : ∀ x ∈ layerCalls hashFunction height l, x ∈ occurring)
    (h : ∀ x ∈ l, x ≠ EMPTY_TREE_ROOT → LayerHash hashFunction occurring base x) :
    ∀ y ∈ layerAbove hashFunction height l, y ≠ EMPTY_TREE_ROOT →
      LayerHash hashFunction occurring (base + height) y := by
  induction height generalizing base l with
  | zero => exact h
  | succ height ih =>
    have hdouble : l.length = 2 * 2 ^ height := by rw [hl, Nat.pow_succ, Nat.mul_comm]
    have hnext := layerHash_pairHashes hdouble h32
      (fun x hx => hmsg x (mem_append_left _ hx)) h
    rw [← Nat.add_assoc, Nat.add_right_comm]
    exact ih _ (length_pairHashes hdouble) (length_of_mem_pairHashes hlen hdouble)
      (fun x hx => hmsg x (mem_append_right _ hx)) hnext

/-! ## The messages of a stem node -/

section Messages

variable {a : StemBinaryNode} (hmsg : ∀ x ∈ messages hashFunction (.stem a), x ∈ occurring)

include hmsg

theorem called_mem_of_value {v : Option Bytes} (hv : v ∈ a.values) : ∀ x ∈ called v, x ∈ occurring :=
  fun x hx => hmsg x (mem_append_left _ (mem_append_left _
    (mem_flatMap.mpr ⟨v, hv, hx⟩)))

theorem layerCalls_mem : ∀ x ∈ layerCalls hashFunction 8 (valueHashes hashFunction a), x ∈ occurring :=
  fun x hx => hmsg x (mem_append_left _ (mem_append_right _ hx))

theorem stemMessage_mem : ∀ x ∈ called (some (stemMessage hashFunction a)), x ∈ occurring :=
  fun x hx => hmsg x (mem_append_right _ hx)

end Messages

section Tries

variable (hno : NoCollision hashFunction occurring)

include hno

/-- A hash stands at one height only. -/
theorem LayerHash.height_unique {j k : Nat} {x : Bytes} (hj : LayerHash hashFunction occurring j x)
    (hk : LayerHash hashFunction occurring k x) : j = k := by
  induction hj generalizing k with
  | @value v hv hmsg =>
    generalize hx : hashFunction v = x at hk
    cases hk with
    | value _ _ => rfl
    | @pair _ a b ha hb hmsg' _ _ _ =>
      -- A value has 32 bytes, and a pair has 64.
      have heq := congrArg List.length (hno.injective _ hmsg _ hmsg' hx)
      rw [length_append, ha, hb, hv] at heq
      cases heq
  | @pair j a b ha hb hmsg hne _ _ ihl ihr =>
    generalize hx : hashFunction (a ++ b) = x at hk
    cases hk with
    | @value v hv hmsg' =>
      have heq := congrArg List.length (hno.injective _ hmsg _ hmsg' hx)
      rw [length_append, ha, hb, hv] at heq
      cases heq
    | @pair _ a' b' ha' hb' hmsg' _ hleft' hright' =>
      obtain ⟨rfl, rfl⟩ := append_inj (hno.injective _ hmsg _ hmsg' hx) (ha.trans ha'.symm)
      rcases hne with hne | hne
      · exact congrArg Nat.succ (ihl hne (hleft' hne))
      · exact congrArg Nat.succ (ihr hne (hright' hne))

theorem zeros_of_pairHashes {k : Nat} {l : List Bytes} (hl : l.length = 2 * k)
    (h32 : ∀ x ∈ l, x.length = 32) (hmsg : ∀ x ∈ pairCalls l, x ∈ occurring)
    (h : ∀ y ∈ pairHashes hashFunction l, y = EMPTY_TREE_ROOT) : ∀ x ∈ l, x = EMPTY_TREE_ROOT := by
  induction k generalizing l with
  | zero => rw [length_eq_zero_iff.mp hl]; exact fun _ hx => (nomatch hx)
  | succ k ih =>
    match l, hl with
    | a :: b :: l, hl =>
      simp only [pairHashes, forall_mem_cons] at h h32 ⊢
      have hpair : called (some (a ++ b)) = [] := by
        apply Classical.byContradiction
        intro hne
        exact hashOf_ne_zeros hno (fun x hx => hmsg x (mem_append_left _ hx)) hne h.1
      rw [called_append h32.1 h32.2.1] at hpair
      split at hpair
      · next hzero =>
        exact ⟨hzero.1, hzero.2, ih (by simpa [Nat.mul_add] using hl) h32.2.2
          (fun x hx => hmsg x (mem_append_right _ hx)) h.2⟩
      · cases hpair

variable (hlen : ∀ msg, (hashFunction msg).length = 32)

include hlen

theorem zeros_of_layerAbove {height : Nat} {l : List Bytes} (hl : l.length = 2 ^ height)
    (h32 : ∀ x ∈ l, x.length = 32) (hmsg : ∀ x ∈ layerCalls hashFunction height l, x ∈ occurring)
    (h : ∀ y ∈ layerAbove hashFunction height l, y = EMPTY_TREE_ROOT) :
    ∀ x ∈ l, x = EMPTY_TREE_ROOT := by
  induction height generalizing l with
  | zero => exact h
  | succ height ih =>
    have hdouble : l.length = 2 * 2 ^ height := by rw [hl, Nat.pow_succ, Nat.mul_comm]
    exact zeros_of_pairHashes hno hdouble h32 (fun x hx => hmsg x (mem_append_left _ hx))
      (ih (length_pairHashes hdouble) (length_of_mem_pairHashes hlen hdouble)
        (fun x hx => hmsg x (mem_append_right _ hx)) h)

section Stem

variable {a : StemBinaryNode} (ha : StemFits a)
  (hmsg : ∀ x ∈ messages hashFunction (.stem a), x ∈ occurring)

include ha hmsg

theorem valuesRoot_ne_zeros (hvalue : HasValue a) : valuesRoot hashFunction a ≠ EMPTY_TREE_ROOT := by
  intro hroot
  obtain ⟨v, hv⟩ := hvalue
  have hzeros := zeros_of_layerAbove hno hlen (length_valueHashes hashFunction ha)
    (length_of_mem_valueHashes hlen a) (layerCalls_mem hmsg) (by
      rw [(layerAbove_valueHashes hlen ha).1]
      exact fun y hy => (mem_singleton.mp hy).trans hroot)
  have hcalled := called_value (ha.2.2 v hv)
  refine hashOf_ne_zeros hno (called_mem_of_value hmsg hv) (by simp [hcalled]) ?_
  exact hzeros _ (mem_map.mpr ⟨some v, hv, rfl⟩)

omit hno in
/-- The values of a stem node stand eight layers below their root. -/
theorem layerHash_valuesRoot (hne : valuesRoot hashFunction a ≠ EMPTY_TREE_ROOT) :
    LayerHash hashFunction occurring 8 (valuesRoot hashFunction a) := by
  have habove := layerHash_layerAbove hlen 0 (length_valueHashes hashFunction ha)
    (length_of_mem_valueHashes hlen a) (layerCalls_mem hmsg) (by
      intro x hx hne
      obtain ⟨v, hv, rfl⟩ := mem_map.mp hx
      cases v with
      | none => exact absurd rfl hne
      | some v =>
        have hcalled := called_value (ha.2.2 v hv)
        have hmem := called_mem_of_value hmsg hv v (by simp [hcalled])
        rw [hashOf_eq, hcalled]
        exact .value (ha.2.2 v hv) hmem)
  rw [(layerAbove_valueHashes hlen ha).1] at habove
  exact habove _ (mem_singleton_self _) hne

end Stem

/-- A stem node that has a value, or of which the stem is no hash, is not hashed to zeros. -/
theorem called_stemMessage {a : StemBinaryNode} (ha : Occurs hashFunction occurring (.leaf a)) :
    called (some (stemMessage hashFunction a)) = [stemMessage hashFunction a] := by
  obtain ⟨hfits, hvalue, hmsg⟩ := ha
  have hstem := length_setLengthRight_stem hfits
  have hroot := layerAbove_valueHashes hlen hfits
  rw [stemMessage, called_append hstem hroot.2]
  apply if_neg
  intro hzero
  rcases hvalue with hvalue | hnot
  · exact valuesRoot_ne_zeros hno hlen hfits hmsg hvalue hzero.2
  · exact hnot.1 hzero.1

theorem digest_ne_zeros {t : Trie} (ht : Occurs hashFunction occurring t) (hne : t ≠ .empty) :
    digest hashFunction t ≠ EMPTY_TREE_ROOT := by
  induction t with
  | empty => exact absurd rfl hne
  | leaf a =>
    apply hashOf_ne_zeros hno (stemMessage_mem ht.2.2)
    rw [called_stemMessage hno hlen ht]
    exact cons_ne_nil _ _
  | node left right ihl ihr =>
    obtain ⟨hside, hmsg, hl, hr⟩ := ht
    apply hashOf_ne_zeros hno hmsg
    rw [called_append (length_digest hlen left) (length_digest hlen right), if_neg]
    · exact cons_ne_nil _ _
    · intro hzero
      rcases hside with hside | hside
      · exact ihl hl hside hzero.1
      · exact ihr hr hside hzero.2

/-- The message of a node, and its two parts. -/
theorem called_node {left right : Trie} (ht : Occurs hashFunction occurring (.node left right)) :
    called (some (digest hashFunction left ++ digest hashFunction right)) =
      [digest hashFunction left ++ digest hashFunction right] := by
  rw [called_append (length_digest hlen left) (length_digest hlen right), if_neg]
  intro hzero
  rcases ht.1 with hside | hside
  · exact digest_ne_zeros hno hlen ht.2.2.1 hside hzero.1
  · exact digest_ne_zeros hno hlen ht.2.2.2 hside hzero.2

theorem digest_leaf {a : StemBinaryNode} (ha : Occurs hashFunction occurring (.leaf a)) :
    digest hashFunction (.leaf a) = hashFunction (stemMessage hashFunction a) ∧
      stemMessage hashFunction a ∈ occurring := by
  have hcalled := called_stemMessage hno hlen ha
  constructor
  · rw [digest, hashOf_eq, hcalled]
    rfl
  · exact stemMessage_mem ha.2.2 _ (hcalled ▸ mem_singleton_self _)

theorem digest_node {left right : Trie} (ht : Occurs hashFunction occurring (.node left right)) :
    digest hashFunction (.node left right) =
        hashFunction (digest hashFunction left ++ digest hashFunction right) ∧
      digest hashFunction left ++ digest hashFunction right ∈ occurring := by
  have hcalled := called_node hno hlen ht
  constructor
  · rw [digest, hashOf_eq, hcalled]
    rfl
  · exact ht.2.1 _ (hcalled ▸ mem_singleton_self _)

/-- No node of a trie is a hash over values that stand at most eight layers below it. -/
theorem digest_not_layerHash {t : Trie} (ht : Occurs hashFunction occurring t) (hne : t ≠ .empty)
    {height : Nat} (hheight : height ≤ 8) :
    ¬ LayerHash hashFunction occurring height (digest hashFunction t) := by
  -- The induction is on the trie; a node's child stands one layer lower, and a stem node
  -- has eight layers below its second half.
  induction t generalizing height with
  | empty => exact absurd rfl hne
  | leaf a =>
    intro hlayer
    obtain ⟨hdigest, hmem⟩ := digest_leaf hno hlen ht
    obtain ⟨hfits, hvalue, hmsg⟩ := ht
    have hstem := length_setLengthRight_stem hfits
    rw [hdigest] at hlayer
    generalize hx : hashFunction (stemMessage hashFunction a) = x at hlayer
    cases hlayer with
    | @value v hv hmsg' =>
      have heq := congrArg List.length (hno.injective _ hmem _ hmsg' hx)
      rw [length_stemMessage hlen hfits, hv] at heq
      cases heq
    | @pair j b c hb hc hmsg' _ hleft hright =>
      obtain ⟨hb', hc'⟩ := append_inj (hno.injective _ hmem _ hmsg' hx) (hstem.trans hb.symm)
      rcases hvalue with hvalue | hnot
      · have hroot := valuesRoot_ne_zeros hno hlen hfits hmsg hvalue
        have height8 := (layerHash_valuesRoot hlen hfits hmsg hroot).height_unique hno
          (hc' ▸ hright (hc' ▸ hroot))
        omega
      · obtain ⟨msg, hmsg'', heq⟩ := (hleft (hb' ▸ hnot.1)).exists_message
        exact hnot.2 msg hmsg'' (heq.trans hb'.symm)
  | node left right ihl ihr =>
    intro hlayer
    obtain ⟨hdigest, hmem⟩ := digest_node hno hlen ht
    obtain ⟨hside, -, hl, hr⟩ := ht
    rw [hdigest] at hlayer
    generalize hx : hashFunction (digest hashFunction left ++ digest hashFunction right) = x at hlayer
    cases hlayer with
    | @value v hv hmsg' =>
      have heq := congrArg List.length (hno.injective _ hmem _ hmsg' hx)
      rw [length_append, length_digest hlen, length_digest hlen, hv] at heq
      cases heq
    | @pair j b c hb hc hmsg' _ hleft hright =>
      obtain ⟨rfl, rfl⟩ := append_inj (hno.injective _ hmem _ hmsg' hx)
        ((length_digest hlen left).trans hb.symm)
      rcases hside with hside | hside
      · exact ihl hl hside (by omega) (hleft (digest_ne_zeros hno hlen hl hside))
      · exact ihr hr hside (by omega) (hright (digest_ne_zeros hno hlen hr hside))

/-- A stem node and an internal node have different digests. -/
theorem digest_leaf_ne_node {a : StemBinaryNode} {left right : Trie}
    (ha : Occurs hashFunction occurring (.leaf a))
    (ht : Occurs hashFunction occurring (.node left right)) :
    digest hashFunction (.leaf a) ≠ digest hashFunction (.node left right) := by
  intro heq
  obtain ⟨hfits, hvalue, hmsg⟩ := ha
  have hstem := length_setLengthRight_stem hfits
  obtain ⟨hleft, hright⟩ := pair_eq hno hstem (layerAbove_valueHashes hlen hfits).2
    (length_digest hlen left) (length_digest hlen right) (stemMessage_mem hmsg) ht.2.1 heq
  rcases hvalue with hvalue | hnot
  · -- The right child would be the root of the values.
    have hroot := valuesRoot_ne_zeros hno hlen hfits hmsg hvalue
    have hne : right ≠ .empty := by
      rintro rfl
      exact hroot hright
    exact digest_not_layerHash hno hlen ht.2.2.2 hne (Nat.le_refl 8)
      (hright ▸ layerHash_valuesRoot hlen hfits hmsg hroot)
  · -- The left child would have the stem as its hash.
    have hne : left ≠ .empty := by
      rintro rfl
      exact hnot.1 hleft
    have hdigest := digest_ne_zeros hno hlen ht.2.2.1 hne
    have hmessage : ∃ msg ∈ occurring, hashFunction msg = digest hashFunction left := by
      cases left with
      | empty => exact absurd rfl hne
      | leaf b =>
        have hb := digest_leaf hno hlen ht.2.2.1
        exact ⟨_, hb.2, hb.1.symm⟩
      | node l r =>
        have hlr := digest_node hno hlen ht.2.2.1
        exact ⟨_, hlr.2, hlr.1.symm⟩
    obtain ⟨msg, hmem, hhash⟩ := hmessage
    exact hnot.2 msg hmem (hhash.trans hleft.symm)

/-- The digest of a stem node tells its stem and its values. -/
theorem digest_leaf_inj {a b : StemBinaryNode} (ha : Occurs hashFunction occurring (.leaf a))
    (hb : Occurs hashFunction occurring (.leaf b))
    (h : digest hashFunction (.leaf a) = digest hashFunction (.leaf b)) : a = b := by
  obtain ⟨hfits, -, hmsg⟩ := ha
  obtain ⟨hfits', -, hmsg'⟩ := hb
  have hroot := layerAbove_valueHashes hlen hfits
  have hroot' := layerAbove_valueHashes hlen hfits'
  obtain ⟨hleft, hright⟩ := pair_eq hno (length_setLengthRight_stem hfits) hroot.2
    (length_setLengthRight_stem hfits') hroot'.2
    (stemMessage_mem hmsg) (stemMessage_mem hmsg') h
  have hhashes : valueHashes hashFunction a = valueHashes hashFunction b :=
    layerAbove_inj hno hlen (length_valueHashes hashFunction hfits)
      (length_valueHashes hashFunction hfits') (length_of_mem_valueHashes hlen a)
      (length_of_mem_valueHashes hlen b) (layerCalls_mem hmsg)
      (layerCalls_mem hmsg') (by rw [hroot.1, hroot'.1, hright])
  have hvalues : a.values = b.values := by
    apply ext_getElem (hfits.2.1.trans hfits'.2.1.symm)
    intro i hi hi'
    have hget := congrArg (fun l => l[i]?) hhashes
    simp only [valueHashes, getElem?_map, getElem?_eq_getElem hi,
      getElem?_eq_getElem hi', Option.map_some, Option.some.injEq] at hget
    exact value_eq hno (fun x hx => hfits.2.2 x (hx ▸ getElem_mem hi))
      (fun x hx => hfits'.2.2 x (hx ▸ getElem_mem hi'))
      (called_mem_of_value hmsg (getElem_mem hi))
      (called_mem_of_value hmsg' (getElem_mem hi')) hget
  rw [setLengthRight_stem hfits, setLengthRight_stem hfits'] at hleft
  have hstems : a.stem = b.stem := (append_inj' hleft rfl).1
  cases a
  cases b
  simp only at hstems hvalues
  rw [hstems, hvalues]

/-- Equal digests come from equal tries. -/
theorem digest_inj {s t : Trie} (hs : Occurs hashFunction occurring s)
    (ht : Occurs hashFunction occurring t) (h : digest hashFunction s = digest hashFunction t) :
    s = t := by
  induction s generalizing t with
  | empty =>
    apply Classical.byContradiction
    intro hne
    exact digest_ne_zeros hno hlen ht (Ne.symm hne) h.symm
  | leaf a =>
    cases t with
    | empty => exact absurd h (digest_ne_zeros hno hlen hs (fun heq => nomatch heq))
    | leaf b => rw [digest_leaf_inj hno hlen hs ht h]
    | node left right => exact absurd h (digest_leaf_ne_node hno hlen hs ht)
  | node left right ihl ihr =>
    cases t with
    | empty => exact absurd h (digest_ne_zeros hno hlen hs (fun heq => nomatch heq))
    | leaf b => exact absurd h.symm (digest_leaf_ne_node hno hlen ht hs)
    | node left' right' =>
      obtain ⟨hl, hr⟩ := pair_eq hno (length_digest hlen left) (length_digest hlen right)
        (length_digest hlen left') (length_digest hlen right') hs.2.1 ht.2.1 h
      rw [ihl hs.2.2.1 ht.2.2.1 hl, ihr hs.2.2.2 ht.2.2.2 hr]

end Tries

end StateManager.BinaryTree
