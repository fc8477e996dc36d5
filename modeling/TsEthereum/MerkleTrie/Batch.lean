-- SUMMARY: Batches of a trie with hashed keys, and when a batch of keys that are hashed already does the same.
import TsEthereum.Base.Fallible
import TsEthereum.MerkleTrie.PruningRuns

/-!
# Batches

`batch` hands `skipKeyTransform` on to `put` and `del`. With the flag, two lookups of
`put` still hash the key once more: the deletion that an empty value stands for, and the
one that decides whether the path is pruned.
-/

open Except

open Rlp (Item)

/-- The operation with its key hashed. -/
def BatchDBOp.hashKey (hash : Bytes → Bytes) : BatchDBOp → BatchDBOp
  | .put key value => .put (hash key) value
  | .del key => .del (hash key)

namespace MPT

variable (hash : Bytes → Bytes)

def batchOp (fuel : Nat) (t : MPT) (skipKeyTransform : Bool) : BatchDBOp → Except MPTError MPT
  | .put key value => t.put hash fuel key (some value) skipKeyTransform
  | .del key => t.del hash fuel key skipKeyTransform

/-- The given operations are executed on the trie one after the other. -/
def batch (fuel : Nat) (t : MPT) (skipKeyTransform : Bool) : List BatchDBOp → Except MPTError MPT
  | [] => .ok t
  | op :: ops => do
    let t ← t.batchOp hash fuel skipKeyTransform op
    t.batch fuel skipKeyTransform ops

/-- No node is found for a key of the trie itself. -/
def NotFound (fuel : Nat) (t : MPT) (key : Bytes) : Prop :=
  ∃ path, findPath fuel t key false = .ok path ∧ path.node = none

/-- Whether a value is found under a raw key. -/
def finds (fuel : Nat) (t : MPT) (key value : Bytes) : Except MPTError Bool :=
  (t.get hash fuel key false).map fun val => decide (val = some (.bytes value))

/-- The lookups of an operation come out alike for a key and for the key hashed once more. -/
def SkipsAlike (fuel : Nat) (t : MPT) : BatchDBOp → Prop
  | .put key [] => NotFound fuel t (hash key) ∧ NotFound fuel t (hash (hash key))
  | .put key value => t._opts.useNodePruning = true → t._root ≠ EMPTY_TRIE_ROOT hash →
      finds hash fuel t key value = finds hash fuel t (hash key) value
  | .del _ => True

/-- So it is for every operation of a batch, in the trie that the operations before it leave. -/
def AllAlike (fuel : Nat) (t : MPT) : List BatchDBOp → Prop
  | [] => True
  | op :: ops => SkipsAlike hash fuel t op ∧
      ∀ s, t.batchOp hash fuel false op = .ok s → AllAlike fuel s ops

/-! ## One operation -/

variable {hash} {fuel : Nat} {t t' : MPT}

theorem appliedKey_hashed (h : t._opts.useKeyHashing = true) (key : Bytes) :
    t.appliedKey hash key = hash key := if_pos h

variable {key : Bytes} {skip : Bool}

theorem del_notFound (h : NotFound fuel t (if skip then key else t.appliedKey hash key)) :
    t.del hash fuel key skip = .ok t := by
  obtain ⟨path, hpath, hnode⟩ := h
  simp only [del, hpath, bind, Except.bind, hnode]
  rfl

variable {value : Bytes}

variable (hash) in
theorem obsolete_congr {key' : Bytes} (stack : List MPTNode)
    (h : t._opts.useNodePruning = true → finds hash fuel t key value = finds hash fuel t key' value) :
     t.obsolete hash fuel key value stack = t.obsolete hash fuel key' value stack := by
  unfold obsolete
  split
  · next hprune =>
    have hfinds := h hprune
    unfold finds at hfinds
    cases hget : t.get hash fuel key false with
    | error e =>
      cases hget' : t.get hash fuel key' false with
      | error e' =>
        rw [hget, hget'] at hfinds
        cases hfinds
        rfl
      | ok val' =>
        rw [hget, hget'] at hfinds
        cases hfinds
    | ok val =>
      cases hget' : t.get hash fuel key' false with
      | error e' =>
        rw [hget, hget'] at hfinds
        cases hfinds
      | ok val' =>
        rw [hget, hget'] at hfinds
        have hsame : (val = some (.bytes value)) ↔ (val' = some (.bytes value)) :=
          decide_eq_decide.mp (ok.inj hfinds)
        simp only [bind, Except.bind, ne_eq, hsame]
  · rfl

theorem batchOp_hashKey (h : t._opts.useKeyHashing = true) {op : BatchDBOp}
    (halike : SkipsAlike hash fuel t op) :
    t.batchOp hash fuel true (op.hashKey hash) = t.batchOp hash fuel false op := by
  cases op with
  | del key =>
    simp only [batchOp, BatchDBOp.hashKey, del, appliedKey_hashed h, if_true, Bool.false_eq_true,
      if_false]
  | put key value =>
    cases value with
    | nil =>
      obtain ⟨honce, htwice⟩ := halike
      have hraw : t.del hash fuel key false = .ok t := by
        apply del_notFound
        simpa [appliedKey_hashed h] using honce
      have hskipped : t.del hash fuel (hash key) false = .ok t := by
        apply del_notFound
        simpa [appliedKey_hashed h] using htwice
      exact hskipped.trans hraw.symm
    | cons x value =>
      simp only [batchOp, BatchDBOp.hashKey, put, appliedKey_hashed h, if_true, Bool.false_eq_true,
        if_false]
      split
      · rfl
      · next hroot =>
        have hobsolete := fun stack => obsolete_congr hash stack
          (fun hprune => (halike hprune hroot).symm)
        simp only [hobsolete]

/-! ## Options stay -/

theorem setRoot_opts (h : t.setRoot hash value = .ok t') : t'._opts = t._opts := by
  unfold setRoot at h
  dsimp only at h
  split at h
  · cases h
  · cases h
    rfl

variable {stack : List MPTNode}

theorem saveStack_opts {key : Nibbles} {opStack : List BatchDBOp}
    (h : t.saveStack hash key stack opStack = .ok t') : t'._opts = t._opts := by
  unfold saveStack at h
  split at h
  · obtain ⟨s, hroot, hs⟩ := bind_eq_ok.mp h
    have hopts := setRoot_opts hroot
    cases hs
    exact hopts
  · cases h
  · cases h
    rfl

theorem updateNode_opts {k : Bytes} {keyRemainder : Nibbles}
    (h : t.updateNode hash k value keyRemainder stack = .ok t') : t'._opts = t._opts := by
  unfold updateNode at h
  split at h
  · cases h
  · dsimp only at h
    split at h
    · exact saveStack_opts h
    · split at h
      · split at h <;> exact saveStack_opts h
      · exact saveStack_opts h
      · exact saveStack_opts h

theorem collapseBranch_opts {key : Nibbles} {_branches : Nibble → Item} {_value : Item}
    {parentNode : Option MPTNode} {opStack : List BatchDBOp}
    (h : t.collapseBranch hash key _branches _value parentNode stack opStack = .ok t') :
    t'._opts = t._opts := by
  unfold collapseBranch at h
  split at h
  · obtain ⟨foundNode, -, hsave⟩ := bind_eq_ok.mp h
    exact saveStack_opts hsave
  · exact saveStack_opts h

theorem deleteNode_opts {k : Bytes} (h : t.deleteNode hash k stack = .ok t') :
    t'._opts = t._opts := by
  unfold deleteNode at h
  split at h
  · cases h
  · exact setRoot_opts h
  · dsimp only at h
    split at h
    · exact collapseBranch_opts h
    · exact collapseBranch_opts h
    · cases h

theorem del_opts (h : t.del hash fuel key skip = .ok t') : t'._opts = t._opts := by
  unfold del at h
  obtain ⟨path, -, h⟩ := bind_eq_ok.mp h
  split at h
  · cases h
    rfl
  · obtain ⟨s, hdelete, h⟩ := bind_eq_ok.mp h
    have hs := deleteNode_opts hdelete
    split at h <;> cases h <;> exact hs

theorem put_opts {value : Option Bytes} (h : t.put hash fuel key value skip = .ok t') :
    t'._opts = t._opts := by
  unfold put at h
  split at h
  · exact del_opts h
  · exact del_opts h
  · dsimp only at h
    split at h
    · obtain ⟨s, hroot, hs⟩ := bind_eq_ok.mp h
      have hopts := setRoot_opts hroot
      cases hs
      exact hopts
    · obtain ⟨path, -, h⟩ := bind_eq_ok.mp h
      obtain ⟨ops, -, h⟩ := bind_eq_ok.mp h
      obtain ⟨s, hupdate, hs⟩ := bind_eq_ok.mp h
      have hopts := updateNode_opts hupdate
      cases hs
      exact hopts

theorem batchOp_opts {op : BatchDBOp} (h : t.batchOp hash fuel skip op = .ok t') :
    t'._opts = t._opts := by
  cases op with
  | put key value => exact put_opts h
  | del key => exact del_opts h

/-! ## Batches -/

/-- Where the lookups of every operation come out alike, a batch of hashed keys leaves the same
trie as the batch of the raw keys. -/
theorem batch_hashKey (h : t._opts.useKeyHashing = true) {ops : List BatchDBOp}
    (halike : AllAlike hash fuel t ops) :
    t.batch hash fuel true (ops.map (BatchDBOp.hashKey hash)) = t.batch hash fuel false ops := by
  induction ops generalizing t with
  | nil => rfl
  | cons op ops ih =>
    obtain ⟨hfirst, hrest⟩ := halike
    have hstep := batchOp_hashKey h hfirst
    simp only [List.map_cons, batch, hstep]
    cases hop : t.batchOp hash fuel false op with
    | error e => rfl
    | ok s =>
      have hs : s._opts.useKeyHashing = true :=
        (congrArg MPTOpts.useKeyHashing (batchOp_opts hop)).trans h
      exact ih hs (hrest s hop)

/-! ## Samples -/

instance (fuel : Nat) (t : MPT) (key : Bytes) : Decidable (NotFound fuel t key) :=
  match h : findPath fuel t key false with
  | .ok path => decidable_of_iff (path.node = none)
      ⟨fun hnode => ⟨path, h, hnode⟩, fun ⟨_, hpath, hnode⟩ =>
        (congrArg Path.node (Except.ok.inj (h.symm.trans hpath))).trans hnode⟩
  | .error _ => .isFalse fun ⟨_, hpath, _⟩ => nomatch h.symm.trans hpath

instance (hash : Bytes → Bytes) (fuel : Nat) (t : MPT) :
    (op : BatchDBOp) → Decidable (SkipsAlike hash fuel t op)
  | .put _ [] => inferInstanceAs (Decidable (_ ∧ _))
  | .put _ (_ :: _) => inferInstanceAs (Decidable (_ → _ → _ = _))
  | .del _ => .isTrue trivial

instance decidableAllAlike (hash : Bytes → Bytes) (fuel : Nat) :
    (t : MPT) → (ops : List BatchDBOp) → Decidable (AllAlike hash fuel t ops)
  | _, [] => .isTrue trivial
  | t, op :: ops =>
    match h : t.batchOp hash fuel false op with
    | .ok s =>
      have := decidableAllAlike hash fuel s ops
      decidable_of_iff (SkipsAlike hash fuel t op ∧ AllAlike hash fuel s ops) (by
        simp only [AllAlike, h, Except.ok.injEq, forall_eq'])
    | .error _ => decidable_of_iff (SkipsAlike hash fuel t op) (by simp [AllAlike, h])

/-- The hash of the key `01`. -/
def hashedOne : Bytes := word 0x5fe7f977e71dba2ea1a68e21057beebb9be2ac30c6410aa38d4f3fbe41dcffd2

/-- The hash of the key `02`. -/
def hashedTwo : Bytes := word 0xf2ee15ea639b73fa3db9b34a245bdfa015c260c598b211bf05a1ecc4b3e3b4f2

/-- Keccak-256 on the keys, the hashed keys and the encodings of the batches below. -/
def hashedKeysTable : Bytes → Bytes := tableHash [
  ([0x80], 0x56e81f171bcc55a6ff8345e692c0f86e5b48e01b996cadc001622fb5e363b421),
  ([1], 0x5fe7f977e71dba2ea1a68e21057beebb9be2ac30c6410aa38d4f3fbe41dcffd2),
  (hashedOne, 0xd0555453bba9ca5ab80f541730ee9e8dadf24bb50587cdfcfb5ebd5508fac14b),
  ([2], 0xf2ee15ea639b73fa3db9b34a245bdfa015c260c598b211bf05a1ecc4b3e3b4f2),
  (hashedTwo, 0x8811aabf7829558eff4f8a1f53650e8f23cad0b42f3fd2fd4db4fe83fc8c63a9),
  ([0xe3, 0xa1, 0x20] ++ hashedOne ++ [7],
    0x36dbd49dab024d91a45ac131704f586efbbc0e2f9812fa5157c97bf32d167f61),
  ([0xe3, 0xa1, 0x20] ++ hashedOne ++ [8],
    0xa35aaafa7faf89232ac2f6980ab0850e7ea41fc59a535d5962d2f77d1f1909c0)]

def hashedTrie (useNodePruning : Bool) : MPT := new hashedKeysTable ⟨true, useNodePruning⟩

/-- An update, an empty value where nothing is stored, and a deletion. -/
def updatedThenDeleted : List BatchDBOp := [.put [1] [7], .put [1] [8], .put [2] [], .del [1]]

theorem batch_updatedThenDeleted : (hashedTrie true).batch hashedKeysTable 65 true
        (updatedThenDeleted.map (BatchDBOp.hashKey hashedKeysTable)) =
      (hashedTrie true).batch hashedKeysTable 65 false updatedThenDeleted :=
  batch_hashKey rfl (by decide +kernel)

/-- The root after a batch, and what is then read under `01`. -/
def rootAndValue (useNodePruning skipKeyTransform : Bool) (ops : List BatchDBOp) :
    Except MPTError (Bytes × Except MPTError (Option Item)) :=
  ((hashedTrie useNodePruning).batch hashedKeysTable 65 skipKeyTransform ops).map fun s =>
    (s._root, s.get hashedKeysTable 65 [1] false)

/-- With hashed keys an empty value deletes nothing, and pruning takes away the nodes of a value
that is stored once more. -/
theorem batch_hashed_differs : (rootAndValue false false [.put [1] [7], .put [1] []] =
        .ok (word 0x56e81f171bcc55a6ff8345e692c0f86e5b48e01b996cadc001622fb5e363b421, .ok none) ∧
      rootAndValue false true ([.put [1] [7], .put [1] []].map (BatchDBOp.hashKey hashedKeysTable)) =
        .ok (word 0x36dbd49dab024d91a45ac131704f586efbbc0e2f9812fa5157c97bf32d167f61,
          .ok (some (.bytes [7])))) ∧ (rootAndValue true false [.put [1] [7], .put [1] [7]] =
        .ok (word 0x36dbd49dab024d91a45ac131704f586efbbc0e2f9812fa5157c97bf32d167f61,
          .ok (some (.bytes [7]))) ∧
      rootAndValue true true ([.put [1] [7], .put [1] [7]].map (BatchDBOp.hashKey hashedKeysTable)) =
        .ok (word 0x36dbd49dab024d91a45ac131704f586efbbc0e2f9812fa5157c97bf32d167f61, .ok none)) := by
  decide +kernel

end MPT
