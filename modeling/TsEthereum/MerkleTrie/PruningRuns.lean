-- SUMMARY: Runs over keys of one length: with and without pruning they read the same, and their root depends on the final map only.
import TsEthereum.MerkleTrie.Pruning

/-!
# Runs over keys of one length

Here a value never ends at a branch, so every deletion is clean and the tree of a
run is the canonical one of the final map. With pruning this holds as long as no
step removes a node that is needed beside its way.
-/

open List

open Rlp (Item)
open Nibbles

namespace MPT

open PatriciaTree

variable {hash : Bytes → Bytes}

/-- At every step what pruning would remove is not needed beside it. -/
def PrunesAlone (hash : Bytes → Bytes) (opts : MPTOpts) (ops : List Op) : Prop :=
  EachStep ops (fun before op =>
    match op.value with
    | none => Trie.RemovesAlone hash (treeOf hash opts before) (keyNibbles hash opts op.key)
    | some value =>
      lookup (treeOf hash opts before) (keyNibbles hash opts op.key) ≠ some value →
        Trie.StoresAlone hash (treeOf hash opts before) (keyNibbles hash opts op.key))

instance (opts : MPTOpts) (ops : List Op) : Decidable (PrunesAlone hash opts ops) :=
  have (before : List Op) (op : Op) : Decidable (match op.value with
      | none => Trie.RemovesAlone hash (treeOf hash opts before) (keyNibbles hash opts op.key)
      | some value =>
        lookup (treeOf hash opts before) (keyNibbles hash opts op.key) ≠ some value →
          Trie.StoresAlone hash (treeOf hash opts before) (keyNibbles hash opts op.key)) :=
    match op.value with
    | none => inferInstanceAs (Decidable (Trie.RemovesAlone _ _ _))
    | some _ => inferInstanceAs (Decidable (_ → _))
  inferInstanceAs (Decidable (EachStep _ _))

/-- The number of nibbles of keys of `n` bytes. -/
def nibbleLength (opts : MPTOpts) (n : Nat) : Nat := if opts.useKeyHashing then 64 else 2 * n

section

variable (hlen : ∀ m, (hash m).length = 32)
include hlen

theorem length_keyNibbles_eq (opts : MPTOpts) {key : Bytes} {n : Nat} (hkey : key.length = n) :
    (keyNibbles hash opts key).length = nibbleLength opts n := by
  unfold keyNibbles nibbleLength
  rw [length_bytesToNibbles]
  split
  · rw [hlen]
  · rw [hkey]

theorem uniform_treeOf (opts : MPTOpts) {n : Nat} {ops : List Op}
    (hkeys : ∀ op ∈ ops, op.key.val.length = n) :
    Trie.Uniform (nibbleLength opts n) (treeOf hash opts ops) := by
  induction ops using List.reverseRecOn with
  | nil => exact Trie.uniform_empty _
  | append_singleton ops op ih =>
    have hbefore := ih (fun op' hop' => hkeys op' (mem_append.mpr (.inl hop')))
    have hkey := length_keyNibbles_eq hlen opts
      (hkeys op (mem_append.mpr (.inr (mem_singleton_self op))))
    rw [treeOf_concat]
    unfold treeStep
    split
    · exact hbefore.remove (shape_treeOf opts ops) hkey
    · exact hbefore.insert (shape_treeOf opts ops) hkey _

/-- Over keys of one length no key ends at a branch, so every deletion is clean. -/
theorem uniform_steps (opts : MPTOpts) {n : Nat} {ops : List Op}
    (hkeys : ∀ op ∈ ops, op.key.val.length = n) : EachStep ops (fun before op =>
        keyNibbles hash opts op.key = [] → (treeOf hash opts before).isBranch = false) ∧
      RemovesCleanly hash opts ops := by
  have hbefore {before : List Op} {op : Op} (h : before ++ [op] <+: ops) :
      Trie.Uniform (nibbleLength opts n) (treeOf hash opts before) ∧
        (keyNibbles hash opts op.key).length = nibbleLength opts n := by
    have hmem (op' : Op) (hop' : op' ∈ before ++ [op]) := hkeys op' (h.subset hop')
    exact ⟨uniform_treeOf hlen opts (fun op' hop' => hmem op' (mem_append.mpr (.inl hop'))),
      length_keyNibbles_eq hlen opts (hmem op (mem_append.mpr (.inr
        (mem_singleton_self op))))⟩
  refine ⟨fun before op h => ?_, fun before op h _ => ?_⟩
  · exact (hbefore h).1.root (shape_treeOf opts before) (hbefore h).2
  · exact (hbefore h).1.removesCleanly (shape_treeOf opts before) _

/-- One operation on keys of one length keeps a trie with pruning the trie of its tree. -/
theorem good_step_pruned {s s' : MPT} {t : Trie} {opts : MPTOpts}
    {n : Nat} (h : Trie.Good hash s t) (hopts : s._opts = opts) (hu : Trie.Uniform n t) {op : Op}
    (hkey : (keyNibbles hash opts op.key).length = n)
    (halone : match op.value with
      | none => Trie.RemovesAlone hash t (keyNibbles hash opts op.key)
      | some value => lookup t (keyNibbles hash opts op.key) ≠ some value →
        Trie.StoresAlone hash t (keyNibbles hash opts op.key))
    (hrun : s.apply hash op = .ok s') (hinj : Set.InjOn hash (nodeEncodings s'.journal)) :
    Trie.Good hash s' (treeStep hash opts t op) ∧ s'._opts = opts := by
  have hspec := apply_spec hlen h hopts op
  rw [hrun] at hspec
  obtain rfl := Except.ok.inj hspec
  refine ⟨?_, hopts⟩
  subst hopts
  cases hvalue : op.value with
  | none =>
    simp only [hvalue, treeStep] at halone hinj ⊢
    exact h.del_pruned hlen hu hkey halone hinj
  | some value =>
    obtain ⟨hlong, hne⟩ := op.value_bounds hvalue
    simp only [hvalue, treeStep] at halone hinj ⊢
    exact h.put_pruned hlen hu hkey (length_keyNibbles hlen _ op.key) hlong hne halone hinj

/-- A run over keys of one length builds the trie of its tree. -/
theorem run_good_uniform {opts : MPTOpts} {n : Nat}
    {ops : List Op} (hkeys : ∀ op ∈ ops, op.key.val.length = n)
    (halone : opts.useNodePruning = true → PrunesAlone hash opts ops)
    (hinj : Set.InjOn hash (occurring hash opts ops)) :
    ∃ s, run hash opts ops = .ok s ∧ Trie.Good hash s (treeOf hash opts ops) ∧ s._opts = opts := by
  cases hprune : opts.useNodePruning with
  | false =>
    obtain ⟨hroot, hclean⟩ := uniform_steps hlen opts hkeys
    exact run_good hlen hprune hroot hclean hinj
  | true =>
    have halone' := halone hprune
    clear halone
    induction ops using List.reverseRecOn with
    | nil => exact ⟨_, rfl, good_new opts, rfl⟩
    | append_singleton ops op ih =>
      have hbefore : ops <+: ops ++ [op] := prefix_append ops [op]
      have hkeys' (op' : Op) (hop' : op' ∈ ops) := hkeys op' (hbefore.subset hop')
      obtain ⟨s, hrun, hgood, hopts⟩ := ih hkeys' (hinj.mono (occurring_mono hbefore))
        (EachStep.before halone' hbefore)
      obtain ⟨s', happly⟩ : ∃ s', s.apply hash op = .ok s' := ⟨_, apply_spec hlen hgood hopts op⟩
      have hrun' : run hash opts (ops ++ [op]) = .ok s' := by
        rw [run_concat, hrun]
        exact happly
      refine ⟨s', hrun', ?_⟩
      rw [treeOf_concat]
      refine good_step_pruned hlen hgood hopts (uniform_treeOf hlen opts hkeys') ?_
        (EachStep.last halone') happly (hinj.mono ?_)
      · exact length_keyNibbles_eq hlen opts
          (hkeys op (mem_append.mpr (.inr (mem_singleton_self op))))
      · exact fun v hv => ⟨ops ++ [op], s', prefix_refl _, hrun', hv⟩

end

/-! ## With and without pruning -/

def prunedOpts (useKeyHashing : Bool) : MPTOpts := ⟨useKeyHashing, true⟩

def unprunedOpts (useKeyHashing : Bool) : MPTOpts := ⟨useKeyHashing, false⟩

/-- After every operation of a run whose steps prune alone, pruning has lost nothing. -/
theorem run_pruned {useKeyHashing : Bool} (hlen : ∀ m, (hash m).length = 32) {n : Nat} {ops : List Op}
    (hkeys : ∀ op ∈ ops, op.key.val.length = n)
    (halone : PrunesAlone hash (prunedOpts useKeyHashing) ops)
    (hinj : Set.InjOn hash (occurring hash (prunedOpts useKeyHashing) ops))
    (hinj' : Set.InjOn hash (occurring hash (unprunedOpts useKeyHashing) ops)) {before : List Op}
    (hbefore : before <+: ops) : ∃ s s', run hash (prunedOpts useKeyHashing) before = .ok s ∧
      run hash (unprunedOpts useKeyHashing) before = .ok s' ∧ s._root = s'._root ∧
      (∀ key, s.read hash key = s'.read hash key) ∧
      ∃ t, Trie.Holds hash s t ∧ Trie.Holds hash s' t := by
  have hkeys' (op : Op) (hop : op ∈ before) := hkeys op (hbefore.subset hop)
  obtain ⟨s, hrun, hgood, hopts⟩ := run_good_uniform hlen hkeys'
    (fun _ => EachStep.before halone hbefore) (hinj.mono (occurring_mono hbefore))
  have hunpruned : (unprunedOpts useKeyHashing).useNodePruning = true →
      PrunesAlone hash (unprunedOpts useKeyHashing) before := nofun
  obtain ⟨s', hrun', hgood', hopts'⟩ := run_good_uniform hlen hkeys' hunpruned
    (hinj'.mono (occurring_mono hbefore))
  refine ⟨s, s', hrun, hrun', hgood.holds.root.trans hgood'.holds.root.symm, fun key => ?_,
    _, hgood.holds, hgood'.holds⟩
  rw [read_spec hlen hgood, read_spec hlen hgood', hopts, hopts']
  rfl

/-- `n` in 32 bytes. -/
def word (n : Nat) : Bytes := (List.range 32).map (fun i => UInt8.ofNat (n / 256 ^ (31 - i)))

def sharedValue : Bytes := List.replicate 30 1

/-- The hash of the leaf under the second nibble of two keys with the same value. -/
def sharedLeafHash : Bytes :=
  word 0x37843b3518da0d8b6d4ac7b2577f536b18ccd27af9461bdfdb5aa7652b92d191

/-- Keccak-256 on the encodings that occur in the runs below. -/
def sharedLeafTable : Bytes → Bytes := tableHash [
  ([0x80],
    0x56e81f171bcc55a6ff8345e692c0f86e5b48e01b996cadc001622fb5e363b421),
  ([0xe2, 0x82, 0x20, 0x11, 0x9e] ++ sharedValue,
    0x66866d78ea4ddc80f98cadc8914945237a0dd08f0c99984007fdee99b0213265),
  ([0xe0, 0x31, 0x9e] ++ sharedValue,
    0x37843b3518da0d8b6d4ac7b2577f536b18ccd27af9461bdfdb5aa7652b92d191),
  ([0xf8, 0x51, 0x80, 0xa0] ++ sharedLeafHash ++ [0xa0] ++ sharedLeafHash ++ List.replicate 14 0x80,
    0x4d1ff94e138b8630c94e265d9ebcc0624b09c24a4bbc706a50f676d74a1b1eeb),
  ([0xf3, 0x80, 0xc2, 0x31, 0x02, 0xa0] ++ sharedLeafHash ++ List.replicate 14 0x80,
    0x11ff91dc0a120a88766ae7541f546994b5ecde8f019655096f6074f74a069fa2),
  ([0xc2, 0x31, 0x02],
    0x5b447e819ebd004fdc6f6eafd2fc08b17988061bfabd581862fa66a505ee1d7e),
  ([0xc4, 0x82, 0x20, 0x11, 0x02],
    0x72b3839bb62fce65839c2ccb0da696c3e8bd5f86d5d7f9d35ca0651f3c50ed84)]

/-- Two keys with the same value; the second is removed. -/
def sharedThenDeleted : List Op :=
  [.put ⟨[0x11], by decide⟩ ⟨sharedValue, by decide⟩, .put ⟨[0x21], by decide⟩ ⟨sharedValue, by decide⟩,
    .del ⟨[0x21], by decide⟩]

/-- Two keys with the same value; the first gets another one. -/
def sharedThenUpdated : List Op :=
  [.put ⟨[0x11], by decide⟩ ⟨sharedValue, by decide⟩, .put ⟨[0x21], by decide⟩ ⟨sharedValue, by decide⟩,
    .put ⟨[0x11], by decide⟩ ⟨[2], (by decide : 1 < 2 ^ 51)⟩]

theorem run_pruned_sharedThenDeleted :
    ∃ s s', run sharedLeafTable (prunedOpts false) sharedThenDeleted = .ok s ∧
      run sharedLeafTable (unprunedOpts false) sharedThenDeleted = .ok s' ∧ s._root = s'._root ∧
      (∀ key, s.read sharedLeafTable key = s'.read sharedLeafTable key) ∧
      ∃ t, Trie.Holds sharedLeafTable s t ∧ Trie.Holds sharedLeafTable s' t :=
  run_pruned (n := 1) (length_tableHash _) (by decide) (by decide +kernel)
    (injOn_of_collisionFree (by decide +kernel)) (injOn_of_collisionFree (by decide +kernel))
    (prefix_refl _)

/-- Pruning the old leaf of the first key takes the leaf of the second one with it. -/
theorem sharedThenUpdated_not_pruned :
    Set.InjOn sharedLeafTable (occurring sharedLeafTable (prunedOpts false) sharedThenUpdated) ∧
      Set.InjOn sharedLeafTable (occurring sharedLeafTable (unprunedOpts false) sharedThenUpdated) ∧
      ¬ ∃ s s', run sharedLeafTable (prunedOpts false) sharedThenUpdated = .ok s ∧
        run sharedLeafTable (unprunedOpts false) sharedThenUpdated = .ok s' ∧
        ∀ key, s.read sharedLeafTable key = s'.read sharedLeafTable key := by
  refine ⟨injOn_of_collisionFree (by decide +kernel), injOn_of_collisionFree (by decide +kernel), ?_⟩
  rintro ⟨s, s', hrun, hrun', hread⟩
  have hlost : (run sharedLeafTable (prunedOpts false) sharedThenUpdated).map
      (fun s => s.read sharedLeafTable [0x21]) = .ok (.ok none) := by decide +kernel
  have hfound : (run sharedLeafTable (unprunedOpts false) sharedThenUpdated).map
      (fun s => s.read sharedLeafTable [0x21]) = .ok (.ok (some (.bytes sharedValue))) := by
    decide +kernel
  rw [hrun, Except.map, hread] at hlost
  rw [hrun', Except.map, Except.ok.inj hlost] at hfound
  cases hfound

end MPT
