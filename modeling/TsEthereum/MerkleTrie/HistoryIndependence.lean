-- SUMMARY: The root over keys of one length depends on the final map only, is that of the sorted insertion, and settles what is read.
import TsEthereum.MerkleTrie.PruningRuns
import Mathlib.Data.List.Sort

/-!
# History independence

The tree of a run over keys of one length is canonical, so it is determined by the
final map. One of the runs with that map puts its entries in the order of the keys.
-/

open List Function

open Rlp (Item)
open Nibbles

namespace MPT

open PatriciaTree

variable {hash : Bytes → Bytes}

/-! ## The final map as a list of puts -/

/-- The operations whose value is there at the end. -/
def finalPuts (ops : List Op) : List Op :=
  ops.foldl (fun l op => l.filter (fun old => old.key.val ≠ op.key.val) ++
    if op.value = none then [] else [op]) []

/-- The entries of the final map, put in the order of their keys. -/
def sortedPuts (ops : List Op) : List Op :=
  (finalPuts ops).insertionSort (fun a b => a.key.val ≤ b.key.val)

theorem finalPuts_concat (ops : List Op) (op : Op) :
    finalPuts (ops ++ [op]) = (finalPuts ops).filter (fun old => old.key.val ≠ op.key.val) ++
      if op.value = none then [] else [op] := by
  simp only [finalPuts, foldl_append, foldl_cons, foldl_nil]

theorem entries_eq_some_iff (ops : List Op) (key : Bytes) (v : Bytes) :
    entries ops key = some v ↔ ∃ op ∈ finalPuts ops, op.key.val = key ∧ op.value = some v := by
  induction ops using List.reverseRecOn with
  | nil => simp [entries, finalPuts]
  | append_singleton ops op ih =>
    rw [entries_concat, finalPuts_concat, update_apply]
    by_cases hkey : key = op.key.val
    · subst hkey
      rw [if_pos rfl]
      constructor
      · intro hvalue
        refine ⟨op, mem_append.mpr (.inr ?_), rfl, hvalue⟩
        rw [if_neg (by rw [hvalue]; rintro ⟨⟩)]
        exact mem_singleton_self op
      · rintro ⟨old, hold, hsame, hvalue⟩
        rcases mem_append.mp hold with hold | hold
        · exact absurd hsame (by simpa using (mem_filter.mp hold).2)
        · split at hold
          · exact absurd hold not_mem_nil
          · rw [← mem_singleton.mp hold]
            exact hvalue
    · rw [if_neg hkey, ih]
      constructor
      · rintro ⟨old, hold, rfl, hvalue⟩
        refine ⟨old, mem_append.mpr (.inl (mem_filter.mpr ⟨hold, ?_⟩)), rfl, hvalue⟩
        simpa using hkey
      · rintro ⟨old, hold, rfl, hvalue⟩
        rcases mem_append.mp hold with hold | hold
        · exact ⟨old, (mem_filter.mp hold).1, rfl, hvalue⟩
        · split at hold
          · exact absurd hold not_mem_nil
          · exact absurd (by rw [mem_singleton.mp hold]) hkey

theorem finalPuts_sublist (ops : List Op) : (finalPuts ops).Sublist ops := by
  induction ops using List.reverseRecOn with
  | nil => exact .slnil
  | append_singleton ops op ih =>
    rw [finalPuts_concat]
    refine List.Sublist.append (filter_sublist.trans ih) ?_
    split
    · exact nil_sublist _
    · exact List.Sublist.refl _

theorem finalPuts_pairwise (ops : List Op) :
    (finalPuts ops).Pairwise (fun a b => a.key.val ≠ b.key.val) := by
  induction ops using List.reverseRecOn with
  | nil => exact .nil
  | append_singleton ops op ih =>
    rw [finalPuts_concat, pairwise_append]
    refine ⟨ih.filter _, ?_, fun a ha b hb => ?_⟩
    · split
      · exact .nil
      · exact pairwise_singleton _ _
    · split at hb
      · exact absurd hb not_mem_nil
      · rw [mem_singleton.mp hb]
        simpa using (mem_filter.mp ha).2

variable {ops : List Op}

/-- Operations on different keys all count. -/
theorem finalPuts_of_pairwise (h : ops.Pairwise (fun a b => a.key.val ≠ b.key.val))
    (hput : ∀ op ∈ ops, op.value ≠ none) : finalPuts ops = ops := by
  induction ops using List.reverseRecOn with
  | nil => rfl
  | append_singleton ops op ih =>
    obtain ⟨hops, -, hne⟩ := pairwise_append.mp h
    rw [finalPuts_concat, ih hops (fun op' hop' => hput op' (mem_append.mpr (.inl hop'))),
      if_neg (hput op (mem_append.mpr (.inr (mem_singleton_self op)))),
      List.filter_eq_self.mpr (fun a ha => ?_)]
    simpa using hne a ha op (mem_singleton_self op)

theorem sortedPuts_perm (ops : List Op) : (sortedPuts ops).Perm (finalPuts ops) :=
  perm_insertionSort _ _

theorem finalPuts_value {op : Op} (h : op ∈ finalPuts ops) : op.value ≠ none := by
  induction ops using List.reverseRecOn with
  | nil => exact absurd h not_mem_nil
  | append_singleton ops op' ih =>
    rw [finalPuts_concat] at h
    rcases mem_append.mp h with h | h
    · exact ih (mem_filter.mp h).1
    · split at h
      · exact absurd h not_mem_nil
      · rwa [mem_singleton.mp h]

/-- Putting the entries in order makes the same map. -/
theorem entries_sortedPuts (ops : List Op) : entries (sortedPuts ops) = entries ops := by
  have hperm := sortedPuts_perm ops
  have hdistinct : (sortedPuts ops).Pairwise (fun a b => a.key.val ≠ b.key.val) :=
    hperm.symm.pairwise (finalPuts_pairwise ops) (fun h => h.symm)
  have hsame := finalPuts_of_pairwise hdistinct
    (fun op hop => finalPuts_value (hperm.mem_iff.mp hop))
  funext key
  refine Option.ext (fun v => ?_)
  rw [entries_eq_some_iff, entries_eq_some_iff, hsame]
  simp only [hperm.mem_iff]

theorem sortedPuts_subset {op : Op} (h : op ∈ sortedPuts ops) : op ∈ ops :=
  (finalPuts_sublist ops).subset ((sortedPuts_perm ops).mem_iff.mp h)

/-! ## The tree of the final map -/

variable {opts : MPTOpts}

/-- What the tree of a run holds, one of the run's operations has left there. -/
theorem written_of_lookup_treeOf (hkeys : EachStep ops (fun before op =>
      keyNibbles hash opts op.key = [] → (treeOf hash opts before).isBranch = false))
    (hclean : RemovesCleanly hash opts ops) {x : Nibbles} {v : Bytes}
    (hx : lookup (treeOf hash opts ops) x = some v) :
    ∃ op ∈ ops, x = keyNibbles hash opts op.key ∧ op.value = some v := by
  induction ops using List.reverseRecOn with
  | nil => simp [treeOf] at hx
  | append_singleton ops op ih =>
    have hbefore : ops <+: ops ++ [op] := prefix_append ops [op]
    have hrest (h : lookup (treeOf hash opts ops) x = some v) :
        ∃ op' ∈ ops ++ [op], x = keyNibbles hash opts op'.key ∧ op'.value = some v := by
      obtain ⟨op', hop', hwritten⟩ :=
        ih (EachStep.before hkeys hbefore) (EachStep.before hclean hbefore) h
      exact ⟨op', mem_append.mpr (.inl hop'), hwritten⟩
    rw [treeOf_concat] at hx
    unfold treeStep at hx
    cases hvalue : op.value with
    | none =>
      simp only [hvalue] at hx
      rw [Trie.lookup_remove (shape_treeOf opts ops) hkeys.last (hclean.last hvalue)] at hx
      split at hx
      · cases hx
      · exact hrest hx
    | some value =>
      simp only [hvalue] at hx
      rw [Trie.lookup_insert (shape_treeOf opts ops)] at hx
      split at hx
      · rename_i hkey
        rw [← Option.some.inj hx]
        exact ⟨op, mem_append.mpr (.inr (mem_singleton_self op)), hkey, hvalue⟩
      · exact hrest hx

/-- Runs with the same final map build the same tree. -/
theorem treeOf_eq (hlen : ∀ m, (hash m).length = 32) {n : Nat} {ops' : List Op}
    (hkeys : ∀ op ∈ ops ++ ops', op.key.val.length = n)
    (hinj : opts.useKeyHashing = true → Set.InjOn hash {k | ∃ op ∈ ops ++ ops', op.key.val = k})
    (hsame : entries ops = entries ops') : treeOf hash opts ops = treeOf hash opts ops' := by
  -- what one tree holds the other holds, whichever it is
  have hle {as bs : List Op} (has : as ⊆ ops ++ ops') (hbs : bs ⊆ ops ++ ops')
      (heq : entries as = entries bs) {x : Nibbles} {v : Bytes}
      (hx : lookup (treeOf hash opts as) x = some v) : lookup (treeOf hash opts bs) x = some v := by
    obtain ⟨hroot, hclean⟩ := uniform_steps hlen opts (fun op hop => hkeys op (has hop))
    obtain ⟨hroot', hclean'⟩ := uniform_steps hlen opts (fun op hop => hkeys op (hbs hop))
    obtain ⟨op, hop, rfl, -⟩ := written_of_lookup_treeOf hroot hclean hx
    have hkey {cs : List Op} (hcs : cs ⊆ ops ++ ops') : ∀ op' ∈ cs,
        keyNibbles hash opts op'.key = keyNibbles hash opts op.key → op'.key.val = op.key.val := by
      refine keyNibbles_inj (fun hhash => (hinj hhash).mono ?_)
      rintro k (rfl | ⟨op', hop', rfl⟩)
      · exact ⟨op, has hop, rfl⟩
      · exact ⟨op', hcs hop', rfl⟩
    rw [lookup_treeOf hroot hclean (hkey has)] at hx
    rw [lookup_treeOf hroot' hclean' (hkey hbs), ← heq, hx]
  have hlookup (x : Nibbles) : lookup (treeOf hash opts ops) x = lookup (treeOf hash opts ops') x :=
    Option.ext (fun v => ⟨hle (subset_append_left _ _) (subset_append_right _ _) hsame,
      hle (subset_append_right _ _) (subset_append_left _ _) hsame.symm⟩)
  have hu := uniform_treeOf hlen opts (fun op hop => hkeys op (mem_append.mpr (.inl hop)))
  have hu' := uniform_treeOf hlen opts (fun op hop => hkeys op (mem_append.mpr (.inr hop)))
  have hshape (ops : List Op) : treeOf hash opts ops = .empty ∨ WF (treeOf hash opts ops) :=
    shape_treeOf opts ops
  rcases hshape ops with hempty | hwf
  · rcases hshape ops' with hempty' | hwf'
    · rw [hempty, hempty']
    · obtain ⟨k, v, hk⟩ := hwf'.exists_key
      rw [← hlookup, hempty, lookup_empty] at hk
      cases hk
  · rcases hshape ops' with hempty' | hwf'
    · obtain ⟨k, v, hk⟩ := hwf.exists_key
      rw [hlookup, hempty', lookup_empty] at hk
      cases hk
    · exact eq_of_lookup_eq hwf hu.noValues hwf' hu'.noValues hlookup

/-- Without entries the tree is empty. -/
theorem treeOf_eq_empty (hlen : ∀ m, (hash m).length = 32) {n : Nat}
    (hkeys : ∀ op ∈ ops, op.key.val.length = n)
    (hinj : opts.useKeyHashing = true → Set.InjOn hash {k | ∃ op ∈ ops, op.key.val = k})
    (hempty : ∀ key, entries ops key = none) : treeOf hash opts ops = .empty := by
  have hsame : entries ops = entries [] := funext hempty
  have htree : treeOf hash opts ops = treeOf hash opts [] :=
    treeOf_eq hlen (by simpa using hkeys) (by simpa using hinj) hsame
  exact htree

/-- Runs with the same final map over keys of one length, whose steps prune alone if they prune,
end with the same root, as does putting the entries in order. -/
theorem run_history {opts : MPTOpts} (hlen : ∀ m, (hash m).length = 32) {n : Nat}
    {ops ops' : List Op} (hkeys : ∀ op ∈ ops ++ ops', op.key.val.length = n)
    (halone : opts.useNodePruning = true →
      PrunesAlone hash opts ops ∧ PrunesAlone hash opts ops' ∧ PrunesAlone hash opts (sortedPuts ops))
    (hinj : Set.InjOn hash (occurring hash opts ops)) (hinj' : Set.InjOn hash (occurring hash opts ops'))
    (hinjSorted : Set.InjOn hash (occurring hash opts (sortedPuts ops)))
    (hkey : opts.useKeyHashing = true → Set.InjOn hash {k | ∃ op ∈ ops ++ ops', op.key.val = k})
    (hsame : entries ops = entries ops') :
    ∃ s s' sorted, run hash opts ops = .ok s ∧ run hash opts ops' = .ok s' ∧
      run hash opts (sortedPuts ops) = .ok sorted ∧ s._root = s'._root ∧ s._root = sorted._root ∧
      ((∀ key, entries ops key = none) → s._root = EMPTY_TRIE_ROOT hash) ∧
      ∃ t, Trie.Holds hash s t ∧ (t = .empty ∨ WF t) ∧ NoValues t := by
  have hkeysOps (op : Op) (hop : op ∈ ops) := hkeys op (mem_append.mpr (.inl hop))
  have hkeysSorted (op : Op) (hop : op ∈ ops ++ sortedPuts ops) : op.key.val.length = n := by
    rcases mem_append.mp hop with hop | hop
    · exact hkeysOps op hop
    · exact hkeysOps op (sortedPuts_subset hop)
  obtain ⟨s, hrun, hgood, -⟩ := run_good_uniform hlen hkeysOps (fun h => (halone h).1) hinj
  obtain ⟨s', hrun', hgood', -⟩ := run_good_uniform hlen
    (fun op hop => hkeys op (mem_append.mpr (.inr hop))) (fun h => (halone h).2.1) hinj'
  obtain ⟨sorted, hrunSorted, hgoodSorted, -⟩ := run_good_uniform hlen
    (fun op hop => hkeysSorted op (mem_append.mpr (.inr hop))) (fun h => (halone h).2.2)
    hinjSorted
  have htree := treeOf_eq hlen hkeys hkey hsame
  have htreeSorted : treeOf hash opts ops = treeOf hash opts (sortedPuts ops) := by
    refine treeOf_eq hlen hkeysSorted (fun h => (hkey h).mono ?_) (entries_sortedPuts ops).symm
    rintro k ⟨op, hop, rfl⟩
    refine ⟨op, mem_append.mpr (.inl ?_), rfl⟩
    rcases mem_append.mp hop with hop | hop
    · exact hop
    · exact sortedPuts_subset hop
  refine ⟨s, s', sorted, hrun, hrun', hrunSorted, ?_, ?_, fun hempty => ?_, _, hgood.holds,
    hgood.tidy.shape, (uniform_treeOf hlen opts hkeysOps).noValues⟩
  · rw [hgood.holds.root, hgood'.holds.root, htree]
  · rw [hgood.holds.root, hgoodSorted.holds.root, htreeSorted]
  · rw [hgood.holds.root, treeOf_eq_empty hlen hkeysOps (fun h => (hkey h).mono (by
      rintro k ⟨op, hop, rfl⟩
      exact ⟨op, mem_append.mpr (.inl hop), rfl⟩)) hempty]
    rfl

/-- What is left of two keys with the same value after one of them has been removed. -/
def sharedLeft : List Op := sharedThenDeleted.take 1

theorem entries_sharedThenDeleted : entries sharedThenDeleted = entries sharedLeft := by
  funext key
  simp only [entries, sharedThenDeleted, sharedLeft, take_succ_cons, take_zero, foldl_cons, foldl_nil, Op.key, Op.value,
    update_apply]
  split
  · rename_i hkey
    rw [hkey]
    rfl
  · rfl

theorem run_history_sharedThenDeleted :
    ∃ s s' sorted, run sharedLeafTable (prunedOpts false) sharedThenDeleted = .ok s ∧
      run sharedLeafTable (prunedOpts false) sharedLeft = .ok s' ∧
      run sharedLeafTable (prunedOpts false) (sortedPuts sharedThenDeleted) = .ok sorted ∧
      s._root = s'._root ∧ s._root = sorted._root ∧
      ((∀ key, entries sharedThenDeleted key = none) → s._root = EMPTY_TRIE_ROOT sharedLeafTable) ∧
      ∃ t, Trie.Holds sharedLeafTable s t ∧ (t = .empty ∨ WF t) ∧ NoValues t :=
  run_history (n := 1) (length_tableHash _) (by decide)
    (fun _ => ⟨by decide +kernel, by decide +kernel, by decide +kernel⟩)
    (injOn_of_collisionFree (by decide +kernel)) (injOn_of_collisionFree (by decide +kernel))
    (injOn_of_collisionFree (by decide +kernel)) nofun entries_sharedThenDeleted

/-- Two keys with the same value; the first gets another one and the second is removed. -/
def sharedThenSeparated : List Op := sharedThenUpdated ++ sharedThenDeleted.drop 2

def separated : List Op := sharedThenUpdated.drop 2

theorem entries_sharedThenSeparated : entries sharedThenSeparated = entries separated := by
  funext key
  simp only [entries, sharedThenSeparated, sharedThenUpdated, sharedThenDeleted, separated, drop_succ_cons, drop_zero, cons_append,
    nil_append, foldl_cons, foldl_nil, Op.key, Op.value, update_apply]
  split
  · rename_i hkey
    rw [hkey]
    rfl
  · split
    · rfl
    · rfl

/-- With pruning the second key cannot be removed, because its leaf is gone. -/
theorem sharedThenSeparated_not_history :
    Set.InjOn sharedLeafTable (occurring sharedLeafTable (prunedOpts false) sharedThenSeparated) ∧
      Set.InjOn sharedLeafTable (occurring sharedLeafTable (prunedOpts false) separated) ∧
      entries sharedThenSeparated = entries separated ∧
      ¬ ∃ s s', run sharedLeafTable (prunedOpts false) sharedThenSeparated = .ok s ∧
        run sharedLeafTable (prunedOpts false) separated = .ok s' ∧ s._root = s'._root := by
  refine ⟨injOn_of_collisionFree (by decide +kernel), injOn_of_collisionFree (by decide +kernel),
    entries_sharedThenSeparated, ?_⟩
  rintro ⟨s, s', hrun, hrun', hroot⟩
  have hbranch : (run sharedLeafTable (prunedOpts false) sharedThenSeparated).map MPT._root =
      .ok (word 0x11ff91dc0a120a88766ae7541f546994b5ecde8f019655096f6074f74a069fa2) := by
    decide +kernel
  have hleaf : (run sharedLeafTable (prunedOpts false) separated).map MPT._root =
      .ok (word 0x72b3839bb62fce65839c2ccb0da696c3e8bd5f86d5d7f9d35ca0651f3c50ed84) := by
    decide +kernel
  rw [hrun, Except.map, hroot] at hbranch
  rw [hrun', Except.map, Except.ok.inj hbranch] at hleaf
  exact absurd (Except.ok.inj hleaf) (by decide +kernel)

/-- The encodings of the nodes of the last tree occurred. -/
theorem enc_mem_occurring {opts : MPTOpts} {ops : List Op} {s : MPT}
    (hrun : run hash opts ops = .ok s) (hgood : Trie.Good hash s (treeOf hash opts ops)) (y : Trie)
    (hy : Sub y (treeOf hash opts ops)) (hnode : Trie.isNode y = true) :
    Trie.enc hash y ∈ occurring hash opts ops :=
  ⟨ops, s, prefix_refl ops, hrun,
    Trie.enc_mem_of_puts (fun _ hz hznode hlong => hgood.put_mem hz hznode hlong) hy hnode⟩

/-- Tries whose roots are the same after runs over keys of fixed lengths answer alike. -/
theorem get_eq_of_root_eq {opts : MPTOpts} (hlen : ∀ m, (hash m).length = 32) {n m : Nat}
    {ops ops' : List Op} (hkeys : ∀ op ∈ ops, op.key.val.length = n)
    (hkeys' : ∀ op ∈ ops', op.key.val.length = m)
    (halone : opts.useNodePruning = true → PrunesAlone hash opts ops ∧ PrunesAlone hash opts ops')
    (hinj : Set.InjOn hash (occurring hash opts ops ∪ occurring hash opts ops')) :
    ∃ s s', run hash opts ops = .ok s ∧ run hash opts ops' = .ok s' ∧ (s._root = s'._root →
      ∀ key fuel, 2 * (s.appliedKey hash key).length < fuel →
        s.get hash fuel key false = s'.get hash fuel key false) := by
  obtain ⟨s, hrun, hgood, hopts⟩ := run_good_uniform hlen hkeys (fun h => (halone h).1)
    (hinj.mono Set.subset_union_left)
  obtain ⟨s', hrun', hgood', hopts'⟩ := run_good_uniform hlen hkeys' (fun h => (halone h).2)
    (hinj.mono Set.subset_union_right)
  refine ⟨s, s', hrun, hrun', fun hsame key fuel hfuel => ?_⟩
  have htree : treeOf hash opts ops = treeOf hash opts ops' := by
    rcases hgood.tidy.shape with hempty | hwf
    · refine hempty.trans (hgood'.tidy.shape.resolve_right fun hwf' => ?_).symm
      exact hgood'.root_ne hwf' (hsame.symm.trans (hempty ▸ hgood).root_eq)
    have hwf' := hgood'.tidy.shape.resolve_left fun hempty' =>
      hgood.root_ne hwf (hsame.trans (hempty' ▸ hgood').root_eq)
    have hnode := Trie.isNode_of_wf hwf
    have hnode' := Trie.isNode_of_wf hwf'
    by_contra hne
    refine Trie.enc_ne_of_ne hlen hinj hwf hwf' (uniform_treeOf hlen opts hkeys)
      (uniform_treeOf hlen opts hkeys') hgood'.tidy.bounded (.refl _) (.refl _) hnode' hnode
      (fun y hy hynode => .inl (enc_mem_occurring hrun hgood y hy hynode))
      (fun y hy hynode => .inr (enc_mem_occurring hrun' hgood' y hy hynode)) (Ne.symm hne) ?_
    have hroot := hgood.holds.root.trans (Trie.rootHash_of_isNode hnode)
    have hroot' := hgood'.holds.root.trans (Trie.rootHash_of_isNode hnode')
    rw [← hroot, ← hroot', hsame]
  have happlied : s'.appliedKey hash key = s.appliedKey hash key := by
    simp only [appliedKey, hopts, hopts']
  rw [hgood.get_spec hlen hfuel, hgood'.get_spec hlen (happlied ▸ hfuel), happlied, htree]

theorem get_eq_of_root_eq_sharedThenDeleted :
    ∃ s s', run sharedLeafTable (prunedOpts false) sharedThenDeleted = .ok s ∧
      run sharedLeafTable (prunedOpts false) sharedLeft = .ok s' ∧ (s._root = s'._root →
        ∀ key fuel, 2 * (s.appliedKey sharedLeafTable key).length < fuel →
          s.get sharedLeafTable fuel key false = s'.get sharedLeafTable fuel key false) := by
  have hinj : Set.InjOn sharedLeafTable
      (occurring sharedLeafTable (prunedOpts false) sharedThenDeleted) :=
    injOn_of_collisionFree (by decide +kernel)
  exact get_eq_of_root_eq (n := 1) (length_tableHash _) (by decide) (m := 1) (by decide)
    (fun _ => ⟨by decide +kernel, by decide +kernel⟩)
    (hinj.mono (Set.union_subset subset_rfl (occurring_mono ⟨_, take_append_drop 1 _⟩)))

end MPT
