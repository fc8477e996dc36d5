-- SUMMARY: One call of put on a tree that stores a trie, case by case, and what every call does.
import TsEthereum.StateManager.BinaryTree.Writes

/-!
# One put

A call finds its stem node, or makes a new one, and writes its values. A stem that is not
in the tree and gets no value changes nothing. Otherwise the tree is rebuilt over the stem
node, which needs that the node has a value or stands alone.
-/

open List

namespace StateManager.BinaryTree

open BinaryNode SplitTrie StemBinaryNode

/-- The stem node that a call finds in the trie, or makes. -/
def IsOld (t : Trie) (stem : Bytes) (old : StemBinaryNode) : Prop :=
  (old ∈ t.leaves ∧ old.stem = stem) ∨
    ((∀ x ∈ t.leaves, x.stem ≠ stem) ∧ old = StemBinaryNode.create stem)

theorem IsOld.stem_eq {t : Trie} {stem : Bytes} {old : StemBinaryNode} (h : IsOld t stem old) :
    old.stem = stem := by
  rcases h with h | h
  · exact h.2
  · exact h.2 ▸ rfl

variable {hashFunction : Bytes → Bytes} {occurring : List Bytes}

/-- The updated nodes of a call, from the steps that compute them. -/
theorem updatedNodes_eq {fuel : Nat} {b : BinaryTree} {op : PutCall} (hop : op.Valid)
    {a : StemBinaryNode} {path : Path} (hpath : findPath fuel b op.stem = .ok path)
    (hstack : path.stack ≠ []) (ha : written (stemNodeOf path.node op.stem) op = a)
    {child : Option BinaryNode} (hchild : (HasValue a ∧ child = some (.stem a)) ∨
      (¬ HasValue a ∧ path.node ≠ none ∧ child = none)) {key : Bytes}
    (hkey : merkelize hashFunction (.stem a) = .ok key) {rootNode : BinaryNode} {putStack : PutStack}
    (htree : updateTree hashFunction a path.stack [(key, child)] = .ok (rootNode, putStack))
    {root : Bytes} (hroot : merkelize hashFunction rootNode = .ok root) :
    updatedNodes hashFunction fuel b op.stem op.suffixes op.values =
      .ok (some (root, (root, some rootNode) :: putStack)) := by
  have hdeleted := all_none_iff a
  simp only [updatedNodes, hpath, if_neg hstack, hop.setValues_eq, ha, hkey, bind, Except.bind]
  rcases hchild with ⟨hvalue, rfl⟩ | ⟨hnone, hfound, rfl⟩
  · have hall : ¬ (a.values.all (· == none)) = true := fun h => hdeleted.mp h hvalue
    rw [if_neg (fun h => hall h.1), if_neg hall, htree]
    simp only [hroot]
    rfl
  · have hall := hdeleted.mpr hnone
    rw [if_neg (fun h => hfound h.2), if_pos hall, htree]
    simp only [hroot]
    rfl

theorem put_eq {fuel : Nat} {b : BinaryTree} (hroot : b._root ≠ EMPTY_TREE_ROOT) {op : PutCall}
    (hop : op.Valid) {root : Bytes} {putStack : PutStack} (hlength : root.length = 32)
    (h : updatedNodes hashFunction fuel b op.stem op.suffixes op.values = .ok (some (root, putStack))) :
    put hashFunction fuel b op.stem op.suffixes op.values =
      .ok (saveStack { b with _root := root } putStack) := by
  have hstem : ¬ op.stem.length ≠ 31 := fun hne => hne hop.stem
  have hvalues : ¬(op.values.length > 0 ∧ op.values.length ≠ op.suffixes.length) :=
    fun hne => hne.2 hop.length
  have h32 : ¬ root.length ≠ 32 := fun hne => hne hlength
  simp only [put, if_neg hstem, if_neg hvalues, if_neg hroot, h, bind, Except.bind, setRoot,
    if_neg h32]
  rfl

/-- The removal of a node does not matter where it is stored again. -/
theorem get_saveStack_twice (b : BinaryTree) (key : Bytes) (node : BinaryNode)
    (child : Option BinaryNode) (k : Bytes) :
    (saveStack b [(key, some node), (key, child)])._db.get k =
      (b._db.batch [.put key node.serialize]).get k := by
  cases child <;> simp [saveStack, BatchDBOp.key] <;> split <;> simp_all [BatchDBOp.value]

section Put

variable (hlen : ∀ msg, (hashFunction msg).length = 32) (hno : NoCollision hashFunction occurring)
  {fuel : Nat} {b : BinaryTree} {op : PutCall} (hop : op.Valid) {old : StemBinaryNode}

include hlen hno hop

/-- What a call does that changes the trie. -/
def Writes (hashFunction : Bytes → Bytes) (fuel : Nat) (b : BinaryTree) (op : PutCall) (t : Trie)
    (a : StemBinaryNode) : Prop :=
  ∃ t' new b', Built t a t' new ∧
    put hashFunction fuel b op.stem op.suffixes op.values = .ok b' ∧
    b'._root = digest hashFunction t' ∧
    (∀ k, b'._db.get k = (b._db.batch (saved hashFunction new)).get k) ∧
    ∀ x ∈ new, nodeOf hashFunction x.1 x.2 ∈ putNodes hashFunction fuel b op

omit hlen hno in
/-- A call whose updated nodes are those of a built trie writes it. -/
theorem writes_of_entries {t t' : Trie} {a : StemBinaryNode} {new : List (Bits × Trie)}
    (hbuilt : Built t a t' new) (hroot : b._root ≠ EMPTY_TREE_ROOT)
    (hlength : (digest hashFunction t').length = 32)
    (h : updatedNodes hashFunction fuel b op.stem op.suffixes op.values =
      .ok (some (digest hashFunction t', (new.map (entry hashFunction)).reverse))) :
    Writes hashFunction fuel b op t a := by
  refine ⟨t', new, _, hbuilt, put_eq hroot hop hlength h, rfl, fun k => ?_, fun x hx => ?_⟩
  · rw [saveStack_entries]
  · simp only [putNodes, if_neg hroot, h]
    refine mem_filterMap.mpr ⟨entry hashFunction x, ?_, rfl⟩
    exact mem_reverse.mpr (mem_map.mpr ⟨x, hx, rfl⟩)

omit hno in
/-- The first call on an empty tree stores its stem node. -/
theorem writes_empty (h : Represents hashFunction occurring b .empty)
    (hold : old = create op.stem) :
    Writes hashFunction fuel b op .empty (written old op) := by
  have hroot : b._root = EMPTY_TREE_ROOT := h.root
  have hfits := hop.stemFits_written (stemFits_create hop.stem)
  rw [← hold] at hfits
  have hset := hop.setValues_eq (create op.stem)
  rw [← hold] at hset
  have hbuilt := built_leaf (c := []) (f := .empty) hfits h.fits (fun _ hx => nomatch hx)
    nil_prefix (fun _ hx => nomatch hx) (Nat.zero_le 1)
  have hstem : ¬ op.stem.length ≠ 31 := fun hne => hne hop.stem
  have hvalues : ¬(op.values.length > 0 ∧ op.values.length ≠ op.suffixes.length) :=
    fun hne => hne.2 hop.length
  have h32 : ¬ (digest hashFunction (.leaf (written old op))).length ≠ 32 :=
    fun hne => hne (length_digest hlen _)
  refine ⟨_, _, ⟨digest hashFunction (.leaf (written old op)), b._db.batch (saved hashFunction
    [([], .leaf (written old op))])⟩, hbuilt, ?_, rfl, fun k => rfl, fun x hx => ?_⟩
  · simp only [put, if_neg hstem, if_neg hvalues, if_pos hroot, _createInitialNode, ← hold, hset,
      merkelize_stem hlen hfits, setRoot, bind, Except.bind, if_neg h32]
    rfl
  · rw [mem_singleton.mp hx]
    simp only [putNodes, if_pos hroot, ← hold, hset]
    exact mem_singleton_self _

/-- A call for the stem of the only stem node. -/
theorem writes_root_same {a0 : StemBinaryNode} (h : Represents hashFunction occurring b (.leaf a0))
    (hstem : a0.stem = op.stem) : Writes hashFunction fuel b op (.leaf a0) (written a0 op) := by
  have hroot := h.root_ne hlen hno (by rintro ⟨⟩)
  have hfits := hop.stemFits_written h.occurs.1
  have hkey := merkelize_stem hlen hfits
  have hpath := findPath_leaf hlen hno fuel h op.stem
  rw [if_pos hstem.symm] at hpath
  have hnode : stemNodeOf (some (.stem a0)) op.stem = a0 := if_pos hstem
  have hwritten : (written a0 op).stem = a0.stem := written_stem a0 op
  have hbuilt := built_leaf (c := []) (f := .leaf a0) hfits h.fits (by rintro _ ⟨⟩)
    nil_prefix (fun x hx => mem_singleton.mp hx ▸ hwritten.symm) (Nat.le_refl 1)
  have hsame : ¬ a0.stem ≠ (written a0 op).stem := fun hne => hne hwritten.symm
  have htree : ∀ child, updateTree hashFunction (written a0 op) [(.stem a0, [])]
      [(digest hashFunction (.leaf (written a0 op)), child)] =
        .ok (.stem (written a0 op), [(digest hashFunction (.leaf (written a0 op)), child)]) := by
    intro child
    simp only [updateTree, connectStem, updateParents, updateRoot, if_neg hsame, bind, Except.bind, pure,
      Except.pure]
  obtain ⟨child, hchild⟩ : ∃ child : Option BinaryNode,
      (HasValue (written a0 op) ∧ child = some (.stem (written a0 op))) ∨
      (¬ HasValue (written a0 op) ∧ some (BinaryNode.stem a0) ≠ none ∧ child = none) := by
    rcases Classical.em (HasValue (written a0 op)) with hvalue | hnone
    · exact ⟨_, .inl ⟨hvalue, rfl⟩⟩
    · exact ⟨_, .inr ⟨hnone, by rintro ⟨⟩, rfl⟩⟩
  have hupdated := updatedNodes_eq hop hpath (cons_ne_nil _ _) (congrArg (written · op) hnode)
    hchild hkey (htree child) hkey
  refine ⟨_, _, _, hbuilt, put_eq hroot hop (length_digest hlen _) hupdated, rfl, fun k => ?_,
    fun x hx => ?_⟩
  · exact get_saveStack_twice _ _ _ child k
  · rw [mem_singleton.mp hx]
    simp only [putNodes, if_neg hroot, hupdated]
    exact mem_filterMap.mpr ⟨_, mem_cons_self, rfl⟩

omit hlen hno in
/-- A call that changes no trie. -/
theorem put_absent {a0 : StemBinaryNode} {path : Path} (hroot : b._root ≠ EMPTY_TREE_ROOT)
    (hpath : findPath fuel b op.stem = .ok path) (hstack : path.stack ≠ []) (hnode : path.node = none)
    (hold : a0 = create op.stem) (hnone : ¬ HasValue (written a0 op)) :
    put hashFunction fuel b op.stem op.suffixes op.values = .ok b := by
  have hstem : ¬ op.stem.length ≠ 31 := fun hne => hne hop.stem
  have hvalues : ¬(op.values.length > 0 ∧ op.values.length ≠ op.suffixes.length) :=
    fun hne => hne.2 hop.length
  have hupdated : updatedNodes hashFunction fuel b op.stem op.suffixes op.values = .ok none := by
    have hset := hop.setValues_eq (stemNodeOf path.node op.stem)
    have ha0 : stemNodeOf path.node op.stem = a0 := by rw [hnode, hold]; rfl
    rw [ha0] at hset
    have hall := (all_none_iff _).mpr hnone
    simp only [updatedNodes, hpath, if_neg hstack, ha0, hset, bind, Except.bind,
      if_pos (And.intro hall hnode)]
    rfl
  simp only [put, if_neg hstem, if_neg hvalues, if_neg hroot, hupdated, bind, Except.bind]
  rfl

/-- A call for another stem than that of the only stem node splits the root. -/
theorem writes_root_split {a0 : StemBinaryNode} (h : Represents hashFunction occurring b (.leaf a0))
    (hstem : a0.stem ≠ op.stem) (hold : old = create op.stem)
    (hvalue : HasValue (written old op)) :
    Writes hashFunction fuel b op (.leaf a0) (written old op) := by
  have hroot := h.root_ne hlen hno nofun
  have hfits := hop.stemFits_written (stemFits_create hop.stem)
  rw [← hold] at hfits
  have hkey := merkelize_stem hlen hfits
  have hpath := findPath_leaf hlen hno fuel h op.stem
  rw [if_neg (Ne.symm hstem)] at hpath
  have hwritten : (written old op).stem = op.stem := by rw [written_stem, hold]; rfl
  have hne : a0.stem ≠ (written old op).stem := fun heq => hstem (heq.trans hwritten)
  have hbits : stemBits a0 ≠ stemBits (written old op) := fun heq =>
    hne (bytesToBits_inj (h.occurs.1.1.trans hfits.1.symm) heq)
  obtain ⟨l, bit, hlength, hbit0, hbit⟩ := matchingBitsLength_diverge (p := [])
    ((length_stemBits h.occurs.1).trans (length_stemBits hfits).symm) hbits nil_prefix
    nil_prefix
  have hbit0' : [] ++ l ++ [!(!bit)] <+: stemBits a0 := by rw [Bool.not_not]; exact hbit0
  obtain ⟨putStack, htree, hentries⟩ := updateTree_root hlen hfits h.occurs.1 hbit hbit0' rfl hne hlength
  have hbuilt := built_split (c := []) hfits h.fits (fun _ hx => nomatch hx) rfl hne hbit hbit0'
  have hnode := isNode_plug (isNode_branch (!bit) (.leaf (written old op)) (.leaf a0)) (Context.chain l)
  have hupdated := updatedNodes_eq hop hpath (cons_ne_nil _ _) (congrArg (written · op) hold.symm)
    (.inl ⟨hvalue, rfl⟩) hkey htree (merkelize_isNode hlen hnode)
  rw [append_nil] at hbuilt
  apply writes_of_entries hop hbuilt hroot (length_digest hlen _)
  rw [hupdated]
  refine congrArg (fun l => Except.ok (some (_, l))) (hentries.trans ?_)
  simp only [map_cons, reverse_cons]
  rfl

omit hno in
/-- A call that leaves a value in the stem node at the end of its walk. -/
theorem writes_leaf {a : StemBinaryNode} (ha : StemFits a) (hvalue : HasValue a)
    {c : Context StemBinaryNode} {f : Trie} (hne : c ≠ [])
    (hfits : (plug f c).Fits stemBits STEM_BITS []) (hbeside : ∀ x ∈ c.leaves, x.stem ≠ a.stem)
    (hpre : c.bits <+: stemBits a) (hf : ∀ x ∈ f.leaves, x.stem = a.stem) (hle : f.leaves.length ≤ 1)
    (hroot : b._root ≠ EMPTY_TREE_ROOT) {path : Path} (hpath : findPath fuel b op.stem = .ok path)
    (hstack : path.stack = stackOf hashFunction (upward [] c f))
    (hnode : written (stemNodeOf path.node op.stem) op = a) :
    Writes hashFunction fuel b op (plug f c) a := by
  obtain ⟨putStack, htree, hentries⟩ := updateTree_leaf hlen ha hne hpre f
  have hnonempty : path.stack ≠ [] := by
    obtain ⟨side, rest, rfl⟩ := exists_cons_of_ne_nil hne
    rw [hstack]
    exact cons_ne_nil _ _
  have hbuilt := built_leaf ha hfits hbeside hpre hf hle
  have hisNode : IsNode (plug (.leaf a) c) := by
    obtain ⟨⟨bit, s⟩, rest, rfl⟩ := exists_cons_of_ne_nil hne
    exact isNode_plug (isNode_branch bit (.leaf a) s) rest
  have hupdated := updatedNodes_eq hop hpath hnonempty hnode (.inl ⟨hvalue, rfl⟩)
    (merkelize_stem hlen ha) (hstack ▸ htree) (merkelize_isNode hlen hisNode)
  apply writes_of_entries hop hbuilt hroot (length_digest hlen _)
  rw [hupdated]
  refine congrArg (fun l => Except.ok (some (_, l))) (hentries.trans ?_)
  simp only [map_cons, reverse_cons]

variable (hfuel : STEM_BITS ≤ fuel)
include hfuel

/-- A call that leaves a value, in a tree with an internal root. -/
theorem writes_node {left right : Trie} (h : Represents hashFunction occurring b (.node left right))
    (hold : IsOld (.node left right) op.stem old) (hvalue : HasValue (written old op)) :
    Writes hashFunction fuel b op (.node left right) (written old op) := by
  have hroot := h.root_ne hlen hno (by rintro ⟨⟩)
  have hfits : StemFits (written old op) := by
    rcases hold with hold | hold
    · exact hop.stemFits_written (h.occurs.stemFits old hold.1)
    · exact hop.stemFits_written (hold.2 ▸ stemFits_create hop.stem)
  have hkey := merkelize_stem hlen hfits
  have hwritten : (written old op).stem = op.stem := (written_stem old op).trans hold.stem_eq
  have hbits : stemBits (written old op) = bytesToBits op.stem none := by rw [stemBits, hwritten]
  obtain ⟨remaining, hpath⟩ := findPath_node hlen hno hfuel h hop.stem
  generalize hwalk : descend (bytesToBits op.stem none) (.node left right) [] = walk at hpath
  obtain ⟨c, f⟩ := walk
  obtain ⟨hplug, hpre, hnode, hbeside⟩ := h.walk hop.stem hwalk
  have hne : c ≠ [] := by
    rintro rfl
    exact hnode left right hplug
  rw [← hbits] at hpre hpath
  rw [← hwritten] at hbeside
  have hfitsf : (plug f c).Fits stemBits STEM_BITS [] := hplug ▸ h.fits
  have hleaves : (SplitTrie.node left right).leaves.Perm (f.leaves ++ c.leaves) := hplug ▸ leaves_plug f c
  have hmem : ∀ x, x ∈ (SplitTrie.node left right).leaves → x.stem = op.stem → x ∈ f.leaves := by
    intro x hx hstem
    refine (mem_append.mp (hleaves.mem_iff.mp hx)).resolve_right fun hc => ?_
    exact hbeside x hc (hstem.trans hwritten.symm)
  have hcreate : (∀ x ∈ f.leaves, x.stem ≠ op.stem) → old = create op.stem := by
    intro hf
    rcases hold with hold | hold
    · exact absurd hold.2 (hf old (hmem old hold.1 hold.2))
    · exact hold.2
  rw [← hplug]
  cases f with
  | node l r => exact absurd rfl (hnode l r)
  | empty =>
    have hold := hcreate (by rintro _ ⟨⟩)
    exact writes_leaf hlen hop hfits hvalue hne hfitsf hbeside hpre (by rintro _ ⟨⟩)
      (Nat.zero_le 1) hroot hpath rfl (congrArg (written · op) hold.symm)
  | leaf a0 =>
    have ha0 : a0 ∈ (SplitTrie.node left right).leaves := hleaves.mem_iff.mpr mem_cons_self
    have hfits0 := h.occurs.stemFits a0 ha0
    have hiff := stemBits_eq_iff hfits0 hop.stem
    rcases Classical.em (a0.stem = op.stem) with hstem | hstem
    · -- The stem node was found.
      obtain rfl : old = a0 := by
        rcases hold with hold | hold
        · exact mem_singleton.mp (hmem old hold.1 hold.2)
        · exact absurd hstem (hold.1 a0 ha0)
      rw [hbits] at hpath
      simp only [endOfPath, if_pos (hiff.mpr hstem)] at hpath
      exact writes_leaf hlen hop hfits hvalue hne hfitsf hbeside hpre
        (fun x hx => (congrArg StemBinaryNode.stem (mem_singleton.mp hx)).trans
          (hstem.trans hwritten.symm)) (Nat.le_refl 1) hroot hpath rfl
        (congrArg (written · op) (if_pos hstem))
    · -- Another stem node stands where the walk ends.
      have hold := hcreate fun x hx => mem_singleton.mp hx ▸ hstem
      have hdiff : stemBits (written old op) ≠ stemBits a0 := fun heq =>
        hstem (hiff.mp (heq.symm.trans hbits))
      have hpre0 : c.bits <+: stemBits a0 := (fits_plug.mp hfitsf).1.1
      obtain ⟨l, bit, hlength, hbit, hbit0⟩ := matchingBitsLength_diverge
        ((length_stemBits hfits).trans (length_stemBits hfits0).symm) hdiff hpre hpre0
      obtain ⟨putStack, htree, hentries⟩ :=
        updateTree_split hlen hfits hfits0 hlength hbit hbit0 hne rfl
      have hbuilt := built_split hfits hfitsf hbeside rfl (fun heq => hstem (heq.trans hwritten)) hbit hbit0
      simp only [endOfPath, if_neg (Ne.symm hdiff)] at hpath
      have hupdated := updatedNodes_eq hop hpath (cons_ne_nil _ _)
        (congrArg (written · op) hold.symm) (.inl ⟨hvalue, rfl⟩) hkey htree
        (merkelize_isNode hlen (isNode_plug (isNode_branch _ _ _) _))
      apply writes_of_entries hop hbuilt hroot (length_digest hlen _)
      rw [hupdated]
      refine congrArg (fun l => Except.ok (some (_, l))) (hentries.trans ?_)
      simp only [map_cons, reverse_cons]
      rfl

/-- A call that leaves a value, or whose stem is the only one in the trie, writes the trie. -/
theorem put_writes {t : Trie} (h : Represents hashFunction occurring b t)
    (hold : IsOld t op.stem old) (hwrite : HasValue (written old op) ∨
      (t.leaves.length ≤ 1 ∧ ∀ x ∈ t.leaves, x.stem = op.stem)) :
    Writes hashFunction fuel b op t (written old op) := by
  cases t with
  | empty =>
    rcases hold with hold | hold
    · exact nomatch hold.1
    · exact writes_empty hlen hop h hold.2
  | leaf a0 =>
    rcases hold with hold | hold
    · obtain rfl : old = a0 := mem_singleton.mp hold.1
      exact writes_root_same hlen hno hop h hold.2
    · have hstem := hold.1 a0 (mem_singleton_self a0)
      refine writes_root_split hlen hno hop h hstem hold.2 (hwrite.resolve_right fun hone => ?_)
      exact hstem (hone.2 a0 (mem_singleton_self a0))
  | node left right =>
    refine writes_node hlen hno hop hfuel h hold (hwrite.resolve_right fun hone => ?_)
    exact absurd (Nat.le_trans h.fits.2.2 (length_append ▸ hone.1)) (by decide)

/-- A call without a value for a stem that is not in a trie does nothing. -/
theorem put_nothing {t : Trie} (h : Represents hashFunction occurring b t)
    (hne : t ≠ .empty) (hold : IsOld t op.stem old) (habsent : ∀ x ∈ t.leaves, x.stem ≠ op.stem)
    (hnone : ¬ HasValue (written old op)) :
    put hashFunction fuel b op.stem op.suffixes op.values = .ok b := by
  have hroot := h.root_ne hlen hno hne
  have hcreate : old = create op.stem := by
    rcases hold with hold | hold
    · exact absurd hold.2 (habsent old hold.1)
    · exact hold.2
  cases t with
  | empty => exact absurd rfl hne
  | leaf a0 =>
    have hpath := findPath_leaf hlen hno fuel h op.stem
    rw [if_neg (Ne.symm (habsent a0 (mem_singleton_self a0)))] at hpath
    exact put_absent hop hroot hpath (cons_ne_nil _ _) rfl hcreate hnone
  | node left right =>
    obtain ⟨remaining, hpath⟩ := findPath_node hlen hno hfuel h hop.stem
    generalize hwalk : descend (bytesToBits op.stem none) (.node left right) [] = walk at hpath
    obtain ⟨c, f⟩ := walk
    obtain ⟨hplug, -, hnode, -⟩ := h.walk hop.stem hwalk
    have hleaves : (SplitTrie.node left right).leaves.Perm (f.leaves ++ c.leaves) :=
      hplug ▸ leaves_plug f c
    obtain ⟨side, rest, rfl⟩ : ∃ side rest, c = side :: rest := by
      apply exists_cons_of_ne_nil
      rintro rfl
      exact hnode left right hplug
    cases f with
    | node l r => exact absurd rfl (hnode l r)
    | empty => exact put_absent hop hroot hpath (cons_ne_nil _ _) rfl hcreate hnone
    | leaf a0 =>
      have ha0 : a0 ∈ (SplitTrie.node left right).leaves := hleaves.mem_iff.mpr mem_cons_self
      have hdiff : stemBits a0 ≠ bytesToBits op.stem none := fun heq =>
        habsent a0 ha0 ((stemBits_eq_iff (h.occurs.stemFits a0 ha0) hop.stem).mp heq)
      simp only [endOfPath, if_neg hdiff] at hpath
      exact put_absent hop hroot hpath (cons_ne_nil _ _) rfl hcreate hnone

end Put

end StateManager.BinaryTree
