-- SUMMARY: What put does to a tree that stores a trie: the updated tree stores the trie with the new stem node.
import TsEthereum.StateManager.BinaryTree.Rebuild

/-!
# Writing a stored trie

A put changes one stem node. The nodes that it saves are subtries of the new trie, and
the other subtries of the new trie were stored before; where hashes do not collide,
saving the first does not disturb the second.
-/

open List

namespace StateManager.BinaryTree

open BinaryNode SplitTrie

/-- A call of `put`. -/
structure PutCall where
  stem : Bytes
  suffixes : List Nat
  values : List (Option Bytes)

/-- A stem of 31 bytes, and for every suffix from 0 to 255 a value of 32 bytes or null. -/
structure PutCall.Valid (op : PutCall) : Prop where
  stem : op.stem.length = 31
  suffixes : ∀ suffix ∈ op.suffixes, suffix < NODE_WIDTH
  values : ∀ v, some v ∈ op.values → v.length = 32
  length : op.values.length = op.suffixes.length

/-- The stem node with the values of the call. -/
def written (node : StemBinaryNode) (op : PutCall) : StemBinaryNode :=
  (op.suffixes.zip op.values).foldl (fun node write => node.setValue write.1 write.2) node

/-! ## The stem node of a call -/

theorem setValues_zip (node : StemBinaryNode) {suffixes : List Nat} {values : List (Option Bytes)}
    (h : values.length = suffixes.length) : setValues node suffixes values =
      .ok ((suffixes.zip values).foldl (fun node write => node.setValue write.1 write.2) node) := by
  induction suffixes generalizing node values with
  | nil => rfl
  | cons suffix suffixes ih =>
    match values, h with
    | value :: values, h => exact ih (node.setValue suffix value) (Nat.succ.inj h)

theorem PutCall.Valid.setValues_eq {op : PutCall} (h : op.Valid) (node : StemBinaryNode) :
    setValues node op.suffixes op.values = .ok (written node op) :=
  setValues_zip node h.length

theorem stemFits_create {stem : Bytes} (h : stem.length = 31) : StemFits (StemBinaryNode.create stem) := by
  refine ⟨h, length_replicate, fun v hv => ?_⟩
  exact nomatch (eq_of_mem_replicate hv : some v = none)

theorem stemFits_setValue {node : StemBinaryNode} (h : StemFits node) (suffix : Nat)
    {value : Option Bytes} (hvalue : ∀ v, value = some v → v.length = 32) :
    StemFits (node.setValue suffix value) := by
  refine ⟨h.1, length_set.trans h.2.1, fun v hv => ?_⟩
  rcases mem_or_eq_of_mem_set hv with hv | hv
  · exact h.2.2 v hv
  · exact hvalue v hv.symm

theorem written_stem (node : StemBinaryNode) (op : PutCall) : (written node op).stem = node.stem := by
  unfold written
  induction op.suffixes.zip op.values generalizing node with
  | nil => rfl
  | cons write writes ih => exact ih (node.setValue write.1 write.2)

theorem PutCall.Valid.stemFits_written {op : PutCall} (hop : op.Valid) {node : StemBinaryNode}
    (h : StemFits node) : StemFits (written node op) := by
  have hvalues : ∀ write ∈ op.suffixes.zip op.values, ∀ v, write.2 = some v → v.length = 32 := by
    intro write hwrite v hv
    exact hop.values v (hv ▸ (of_mem_zip hwrite).2)
  unfold written
  generalize op.suffixes.zip op.values = writes at hvalues
  induction writes generalizing node with
  | nil => exact h
  | cons write writes ih =>
    exact ih (stemFits_setValue h write.1 (hvalues write mem_cons_self))
      fun w hw => hvalues w (mem_cons_of_mem _ hw)

theorem all_none_iff (a : StemBinaryNode) : (a.values.all (· == none)) = true ↔ ¬ HasValue a := by
  rw [all_eq_true]
  constructor
  · rintro h ⟨v, hv⟩
    exact absurd (h _ hv) (by simp)
  · intro h val hval
    cases val with
    | none => rfl
    | some v => exact absurd ⟨v, hval⟩ h

/-! ## Tries that were built -/

/-- The new trie has the stem node in the place of one with its stem, and its subtries are new or
were there before; a stem node may have been there at another path. -/
structure Built (t : Trie) (a : StemBinaryNode) (t' : Trie) (new : List (Bits × Trie)) : Prop where
  fits : t'.Fits stemBits STEM_BITS []
  leaves : t'.leaves.Perm (a :: t.leaves.filter fun x => x.stem ≠ a.stem)
  new_mem : ∀ x ∈ new, x ∈ t'.subtries []
  covered : ∀ x ∈ t'.subtries [], x ∈ new ∨ x ∈ t.subtries [] ∨
    ∃ b p, x.2 = .leaf b ∧ (p, .leaf b) ∈ t.subtries []

section Built

variable {a : StemBinaryNode} (ha : StemFits a) {c : Context StemBinaryNode} {f : Trie}
  (hfits : (plug f c).Fits stemBits STEM_BITS []) (hbeside : ∀ x ∈ c.leaves, x.stem ≠ a.stem)

include ha hfits hbeside

omit ha hfits in
theorem filter_plug (hf : ∀ x ∈ f.leaves, x.stem = a.stem) :
    ((plug f c).leaves.filter fun x => x.stem ≠ a.stem).Perm c.leaves := by
  refine ((leaves_plug f c).filter _).trans ?_
  rw [filter_append, filter_eq_nil_iff.mpr fun x hx => by simp [hf x hx],
    List.filter_eq_self.mpr fun x hx => decide_eq_true (hbeside x hx)]
  exact .refl _

/-- A stem node at the end of the walk. -/
theorem built_leaf (hpath : c.bits <+: stemBits a) (hf : ∀ x ∈ f.leaves, x.stem = a.stem)
    (hle : f.leaves.length ≤ 1) :
    Built (plug f c) a (plug (.leaf a) c) ((c.bits, .leaf a) :: upward [] c (.leaf a)) where
  fits := hfits.replace ⟨hpath, length_stemBits ha⟩ hle
  leaves := (leaves_plug _ c).trans ((filter_plug hbeside hf).symm.cons a)
  new_mem := by
    intro x hx
    apply mem_subtries_plug.mpr
    rcases mem_cons.mp hx with rfl | hx
    · exact .inl (mem_singleton_self _)
    · exact .inr (.inl hx)
  covered := by
    intro x hx
    rcases mem_subtries_plug.mp hx with hx | hx | hx
    · exact .inl (mem_cons.mpr (.inl (mem_singleton.mp hx)))
    · exact .inl (mem_cons_of_mem _ hx)
    · exact .inr (.inl (mem_subtries_plug.mpr (.inr (.inr hx))))

/-- A stem node beside the one at the end of the walk. -/
theorem built_split {a0 : StemBinaryNode} (hf : f = .leaf a0) (hne : a0.stem ≠ a.stem) {l : Bits}
    {b : Bool} (hbit : c.bits ++ l ++ [b] <+: stemBits a) (hbit0 : c.bits ++ l ++ [!b] <+: stemBits a0) :
    Built (plug f c) a (plug (branch b (.leaf a) (.leaf a0)) (Context.chain l ++ c))
      ((c.bits ++ l ++ [b], .leaf a) :: (c.bits ++ l, branch b (.leaf a) (.leaf a0)) ::
        upward [] (Context.chain l ++ c) (branch b (.leaf a) (.leaf a0))) where
  fits := (hf ▸ hfits).split hbit hbit0 (length_stemBits ha)
  leaves := by
    subst hf
    refine (leaves_plug _ _).trans ?_
    rw [Context.leaves_append, Context.leaves_chain, nil_append]
    refine ((leaves_branch b _ _).append_right _).trans (List.Perm.cons a ?_)
    refine .symm (((leaves_plug (.leaf a0) c).filter _).trans ?_)
    have hself : [a0].filter (fun x => x.stem ≠ a.stem) = [a0] := by simp [hne]
    rw [filter_append, List.filter_eq_self.mpr fun x hx => decide_eq_true (hbeside x hx)]
    exact hself ▸ .refl _
  new_mem := by
    intro x hx
    apply mem_subtries_plug.mpr
    rw [Context.bits_append, Context.bits_chain, mem_subtries_branch]
    rcases mem_cons.mp hx with rfl | hx
    · exact .inl (.inr (.inl (mem_singleton_self _)))
    rcases mem_cons.mp hx with rfl | hx
    · exact .inl (.inl rfl)
    · exact .inr (.inl hx)
  covered := by
    subst hf
    intro x hx
    rcases mem_subtries_plug.mp hx with hx | hx | hx
    · rw [Context.bits_append, Context.bits_chain] at hx
      rcases mem_subtries_branch.mp hx with rfl | hx | hx
      · exact .inl (mem_cons_of_mem _ mem_cons_self)
      · exact .inl (mem_cons.mpr (.inl (mem_singleton.mp hx)))
      · refine .inr (.inr ⟨a0, c.bits, congrArg Prod.snd (mem_singleton.mp hx), ?_⟩)
        exact mem_subtries_plug.mpr (.inl (mem_singleton_self _))
    · exact .inl (mem_cons_of_mem _ (mem_cons_of_mem _ hx))
    · rw [Context.subtries_chain] at hx
      exact .inr (.inl (mem_subtries_plug.mpr (.inr (.inr hx))))

end Built

/-! ## Saving -/

variable (hashFunction : Bytes → Bytes)

/-- The operations that save subtries. -/
def saved (new : List (Bits × Trie)) : List BatchDBOp :=
  new.map fun x => .put (digest hashFunction x.2) (nodeOf hashFunction x.1 x.2).serialize

/-- The nodes that a put stores. -/
def putNodes (fuel : Nat) (b : BinaryTree) (op : PutCall) : List BinaryNode :=
  if b._root = EMPTY_TREE_ROOT then
    match setValues (StemBinaryNode.create op.stem) op.suffixes op.values with
    | .ok initialNode => [.stem initialNode]
    | .error _ => []
  else
    match updatedNodes hashFunction fuel b op.stem op.suffixes op.values with
    | .ok (some (_, putStack)) => putStack.filterMap Prod.snd
    | _ => []

variable {hashFunction} {occurring : List Bytes}

theorem saveStack_entries (b : BinaryTree) (new : List (Bits × Trie)) :
    saveStack b (new.map (entry hashFunction)).reverse =
      { b with _db := b._db.batch (saved hashFunction new) } := by
  simp [saveStack, saved, entry, Function.comp_def]

/-- What a subtrie asks for besides its own subtries. -/
def OccursAt (hashFunction : Bytes → Bytes) (occurring : List Bytes) : Trie → Prop
  | .node left right =>
    (left ≠ .empty ∨ right ≠ .empty) ∧
      ∀ x ∈ called (some (digest hashFunction left ++ digest hashFunction right)), x ∈ occurring
  | t => Occurs hashFunction occurring t

theorem occurs_of_subtries {p : Bits} {t : Trie}
    (h : ∀ x ∈ t.subtries p, OccursAt hashFunction occurring x.2) : Occurs hashFunction occurring t := by
  induction t generalizing p with
  | empty => trivial
  | leaf a => exact h _ (mem_singleton_self _)
  | node left right ihl ihr =>
    obtain ⟨hside, hmsg⟩ := h _ mem_cons_self
    exact ⟨hside, hmsg, ihl fun x hx => h x (mem_cons_of_mem _ (mem_append_left _ hx)),
      ihr fun x hx => h x (mem_cons_of_mem _ (mem_append_right _ hx))⟩

theorem Occurs.of_mem_subtries {p : Bits} {t : Trie} (h : Occurs hashFunction occurring t)
    {x : Bits × Trie} (hx : x ∈ t.subtries p) : Occurs hashFunction occurring x.2 := by
  induction t generalizing p with
  | empty => cases hx
  | leaf a => exact mem_singleton.mp hx ▸ h
  | node left right ihl ihr =>
    rcases mem_cons.mp hx with rfl | hx
    · exact h
    rcases mem_append.mp hx with hx | hx
    · exact ihl h.2.2.1 hx
    · exact ihr h.2.2.2 hx

theorem Occurs.at {t : Trie} (h : Occurs hashFunction occurring t) : OccursAt hashFunction occurring t := by
  cases t with
  | empty => exact h
  | leaf a => exact h
  | node left right => exact ⟨h.1, h.2.1⟩

section Save

variable (hlen : ∀ msg, (hashFunction msg).length = 32) (hno : NoCollision hashFunction occurring)

include hlen hno

/-- Subtries with one digest are stored as one node. -/
theorem nodeOf_eq {x y : Bits × Trie} (hx : x.2.Fits stemBits STEM_BITS x.1)
    (hy : y.2.Fits stemBits STEM_BITS y.1) (hoccurs : Occurs hashFunction occurring x.2)
    (hoccurs' : Occurs hashFunction occurring y.2)
    (h : digest hashFunction x.2 = digest hashFunction y.2) :
    nodeOf hashFunction x.1 x.2 = nodeOf hashFunction y.1 y.2 := by
  obtain ⟨p, t⟩ := x
  obtain ⟨q, s⟩ := y
  obtain rfl : t = s := digest_inj hno hlen hoccurs hoccurs' h
  cases t with
  | empty => rfl
  | leaf a => rfl
  | node left right =>
    have htwo : 2 ≤ (SplitTrie.node left right).leaves.length := by
      simpa [leaves] using hx.2.2
    rw [hx.path_unique hy htwo]

variable {b : BinaryTree} {t t' : Trie} {a : StemBinaryNode} {new : List (Bits × Trie)}

omit hlen hno in
/-- The messages of the new trie occur where those of its new nodes do. -/
theorem Built.occurs (hbuilt : Built t a t' new) (ht : Occurs hashFunction occurring t)
    (ha : StemFits a) (hsound : HasValue a ∨ StemNotHash hashFunction occurring a)
    (hmsg : ∀ x ∈ new, ∀ msg ∈ messages hashFunction (nodeOf hashFunction x.1 x.2), msg ∈ occurring) :
    Occurs hashFunction occurring t' := by
  have hold : ∀ p s, (p, s) ∈ t.subtries [] → OccursAt hashFunction occurring s :=
    fun p s hs => (ht.of_mem_subtries hs).at
  apply occurs_of_subtries (p := [])
  intro x hx
  rcases hbuilt.covered x hx with hnew | hsub | ⟨c, p, heq, hsub⟩
  · have hfits := hbuilt.fits.of_mem_subtries hx
    have hmsg := hmsg x hnew
    obtain ⟨p, s⟩ := x
    cases s with
    | empty => exact absurd rfl hfits.2.1
    | node left right =>
      simp only [nodeOf, messages, referenceHash_reference] at hmsg
      refine ⟨?_, hmsg⟩
      apply Classical.byContradiction
      intro hboth
      obtain ⟨hl, hr⟩ := not_or.mp hboth
      have htwo := hfits.1.2.2
      rw [Classical.not_not.mp hl, Classical.not_not.mp hr] at htwo
      exact absurd htwo (by decide)
    | leaf c =>
      rcases mem_cons.mp (hbuilt.leaves.mem_iff.mp (hfits.2.2 (mem_singleton_self c)))
        with rfl | hc
      · exact ⟨ha, hsound, hmsg⟩
      · -- The other leaves were there before.
        exact ht.of_mem_leaves (mem_of_mem_filter hc)
  · exact hold x.1 x.2 hsub
  · exact heq ▸ hold p _ hsub

/-- The saved nodes and those that were stored before make up the new trie. -/
theorem Built.stored (hbuilt : Built t a t' new) (h : Represents hashFunction occurring b t)
    (hoccurs : Occurs hashFunction occurring t') :
    Stored hashFunction (b._db.batch (saved hashFunction new)) (t'.subtries []) := by
  intro y hy
  have hfits := hbuilt.fits.of_mem_subtries hy
  apply MapDB.get_batch_of_puts
  · -- Another node under the same digest is the same node.
    intro op hop hkey
    obtain ⟨x, hx, rfl⟩ := mem_map.mp hop
    have hsub := hbuilt.new_mem x hx
    have hkey : digest hashFunction x.2 = digest hashFunction y.2 := hkey
    rw [hkey, nodeOf_eq hlen hno (hbuilt.fits.of_mem_subtries hsub).1 hfits.1
      (hoccurs.of_mem_subtries hsub) (hoccurs.of_mem_subtries hy) hkey]
  · rcases hbuilt.covered y hy with hnew | hsub | ⟨c, p, heq, hsub⟩
    · exact .inl (mem_map.mpr ⟨y, hnew, rfl⟩)
    · exact .inr (h.stored y hsub)
    · have hc := h.stored _ hsub
      obtain ⟨q, s⟩ := y
      obtain rfl : s = .leaf c := heq
      exact .inr hc

/-- A tree that has the root of the new trie and its nodes saved stands for it. -/
theorem Built.represents (hbuilt : Built t a t' new) (h : Represents hashFunction occurring b t)
    (ha : StemFits a) (hsound : HasValue a ∨ StemNotHash hashFunction occurring a)
    (hmsg : ∀ x ∈ new, ∀ msg ∈ messages hashFunction (nodeOf hashFunction x.1 x.2), msg ∈ occurring)
    {b' : BinaryTree} (hroot : b'._root = digest hashFunction t')
    (hdb : ∀ k, b'._db.get k = (b._db.batch (saved hashFunction new)).get k) :
    Represents hashFunction occurring b' t' := by
  have hoccurs := hbuilt.occurs h.occurs ha hsound hmsg
  refine ⟨hbuilt.fits, hoccurs, hroot, fun x hx => ?_⟩
  rw [hdb]
  exact hbuilt.stored hlen hno h hoccurs x hx

end Save

end StateManager.BinaryTree
