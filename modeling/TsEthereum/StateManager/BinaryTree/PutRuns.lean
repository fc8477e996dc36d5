-- SUMMARY: Runs of put from an empty tree: what get returns after them, and that the root is the one of the final values.
import TsEthereum.MerkleTrie.PruningRuns
import TsEthereum.StateManager.BinaryTree.Puts

/-!
# Runs of put

Beside a run of puts goes the list of the stem nodes that the tree should hold, and the
finite map of the values. A put that leaves a stem in the tree without any value is done
right only where no other stem is in the tree.
-/

open List

namespace StateManager.BinaryTree

open BinaryNode SplitTrie StemBinaryNode

/-! ## What a run should do -/

/-- The value of every stem and suffix. -/
abbrev Values := Bytes → Nat → Option Bytes

/-- The values after a call; a later value for a suffix replaces an earlier one. -/
def record (m : Values) (op : PutCall) : Values := fun stem suffix =>
  if stem = op.stem then
    (op.suffixes.zip op.values).foldl (fun value write => if write.1 = suffix then write.2 else value)
      (m stem suffix)
  else m stem suffix

def valuesAfter (ops : List PutCall) : Values := ops.foldl record fun _ _ => none

/-- The stem node of a stem among those held. -/
def nodeFor (held : List StemBinaryNode) (stem : Bytes) : StemBinaryNode :=
  (held.find? fun a => a.stem = stem).getD (StemBinaryNode.create stem)

def ZERO_STEM : Bytes := List.replicate 31 0

/-- The stem nodes that the tree should hold after a call. The node of the zero stem without
values hashes to the root of the empty tree. -/
def hold (held : List StemBinaryNode) (op : PutCall) : List StemBinaryNode :=
  let node := written (nodeFor held op.stem) op
  let others := held.filter fun a => a.stem ≠ op.stem
  if node.values.all (· == none) then
    if held ≠ [] ∧ ∀ a ∈ held, a.stem ≠ op.stem then held
    else if op.stem = ZERO_STEM then others
    else node :: others
  else node :: others

def heldAfter (ops : List PutCall) : List StemBinaryNode := ops.foldl hold []

/-- A call that leaves a held stem without any value is for the only stem that is held. -/
def KeepsValues (held : List StemBinaryNode) (op : PutCall) : Prop :=
  ¬ HasValue (written (nodeFor held op.stem) op) → (∃ a ∈ held, a.stem = op.stem) → held.length ≤ 1

/-! ## Runs -/

variable (hashFunction : Bytes → Bytes)

def putAll (fuel : Nat) : BinaryTree → List PutCall → Except String BinaryTree
  | b, [] => .ok b
  | b, op :: ops => do
    let b ← put hashFunction fuel b op.stem op.suffixes op.values
    putAll fuel b ops

/-- The messages that are hashed for the nodes that a run stores. -/
def hashedMessages (fuel : Nat) : BinaryTree → List PutCall → List Bytes
  | _, [] => []
  | b, op :: ops =>
    (putNodes hashFunction fuel b op).flatMap (messages hashFunction) ++
      match put hashFunction fuel b op.stem op.suffixes op.values with
      | .ok b => hashedMessages fuel b ops
      | .error _ => []

/-- The tree stores a trie of the stem nodes. -/
def Tracks (occurring : List Bytes) (b : BinaryTree) (held : List StemBinaryNode) : Prop :=
  ∃ t, Represents hashFunction occurring b t ∧ t.leaves.Perm held

/-- Held stem nodes have different stems, and no value only where the stem is not zero. -/
structure Distinct (held : List StemBinaryNode) : Prop where
  nodup : (held.map StemBinaryNode.stem).Nodup
  nonzero : ∀ a ∈ held, HasValue a ∨ a.stem ≠ ZERO_STEM

variable {hashFunction} {occurring : List Bytes}

/-! ## The stem nodes that are held -/

variable {held : List StemBinaryNode} {a : StemBinaryNode}

theorem nodeFor_of_mem (h : (held.map StemBinaryNode.stem).Nodup) (ha : a ∈ held) :
    nodeFor held a.stem = a := by
  induction held with
  | nil => cases ha
  | cons x held ih =>
    rw [map_cons, nodup_cons] at h
    unfold nodeFor
    rcases mem_cons.mp ha with rfl | ha
    · simp
    · have hne : x.stem ≠ a.stem := fun heq => h.1 (heq ▸ mem_map_of_mem ha)
      rw [find?_cons_of_neg (by simpa using hne)]
      exact ih h.2 ha

variable {stem : Bytes}

theorem nodeFor_of_absent (h : ∀ a ∈ held, a.stem ≠ stem) :
    nodeFor held stem = create stem := by
  have hnone : held.find? (fun a => a.stem = stem) = none :=
    find?_eq_none.mpr fun a ha => by simpa using h a ha
  rw [nodeFor, hnone]
  rfl

theorem nodeFor_stem (held : List StemBinaryNode) (stem : Bytes) : (nodeFor held stem).stem = stem := by
  unfold nodeFor
  cases hfind : held.find? fun a => a.stem = stem with
  | none => rfl
  | some a => simpa using find?_some hfind

/-- A call finds the held node of its stem. -/
theorem isOld_nodeFor {t : Trie} (hperm : t.leaves.Perm held)
    (h : (held.map StemBinaryNode.stem).Nodup) (stem : Bytes) :
    IsOld t stem (nodeFor held stem) := by
  rcases Classical.em (∃ a ∈ held, a.stem = stem) with ⟨a, ha, rfl⟩ | habsent
  · refine .inl ⟨?_, nodeFor_stem held a.stem⟩
    rw [nodeFor_of_mem h ha]
    exact hperm.mem_iff.mpr ha
  · refine .inr ⟨fun x hx heq => habsent ⟨x, hperm.mem_iff.mp hx, heq⟩, ?_⟩
    exact nodeFor_of_absent fun a ha heq => habsent ⟨a, ha, heq⟩

theorem Distinct.cons {held : List StemBinaryNode} (h : Distinct held) {a : StemBinaryNode}
    (ha : HasValue a ∨ a.stem ≠ ZERO_STEM) :
    Distinct (a :: held.filter fun x => x.stem ≠ a.stem) := by
  constructor
  · rw [map_cons, nodup_cons]
    constructor
    · intro hmem
      obtain ⟨x, hx, heq⟩ := mem_map.mp hmem
      exact absurd heq (of_decide_eq_true (mem_filter.mp hx).2)
    · exact h.nodup.sublist (filter_sublist.map _)
  · intro x hx
    rcases mem_cons.mp hx with rfl | hx
    · exact ha
    · exact h.nonzero x (mem_of_mem_filter hx)

theorem Distinct.filter (h : Distinct held) (p : StemBinaryNode → Bool) :
    Distinct (held.filter p) :=
  ⟨h.nodup.sublist (filter_sublist.map _), fun a ha => h.nonzero a (mem_of_mem_filter ha)⟩

/-- What a call does to the held stem nodes. -/
theorem hold_cases (held : List StemBinaryNode) (op : PutCall) :
    (hold held op = written (nodeFor held op.stem) op :: held.filter (fun a => a.stem ≠ op.stem) ∧
      (HasValue (written (nodeFor held op.stem) op) ∨
        ((held = [] ∨ ∃ a ∈ held, a.stem = op.stem) ∧ op.stem ≠ ZERO_STEM))) ∨
    (¬ HasValue (written (nodeFor held op.stem) op) ∧
      ((hold held op = held ∧ held ≠ [] ∧ ∀ a ∈ held, a.stem ≠ op.stem) ∨
        (hold held op = held.filter (fun a => a.stem ≠ op.stem) ∧ op.stem = ZERO_STEM ∧
          (held = [] ∨ ∃ a ∈ held, a.stem = op.stem)))) := by
  have hall := all_none_iff (written (nodeFor held op.stem) op)
  have hpresent : ¬(held ≠ [] ∧ ∀ a ∈ held, a.stem ≠ op.stem) → held = [] ∨ ∃ a ∈ held, a.stem = op.stem := by
    intro h
    rcases Classical.em (held = []) with hnil | hne
    · exact .inl hnil
    · refine .inr (Classical.byContradiction fun hnone => h ⟨hne, fun a ha heq => hnone ⟨a, ha, heq⟩⟩)
  unfold hold
  dsimp only
  split
  · next hnone =>
    have hnone := hall.mp hnone
    split
    · next habsent => exact .inr ⟨hnone, .inl ⟨rfl, habsent⟩⟩
    · next hheld =>
      split
      · next hzero => exact .inr ⟨hnone, .inr ⟨rfl, hzero, hpresent hheld⟩⟩
      · next hzero => exact .inl ⟨rfl, .inr ⟨hpresent hheld, hzero⟩⟩
  · next hvalue =>
    exact .inl ⟨rfl, .inl (Classical.not_not.mp fun hnone => hvalue (hall.mpr hnone))⟩

theorem Distinct.hold (h : Distinct held) (op : PutCall) : Distinct (hold held op) := by
  have hstem : (written (nodeFor held op.stem) op).stem = op.stem :=
    (written_stem _ op).trans (nodeFor_stem held op.stem)
  rcases hold_cases held op with ⟨heq, hcase⟩ | ⟨-, ⟨heq, -⟩ | ⟨heq, -⟩⟩
  · rw [heq]
    have hcons := h.cons (a := written (nodeFor held op.stem) op)
      (hcase.imp_right fun hright hzero => hright.2 (hstem.symm.trans hzero))
    rwa [hstem] at hcons
  · rw [heq]
    exact h
  · rw [heq]
    exact h.filter _

theorem Distinct.foldl (h : Distinct held) (ops : List PutCall) :
    Distinct (ops.foldl BinaryTree.hold held) := by
  induction ops generalizing held with
  | nil => exact h
  | cons op ops ih => exact ih (h.hold op)

/-! ## The values that are held -/

/-- The held stem nodes have the values of the map. -/
structure HoldsValues (held : List StemBinaryNode) (m : Values) : Prop where
  present : ∀ a ∈ held, ∀ suffix < NODE_WIDTH, a.getValue suffix = m a.stem suffix
  absent : ∀ stem, (∀ a ∈ held, a.stem ≠ stem) → ∀ suffix < NODE_WIDTH, m stem suffix = none

theorem getValue_create (stem : Bytes) (suffix : Nat) :
    (create stem).getValue suffix = none := by
  simp only [create, getValue, getD_eq_getElem?_getD,
    getElem?_replicate]
  split <;> rfl

theorem getValue_setValue (ha : a.values.length = NODE_WIDTH) {i : Nat} (value : Option Bytes)
    {suffix : Nat} (hsuffix : suffix < NODE_WIDTH) :
    (a.setValue i value).getValue suffix = if i = suffix then value else a.getValue suffix := by
  simp only [setValue, getValue, getD_eq_getElem?_getD,
    getElem?_set, ha]
  split
  · next heq =>
    subst heq
    rw [if_pos hsuffix]
    rfl
  · rfl

theorem getValue_written (ha : a.values.length = NODE_WIDTH) (op : PutCall) {suffix : Nat}
    (hsuffix : suffix < NODE_WIDTH) : (written a op).getValue suffix =
      (op.suffixes.zip op.values).foldl (fun value write => if write.1 = suffix then write.2 else value)
        (a.getValue suffix) := by
  unfold written
  induction op.suffixes.zip op.values generalizing a with
  | nil => rfl
  | cons write writes ih =>
    rw [foldl_cons, foldl_cons,
      ih (a := a.setValue write.1 write.2) (length_set.trans ha),
      getValue_setValue ha write.2 hsuffix]

theorem getValue_of_not_hasValue (h : ¬ HasValue a) (suffix : Nat) : a.getValue suffix = none := by
  rw [getValue, getD_eq_getElem?_getD]
  cases hget : a.values[suffix]? with
  | none => rfl
  | some value =>
    cases value with
    | none => rfl
    | some v => exact absurd ⟨v, mem_of_getElem? hget⟩ h

variable {m : Values}

/-- The written node has the values of the map after the call. -/
theorem HoldsValues.written (h : HoldsValues held m) (hnodup : (held.map StemBinaryNode.stem).Nodup)
    (hfits : ∀ a ∈ held, StemFits a) (op : PutCall) (suffix : Nat) (hsuffix : suffix < NODE_WIDTH) :
    (written (nodeFor held op.stem) op).getValue suffix = record m op op.stem suffix := by
  have hold : (nodeFor held op.stem).values.length = NODE_WIDTH ∧
      (nodeFor held op.stem).getValue suffix = m op.stem suffix := by
    rcases Classical.em (∃ a ∈ held, a.stem = op.stem) with ⟨a, ha, hstem⟩ | habsent
    · rw [← hstem, nodeFor_of_mem hnodup ha]
      exact ⟨(hfits a ha).2.1, h.present a ha suffix hsuffix⟩
    · have habsent : ∀ a ∈ held, a.stem ≠ op.stem := fun a ha heq => habsent ⟨a, ha, heq⟩
      rw [nodeFor_of_absent habsent, getValue_create, h.absent op.stem habsent suffix hsuffix]
      exact ⟨length_replicate, rfl⟩
  rw [getValue_written hold.1 op hsuffix, hold.2, record, if_pos rfl]

/-- A call keeps the held stem nodes and the map together. -/
theorem HoldsValues.hold (h : HoldsValues held m) (hnodup : (held.map StemBinaryNode.stem).Nodup)
    (hfits : ∀ a ∈ held, StemFits a) (op : PutCall) : HoldsValues (hold held op) (record m op) := by
  have hwritten := h.written hnodup hfits op
  have hstem : (BinaryTree.written (nodeFor held op.stem) op).stem = op.stem :=
    (written_stem _ op).trans (nodeFor_stem held op.stem)
  have hother : ∀ stem ≠ op.stem, ∀ suffix, record m op stem suffix = m stem suffix :=
    fun stem hne suffix => if_neg hne
  have hothers : ∀ a ∈ held.filter (fun a => a.stem ≠ op.stem), ∀ suffix < NODE_WIDTH,
      a.getValue suffix = record m op a.stem suffix := by
    intro a ha suffix hsuffix
    obtain ⟨ha, hne⟩ := mem_filter.mp ha
    rw [hother a.stem (of_decide_eq_true hne)]
    exact h.present a ha suffix hsuffix
  have habsent : ∀ stem ≠ op.stem, (∀ a ∈ held.filter (fun a => a.stem ≠ op.stem), a.stem ≠ stem) →
      ∀ suffix < NODE_WIDTH, record m op stem suffix = none := by
    intro stem hne hnone suffix hsuffix
    rw [hother stem hne]
    refine h.absent stem (fun a ha heq => ?_) suffix hsuffix
    exact hnone a (mem_filter.mpr ⟨ha, decide_eq_true fun h => hne (heq.symm.trans h)⟩) heq
  rcases hold_cases held op with ⟨heq, -⟩ | ⟨hnone, ⟨heq, -, hall⟩ | ⟨heq, -, -⟩⟩
  · rw [heq]
    constructor
    · intro a ha suffix hsuffix
      rcases mem_cons.mp ha with rfl | ha
      · rw [hwritten suffix hsuffix, hstem]
      · exact hothers a ha suffix hsuffix
    · intro stem hnone
      have hne : stem ≠ op.stem := fun heq => hnone _ mem_cons_self (hstem.trans heq.symm)
      exact habsent stem hne fun a ha => hnone a (mem_cons_of_mem _ ha)
  · rw [heq]
    constructor
    · intro a ha suffix hsuffix
      rw [hother a.stem (hall a ha)]
      exact h.present a ha suffix hsuffix
    · intro stem hstem' suffix hsuffix
      rcases Classical.em (stem = op.stem) with rfl | hne
      · rw [← hwritten suffix hsuffix, getValue_of_not_hasValue hnone]
      · rw [hother stem hne]
        exact h.absent stem hstem' suffix hsuffix
  · rw [heq]
    refine ⟨hothers, fun stem hnone' suffix hsuffix => ?_⟩
    rcases Classical.em (stem = op.stem) with rfl | hne
    · rw [← hwritten suffix hsuffix, getValue_of_not_hasValue hnone]
    · exact habsent stem hne hnone' suffix hsuffix

/-! ## Steps -/

variable (hashFunction) in
theorem zeros_layerAbove {height : Nat} {l : List Bytes} (hl : l.length = 2 ^ height)
    (h : ∀ x ∈ l, x = EMPTY_TREE_ROOT) :
    ∀ y ∈ layerAbove hashFunction height l, y = EMPTY_TREE_ROOT := by
  induction height generalizing l with
  | zero => exact h
  | succ height ih =>
    have hdouble : l.length = 2 * 2 ^ height := by rw [hl, Nat.pow_succ, Nat.mul_comm]
    refine ih (length_pairHashes hdouble) fun y hy => ?_
    obtain ⟨left, hleft, right, hright, rfl, -⟩ := mem_pairHashes hdouble hy
    rw [h left hleft, h right hright, hashOf_eq, called_append rfl rfl, if_pos ⟨rfl, rfl⟩]
    rfl

section Runs

variable (hlen : ∀ msg, (hashFunction msg).length = 32)

include hlen

/-- The zero stem without values hashes to the root of the empty tree. -/
theorem digest_zero {a : StemBinaryNode} (ha : StemFits a) (hnone : ¬ HasValue a)
    (hstem : a.stem = ZERO_STEM) : digest hashFunction (.leaf a) = EMPTY_TREE_ROOT := by
  have hzeros := zeros_layerAbove hashFunction (length_valueHashes hashFunction ha) (by
    intro x hx
    obtain ⟨value, hvalue, rfl⟩ := mem_map.mp hx
    cases value with
    | none => rfl
    | some v => exact absurd ⟨v, hvalue⟩ hnone)
  rw [(layerAbove_valueHashes hlen ha).1] at hzeros
  have hroot := hzeros _ (mem_singleton_self _)
  rw [digest, stemMessage, hroot, setLengthRight_stem ha, hstem, hashOf_eq,
    called_append (a := ZERO_STEM ++ [0]) rfl rfl, if_pos ⟨rfl, rfl⟩]
  rfl

variable (hno : NoCollision hashFunction occurring)

include hno

/-- A call that keeps values takes the tree from the held stem nodes to the next ones. -/
theorem Tracks.put {fuel : Nat} (hfuel : STEM_BITS ≤ fuel) {b : BinaryTree}
    {held : List StemBinaryNode} (h : Tracks hashFunction occurring b held) (hdistinct : Distinct held)
    {op : PutCall} (hop : op.Valid) (hkeeps : KeepsValues held op)
    (hmsg : ∀ n ∈ putNodes hashFunction fuel b op, ∀ msg ∈ messages hashFunction n, msg ∈ occurring)
    (hsound : ∀ a ∈ hold held op, ¬ HasValue a → ∀ msg ∈ occurring, hashFunction msg ≠ a.stem ++ [0]) :
    ∃ b', BinaryTree.put hashFunction fuel b op.stem op.suffixes op.values = .ok b' ∧
      Tracks hashFunction occurring b' (hold held op) := by
  obtain ⟨t, hrep, hperm⟩ := h
  have hold' := isOld_nodeFor hperm hdistinct.nodup op.stem
  have hstem : (written (nodeFor held op.stem) op).stem = op.stem :=
    (written_stem _ op).trans (nodeFor_stem held op.stem)
  have hfits : StemFits (written (nodeFor held op.stem) op) := by
    rcases hold' with hold' | hold'
    · exact hop.stemFits_written (hrep.occurs.stemFits _ hold'.1)
    · exact hop.stemFits_written (hold'.2 ▸ stemFits_create hop.stem)
  have hone : ¬ HasValue (written (nodeFor held op.stem) op) →
      (held = [] ∨ ∃ a ∈ held, a.stem = op.stem) →
        t.leaves.length ≤ 1 ∧ ∀ x ∈ t.leaves, x.stem = op.stem := by
    intro hnone hpresent
    rw [hperm.length_eq]
    simp only [hperm.mem_iff]
    rcases hpresent with rfl | ⟨a, ha, hstem⟩
    · exact ⟨Nat.zero_le 1, by rintro _ ⟨⟩⟩
    · have hle := hkeeps hnone ⟨a, ha, hstem⟩
      refine ⟨hle, fun x hx => ?_⟩
      obtain ⟨y, rfl⟩ := length_eq_one_iff.mp (Nat.le_antisymm hle (length_pos_of_mem ha))
      rwa [mem_singleton.mp hx, ← mem_singleton.mp ha]
  have hfilter : (t.leaves.filter fun x => x.stem ≠ (written (nodeFor held op.stem) op).stem).Perm
      (held.filter fun a => a.stem ≠ op.stem) := by
    rw [hstem]
    exact hperm.filter _
  rcases hold_cases held op with ⟨heq, hcase⟩ | ⟨hnone, ⟨heq, hne, habsent⟩ | ⟨heq, hzero, hpresent⟩⟩
  · -- The stem node is stored.
    have hwrite : HasValue (written (nodeFor held op.stem) op) ∨
        (t.leaves.length ≤ 1 ∧ ∀ x ∈ t.leaves, x.stem = op.stem) := by
      rcases Classical.em (HasValue (written (nodeFor held op.stem) op)) with hvalue | hnone
      · exact .inl hvalue
      · exact .inr (hone hnone (hcase.resolve_left hnone).1)
    obtain ⟨t', new, b', hbuilt, hput, hroot, hdb, hnodes⟩ :=
      put_writes hlen hno hop hfuel hrep hold' hwrite
    refine ⟨b', hput, t', hbuilt.represents hlen hno hrep hfits ?_
      (fun x hx => hmsg _ (hnodes x hx)) hroot hdb, ?_⟩
    · rcases Classical.em (HasValue (written (nodeFor held op.stem) op)) with hvalue | hnone
      · exact .inl hvalue
      · refine .inr ⟨?_, ?_⟩
        · rw [setLengthRight_stem hfits, hstem]
          intro hpad
          have hzero : op.stem ++ [0] = ZERO_STEM ++ [0] := hpad
          exact (hcase.resolve_left hnone).2 (append_inj' hzero rfl).1
        · rw [setLengthRight_stem hfits]
          exact hsound _ (heq ▸ mem_cons_self) hnone
    · rw [heq]
      exact hbuilt.leaves.trans (hfilter.cons _)
  · -- There is nothing to delete.
    have hnonempty : t ≠ .empty := by
      rintro rfl
      exact hne hperm.symm.eq_nil
    refine ⟨b, put_nothing hlen hno hop hfuel hrep hnonempty hold'
      (fun x hx => habsent x (hperm.mem_iff.mp hx)) hnone, t, hrep, ?_⟩
    rw [heq]
    exact hperm
  · -- The tree is empty again.
    have hsame := (hone hnone hpresent).2
    obtain ⟨t', new, b', hbuilt, hput, hroot, -, -⟩ :=
      put_writes hlen hno hop hfuel hrep hold' (.inr (hone hnone hpresent))
    have hempty : held.filter (fun a => a.stem ≠ op.stem) = [] := by
      refine filter_eq_nil_iff.mpr fun a ha => ?_
      simpa using hsame a (hperm.mem_iff.mpr ha)
    rw [hempty] at hfilter heq
    have hleaf : t' = .leaf (written (nodeFor held op.stem) op) := by
      have hleaves := hbuilt.leaves.trans (hfilter.cons _)
      cases t' with
      | empty => exact absurd hleaves.symm.eq_nil (cons_ne_nil _ _)
      | leaf a => rw [List.singleton_perm_singleton.mp hleaves]
      | node left right =>
        have hlength := hleaves.length_eq
        rw [leaves, length_append] at hlength
        have htwo := hbuilt.fits.2.2
        rw [hlength] at htwo
        exact absurd htwo (by simp)
    refine ⟨b', hput, .empty, ⟨trivial, trivial, ?_, by rintro _ ⟨⟩⟩, heq ▸ .refl _⟩
    rw [hroot, hleaf]
    exact digest_zero hlen hfits hnone (hstem.trans hzero)

/-- A run of calls that keep values takes the tree along with the held stem nodes. -/
theorem Tracks.putAll {fuel : Nat} (hfuel : STEM_BITS ≤ fuel) {ops : List PutCall} {b : BinaryTree}
    {held : List StemBinaryNode} (h : Tracks hashFunction occurring b held) (hdistinct : Distinct held)
    (hvalid : ∀ op ∈ ops, op.Valid) (hkeeps : ∀ earlier op later, ops = earlier ++ op :: later →
      KeepsValues (earlier.foldl hold held) op)
    (hmsg : ∀ msg ∈ hashedMessages hashFunction fuel b ops, msg ∈ occurring)
    (hsound : ∀ earlier later, ops = earlier ++ later → ∀ a ∈ earlier.foldl hold held, ¬ HasValue a →
      ∀ msg ∈ occurring, hashFunction msg ≠ a.stem ++ [0]) :
    ∃ b', BinaryTree.putAll hashFunction fuel b ops = .ok b' ∧
      Tracks hashFunction occurring b' (ops.foldl hold held) := by
  induction ops generalizing b held with
  | nil => exact ⟨b, rfl, h⟩
  | cons op ops ih =>
    obtain ⟨b', hput, htracks⟩ := h.put hlen hno hfuel hdistinct (hvalid op mem_cons_self)
      (hkeeps [] op ops rfl)
      (fun n hn msg hm => hmsg msg (mem_append_left _ (mem_flatMap.mpr ⟨n, hn, hm⟩)))
      (hsound [op] ops rfl)
    have hrest : ∀ msg ∈ hashedMessages hashFunction fuel b' ops, msg ∈ occurring := by
      intro msg hm
      refine hmsg msg (mem_append_right _ ?_)
      rw [hput]
      exact hm
    obtain ⟨b'', hputs, htracks'⟩ := ih htracks (hdistinct.hold op)
      (fun op' hop' => hvalid op' (mem_cons_of_mem _ hop'))
      (fun earlier op' later heq => hkeeps (op :: earlier) op' later (congrArg _ heq)) hrest
      (fun earlier later heq => hsound (op :: earlier) later (congrArg _ heq))
    refine ⟨b'', ?_, htracks'⟩
    simp only [BinaryTree.putAll, hput, bind, Except.bind]
    exact hputs

end Runs

variable {ops : List PutCall}

theorem holdsValues_after (h : HoldsValues held m) (hdistinct : Distinct held)
    (hfits : ∀ a ∈ held, StemFits a) (hvalid : ∀ op ∈ ops, op.Valid) :
    HoldsValues (ops.foldl hold held) (ops.foldl record m) ∧
      ∀ a ∈ ops.foldl hold held, StemFits a := by
  induction ops generalizing held m with
  | nil => exact ⟨h, hfits⟩
  | cons op ops ih =>
    refine ih (h.hold hdistinct.nodup hfits op) (hdistinct.hold op) ?_
      fun op' hop' => hvalid op' (mem_cons_of_mem _ hop')
    have hop := hvalid op mem_cons_self
    have hnode : StemFits (written (nodeFor held op.stem) op) := by
      apply hop.stemFits_written
      rcases Classical.em (∃ a ∈ held, a.stem = op.stem) with ⟨a, ha, hstem⟩ | habsent
      · rw [← hstem, nodeFor_of_mem hdistinct.nodup ha]
        exact hfits a ha
      · rw [nodeFor_of_absent fun a ha heq => habsent ⟨a, ha, heq⟩]
        exact stemFits_create hop.stem
    intro a ha
    rcases hold_cases held op with ⟨heq, -⟩ | ⟨-, ⟨heq, -⟩ | ⟨heq, -⟩⟩
    · rw [heq] at ha
      rcases mem_cons.mp ha with rfl | ha
      · exact hnode
      · exact hfits a (mem_of_mem_filter ha)
    · exact hfits a (heq ▸ ha)
    · rw [heq] at ha
      exact hfits a (mem_of_mem_filter ha)

theorem tracks_create : Tracks hashFunction occurring createBinaryTree [] :=
  ⟨.empty, ⟨trivial, trivial, rfl, fun _ hx => nomatch hx⟩, .refl _⟩

theorem distinct_nil : Distinct [] := ⟨nodup_nil, fun _ ha => nomatch ha⟩

theorem holdsValues_nil : HoldsValues [] fun _ _ => none :=
  ⟨fun _ ha => (nomatch ha), fun _ _ _ _ => rfl⟩

/-! ## A sample hash function -/

def stem1 : Bytes := 1 :: List.replicate 30 0

def stem2 : Bytes := 128 :: List.replicate 30 0

def sampleValue : Bytes := List.replicate 32 7

/-- The hashes over the first of 256 values, from the value to the last layer. -/
def sampleLayers : List Nat :=
  [0xebaf85b465a09de21b398fb112c1500f2cbe658c42f379e0c0f18d24b819f637,
    0xe1c22c654bf5b4bf2ab19b9e6500ff599b6a4dc78ae223cf72a646f9bbd5f03e,
    0x771585afce219b4e839813467c6c1866d04c1010aa9b043be468140918e91d79,
    0xdf5678b30d044ee6d3bd835795070d4e8aa7597bc9d26773b125f4626c5cd160,
    0xefa1f3d9224c03690d1712e457b677d3ccac1c45a6dd8d2c26320755c22de91a,
    0xe54563b085a537027545f28c755fa4ac9a04006d13e1e515be71eb6aab0e745e,
    0xd139cc76a1a67a701da11ed00141415000082666857d8222663b950a2c4dbbd0,
    0xfbd1cf3c323c0bb547f326ffb0072b906b44bcd0151250a72174a3c8d0b893b2,
    0x60d96fa7577d79f2bffd198d06623f8fef7162dd86b09e6445471655ef9b3f4a]

def stemHash1 : Nat := 0xbde84392a1a262d877904c078f1d2d73b4bcca423bc3651c46cc2080076495e1

def stemHash2 : Nat := 0xc38da5f1c0892fe90149073e1885eba0a4fc878b6169ad82cba4d2bf4bd12530

/-- BLAKE3 on the messages of the runs below. -/
def sampleTable : List (Bytes × Nat) :=
  (sampleValue, sampleLayers.getD 0 0) ::
    ((List.range 8).map fun i =>
      (MPT.word (sampleLayers.getD i 0) ++ EMPTY_TREE_ROOT, sampleLayers.getD (i + 1) 0)) ++
    [(stem1 ++ [0] ++ MPT.word (sampleLayers.getD 8 0), stemHash1),
      (stem2 ++ [0] ++ MPT.word (sampleLayers.getD 8 0), stemHash2),
      (MPT.word stemHash1 ++ MPT.word stemHash2,
        0x25c9afe63be39e5a337b45fc8ced3ca98b52afbc7a8e406d415b9356ed8f5f55),
      (stem1 ++ [0] ++ EMPTY_TREE_ROOT,
        0x0e1d13c62d2e8bc3c5c8b5984a0f02012dcb87e464cd813b1a74a87df868252c)]

def sampleMessages : List Bytes := sampleTable.map Prod.fst

def sampleHash : Bytes → Bytes := MPT.tableHash sampleTable

def putValue (stem : Bytes) : PutCall := ⟨stem, [0], [some sampleValue]⟩

def deleteValue (stem : Bytes) : PutCall := ⟨stem, [0], [none]⟩

theorem sampleMessages_noCollision : NoCollision sampleHash sampleMessages :=
  ⟨by decide +kernel, by decide +kernel⟩

theorem NoCollision.of_contains
    (h : (hashedMessages sampleHash STEM_BITS createBinaryTree ops).all (sampleMessages.contains ·) = true) :
     NoCollision sampleHash (hashedMessages sampleHash STEM_BITS createBinaryTree ops) := by
  have hmem : ∀ x ∈ hashedMessages sampleHash STEM_BITS createBinaryTree ops, x ∈ sampleMessages :=
    fun x hx => contains_iff_mem.mp (all_eq_true.mp h x hx)
  exact ⟨fun x hx y hy => sampleMessages_noCollision.injective x (hmem x hx) y (hmem y hy),
    fun x hx => sampleMessages_noCollision.nonzero x (hmem x hx)⟩

instance (a : StemBinaryNode) : Decidable (HasValue a) :=
  decidable_of_iff (¬ (a.values.all (· == none)) = true)
    ((not_congr (all_none_iff a)).trans Classical.not_not)

instance (held : List StemBinaryNode) (op : PutCall) : Decidable (KeepsValues held op) :=
  inferInstanceAs (Decidable (_ → _ → _))

/-- What holds before every call holds at every way to cut the run in two. -/
theorem forall_calls {P : List PutCall → PutCall → Prop}
    (h : ∀ i, (hi : i < ops.length) → P (ops.take i) ops[i]) :
    ∀ earlier op later, ops = earlier ++ op :: later → P earlier op := by
  rintro earlier op later rfl
  have hcall := h earlier.length (by simp)
  simpa using hcall

theorem forall_cuts {P : List PutCall → Prop} (h : ∀ i ≤ ops.length, P (ops.take i)) :
    ∀ earlier later, ops = earlier ++ later → P earlier := by
  rintro earlier later rfl
  have hcut := h earlier.length (by simp)
  simpa using hcut

theorem valid_putValue (h : stem.length = 31) : (putValue stem).Valid where
  stem := h
  suffixes := by simp [putValue, NODE_WIDTH]
  values := by simp [putValue, sampleValue]
  length := rfl

theorem valid_deleteValue (h : stem.length = 31) : (deleteValue stem).Valid where
  stem := h
  suffixes := by simp [deleteValue, NODE_WIDTH]
  values := by simp [deleteValue]
  length := rfl

/-! ## Reading after a run -/

/-- After a run of puts that keep values, `get` returns the values of the finite map. -/
theorem get_after_puts (hlen : ∀ msg, (hashFunction msg).length = 32) {fuel : Nat}
    (hfuel : STEM_BITS ≤ fuel) {ops : List PutCall} (hvalid : ∀ op ∈ ops, op.Valid)
    (hkeeps : ∀ earlier op later, ops = earlier ++ op :: later → KeepsValues (heldAfter earlier) op)
    (hno : NoCollision hashFunction (hashedMessages hashFunction fuel createBinaryTree ops))
    (hstems : ∀ earlier later, ops = earlier ++ later → ∀ a ∈ heldAfter earlier, ¬ HasValue a →
      ∀ msg ∈ hashedMessages hashFunction fuel createBinaryTree ops,
        hashFunction msg ≠ a.stem ++ [0]) :
    ∃ b, putAll hashFunction fuel createBinaryTree ops = .ok b ∧
      ∀ stem suffixes, stem.length = 31 → (∀ suffix ∈ suffixes, suffix < NODE_WIDTH) →
        ∃ values, get fuel b stem suffixes = .ok values ∧
          (values = suffixes.map (valuesAfter ops stem) ∨
            (values = [] ∧ ∀ suffix < NODE_WIDTH, valuesAfter ops stem suffix = none)) := by
  obtain ⟨b, hputs, t, hrep, hperm⟩ := Tracks.putAll hlen hno hfuel tracks_create distinct_nil hvalid
    hkeeps (fun _ hmsg => hmsg) hstems
  have hholds := (holdsValues_after holdsValues_nil distinct_nil (fun _ ha => nomatch ha) hvalid).1
  refine ⟨b, hputs, fun stem suffixes hstem hsuffixes => ?_⟩
  rcases get_spec hlen hno hfuel hrep hstem suffixes with ⟨a, ha, rfl, hget⟩ | ⟨habsent, hget⟩
  · refine ⟨_, hget, .inl (map_congr_left fun suffix hsuffix => ?_)⟩
    exact hholds.present a (hperm.mem_iff.mp ha) suffix (hsuffixes suffix hsuffix)
  · refine ⟨_, hget, .inr ⟨rfl, ?_⟩⟩
    exact hholds.absent stem fun a ha => habsent a (hperm.mem_iff.mpr ha)

/-- A stem without values at the root, then values for two stems. -/
def emptyThenTwo : List PutCall := [deleteValue stem1, putValue stem1, putValue stem2]

theorem hashed_emptyThenTwo : (hashedMessages sampleHash STEM_BITS createBinaryTree emptyThenTwo).all
    (sampleMessages.contains ·) = true := by decide +kernel

theorem get_after_emptyThenTwo :
    ∃ b, putAll sampleHash STEM_BITS createBinaryTree emptyThenTwo = .ok b ∧
      ∀ stem suffixes, stem.length = 31 → (∀ suffix ∈ suffixes, suffix < NODE_WIDTH) →
        ∃ values, get STEM_BITS b stem suffixes = .ok values ∧
          (values = suffixes.map (valuesAfter emptyThenTwo stem) ∨
            (values = [] ∧ ∀ suffix < NODE_WIDTH, valuesAfter emptyThenTwo stem suffix = none)) := by
  apply get_after_puts (MPT.length_tableHash _) (Nat.le_refl _)
  · simp only [emptyThenTwo, forall_mem_cons]
    exact ⟨valid_deleteValue rfl, valid_putValue rfl, valid_putValue rfl, nofun⟩
  · exact forall_calls (by decide +kernel)
  · exact .of_contains hashed_emptyThenTwo
  · refine forall_cuts fun i hi a ha hnone msg hmsg => ?_
    -- Only the first call leaves a stem without values, and its padded stem is no hash.
    have hstems : ∀ i < emptyThenTwo.length + 1, ∀ a ∈ heldAfter (emptyThenTwo.take i),
        ¬ HasValue a → ∀ msg ∈ sampleMessages, sampleHash msg ≠ a.stem ++ [0] := by decide +kernel
    exact hstems i (Nat.lt_succ_of_le hi) a ha hnone msg
      (contains_iff_mem.mp (all_eq_true.mp hashed_emptyThenTwo msg hmsg))

def deleteOneOfTwo : List PutCall := [putValue stem1, putValue stem2, deleteValue stem1]

/-- A value that was deleted from the last suffix of one of two stems is still read. -/
theorem get_deleted_value :
    (∀ msg, (sampleHash msg).length = 32) ∧ (∀ op ∈ deleteOneOfTwo, op.Valid) ∧
      NoCollision sampleHash (hashedMessages sampleHash STEM_BITS createBinaryTree deleteOneOfTwo) ∧
      valuesAfter deleteOneOfTwo stem1 0 = none ∧
      ∃ b, putAll sampleHash STEM_BITS createBinaryTree deleteOneOfTwo = .ok b ∧
        get STEM_BITS b stem1 [0] = .ok [some sampleValue] := by
  refine ⟨MPT.length_tableHash _, ?_, .of_contains (by decide +kernel), by decide +kernel, ?_⟩
  · simp only [deleteOneOfTwo, forall_mem_cons]
    exact ⟨valid_putValue rfl, valid_putValue rfl, valid_deleteValue rfl, nofun⟩
  · have hget : (putAll sampleHash STEM_BITS createBinaryTree deleteOneOfTwo).toOption.map
        (fun b => get STEM_BITS b stem1 [0]) = some (.ok [some sampleValue]) := by decide +kernel
    match hrun : putAll sampleHash STEM_BITS createBinaryTree deleteOneOfTwo, hget with
    | .ok b, hget => exact ⟨b, rfl, Option.some.inj hget⟩

end StateManager.BinaryTree
