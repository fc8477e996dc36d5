-- SUMMARY: The root after a run of put calls with values: the one of the stem nodes of the final map.
import TsEthereum.StateManager.BinaryTree.PutRuns

/-!
# The root of the values

The stem nodes of a finite map have one trie. Puts of values keep to it, except that a
put without suffixes on an empty tree stores a stem node without values.
-/

open List

namespace StateManager.BinaryTree

open BinaryNode SplitTrie

variable {hashFunction : Bytes → Bytes} {occurring : List Bytes}

variable (hashFunction) in
/-- The root over stem nodes: each stands below an internal node for every bit that its stem
shares with another one. -/
def eipRoot (nodes : List StemBinaryNode) : Bytes :=
  digest hashFunction (ofLeaves stemBits STEM_BITS 0 nodes)

/-- The stem nodes of a finite map: one for every stem with a value, in any order. -/
structure Enumerates (m : Values) (nodes : List StemBinaryNode) : Prop where
  nodup : (nodes.map StemBinaryNode.stem).Nodup
  mem : ∀ a, a ∈ nodes ↔ StemFits a ∧ HasValue a ∧
    ∀ suffix < NODE_WIDTH, a.getValue suffix = m a.stem suffix

variable {m : Values} {nodes : List StemBinaryNode}

theorem Enumerates.perm {nodes' : List StemBinaryNode} (h : Enumerates m nodes)
    (h' : Enumerates m nodes') : nodes.Perm nodes' :=
  (perm_ext_iff_of_nodup h.nodup.of_map h'.nodup.of_map).mpr fun a =>
    (h.mem a).trans (h'.mem a).symm

theorem Represents.eipRoot {b : BinaryTree} {t : Trie} (h : Represents hashFunction occurring b t)
    (hperm : nodes.Perm t.leaves) : b._root = eipRoot hashFunction nodes := by
  have htrie := h.fits.eq_ofLeaves STEM_BITS (Nat.zero_add _) hperm
  rw [h.root, BinaryTree.eipRoot]
  exact congrArg (digest hashFunction) htrie.symm

theorem hasValue_setValue {a : StemBinaryNode} {suffix : Nat} (h : suffix < a.values.length) (v : Bytes) :
    HasValue (a.setValue suffix (some v)) :=
  ⟨v, mem_set h _⟩

/-- Writing values, and at least one where the node has none, leaves a value. -/
theorem hasValue_written {op : PutCall} (hop : op.Valid) (hvalues : ∀ value ∈ op.values, value ≠ none)
    {a : StemBinaryNode} (ha : a.values.length = NODE_WIDTH) (h : HasValue a ∨ op.suffixes ≠ []) :
    HasValue (written a op) := by
  have hwrites : ∀ write ∈ op.suffixes.zip op.values, write.1 < NODE_WIDTH ∧ write.2 ≠ none := by
    intro write hwrite
    obtain ⟨hsuffix, hvalue⟩ := of_mem_zip hwrite
    exact ⟨hop.suffixes _ hsuffix, hvalues _ hvalue⟩
  have hnonempty : HasValue a ∨ op.suffixes.zip op.values ≠ [] := by
    refine h.imp_right fun hne hzip => hne ?_
    have hlength := congrArg List.length hzip
    rw [length_zip, hop.length, Nat.min_self] at hlength
    exact length_eq_zero_iff.mp hlength
  unfold written
  clear h
  generalize op.suffixes.zip op.values = writes at hwrites hnonempty
  induction writes generalizing a with
  | nil => exact hnonempty.resolve_right fun hne => hne rfl
  | cons write writes ih =>
    obtain ⟨hsuffix, hvalue⟩ := hwrites write mem_cons_self
    obtain ⟨v, hv⟩ := Option.ne_none_iff_exists'.mp hvalue
    refine ih (length_set.trans ha) (fun w hw => hwrites w (mem_cons_of_mem _ hw)) (.inl ?_)
    show HasValue (a.setValue write.1 write.2)
    rw [hv]
    exact hasValue_setValue (ha.symm ▸ hsuffix) v

/-- A call that writes values, and at least one into an empty tree, unless it is for the zero stem. -/
def PutsValues (held : List StemBinaryNode) (op : PutCall) : Prop :=
  held = [] → op.suffixes ≠ [] ∨ op.stem = ZERO_STEM

instance (held : List StemBinaryNode) (op : PutCall) : Decidable (PutsValues held op) :=
  inferInstanceAs (Decidable (_ → _))

variable {held : List StemBinaryNode}

/-- Such calls leave a value in every stem node. -/
theorem hasValue_hold (h : ∀ a ∈ held, StemFits a ∧ HasValue a) {op : PutCall} (hop : op.Valid)
    (hvalues : ∀ value ∈ op.values, value ≠ none) (hputs : PutsValues held op)
    (hnodup : (held.map StemBinaryNode.stem).Nodup) :
    (∀ a ∈ hold held op, HasValue a) ∧ KeepsValues held op := by
  have hpresent : (∃ a ∈ held, a.stem = op.stem) → HasValue (written (nodeFor held op.stem) op) := by
    rintro ⟨a, ha, hstem⟩
    rw [← hstem, nodeFor_of_mem hnodup ha]
    exact hasValue_written hop hvalues (h a ha).1.2.1 (.inl (h a ha).2)
  constructor
  · intro a ha
    rcases hold_cases held op with ⟨heq, hcase⟩ | ⟨-, ⟨heq, -⟩ | ⟨heq, -⟩⟩
    · rw [heq] at ha
      rcases mem_cons.mp ha with rfl | ha
      · rcases hcase with hvalue | ⟨hnil | hheld, hzero⟩
        · exact hvalue
        · subst hnil
          exact hasValue_written hop hvalues length_replicate
            (.inr ((hputs rfl).resolve_right hzero))
        · exact hpresent hheld
      · exact (h a (mem_of_mem_filter ha)).2
    · exact (h a (heq ▸ ha)).2
    · rw [heq] at ha
      exact (h a (mem_of_mem_filter ha)).2
  · exact fun hnone hheld => absurd (hpresent hheld) hnone

/-- Over a run of such calls, every held stem node has a value and every call keeps values. -/
theorem hasValue_run (h : ∀ a ∈ held, HasValue a) (hfits : ∀ a ∈ held, StemFits a)
    (hdistinct : Distinct held) (hholds : HoldsValues held m) {ops : List PutCall}
    (hvalid : ∀ op ∈ ops, op.Valid) (hvalues : ∀ op ∈ ops, ∀ value ∈ op.values, value ≠ none)
    (hputs : ∀ earlier op later, ops = earlier ++ op :: later →
      PutsValues (earlier.foldl hold held) op) :
    (∀ earlier later, ops = earlier ++ later → ∀ a ∈ earlier.foldl hold held, HasValue a) ∧
      ∀ earlier op later, ops = earlier ++ op :: later → KeepsValues (earlier.foldl hold held) op := by
  induction ops generalizing held m with
  | nil =>
    constructor
    · intro earlier later heq
      obtain ⟨rfl, rfl⟩ := append_eq_nil_iff.mp heq.symm
      exact h
    · intro earlier op later heq
      exact absurd (append_eq_nil_iff.mp heq.symm).2 (cons_ne_nil _ _)
  | cons op ops ih =>
    have hop := hvalid op mem_cons_self
    have hstep := hasValue_hold (fun a ha => ⟨hfits a ha, h a ha⟩) hop (hvalues op mem_cons_self)
      (hputs [] op ops rfl) hdistinct.nodup
    have hone : ∀ op' ∈ [op], op'.Valid := fun op' hop' => mem_singleton.mp hop' ▸ hop
    have hnext := holdsValues_after hholds hdistinct hfits hone
    obtain ⟨hvalue, hkeeps⟩ := ih hstep.1 hnext.2 (hdistinct.hold op) hnext.1
      (fun op' hop' => hvalid op' (mem_cons_of_mem _ hop'))
      (fun op' hop' => hvalues op' (mem_cons_of_mem _ hop'))
      (fun earlier op' later heq => hputs (op :: earlier) op' later (congrArg _ heq))
    constructor
    · intro earlier later heq
      cases earlier with
      | nil => exact h
      | cons op' earlier =>
        obtain ⟨rfl, htail⟩ := List.cons.inj heq
        exact hvalue earlier later htail
    · intro earlier op' later heq
      cases earlier with
      | nil =>
        obtain ⟨rfl, -⟩ := List.cons.inj heq
        exact hstep.2
      | cons op'' earlier =>
        obtain ⟨rfl, htail⟩ := List.cons.inj heq
        exact hkeeps earlier op' later htail

/-- Stem nodes that hold a map, each with a value, are the stem nodes of the map. -/
theorem HoldsValues.enumerates (h : HoldsValues held m)
    (hnodup : (held.map StemBinaryNode.stem).Nodup) (hfits : ∀ a ∈ held, StemFits a)
    (hvalue : ∀ a ∈ held, HasValue a) : Enumerates m held := by
  refine ⟨hnodup, fun a => ⟨fun ha => ⟨hfits a ha, hvalue a ha, h.present a ha⟩, ?_⟩⟩
  rintro ⟨hfit, ⟨v, hv⟩, hsame⟩
  obtain ⟨i, hi, hget⟩ := List.mem_iff_getElem.mp hv
  have hread : a.getValue i = some v := by
    rw [StemBinaryNode.getValue, getD_eq_getElem?_getD, getElem?_eq_getElem hi, hget]
    rfl
  rcases Classical.em (∃ x ∈ held, x.stem = a.stem) with ⟨x, hx, hstem⟩ | habsent
  · have heq : x = a := by
      have hvalues : x.values = a.values := by
        apply ext_getElem ((hfits x hx).2.1.trans hfit.2.1.symm)
        intro j hj hj'
        have hj256 : j < NODE_WIDTH := hfit.2.1 ▸ hj'
        have hx := h.present x hx j hj256
        rw [hstem, ← hsame j hj256] at hx
        simpa [StemBinaryNode.getValue, getD_eq_getElem?_getD, getElem?_eq_getElem hj,
          getElem?_eq_getElem hj'] using hx
      cases x
      cases a
      simp only at hstem hvalues
      rw [hstem, hvalues]
    exact heq ▸ hx
  · have hnone := h.absent a.stem (fun x hx heq => habsent ⟨x, hx, heq⟩) i (hfit.2.1 ▸ hi)
    rw [← hsame i (hfit.2.1 ▸ hi), hread] at hnone
    cases hnone

/-- After a run of puts of values, the root is that of the stem nodes of the final map. -/
theorem eipRoot_of_run (hlen : ∀ msg, (hashFunction msg).length = 32) {fuel : Nat}
    (hfuel : STEM_BITS ≤ fuel) {ops : List PutCall} (hvalid : ∀ op ∈ ops, op.Valid)
    (hvalues : ∀ op ∈ ops, ∀ value ∈ op.values, value ≠ none)
    (hputs : ∀ earlier op later, ops = earlier ++ op :: later → PutsValues (heldAfter earlier) op)
    (hno : NoCollision hashFunction (hashedMessages hashFunction fuel createBinaryTree ops)) :
    Enumerates (valuesAfter ops) (heldAfter ops) ∧
      ∃ b, putAll hashFunction fuel createBinaryTree ops = .ok b ∧
        ∀ nodes, Enumerates (valuesAfter ops) nodes → b._root = eipRoot hashFunction nodes := by
  have hnil : ∀ a ∈ ([] : List StemBinaryNode), HasValue a ∧ StemFits a := fun _ ha => nomatch ha
  obtain ⟨hall, hkeeps⟩ := hasValue_run (fun a ha => (hnil a ha).1) (fun a ha => (hnil a ha).2)
    distinct_nil holdsValues_nil hvalid hvalues hputs
  obtain ⟨b, hrun, t, hrep, hperm⟩ := Tracks.putAll hlen hno hfuel tracks_create distinct_nil hvalid
    hkeeps (fun _ hmsg => hmsg)
    (fun earlier later heq a ha hnone => absurd (hall earlier later heq a ha) hnone)
  obtain ⟨hholds, hfits⟩ := holdsValues_after holdsValues_nil distinct_nil (fun a ha => (hnil a ha).2)
    hvalid
  have hdistinct : Distinct (heldAfter ops) := distinct_nil.foldl ops
  have henum := hholds.enumerates hdistinct.nodup hfits (hall ops [] (append_nil ops).symm)
  exact ⟨henum, b, hrun, fun nodes hnodes => hrep.eipRoot ((hnodes.perm henum).trans hperm.symm)⟩

theorem Enumerates.congr {m' : Values} (h : Enumerates m nodes)
    (hsame : ∀ stem, stem.length = 31 → ∀ suffix < NODE_WIDTH, m stem suffix = m' stem suffix) :
    Enumerates m' nodes := by
  refine ⟨h.nodup, fun a => (h.mem a).trans (and_congr_right fun hfits => and_congr_right fun _ => ?_)⟩
  have hstem := hsame a.stem hfits.1
  exact forall_congr' fun suffix => forall_congr' fun hsuffix => by rw [hstem suffix hsuffix]

/-- Two runs of puts of values with the same final values have one root, the root over the stem
nodes of these values. -/
theorem root_of_values (hlen : ∀ msg, (hashFunction msg).length = 32) {fuel : Nat}
    (hfuel : STEM_BITS ≤ fuel) {ops ops' : List PutCall} (hvalid : ∀ op ∈ ops, op.Valid)
    (hvalid' : ∀ op ∈ ops', op.Valid) (hvalues : ∀ op ∈ ops, ∀ value ∈ op.values, value ≠ none)
    (hvalues' : ∀ op ∈ ops', ∀ value ∈ op.values, value ≠ none)
    (hputs : ∀ earlier op later, ops = earlier ++ op :: later → PutsValues (heldAfter earlier) op)
    (hputs' : ∀ earlier op later, ops' = earlier ++ op :: later → PutsValues (heldAfter earlier) op)
    (hno : NoCollision hashFunction (hashedMessages hashFunction fuel createBinaryTree ops))
    (hno' : NoCollision hashFunction (hashedMessages hashFunction fuel createBinaryTree ops'))
    (hsame : ∀ stem, stem.length = 31 → ∀ suffix < NODE_WIDTH,
      valuesAfter ops stem suffix = valuesAfter ops' stem suffix) :
    ∃ b b', putAll hashFunction fuel createBinaryTree ops = .ok b ∧
      putAll hashFunction fuel createBinaryTree ops' = .ok b' ∧ b._root = b'._root ∧
      (∃ nodes, Enumerates (valuesAfter ops) nodes) ∧
      ∀ nodes, Enumerates (valuesAfter ops) nodes → b._root = eipRoot hashFunction nodes := by
  obtain ⟨henum, b, hrun, hroot⟩ := eipRoot_of_run hlen hfuel hvalid hvalues hputs hno
  obtain ⟨-, b', hrun', hroot'⟩ := eipRoot_of_run hlen hfuel hvalid' hvalues' hputs' hno'
  refine ⟨b, b', hrun, hrun', ?_, ⟨_, henum⟩, hroot⟩
  rw [hroot _ henum, hroot' _ (henum.congr hsame)]

theorem root_of_two_orders :
    ∃ b b', putAll sampleHash STEM_BITS createBinaryTree [putValue stem1, putValue stem2] = .ok b ∧
      putAll sampleHash STEM_BITS createBinaryTree [putValue stem2, putValue stem1] = .ok b' ∧
      b._root = b'._root ∧
      (∃ nodes, Enumerates (valuesAfter [putValue stem1, putValue stem2]) nodes) ∧
      ∀ nodes, Enumerates (valuesAfter [putValue stem1, putValue stem2]) nodes →
        b._root = eipRoot sampleHash nodes := by
  have hvalid : ∀ stem stem' : Bytes, stem.length = 31 → stem'.length = 31 →
      ∀ op ∈ [putValue stem, putValue stem'], op.Valid := by
    intro stem stem' h h'
    simp only [forall_mem_cons]
    exact ⟨valid_putValue h, valid_putValue h', nofun⟩
  have hvalues : ∀ stem stem' : Bytes, ∀ op ∈ [putValue stem, putValue stem'],
      ∀ value ∈ op.values, value ≠ none := by
    simp [putValue]
  apply root_of_values (MPT.length_tableHash _) (Nat.le_refl _) (hvalid _ _ rfl rfl)
    (hvalid _ _ rfl rfl) (hvalues _ _) (hvalues _ _) (forall_calls (by decide +kernel))
    (forall_calls (by decide +kernel)) (.of_contains (by decide +kernel))
    (.of_contains (by decide +kernel))
  intro stem _ suffix _
  have hne : stem1 ≠ stem2 := by decide
  simp only [valuesAfter, foldl_cons, foldl_nil, record, putValue]
  by_cases h : stem = stem1
  · simp [h, hne]
  · simp [h]

/-- A put without suffixes on an empty tree changes the root. -/
theorem root_without_values :
    (∀ msg, (sampleHash msg).length = 32) ∧ PutCall.Valid ⟨stem1, [], []⟩ ∧ NoCollision sampleHash
        (hashedMessages sampleHash STEM_BITS createBinaryTree [⟨stem1, [], []⟩]) ∧
      valuesAfter [⟨stem1, [], []⟩] = valuesAfter [] ∧
      putAll sampleHash STEM_BITS createBinaryTree [] = .ok createBinaryTree ∧
      ∃ b, putAll sampleHash STEM_BITS createBinaryTree [⟨stem1, [], []⟩] = .ok b ∧
        b._root ≠ createBinaryTree._root := by
  refine ⟨MPT.length_tableHash _, ⟨rfl, by rintro _ ⟨⟩, by rintro _ ⟨⟩, rfl⟩, .of_contains (by decide +kernel), ?_,
    rfl, ?_⟩
  · funext stem suffix
    simp [valuesAfter, record]
  · have hroot : ((putAll sampleHash STEM_BITS createBinaryTree [⟨stem1, [], []⟩]).toOption.map
        (fun b => decide (b._root ≠ createBinaryTree._root))) = some true := by decide +kernel
    cases hrun : putAll sampleHash STEM_BITS createBinaryTree [⟨stem1, [], []⟩] with
    | error e =>
      rw [hrun] at hroot
      cases hroot
    | ok b =>
      rw [hrun] at hroot
      exact ⟨b, rfl, of_decide_eq_true (Option.some.inj hroot)⟩

end StateManager.BinaryTree
