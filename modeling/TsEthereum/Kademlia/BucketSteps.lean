-- SUMMARY: What every operation of a k-bucket does to its contacts, and that it keeps the tree well-formed.
import TsEthereum.Kademlia.Bucket

/-!
# Steps of a k-bucket

In a well-formed tree every contact is in the leaf that its id leads to, so an id is
stored at most once. This does not depend on the lengths of the ids.
-/

open List hiding replace

namespace KBucket

open BitTree

/-- A leaf as it has to be at the end of `path`. -/
structure LeafOk (localNodeId : Bytes) (k : Nat) (path : List Bool) (node : KBucketLeaf) : Prop where
  placed : ∀ contact ∈ node.contacts, path = bitsTo (_determineNode contact.id) path.length
  distinct : node.contacts.Pairwise (fun a b => a.id ≠ b.id)
  size : node.contacts.length ≤ k
  noSplit : node.noSplit = true ↔ path ≠ bitsTo (_determineNode localNodeId) path.length

def WellFormed (b : KBucket) : Prop :=
  ∀ path node, (path, node) ∈ b.nodes → LeafOk b._localNodeId b._numberOfNodesPerKBucket path node

/-- The path to the leaf of an id. -/
def pathOf (b : KBucket) (id : Bytes) : List Bool := bitsTo (_determineNode id) (b.leafOf id).2

theorem wellFormed_new (localNodeId : Bytes) (k ping : Nat) : WellFormed (new localNodeId k ping) := by
  intro path node h
  obtain ⟨rfl, rfl⟩ := Prod.mk.inj (mem_singleton.mp h)
  exact ⟨fun _ h => absurd h not_mem_nil, .nil, Nat.zero_le _, by simp [createNode, bitsTo]⟩

/-! ## Leaves -/

theorem leafOf_mem_nodes (b : KBucket) (id : Bytes) : (b.pathOf id, (b.leafOf id).1) ∈ b.nodes :=
  find_mem_leaves b._root (_determineNode id) 0

variable {b : KBucket}

theorem WellFormed.leafOf (h : WellFormed b) (id : Bytes) :
    LeafOk b._localNodeId b._numberOfNodesPerKBucket (b.pathOf id) (b.leafOf id).1 :=
  h _ _ (leafOf_mem_nodes b id)

theorem nodes_setLeaf (b : KBucket) (id : Bytes) :
    ∃ before after, b.nodes = before ++ (b.pathOf id, (b.leafOf id).1) :: after ∧
      ∀ node, (b.setLeaf id node).nodes = before ++ leaves node (b.pathOf id) ++ after :=
  leaves_replace b._root (_determineNode id) 0

theorem WellFormed.setLeaf (h : WellFormed b) (id : Bytes) {node : KBucketNode}
    (hnode : ∀ path leaf, (path, leaf) ∈ leaves node (b.pathOf id) →
      LeafOk b._localNodeId b._numberOfNodesPerKBucket path leaf) :
    WellFormed (b.setLeaf id node) := by
  obtain ⟨before, after, hnodes, hset⟩ := nodes_setLeaf b id
  intro path leaf hleaf
  rw [hset] at hleaf
  have hold (hmem : (path, leaf) ∈ before ∨ (path, leaf) ∈ after) : (path, leaf) ∈ b.nodes := by
    rw [hnodes, mem_append, mem_cons]
    exact hmem.imp_right .inr
  rcases mem_append.mp hleaf with hleaf | hleaf
  · rcases mem_append.mp hleaf with hleaf | hleaf
    · exact h path leaf (hold (.inl hleaf))
    · exact hnode path leaf hleaf
  · exact h path leaf (hold (.inr hleaf))

variable {node : KBucketLeaf}

theorem WellFormed.setLeaf_leaf (h : WellFormed b) (id : Bytes)
    (hnode : LeafOk b._localNodeId b._numberOfNodesPerKBucket (b.pathOf id) node) :
    WellFormed (b.setLeaf id (.leaf node)) := by
  refine h.setLeaf id (fun path leaf hleaf => ?_)
  obtain ⟨rfl, rfl⟩ := Prod.mk.inj (mem_singleton.mp hleaf)
  exact hnode

/-- The contacts before and behind those of the leaf of an id. -/
theorem toArray_setLeaf (b : KBucket) (id : Bytes) :
    ∃ before after : List Contact, b.toArray = before ++ (b.leafOf id).1.contacts ++ after ∧
      ∀ node, (b.setLeaf id node).toArray =
        before ++ (leaves node (b.pathOf id)).flatMap (fun e => e.2.contacts) ++ after := by
  obtain ⟨before, after, hnodes, hset⟩ := nodes_setLeaf b id
  refine ⟨before.flatMap (fun e => e.2.contacts), after.flatMap (fun e => e.2.contacts), ?_,
    fun node => ?_⟩
  · simp [toArray, hnodes]
  · simp [toArray, hset]

/-- No id is stored twice. -/
theorem WellFormed.distinct (h : WellFormed b) :
    b.toArray.Pairwise (fun x y => x.id ≠ y.id) := by
  have hbits (x y : Contact) (i : Nat) (hbit : _determineNode x.id i ≠ _determineNode y.id i) :
      x.id ≠ y.id := by
    intro hid
    exact hbit (by rw [hid])
  exact pairwise_contents hbits (fun path node hmem => (h path node hmem).placed)
    (fun path node hmem => (h path node hmem).distinct)

variable {x : Contact}

theorem WellFormed.eq_of_id_eq (h : WellFormed b) {y : Contact} (hx : x ∈ b.toArray)
    (hy : y ∈ b.toArray) (hid : x.id = y.id) : x = y := by
  have hsymm : Std.Symm (fun x y : Contact => x.id ≠ y.id) := ⟨fun _ _ hne => hne.symm⟩
  by_contra hne
  exact h.distinct.forall hx hy hne hid

/-- A contact is in the leaf that its id leads to. -/
theorem WellFormed.mem_leafOf (h : WellFormed b) (hx : x ∈ b.toArray) :
    x ∈ (b.leafOf x.id).1.contacts := by
  obtain ⟨⟨path, node⟩, hmem, hxn⟩ := mem_flatMap.mp hx
  have hfind := find_of_mem_leaves (d := 0) hmem ((h path node hmem).placed x hxn)
  unfold KBucket.leafOf
  rw [hfind]
  exact hxn

variable {id : Bytes}

theorem mem_toArray_of_leafOf (hx : x ∈ (b.leafOf id).1.contacts) : x ∈ b.toArray :=
  mem_flatMap.mpr ⟨_, leafOf_mem_nodes b id, hx⟩

/-! ## Searching a leaf -/

theorem _indexOf_eq_none :
    _indexOf node id = none ↔ ∀ contact ∈ node.contacts, contact.id ≠ id := by
  simp [_indexOf]

variable {index : Nat}

theorem _indexOf_eq_some (h : _indexOf node id = some index) :
    ∃ contact, node.contacts[index]? = some contact ∧ contact.id = id := by
  obtain ⟨hlt, hid, -⟩ := List.findIdx?_eq_some_iff_getElem.mp h
  exact ⟨_, getElem?_eq_getElem hlt, of_decide_eq_true hid⟩

theorem WellFormed.absent_of_indexOf (h : WellFormed b)
    (hindex : _indexOf (b.leafOf id).1 id = none) : ∀ x ∈ b.toArray, x.id ≠ id := by
  intro x hx hid
  have hleaf := h.mem_leafOf hx
  rw [hid] at hleaf
  exact _indexOf_eq_none.mp hindex x hleaf hid

/-- `get` finds exactly the stored contacts. -/
theorem WellFormed.get_eq_some (h : WellFormed b) :
    b.get id = some x ↔ x ∈ b.toArray ∧ x.id = id := by
  unfold KBucket.get
  dsimp only
  cases hindex : _indexOf (b.leafOf id).1 id with
  | none =>
    rw [Option.bind_none]
    exact ⟨(fun hx => nomatch hx), fun hx => absurd hx.2 (h.absent_of_indexOf hindex x hx.1)⟩
  | some index =>
    obtain ⟨y, hy, hid⟩ := _indexOf_eq_some hindex
    have hmem := mem_toArray_of_leafOf (mem_of_getElem? hy)
    rw [Option.bind_some, hy]
    constructor
    · intro hx
      obtain rfl := Option.some.inj hx
      exact ⟨hmem, hid⟩
    · rintro ⟨hx, hxid⟩
      rw [h.eq_of_id_eq hmem hx (hid.trans hxid.symm)]

/-! ## One call of `add` -/

theorem arbiter_cases (incumbent candidate : Contact) :
    arbiter incumbent candidate = incumbent ∨ arbiter incumbent candidate = candidate := by
  unfold arbiter
  split
  · exact .inl rfl
  · exact .inr rfl

variable {contact : Contact}

/-- An update keeps the ids of a leaf. -/
theorem ids_update (hindex : _indexOf node contact.id = some index) :
    ((_update node index contact).1.contacts.map Contact.id).Perm (node.contacts.map Contact.id) := by
  obtain ⟨incumbent, hincumbent, hid⟩ := _indexOf_eq_some hindex
  have hsel : (arbiter incumbent contact).id = incumbent.id := by
    rcases arbiter_cases incumbent contact with hsel | hsel
    · rw [hsel]
    · rw [hsel, hid]
  unfold _update
  rw [hincumbent]
  dsimp only
  split
  · exact List.Perm.refl _
  · obtain ⟨hlt, hget⟩ := List.getElem?_eq_some_iff.mp hincumbent
    have hperm : node.contacts.Perm (incumbent :: node.contacts.eraseIdx index) :=
      hget ▸ (getElem_cons_eraseIdx_perm hlt).symm
    have hids := hperm.map Contact.id
    rw [map_cons, ← hsel] at hids
    simpa using (perm_append_singleton _ _).trans hids.symm

theorem noSplit_update (node : KBucketLeaf) (index : Nat) (contact : Contact) :
    (_update node index contact).1.noSplit = node.noSplit := by
  unfold _update
  split
  · rfl
  · dsimp only
    split <;> rfl

variable {localNodeId : Bytes} {k : Nat} {path : List Bool}

theorem leafOk_update (h : LeafOk localNodeId k path node)
    (hindex : _indexOf node contact.id = some index) :
    LeafOk localNodeId k path (_update node index contact).1 := by
  have hids := ids_update hindex
  constructor
  · intro x hx
    obtain ⟨y, hy, hid⟩ := mem_map.mp (hids.mem_iff.mp (mem_map_of_mem hx))
    rw [← hid]
    exact h.placed y hy
  · have hdistinct := pairwise_map.mpr h.distinct
    exact pairwise_map.mp (hids.symm.pairwise hdistinct (fun hne => hne.symm))
  · have hlen := hids.length_eq
    rw [length_map, length_map] at hlen
    exact hlen.le.trans h.size
  · rw [noSplit_update]
    exact h.noSplit

theorem leafOk_push (h : LeafOk localNodeId k path node)
    (hplaced : path = bitsTo (_determineNode contact.id) path.length)
    (habsent : ∀ x ∈ node.contacts, x.id ≠ contact.id) (hroom : node.contacts.length < k) :
    LeafOk localNodeId k path { node with contacts := node.contacts ++ [contact] } where
  placed := by
    intro x hx
    rcases mem_append.mp hx with hx | hx
    · exact h.placed x hx
    · rw [mem_singleton.mp hx]
      exact hplaced
  distinct := by
    rw [pairwise_append]
    refine ⟨h.distinct, pairwise_singleton _ _, fun x hx y hy => ?_⟩
    rw [mem_singleton.mp hy]
    exact habsent x hx
  size := by
    rw [length_append, length_singleton]
    exact hroom
  noSplit := h.noSplit

/-- One side of a split. -/
theorem leafOk_side (h : LeafOk localNodeId k path node) (hsplit : node.noSplit = false)
    (side : Bool) :
    LeafOk localNodeId k (path ++ [side])
      ⟨node.contacts.filter (fun x => _determineNode x.id path.length = side),
        _determineNode localNodeId path.length != side⟩ where
  placed := by
    intro x hx
    obtain ⟨hmem, hside⟩ := mem_filter.mp hx
    rw [length_append, length_singleton, bitsTo_succ, ← h.placed x hmem,
      of_decide_eq_true hside]
  distinct := h.distinct.filter _
  size := (length_filter_le _ _).trans h.size
  noSplit := by
    have hlocal : path = bitsTo (_determineNode localNodeId) path.length := by
      by_contra hne
      rw [h.noSplit.mpr hne] at hsplit
      cases hsplit
    rw [length_append, length_singleton, bitsTo_succ, ← hlocal]
    cases _determineNode localNodeId path.length <;> cases side <;> simp

theorem split_eq_sides (localNodeId : Bytes) (node : KBucketLeaf) (bitIndex : Nat) :
    _split localNodeId node bitIndex = .inner
      (.leaf ⟨node.contacts.filter (fun x => _determineNode x.id bitIndex = false),
        _determineNode localNodeId bitIndex != false⟩)
      (.leaf ⟨node.contacts.filter (fun x => _determineNode x.id bitIndex = true),
        _determineNode localNodeId bitIndex != true⟩) := by
  simp [_split]

/-- What one call of `add` does with a contact. -/
inductive AddStep (b : KBucket) (contact : Contact) :
    KBucket × Option (List KBucketEvent) → Prop where
  | updated {b' events} (hthere : ∃ x ∈ b.toArray, x.id = contact.id)
      (hids : (b'.toArray.map Contact.id).Perm (b.toArray.map Contact.id)) :
      AddStep b contact (b', some events)
  | added {b'} (habsent : ∀ x ∈ b.toArray, x.id ≠ contact.id)
      (hmem : ∀ x, x ∈ b'.toArray ↔ x = contact ∨ x ∈ b.toArray)
      (hcount : b'.toArray.length = b.toArray.length + 1) :
      AddStep b contact (b', some [.added contact])
  | refused {contacts} (habsent : ∀ x ∈ b.toArray, x.id ≠ contact.id) :
      AddStep b contact (b, some [.ping contacts contact])
  /-- The leaf is one bit deeper afterwards, and it was full of other ids with the same path. -/
  | split {b'} (hperm : b'.toArray.Perm b.toArray)
      (hdeeper : (b'.leafOf contact.id).2 = (b.leafOf contact.id).2 + 1)
      (hfull : 0 < b._numberOfNodesPerKBucket → ∃ x ∈ b.toArray, x.id ≠ contact.id ∧
        bitsTo (_determineNode x.id) (b.leafOf contact.id).2 = b.pathOf contact.id) :
      AddStep b contact (b', none)

theorem leafOf_setLeaf_inner (b : KBucket) (id : Bytes) (left right : KBucketLeaf) :
    ((b.setLeaf id (.inner (.leaf left) (.leaf right))).leafOf id).2 = (b.leafOf id).2 + 1 := by
  have hfind (t : KBucketNode) (d : Nat) :
      (find (replace t (_determineNode id) d (.inner (.leaf left) (.leaf right)))
        (_determineNode id) d).2 = (find t (_determineNode id) d).2 + 1 := by
    induction t generalizing d with
    | leaf node =>
      simp only [replace, find]
      split <;> rfl
    | inner l r ihl ihr =>
      cases hbit : _determineNode id d with
      | false => simp [replace, find, hbit, ihl]
      | true => simp [replace, find, hbit, ihr]
  exact hfind b._root 0

theorem WellFormed.addStep_spec (h : WellFormed b) (contact : Contact) :
    AddStep b contact (b.addStep contact) := by
  have hok := h.leafOf contact.id
  obtain ⟨before, after, harray, hset⟩ := toArray_setLeaf b contact.id
  unfold addStep
  dsimp only
  cases hindex : _indexOf (b.leafOf contact.id).1 contact.id with
  | some index =>
    obtain ⟨x, hx, hid⟩ := _indexOf_eq_some hindex
    refine .updated ⟨x, mem_toArray_of_leafOf (mem_of_getElem? hx), hid⟩ ?_
    rw [hset, harray]
    simp only [leaves, flatMap_cons, flatMap_nil, append_nil, map_append]
    exact ((ids_update hindex).append_left _).append_right _
  | none =>
    have habsent := h.absent_of_indexOf hindex
    dsimp only
    split
    · refine .added habsent (fun x => ?_) ?_
      · rw [hset, harray]
        simp only [leaves, flatMap_cons, flatMap_nil, append_nil, mem_append,
          mem_singleton]
        constructor
        · rintro ((hx | hx | hx) | hx)
          · exact .inr (.inl (.inl hx))
          · exact .inr (.inl (.inr hx))
          · exact .inl hx
          · exact .inr (.inr hx)
        · rintro (hx | (hx | hx) | hx)
          · exact .inl (.inr (.inr hx))
          · exact .inl (.inl hx)
          · exact .inl (.inr (.inl hx))
          · exact .inr hx
      · rw [hset, harray]
        simp only [leaves, flatMap_cons, flatMap_nil, append_nil, length_append,
          length_singleton]
        omega
    · rename_i hfull
      split
      · exact .refused habsent
      · refine .split ?_ ?_ (fun hk => ?_)
        · rw [hset, harray, split_eq_sides]
          simp only [leaves, cons_append, nil_append, flatMap_cons, flatMap_nil,
            append_nil]
          refine Perm.append_right _ (Perm.append_left _ ?_)
          have hperm := filter_append_perm (fun x : Contact =>
            decide (_determineNode x.id (b.leafOf contact.id).2 = false)) (b.leafOf contact.id).1.contacts
          simpa using hperm
        · rw [split_eq_sides]
          exact leafOf_setLeaf_inner b contact.id _ _
        · have hpos : 0 < (b.leafOf contact.id).1.contacts.length :=
            hk.trans_le (Nat.le_of_not_lt hfull)
          obtain ⟨x, hx⟩ := exists_mem_of_length_pos hpos
          have hplaced := hok.placed x hx
          rw [show (b.pathOf contact.id).length = (b.leafOf contact.id).2 from length_bitsTo _ _]
            at hplaced
          exact ⟨x, mem_toArray_of_leafOf hx, habsent x (mem_toArray_of_leafOf hx), hplaced.symm⟩

theorem WellFormed.addStep (h : WellFormed b) (contact : Contact) :
    WellFormed (b.addStep contact).1 := by
  have hok := h.leafOf contact.id
  unfold KBucket.addStep
  dsimp only
  cases hindex : _indexOf (b.leafOf contact.id).1 contact.id with
  | some index => exact h.setLeaf_leaf contact.id (leafOk_update hok hindex)
  | none =>
    dsimp only
    split
    · rename_i hroom
      refine h.setLeaf_leaf contact.id (leafOk_push hok ?_ (_indexOf_eq_none.mp hindex) hroom)
      rw [pathOf, length_bitsTo]
    · split
      · exact h
      · rename_i hsplit
        refine h.setLeaf contact.id (fun path leaf hleaf => ?_)
        have hside (side : Bool) := leafOk_side hok (Bool.eq_false_of_not_eq_true hsplit) side
        rw [pathOf, length_bitsTo] at hside
        rw [split_eq_sides] at hleaf
        rcases mem_append.mp hleaf with hleaf | hleaf
        · obtain ⟨rfl, rfl⟩ := Prod.mk.inj (mem_singleton.mp hleaf)
          exact hside false
        · obtain ⟨rfl, rfl⟩ := Prod.mk.inj (mem_singleton.mp hleaf)
          exact hside true

end KBucket
