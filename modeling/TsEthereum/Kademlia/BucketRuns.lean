-- SUMMARY: Runs of add and remove on a k-bucket: the tree stays well-formed, and over ids of one length add terminates.
import Mathlib.Data.Nat.Bitwise
import TsEthereum.Kademlia.BucketSteps

/-!
# Runs of a k-bucket

A leaf at the depth of a whole id holds that id only, so it is never full of others
and `add` does not split deeper.
-/

open List Nat Option

namespace KBucket

open BitTree

/-! ## Bits of ids -/

theorem _determineNode_eq_testBit {id : Bytes} {j m : Nat} (hj : j < id.length) (hm : m < 8) :
    _determineNode id (8 * j + m) = id[j].toNat.testBit (7 - m) := by
  have hdiv : (8 * j + m) / 8 = j := by omega
  have hmod : (8 * j + m) % 8 = m := by omega
  unfold _determineNode
  simp only [hdiv, hmod, Nat.not_le_of_lt hj, false_and, if_false, getElem?_eq_getElem hj,
    one_shiftLeft, and_two_pow]
  cases id[j].toNat.testBit (7 - m) <;> simp

variable {L : Nat}

/-- Ids of one length with the same bits are the same. -/
theorem eq_of_bits_eq {a b : Bytes} {n : Nat} (ha : a.length = L) (hb : b.length = L)
    (hn : 8 * L ≤ n) (h : bitsTo (_determineNode a) n = bitsTo (_determineNode b) n) : a = b := by
  refine ext_getElem (ha.trans hb.symm) (fun j hj hj' => ?_)
  refine UInt8.toNat_inj.mp (eq_of_testBit_eq (fun i => ?_))
  by_cases hi : i < 8
  · have hbit := bitsTo_inj h (i := 8 * j + (7 - i)) (by omega)
    rw [_determineNode_eq_testBit hj (by omega), _determineNode_eq_testBit hj' (by omega)] at hbit
    rwa [show 7 - (7 - i) = i by omega] at hbit
  · have hhigh (x : UInt8) : x.toNat.testBit i = false := by
      refine testBit_lt_two_pow (x.toNat_lt.trans_le ?_)
      exact Nat.pow_le_pow_right (Nat.zero_lt_two) (Nat.le_of_not_lt hi)
    rw [hhigh, hhigh]

/-! ## All calls of an `add` -/

/-- What `add` does with a contact; a call stack that is too short leaves the contacts alone. -/
inductive AddResult (b : KBucket) (contact : Contact) :
    KBucket × Except KBucketError (List KBucketEvent) → Prop where
  | updated {b' events} (hthere : ∃ x ∈ b.toArray, x.id = contact.id)
      (hids : (b'.toArray.map Contact.id).Perm (b.toArray.map Contact.id)) :
      AddResult b contact (b', .ok events)
  | added {b'} (habsent : ∀ x ∈ b.toArray, x.id ≠ contact.id)
      (hmem : ∀ x, x ∈ b'.toArray ↔ x = contact ∨ x ∈ b.toArray)
      (hcount : b'.toArray.length = b.toArray.length + 1) :
      AddResult b contact (b', .ok [.added contact])
  | refused {b' contacts} (habsent : ∀ x ∈ b.toArray, x.id ≠ contact.id)
      (hperm : b'.toArray.Perm b.toArray) : AddResult b contact (b', .ok [.ping contacts contact])
  | overflow {b'} (hperm : b'.toArray.Perm b.toArray) :
      AddResult b contact (b', .error .stackOverflow)

variable {b b' : KBucket} {contact : Contact}

theorem AddResult.of_perm {r : KBucket × Except KBucketError (List KBucketEvent)}
    (h : AddResult b' contact r) (hperm : b'.toArray.Perm b.toArray) : AddResult b contact r := by
  cases h with
  | updated hthere hids =>
    obtain ⟨x, hx, hid⟩ := hthere
    exact .updated ⟨x, hperm.mem_iff.mp hx, hid⟩ (hids.trans (hperm.map _))
  | added habsent hmem hcount =>
    refine .added (fun x hx => habsent x (hperm.mem_iff.mpr hx)) (fun x => ?_) ?_
    · rw [hmem, hperm.mem_iff]
    · rw [hcount, hperm.length_eq]
  | refused habsent hperm' =>
    exact .refused (fun x hx => habsent x (hperm.mem_iff.mpr hx)) (hperm'.trans hperm)
  | overflow hperm' => exact .overflow (hperm'.trans hperm)

theorem WellFormed.addContact_spec (h : WellFormed b) (stack : Nat) (contact : Contact) :
    AddResult b contact (addContact stack b contact) := by
  induction stack generalizing b with
  | zero => exact .overflow (List.Perm.refl _)
  | succ stack ih =>
    have hspec := h.addStep_spec contact
    have hwf := h.addStep contact
    unfold addContact
    generalize b.addStep contact = r at hspec hwf ⊢
    cases hspec with
    | updated hthere hids => exact .updated hthere hids
    | added habsent hmem hcount => exact .added habsent hmem hcount
    | refused habsent => exact .refused habsent (List.Perm.refl _)
    | split hperm _ _ => exact (ih hwf).of_perm hperm

theorem WellFormed.addContact (h : WellFormed b) (stack : Nat) (contact : Contact) :
    WellFormed (addContact stack b contact).1 := by
  induction stack generalizing b with
  | zero => exact h
  | succ stack ih =>
    have hwf := h.addStep contact
    unfold KBucket.addContact
    generalize b.addStep contact = r at hwf ⊢
    obtain ⟨b', events⟩ := r
    cases events with
    | some events => exact hwf
    | none => exact ih hwf

/-- No operation changes the local id or the size of the leaves. -/
def SameConfig (b b' : KBucket) : Prop :=
  b'._localNodeId = b._localNodeId ∧ b'._numberOfNodesPerKBucket = b._numberOfNodesPerKBucket

theorem sameConfig_addStep (b : KBucket) (contact : Contact) :
    SameConfig b (b.addStep contact).1 := by
  unfold addStep
  dsimp only
  split
  · exact ⟨rfl, rfl⟩
  · split
    · exact ⟨rfl, rfl⟩
    · split <;> exact ⟨rfl, rfl⟩

theorem sameConfig_addContact (stack : Nat) (b : KBucket) (contact : Contact) :
    SameConfig b (addContact stack b contact).1 := by
  induction stack generalizing b with
  | zero => exact ⟨rfl, rfl⟩
  | succ stack ih =>
    have hsame := sameConfig_addStep b contact
    unfold addContact
    generalize b.addStep contact = r at hsame ⊢
    obtain ⟨b', events⟩ := r
    cases events with
    | some events => exact hsame
    | none => exact ⟨(ih b').1.trans hsame.1, (ih b').2.trans hsame.2⟩

/-! ## Termination -/

/-- All ids are of length `L`. -/
def Lengths (b : KBucket) (L : Nat) : Prop := ∀ x ∈ b.toArray, x.id.length = L

/-- A split leaf is less deep than an id is long. -/
theorem split_depth (hb : b.Lengths L) (hcontact : contact.id.length = L)
    (hk : 0 < b._numberOfNodesPerKBucket) (hspec : AddStep b contact (b', none)) :
    (b.leafOf contact.id).2 < 8 * L ∧ (b'.leafOf contact.id).2 = (b.leafOf contact.id).2 + 1 ∧
      b'.Lengths L := by
  cases hspec with
  | split hperm hdeeper hfull =>
    obtain ⟨x, hx, hne, hbits⟩ := hfull hk
    refine ⟨?_, hdeeper, fun y hy => hb y (hperm.mem_iff.mp hy)⟩
    by_contra hdeep
    exact hne (eq_of_bits_eq (hb x hx) hcontact (Nat.le_of_not_lt hdeep) hbits)

/-- With `n` bits of the ids left, every stack of more than `n` calls is enough. -/
theorem WellFormed.addContact_terminates (h : WellFormed b) {n : Nat} (hb : b.Lengths L)
    (hcontact : contact.id.length = L) (hk : 0 < b._numberOfNodesPerKBucket)
    (hn : 8 * L ≤ (b.leafOf contact.id).2 + n) :
    ∃ b' events, ∀ stack, n < stack → KBucket.addContact stack b contact = (b', .ok events) := by
  induction n generalizing b with
  | zero =>
    have hspec := h.addStep_spec contact
    obtain ⟨⟨b', events⟩, hstep⟩ : ∃ r, b.addStep contact = r := ⟨_, rfl⟩
    rw [hstep] at hspec
    cases events with
    | none => exact absurd hn (Nat.not_le_of_lt (split_depth hb hcontact hk hspec).1)
    | some events =>
      refine ⟨b', events, fun stack hstack => ?_⟩
      obtain ⟨stack, rfl⟩ := exists_eq_succ_of_ne_zero (Nat.ne_of_gt hstack)
      simp [KBucket.addContact, hstep]
  | succ n ih =>
    have hspec := h.addStep_spec contact
    have hwf := h.addStep contact
    have hsame := sameConfig_addStep b contact
    obtain ⟨⟨b', events⟩, hstep⟩ : ∃ r, b.addStep contact = r := ⟨_, rfl⟩
    rw [hstep] at hspec hwf hsame
    cases events with
    | none =>
      obtain ⟨-, hdeeper, hb'⟩ := split_depth hb hcontact hk hspec
      have hn' : 8 * L ≤ (b'.leafOf contact.id).2 + n := by omega
      obtain ⟨b'', events, hrest⟩ := ih hwf hb' (hsame.2 ▸ hk) hn'
      refine ⟨b'', events, fun stack hstack => ?_⟩
      obtain ⟨stack, rfl⟩ := exists_eq_succ_of_ne_zero (Nat.ne_of_gt (zero_lt_of_lt hstack))
      simpa [KBucket.addContact, hstep] using hrest stack (lt_of_succ_lt_succ hstack)
    | some events =>
      refine ⟨b', events, fun stack hstack => ?_⟩
      obtain ⟨stack, rfl⟩ := exists_eq_succ_of_ne_zero (Nat.ne_of_gt (zero_lt_of_lt hstack))
      simp [KBucket.addContact, hstep]

/-! ## Removing -/

/-- What `remove` does. -/
inductive RemoveResult (b : KBucket) (id : Bytes) : KBucket × List KBucketEvent → Prop where
  | absent (habsent : ∀ x ∈ b.toArray, x.id ≠ id) : RemoveResult b id (b, [])
  | removed {b' : KBucket} {contact : Contact} (hthere : contact ∈ b.toArray) (hid : contact.id = id)
      (hperm : b.toArray.Perm (contact :: b'.toArray)) :
      RemoveResult b id (b', [.removed contact])

theorem WellFormed.remove_spec (h : WellFormed b) (id : Bytes) :
    RemoveResult b id (b.remove id) := by
  obtain ⟨before, after, harray, hset⟩ := toArray_setLeaf b id
  unfold KBucket.remove
  dsimp only
  cases hindex : _indexOf (b.leafOf id).1 id with
  | none => exact .absent (h.absent_of_indexOf hindex)
  | some index =>
    obtain ⟨contact, hget, hid⟩ := _indexOf_eq_some hindex
    obtain ⟨hlt, hcontact⟩ := List.getElem?_eq_some_iff.mp hget
    dsimp only
    rw [hget]
    refine .removed (mem_toArray_of_leafOf (mem_of_getElem? hget)) hid ?_
    have hperm : (b.leafOf id).1.contacts.Perm (contact :: (b.leafOf id).1.contacts.eraseIdx index) :=
      hcontact ▸ (getElem_cons_eraseIdx_perm hlt).symm
    rw [hset, harray]
    simp only [leaves, flatMap_cons, flatMap_nil, append_nil]
    refine ((hperm.append_left before).append_right after).trans ?_
    simp only [append_assoc, cons_append]
    exact perm_middle

theorem leafOk_erase {localNodeId : Bytes} {k : Nat} {path : List Bool} {node : KBucketLeaf}
    (h : LeafOk localNodeId k path node) (index : Nat) :
    LeafOk localNodeId k path { node with contacts := node.contacts.eraseIdx index } where
  placed := fun x hx => h.placed x (mem_of_mem_eraseIdx hx)
  distinct := h.distinct.sublist (eraseIdx_sublist _ _)
  size := (length_eraseIdx_le _ _).trans h.size
  noSplit := h.noSplit

theorem WellFormed.remove (h : WellFormed b) (id : Bytes) :
    WellFormed (b.remove id).1 := by
  unfold KBucket.remove
  dsimp only
  cases _indexOf (b.leafOf id).1 id with
  | none => exact h
  | some index => exact h.setLeaf_leaf id (leafOk_erase (h.leafOf id) index)

theorem sameConfig_remove (b : KBucket) (id : Bytes) : SameConfig b (b.remove id).1 := by
  unfold remove
  dsimp only
  split <;> exact ⟨rfl, rfl⟩

/-! ## Runs -/

/-- A call from outside. -/
inductive Call where
  | add (peer : PeerInfo)
  | remove (id : Bytes)

/-- The state after a call; `stack` bounds the calls of an `add`. -/
def call (stack : Nat) (b : KBucket) : Call → KBucket
  | .add peer => (add stack b peer).1
  | .remove id => (b.remove id).1

def run (stack : Nat) (b : KBucket) (calls : List Call) : KBucket := calls.foldl (call stack) b

/-- An added peer with an id has an id of length `L`. -/
def Call.idLength (L : Nat) : Call → Prop
  | .add peer => ∀ id, peer.id = some id → id.length = L
  | .remove _ => True

theorem Contact.id_eq {peer : PeerInfo} (h : peer.toContact = some contact) :
    peer.id = some contact.id := by
  unfold PeerInfo.toContact at h
  split at h
  · rw [← some.inj h]
    exact (some_get _).symm
  · cases h

theorem AddResult.lengths {r : Except KBucketError (List KBucketEvent)}
    (h : AddResult b contact (b', r)) (hb : b.Lengths L) (hcontact : contact.id.length = L) :
    b'.Lengths L := by
  cases h with
  | updated hthere hids =>
    intro x hx
    obtain ⟨y, hy, hid⟩ := mem_map.mp (hids.mem_iff.mp (mem_map_of_mem hx))
    rw [← hid]
    exact hb y hy
  | added habsent hmem hcount =>
    intro x hx
    rcases (hmem x).mp hx with rfl | hx
    · exact hcontact
    · exact hb x hx
  | refused habsent hperm => exact fun x hx => hb x (hperm.mem_iff.mp hx)
  | overflow hperm => exact fun x hx => hb x (hperm.mem_iff.mp hx)

/-- What all calls keep, whatever the ids are. -/
theorem WellFormed.call {b : KBucket} (h : WellFormed b) (stack : Nat) (c : Call) :
    WellFormed (call stack b c) ∧ SameConfig b (call stack b c) := by
  cases c with
  | remove id => exact ⟨h.remove id, sameConfig_remove b id⟩
  | add peer =>
    unfold KBucket.call KBucket.add
    dsimp only
    cases peer.toContact with
    | none => exact ⟨h, rfl, rfl⟩
    | some contact => exact ⟨h.addContact stack contact, sameConfig_addContact stack b contact⟩

theorem WellFormed.lengths_call (h : WellFormed b) (hb : b.Lengths L) (stack : Nat) {c : Call}
    (hc : c.idLength L) : (KBucket.call stack b c).Lengths L := by
  cases c with
  | remove id =>
    have hspec := h.remove_spec id
    unfold KBucket.call
    dsimp only
    generalize b.remove id = r at hspec ⊢
    cases hspec with
    | absent habsent => exact hb
    | removed hthere hid hperm =>
      exact fun x hx => hb x (hperm.mem_iff.mpr (mem_cons_of_mem _ hx))
  | add peer =>
    unfold KBucket.call KBucket.add
    dsimp only
    cases hcontact : peer.toContact with
    | none => exact hb
    | some contact =>
      exact (h.addContact_spec stack contact).lengths hb (hc contact.id (Contact.id_eq hcontact))

theorem WellFormed.run {b : KBucket} (h : WellFormed b) (stack : Nat) (calls : List Call) :
    WellFormed (run stack b calls) ∧ SameConfig b (run stack b calls) := by
  induction calls generalizing b with
  | nil => exact ⟨h, rfl, rfl⟩
  | cons c calls ih =>
    obtain ⟨hwf, hsame⟩ := h.call stack c
    obtain ⟨hrun, hsame'⟩ := ih hwf
    exact ⟨hrun, hsame'.1.trans hsame.1, hsame'.2.trans hsame.2⟩

theorem WellFormed.lengths_run (h : WellFormed b) (hb : b.Lengths L) (stack : Nat)
    {calls : List Call} (hcalls : ∀ c ∈ calls, c.idLength L) :
    (KBucket.run stack b calls).Lengths L := by
  induction calls generalizing b with
  | nil => exact hb
  | cons c calls ih =>
    rw [forall_mem_cons] at hcalls
    exact ih (h.call stack c).1 (h.lengths_call hb stack hcalls.1) hcalls.2

/-- After every run the tree is well-formed, `get` finds exactly what is stored, and every
further `add` terminates, with the same result from every stack of more calls than an id
has bits. -/
theorem run_kbucket (localNodeId : Bytes) (k ping : Nat) (hk : 1 ≤ k) (calls : List Call)
    (hcalls : ∀ c ∈ calls, c.idLength localNodeId.length) (stack : Nat) :
    let b := run stack (new localNodeId k ping) calls
    (∀ contact ∈ b.toArray, contact ∈ (b.leafOf contact.id).1.contacts) ∧
    (∀ path node, (path, node) ∈ b.nodes →
      (∀ contact ∈ node.contacts, path = bitsTo (_determineNode contact.id) path.length) ∧
      node.contacts.length ≤ k ∧
      (node.noSplit = true ↔ path ≠ bitsTo (_determineNode localNodeId) path.length)) ∧
    b.toArray.Pairwise (fun x y => x.id ≠ y.id) ∧
    (∀ id contact, b.get id = some contact ↔ contact ∈ b.toArray ∧ contact.id = id) ∧
    ∀ peer id, peer.id = some id → id.length = localNodeId.length →
      ∃ b' events, ∀ stack, 8 * localNodeId.length < stack → add stack b peer = (b', .ok events) := by
  have hnew := wellFormed_new localNodeId k ping
  obtain ⟨hwf, hlocal, hsize⟩ := hnew.run stack calls
  have hlengths := hnew.lengths_run (fun x hx => absurd hx not_mem_nil) stack hcalls
  intro b
  refine ⟨fun contact => hwf.mem_leafOf, fun path node hmem => ?_, hwf.distinct,
    fun id contact => hwf.get_eq_some, fun peer id hid hlen => ?_⟩
  · obtain ⟨hplaced, -, hroom, hnoSplit⟩ := hwf path node hmem
    rw [hsize] at hroom
    rw [hlocal] at hnoSplit
    exact ⟨hplaced, hroom, hnoSplit⟩
  · have hthere : peer.id.isSome = true := by rw [hid]; rfl
    have hcontact : peer.toContact = some ⟨peer, hthere⟩ := dif_pos hthere
    have hlen' : (⟨peer, hthere⟩ : Contact).id.length = localNodeId.length := by
      rw [← hlen, some.inj ((Contact.id_eq hcontact).symm.trans hid)]
    obtain ⟨b', events, hadd⟩ := hwf.addContact_terminates hlengths hlen'
      (hk.trans_eq hsize.symm) (Nat.le_add_left _ _)
    refine ⟨b', events, fun stack hstack => ?_⟩
    unfold add
    rw [hcontact]
    exact hadd stack hstack

def peerWithId (id : Bytes) : PeerInfo := ⟨some id, none, none, none, none⟩

/-- Leaves of one contact: the second one splits the root away from the local id. -/
theorem run_kbucket_split :
    let b := run 9 (new [0] 1 1) [.add (peerWithId [128]), .add (peerWithId [64]), .remove [128]]
    b.nodes = [([false], ⟨[⟨peerWithId [64], rfl⟩], false⟩), ([true], ⟨[], true⟩)] ∧
    ∃ b' events, ∀ stack, 8 < stack → add stack b (peerWithId [32]) = (b', .ok events) := by
  intro b
  refine ⟨by decide +kernel, ?_⟩
  have hcalls : ∀ c ∈ [Call.add (peerWithId [128]), .add (peerWithId [64]), .remove [128]],
      c.idLength [(0 : UInt8)].length := by
    intro c hc
    simp only [mem_cons, not_mem_nil, or_false] at hc
    rcases hc with rfl | rfl | rfl
    · exact fun id hid => by rw [← some.inj hid]; rfl
    · exact fun id hid => by rw [← some.inj hid]; rfl
    · trivial
  exact (run_kbucket [0] 1 1 (Nat.le_refl 1) _ hcalls 9).2.2.2.2 (peerWithId [32]) [32] rfl rfl

end KBucket
