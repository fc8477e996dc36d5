-- SUMMARY: The closest contacts of a k-bucket: the walk over its tree, and that it misses no contact that is nearer.
import TsEthereum.Kademlia.RoutingTable

/-!
# Closest contacts

Leaves are split along the local id only, so below an inner node one child is a leaf.
The walk takes the leaves in the order of their distance from the id, and its one bit
counter is the depth of the inner node it stands at. `n` is `none` for infinity.
-/

open List hiding replace

namespace KBucket

open BitTree

/-- XOR distance; a byte that one id lacks counts as 255. -/
def distance (firstId secondId : Bytes) : Nat :=
  let min := Nat.min firstId.length secondId.length
  let max := Nat.max firstId.length secondId.length
  let distance := (firstId.zip secondId).foldl
    (fun distance bytes => distance * 256 + (bytes.1 ^^^ bytes.2).toNat) 0
  (List.range (max - min)).foldl (fun distance _ => distance * 256 + 255) distance

/-- `contacts.length < n`. -/
def wantsMore (n : Option Nat) (contacts : List Contact) : Bool :=
  match n with
  | none => true
  | some n => contacts.length < n

/-- `contacts.slice(0, n)`. -/
def slice (n : Option Nat) (contacts : List Contact) : List Contact :=
  match n with
  | none => contacts
  | some n => contacts.take n

/-- The loop of `closest`, over the stack with its last node first. Every turn takes one node off
the tree. -/
def closestLoop (id : Bytes) (n : Option Nat) :
    (turns : Nat) → (nodes : List KBucketNode) → (bitIndex : Nat) → List Contact → List Contact
  | 0, _, _, contacts => contacts
  | _ + 1, [], _, contacts => contacts
  | turns + 1, node :: nodes, bitIndex, contacts =>
    if wantsMore n contacts then
      match node with
      | .inner left right =>
        if _determineNode id bitIndex then
          closestLoop id n turns (right :: left :: nodes) (bitIndex + 1) contacts
        else closestLoop id n turns (left :: right :: nodes) (bitIndex + 1) contacts
      | .leaf node => closestLoop id n turns nodes bitIndex (contacts ++ node.contacts)
    else contacts

def nodesIn : KBucketNode → Nat
  | .leaf _ => 1
  | .inner left right => nodesIn left + nodesIn right + 1

/-- The `n` closest contacts to an id. -/
def closest (b : KBucket) (id : Bytes) (n : Option Nat) : Except String (List Contact) :=
  if n = some 0 then .error "n is not positive number"
  else
    let contacts := closestLoop id n (nodesIn b._root) [b._root] 0 []
    .ok (slice n (contacts.mergeSort fun x y => distance x.id id ≤ distance y.id id))

/-! ## Distances by bits -/

variable {id : Bytes}

theorem _determineNode_of_le {i : Nat} (h : 8 * id.length ≤ i) :
    _determineNode id i = false := by
  have hbyte : id[i / 8]? = none := getElem?_eq_none (by omega)
  unfold _determineNode
  dsimp only
  split
  · rfl
  · rw [hbyte]

theorem _determineNode_append {i : Nat} (h : i < 8 * id.length) (x : UInt8) :
    _determineNode (id ++ [x]) i = _determineNode id i := by
  have hbyte : i / 8 < id.length := by omega
  have hlong : ¬((id ++ [x]).length ≤ i / 8 ∧ i % 8 ≠ 0) := by
    rw [length_append]
    omega
  have hshort : ¬(id.length ≤ i / 8 ∧ i % 8 ≠ 0) := fun hn => absurd hbyte (Nat.not_lt.mpr hn.1)
  unfold _determineNode
  simp only [if_neg hlong, if_neg hshort, getElem?_append_left hbyte]

theorem _determineNode_last (id : Bytes) (x : UInt8) {m : Nat} (hm : m < 8) :
    _determineNode (id ++ [x]) (8 * id.length + m) = x.toNat.testBit (7 - m) := by
  rw [_determineNode_eq_testBit (by simp) hm]
  simp

variable {a : Bytes}

theorem distance_append {b : Bytes} (h : a.length = b.length) (x y : UInt8) :
    distance (a ++ [x]) (b ++ [y]) = 2 ^ 8 * distance a b + (x ^^^ y).toNat := by
  simp only [distance, length_append, length_singleton, h, Nat.max_self, Nat.min_self,
    Nat.sub_self, range_zero, foldl_nil, zip_append h, zip_cons_cons,
    zip_nil_right, foldl_append, foldl_cons]
  rw [Nat.mul_comm, show (256 : Nat) = 2 ^ 8 from rfl]

/-- The bits of a distance are the exclusive or of the bits of the ids. -/
theorem testBit_distance {b : Bytes} (h : a.length = b.length) (j : Nat) :
    (distance a b).testBit j = (decide (j < 8 * a.length) &&
      (_determineNode a (8 * a.length - 1 - j) ^^ _determineNode b (8 * a.length - 1 - j))) := by
  induction a using List.reverseRecOn generalizing b j with
  | nil =>
    obtain rfl : b = [] := length_eq_zero_iff.mp h.symm
    simp [distance]
  | append_singleton a x ih =>
    obtain ⟨b, y, rfl⟩ : ∃ b' y, b = b' ++ [y] := by
      have hne : b ≠ [] := by
        rintro rfl
        simp at h
      exact ⟨b.dropLast, b.getLast hne, (dropLast_append_getLast hne).symm⟩
    have hlen : a.length = b.length := by simpa using h
    rw [distance_append hlen, Nat.testBit_two_pow_mul_add _ (UInt8.toNat_lt _), length_append,
      length_singleton]
    split
    · next hj =>
      -- a bit of the last byte
      have hindex : 8 * (a.length + 1) - 1 - j = 8 * a.length + (7 - j) := by omega
      have hbit : 7 - (7 - j) = j := by omega
      have hy := _determineNode_last b y (m := 7 - j) (by omega)
      rw [← hlen] at hy
      rw [hindex, _determineNode_last a x (by omega), hy, hbit, UInt8.toNat_xor, Nat.testBit_xor,
        decide_eq_true (by omega), Bool.true_and]
    · next hj =>
      rw [ih hlen]
      rcases Nat.lt_or_ge (j - 8) (8 * a.length) with hlt | hge
      · have hindex : 8 * (a.length + 1) - 1 - j = 8 * a.length - 1 - (j - 8) := by omega
        rw [hindex, _determineNode_append (by omega), _determineNode_append (by omega),
          decide_eq_true hlt, decide_eq_true (by omega)]
      · rw [decide_eq_false (by omega), decide_eq_false (by omega), Bool.false_and, Bool.false_and]

variable {d : Nat}

/-- Where two ids part, the one that goes on with `id` is nearer to it. -/
theorem distance_lt {b : Bytes} (ha : a.length = id.length) (hb : b.length = id.length)
    (hsame : bitsTo (_determineNode a) d = bitsTo (_determineNode b) d)
    (hnear : _determineNode a d = _determineNode id d)
    (hfar : _determineNode b d ≠ _determineNode id d) : distance a id < distance b id := by
  have hd : d < 8 * id.length := by
    by_contra hge
    have hge := Nat.le_of_not_lt hge
    apply hfar
    rw [_determineNode_of_le hge, _determineNode_of_le (hb ▸ hge)]
  have hindex : 8 * id.length - 1 - (8 * id.length - 1 - d) = d := by omega
  apply Nat.lt_of_testBit (8 * id.length - 1 - d)
  · rw [testBit_distance ha, ha, hindex, hnear]
    simp
  · rw [testBit_distance hb, hb, hindex, decide_eq_true (by omega), Bool.true_and]
    simpa using hfar
  · intro j hj
    rw [testBit_distance ha, testBit_distance hb, ha, hb]
    rcases Nat.lt_or_ge j (8 * id.length) with hlt | hge
    · rw [bitsTo_inj hsame (by omega)]
    · rw [decide_eq_false (by omega)]
      simp

/-! ## The order of the walk -/

/-- Below every inner node the child away from the local id is a leaf. -/
def Caterpillar (localNodeId : Bytes) : (depth : Nat) → KBucketNode → Prop
  | _, .leaf _ => True
  | d, .inner left right =>
    if _determineNode localNodeId d then (∃ node, left = .leaf node) ∧ Caterpillar localNodeId (d + 1) right
    else (∃ node, right = .leaf node) ∧ Caterpillar localNodeId (d + 1) left

/-- The contacts of the leaves in the order in which the bits of `id` turn to them. -/
def blocks (id : Bytes) : (depth : Nat) → KBucketNode → List (List Contact)
  | _, .leaf node => [node.contacts]
  | d, .inner left right =>
    if _determineNode id d then blocks id (d + 1) right ++ blocks id (d + 1) left
    else blocks id (d + 1) left ++ blocks id (d + 1) right

/-- Takes blocks as long as there are not enough contacts. -/
def gather (n : Option Nat) : (contacts : List Contact) → List (List Contact) → List Contact
  | contacts, [] => contacts
  | contacts, block :: rest =>
    if wantsMore n contacts then gather n (contacts ++ block) rest else contacts

/-- The nearer child of an inner node, and the other one. -/
def nearer (id : Bytes) (d : Nat) (left right : KBucketNode) : KBucketNode :=
  if _determineNode id d then right else left

def farther (id : Bytes) (d : Nat) (left right : KBucketNode) : KBucketNode :=
  if _determineNode id d then left else right

theorem nearer_cases (id : Bytes) (d : Nat) (left right : KBucketNode) :
    nearer id d left right = left ∨ nearer id d left right = right := by
  unfold nearer
  split
  · exact .inr rfl
  · exact .inl rfl

theorem farther_cases (id : Bytes) (d : Nat) (left right : KBucketNode) :
    farther id d left right = left ∨ farther id d left right = right := by
  unfold farther
  split
  · exact .inl rfl
  · exact .inr rfl

theorem blocks_inner (id : Bytes) (d : Nat) (left right : KBucketNode) :
    blocks id d (.inner left right) =
      blocks id (d + 1) (nearer id d left right) ++ blocks id (d + 1) (farther id d left right) := by
  simp only [blocks, nearer, farther]
  split <;> rfl

variable {contacts : List Contact}

theorem closestLoop_inner (id : Bytes) (n : Option Nat) (turns d : Nat) (left right : KBucketNode)
    (nodes : List KBucketNode) (hmore : wantsMore n contacts = true) :
    closestLoop id n (turns + 1) (.inner left right :: nodes) d contacts =
      closestLoop id n turns (nearer id d left right :: farther id d left right :: nodes) (d + 1)
        contacts := by
  simp only [closestLoop, hmore, if_true, nearer, farther]
  split <;> rfl

variable {localNodeId : Bytes}

/-- One of the two children of an inner node is a leaf, and the other one goes on. -/
theorem Caterpillar.children {left right : KBucketNode}
    (h : Caterpillar localNodeId d (.inner left right)) (id : Bytes) :
    ((∃ node, farther id d left right = .leaf node) ∧
        Caterpillar localNodeId (d + 1) (nearer id d left right)) ∨
      ((∃ node, nearer id d left right = .leaf node) ∧
        Caterpillar localNodeId (d + 1) (farther id d left right)) := by
  unfold Caterpillar at h
  unfold nearer farther
  split at h
  · split
    · exact .inl h
    · exact .inr h
  · split
    · exact .inr h
    · exact .inl h

theorem nodesIn_children (id : Bytes) (d : Nat) (left right : KBucketNode) :
    nodesIn (nearer id d left right) + nodesIn (farther id d left right) = nodesIn left + nodesIn right := by
  unfold nearer farther
  split
  · exact Nat.add_comm _ _
  · rfl

variable {n : Option Nat}

theorem gather_of_enough (h : wantsMore n contacts = false) (rest : List (List Contact)) :
    gather n contacts rest = contacts := by
  cases rest with
  | nil => rfl
  | cons block rest => simp only [gather, h, Bool.false_eq_true, if_false]

theorem closestLoop_of_enough (id : Bytes) (turns : Nat) (nodes : List KBucketNode) (bitIndex : Nat)
    (h : wantsMore n contacts = false) :
    closestLoop id n turns nodes bitIndex contacts = contacts := by
  cases turns with
  | zero => rfl
  | succ turns =>
    cases nodes with
    | nil => rfl
    | cons node nodes => simp only [closestLoop, h, Bool.false_eq_true, if_false]

theorem closestLoop_leaves (id : Bytes) (n : Option Nat) {turns : Nat} (bitIndex : Nat)
    (leaves : List KBucketLeaf) (hturns : leaves.length ≤ turns) (contacts : List Contact) :
    closestLoop id n turns (leaves.map .leaf) bitIndex contacts =
      gather n contacts (leaves.map KBucketLeaf.contacts) := by
  induction leaves generalizing turns contacts with
  | nil => cases turns <;> rfl
  | cons leaf leaves ih =>
    obtain ⟨turns, rfl⟩ := Nat.exists_eq_succ_of_ne_zero (Nat.ne_of_gt (Nat.lt_of_lt_of_le
      (Nat.succ_pos leaves.length) hturns))
    have hturns : leaves.length ≤ turns := Nat.le_of_succ_le_succ hturns
    simp only [map_cons, closestLoop, gather]
    split
    · exact ih hturns _
    · rfl

variable {t : KBucketNode}

/-- The walk takes the leaves of a subtree in order; at most one node of the stack is inner, and
the counter is the depth of that node. -/
theorem closestLoop_eq (id : Bytes) (n : Option Nat) (ht : Caterpillar localNodeId d t)
    (leaves : List KBucketLeaf) {turns : Nat} (hturns : nodesIn t + leaves.length ≤ turns)
    (contacts : List Contact) :
    closestLoop id n turns (t :: leaves.map .leaf) d contacts =
      gather n contacts (blocks id d t ++ leaves.map KBucketLeaf.contacts) := by
  induction t generalizing d leaves turns contacts with
  | leaf node =>
    have hlength : (node :: leaves).length ≤ turns := by
      rw [length_cons, Nat.add_comm]
      exact hturns
    exact closestLoop_leaves id n d (node :: leaves) hlength contacts
  | inner left right ihl ihr =>
    cases hmore : wantsMore n contacts with
    | false => rw [closestLoop_of_enough id turns _ d hmore, gather_of_enough hmore]
    | true =>
      have hsum := nodesIn_children id d left right
      simp only [nodesIn] at hturns
      obtain ⟨turns, rfl⟩ : ∃ turns', turns = turns' + 1 := ⟨turns - 1, by omega⟩
      rw [closestLoop_inner id n turns d left right _ hmore, blocks_inner, append_assoc]
      rcases ht.children id with ⟨⟨node, hnode⟩, hnear⟩ | ⟨⟨node, hnode⟩, hfar⟩
      · -- the farther child waits as a leaf below the nearer one
        rw [hnode] at hsum ⊢
        have hturns : nodesIn (nearer id d left right) + (node :: leaves).length ≤ turns := by
          simp only [nodesIn, length_cons] at hsum ⊢
          omega
        rcases nearer_cases id d left right with heq | heq
        · rw [heq] at hnear hturns ⊢
          exact ihl hnear (node :: leaves) hturns contacts
        · rw [heq] at hnear hturns ⊢
          exact ihr hnear (node :: leaves) hturns contacts
      · -- the nearer child is taken first, and the counter is right for the farther one
        rw [hnode] at hsum ⊢
        simp only [nodesIn] at hsum
        obtain ⟨turns, rfl⟩ : ∃ turns', turns = turns' + 1 := ⟨turns - 1, by omega⟩
        have hturns : nodesIn (farther id d left right) + leaves.length ≤ turns := by omega
        simp only [closestLoop, hmore, if_true, blocks, cons_append, nil_append, gather]
        rcases farther_cases id d left right with heq | heq
        · rw [heq] at hfar hturns ⊢
          exact ihl hfar leaves hturns _
        · rw [heq] at hfar hturns ⊢
          exact ihr hfar leaves hturns _

/-! ## Blocks by distance -/

/-- The contacts of a tree. -/
def contents (t : KBucketNode) (path : List Bool) : List Contact :=
  (leaves t path).flatMap fun e => e.2.contacts

/-- Every contact below `path` is in the leaf that its id leads to. -/
def Placed (t : KBucketNode) (path : List Bool) : Prop :=
  ∀ leafPath node, (leafPath, node) ∈ leaves t path → ∀ contact ∈ node.contacts,
    leafPath = bitsTo (_determineNode contact.id) leafPath.length

variable {path : List Bool}

theorem Placed.left {left right : KBucketNode} (h : Placed (.inner left right) path) :
    Placed left (path ++ [false]) :=
  fun leafPath node hmem => h leafPath node (mem_append_left _ hmem)

theorem Placed.right {left right : KBucketNode} (h : Placed (.inner left right) path) :
    Placed right (path ++ [true]) :=
  fun leafPath node hmem => h leafPath node (mem_append_right _ hmem)

/-- The ids below a path begin with its bits. -/
theorem Placed.bits (h : Placed t path) {contact : Contact} (hmem : contact ∈ contents t path) :
    bitsTo (_determineNode contact.id) path.length = path := by
  obtain ⟨⟨leafPath, node⟩, hleaf, hcontact⟩ := mem_flatMap.mp hmem
  have hplaced := h leafPath node hleaf contact hcontact
  obtain ⟨rest, hrest⟩ := prefix_of_mem_leaves hleaf
  have htake : (bitsTo (_determineNode contact.id) leafPath.length).take path.length =
      bitsTo (_determineNode contact.id) path.length := by
    rw [bitsTo, ← map_take, take_range, ← hrest, length_append,
      Nat.min_eq_left (Nat.le_add_right _ _)]
    rfl
  rw [← htake, ← hplaced, ← hrest, take_left]

theorem Placed.bit {b : Bool} (h : Placed t (path ++ [b])) {contact : Contact}
    (hmem : contact ∈ contents t (path ++ [b])) :
    bitsTo (_determineNode contact.id) path.length = path ∧
      _determineNode contact.id path.length = b := by
  have hbits := h.bits hmem
  rw [length_append, length_singleton, bitsTo_succ] at hbits
  obtain ⟨hpath, hbit⟩ := append_inj' hbits rfl
  exact ⟨hpath, List.singleton_inj.mp hbit⟩

theorem contents_inner (left right : KBucketNode) (path : List Bool) :
    contents (.inner left right) path =
      contents left (path ++ [false]) ++ contents right (path ++ [true]) := flatMap_append

theorem blocks_perm :
    (blocks id d t).flatten.Perm (contents t path) := by
  induction t generalizing d path with
  | leaf node => simp [blocks, contents, leaves]
  | inner left right ihl ihr =>
    simp only [contents, leaves, flatMap_append]
    unfold blocks
    split
    · rw [flatten_append]
      exact perm_append_comm.trans (ihl.append ihr)
    · rw [flatten_append]
      exact ihl.append ihr

/-- Every contact of an earlier block is nearer than every one of a later block. -/
theorem blocks_ordered (h : Placed t path)
    (hlength : ∀ contact ∈ contents t path, contact.id.length = id.length) :
    (blocks id path.length t).Pairwise fun near far =>
      ∀ x ∈ near, ∀ y ∈ far, distance x.id id ≤ distance y.id id := by
  induction t generalizing path with
  | leaf node => exact pairwise_singleton _ _
  | inner left right ihl ihr =>
    rw [contents_inner] at hlength
    have hl := ihl h.left fun contact hmem => hlength contact (mem_append_left _ hmem)
    have hr := ihr h.right fun contact hmem => hlength contact (mem_append_right _ hmem)
    rw [length_append, length_singleton] at hl hr
    -- the ids on both sides share the bits of the path and part at the next one
    have hacross : ∀ x ∈ contents left (path ++ [false]), ∀ y ∈ contents right (path ++ [true]),
        (_determineNode id path.length = false → distance x.id id ≤ distance y.id id) ∧
          (_determineNode id path.length = true → distance y.id id ≤ distance x.id id) := by
      intro x hx y hy
      obtain ⟨hxpath, hxbit⟩ := h.left.bit hx
      obtain ⟨hypath, hybit⟩ := h.right.bit hy
      have hxlen := hlength x (mem_append_left _ hx)
      have hylen := hlength y (mem_append_right _ hy)
      constructor
      · intro hbit
        apply Nat.le_of_lt
        apply distance_lt hxlen hylen (hxpath.trans hypath.symm) (hxbit.trans hbit.symm)
        rw [hybit, hbit]
        exact Bool.true_eq_false_eq_False
      · intro hbit
        apply Nat.le_of_lt
        apply distance_lt hylen hxlen (hypath.trans hxpath.symm) (hybit.trans hbit.symm)
        rw [hxbit, hbit]
        exact Bool.false_ne_true
    have hmem : ∀ {t : KBucketNode} {p : List Bool} {block : List Contact} {x : Contact},
        block ∈ blocks id (path.length + 1) t → x ∈ block → x ∈ contents t p := by
      intro t p block x hblock hx
      exact blocks_perm.mem_iff.mp (List.mem_flatten.mpr ⟨block, hblock, hx⟩)
    unfold blocks
    split
    · next hbit =>
      refine pairwise_append.mpr ⟨hr, hl, fun near hnear far hfar y hy x hx => ?_⟩
      exact (hacross x (hmem hfar hx) y (hmem hnear hy)).2 hbit
    · next hbit =>
      refine pairwise_append.mpr ⟨hl, hr, fun near hnear far hfar x hx y hy => ?_⟩
      exact (hacross x (hmem hnear hx) y (hmem hfar hy)).1 (Bool.eq_false_of_not_eq_true hbit)

/-! ## What the walk has gathered -/

/-- The walk takes the first blocks: all of them, or enough. -/
theorem gather_spec (n : Option Nat) (contacts : List Contact) (rest : List (List Contact)) :
    ∃ k, gather n contacts rest = contacts ++ (rest.take k).flatten ∧
      (rest.length ≤ k ∨ wantsMore n (gather n contacts rest) = false) := by
  induction rest generalizing contacts with
  | nil => exact ⟨0, (append_nil _).symm, .inl (Nat.le_refl 0)⟩
  | cons block rest ih =>
    unfold gather
    split
    · obtain ⟨k, heq, hall⟩ := ih (contacts ++ block)
      refine ⟨k + 1, ?_, hall.imp_left Nat.succ_le_succ⟩
      rw [heq, take_succ_cons, flatten_cons, append_assoc]
    · next hmore =>
      exact ⟨0, (append_nil _).symm, .inr (Bool.eq_false_of_not_eq_true hmore)⟩

/-! ## The tree along the local id -/

theorem Caterpillar.replace_leaf (h : Caterpillar localNodeId d t) (bits : Nat → Bool)
    (node : KBucketLeaf) :
    Caterpillar localNodeId d (t.replace bits d (.leaf node)) := by
  have hleaf : ∀ {t : KBucketNode} (d : Nat), (∃ a, t = .leaf a) →
      ∃ a, t.replace bits d (.leaf node) = .leaf a := by
    rintro _ d ⟨a, rfl⟩
    exact ⟨node, rfl⟩
  induction t generalizing d with
  | leaf a => trivial
  | inner left right ihl ihr =>
    unfold Caterpillar at h
    unfold replace
    split at h
    · next hlocal =>
      split
      · exact (if_pos hlocal).mpr ⟨h.1, ihr h.2⟩
      · exact (if_pos hlocal).mpr ⟨hleaf _ h.1, h.2⟩
    · next hlocal =>
      split
      · exact (if_neg hlocal).mpr ⟨hleaf _ h.1, h.2⟩
      · exact (if_neg hlocal).mpr ⟨h.1, ihl h.2⟩

/-- A leaf on the path of the local id may be split. -/
theorem Caterpillar.replace_split (h : Caterpillar localNodeId d t) {bits : Nat → Bool}
    (hpath : ∀ i, d ≤ i → i < (t.find bits d).2 → bits i = _determineNode localNodeId i)
    (left right : KBucketLeaf) :
    Caterpillar localNodeId d (t.replace bits d (.inner (.leaf left) (.leaf right))) := by
  induction t generalizing d with
  | leaf a =>
    unfold replace Caterpillar
    split
    · exact ⟨⟨left, rfl⟩, trivial⟩
    · exact ⟨⟨right, rfl⟩, trivial⟩
  | inner l r ihl ihr =>
    have hdeep : d < (find (.inner l r) bits d).2 := by
      unfold find
      split
      · exact le_find r bits (d + 1)
      · exact le_find l bits (d + 1)
    have hbit := hpath d (Nat.le_refl d) hdeep
    unfold Caterpillar at h
    unfold replace
    unfold find at hpath
    split at h
    · next hlocal =>
      rw [hlocal] at hbit
      rw [if_pos hbit] at hpath ⊢
      exact (if_pos hlocal).mpr ⟨h.1, ihr h.2 fun i hi => hpath i (Nat.le_of_succ_le hi)⟩
    · next hlocal =>
      have hbit' : ¬ bits d = true := hbit ▸ hlocal
      rw [if_neg hbit'] at hpath ⊢
      exact (if_neg hlocal).mpr ⟨h.1, ihl h.2 fun i hi => hpath i (Nat.le_of_succ_le hi)⟩

/-- The tree of a bucket is split along its local id. -/
def AlongLocal (b : KBucket) : Prop := Caterpillar b._localNodeId 0 b._root

variable {b : KBucket}

theorem AlongLocal.addStep (h : AlongLocal b) (hwf : WellFormed b) (contact : Contact) :
    AlongLocal (b.addStep contact).1 := by
  unfold KBucket.addStep
  dsimp only
  cases _indexOf (b.leafOf contact.id).1 contact.id with
  | some index => exact Caterpillar.replace_leaf h _ _
  | none =>
    dsimp only
    split
    · exact Caterpillar.replace_leaf h _ _
    · split
      · exact h
      · next hsplit =>
        -- only a leaf on the path of the local id is split
        have hlocal : b.pathOf contact.id = bitsTo (_determineNode b._localNodeId) (b.leafOf contact.id).2 := by
          by_contra hne
          apply hsplit
          apply (hwf.leafOf contact.id).noSplit.mpr
          rw [pathOf, length_bitsTo]
          exact hne
        exact Caterpillar.replace_split h (fun i _ hi => bitsTo_inj hlocal hi) _ _

theorem AlongLocal.addContact (h : AlongLocal b) (hwf : WellFormed b) (stack : Nat)
    (contact : Contact) : AlongLocal (b.addContact stack contact).1 := by
  induction stack generalizing b with
  | zero => exact h
  | succ stack ih =>
    have hstep := h.addStep hwf contact
    have hwf' := hwf.addStep contact
    unfold KBucket.addContact
    generalize KBucket.addStep b contact = r at hstep hwf'
    obtain ⟨b', events⟩ := r
    cases events with
    | some events => exact hstep
    | none => exact ih hstep hwf'

theorem AlongLocal.call {b : KBucket} (h : AlongLocal b) (hwf : WellFormed b) (stack : Nat) (c : Call) :
    AlongLocal (call stack b c) := by
  cases c with
  | remove id =>
    unfold KBucket.call KBucket.remove
    dsimp only
    split
    · exact h
    · exact Caterpillar.replace_leaf h _ _
  | add peer =>
    unfold KBucket.call KBucket.add
    dsimp only
    cases peer.toContact with
    | none => exact h
    | some contact => exact h.addContact hwf stack contact

theorem AlongLocal.run {b : KBucket} (h : AlongLocal b) (hwf : WellFormed b) (stack : Nat)
    (calls : List Call) : AlongLocal (run stack b calls) := by
  induction calls generalizing b with
  | nil => exact h
  | cons c calls ih => exact ih (h.call hwf stack c) (hwf.call stack c).1

/-! ## The closest contacts -/

theorem WellFormed.placed (h : WellFormed b) : Placed b._root [] :=
  fun path node hmem => (h path node hmem).placed

/-- The walk gathers contacts of which none left out is nearer: all of them, or enough. -/
theorem walk_spec (hwf : WellFormed b) (halong : AlongLocal b) (hlengths : b.Lengths id.length)
    (n : Option Nat) :
    ∃ rest, (closestLoop id n (nodesIn b._root) [b._root] 0 [] ++ rest).Perm b.toArray ∧
      (∀ x ∈ closestLoop id n (nodesIn b._root) [b._root] 0 [], ∀ y ∈ rest,
        distance x.id id ≤ distance y.id id) ∧
      (rest = [] ∨ wantsMore n (closestLoop id n (nodesIn b._root) [b._root] 0 []) = false) := by
  have hloop : closestLoop id n (nodesIn b._root) [b._root] 0 [] =
      gather n [] (blocks id 0 b._root ++ []) := closestLoop_eq id n halong [] (Nat.le_refl _) []
  have hordered := blocks_ordered hwf.placed hlengths
  have hperm : (blocks id 0 b._root).flatten.Perm b.toArray := blocks_perm
  obtain ⟨k, hgather, henough⟩ := gather_spec n [] (blocks id 0 b._root)
  rw [append_nil] at hloop
  rw [hloop, hgather, nil_append]
  refine ⟨((blocks id 0 b._root).drop k).flatten, ?_, ?_, ?_⟩
  · rw [← flatten_append, take_append_drop]
    exact hperm
  · intro x hx y hy
    obtain ⟨near, hnear, hx⟩ := List.mem_flatten.mp hx
    obtain ⟨far, hfar, hy⟩ := List.mem_flatten.mp hy
    rw [length_nil, ← take_append_drop k (blocks id 0 b._root)] at hordered
    exact (pairwise_append.mp hordered).2.2 near hnear far hfar x hx y hy
  · rw [← nil_append ((blocks id 0 b._root).take k).flatten, ← hgather]
    refine henough.imp_left fun hk => ?_
    rw [drop_eq_nil_of_le hk]
    rfl

/-- `min(n, count)`. -/
def atMost (n : Option Nat) (count : Nat) : Nat :=
  match n with
  | none => count
  | some n => min n count

/-- Cutting a list after `n` elements. -/
theorem slice_append (n : Option Nat) (contacts : List Contact) :
    ∃ cut, slice n contacts ++ cut = contacts ∧ (slice n contacts).length = atMost n contacts.length := by
  cases n with
  | none => exact ⟨[], append_nil _, rfl⟩
  | some n => exact ⟨contacts.drop n, take_append_drop n contacts, length_take⟩

theorem atMost_of_enough (h : wantsMore n contacts = false) {count : Nat}
    (hcount : contacts.length ≤ count) :
    atMost n contacts.length = atMost n count := by
  cases n with
  | none => cases h
  | some n =>
    have hn : n ≤ contacts.length := Nat.not_lt.mp (of_decide_eq_false h)
    rw [atMost, atMost, Nat.min_eq_left hn, Nat.min_eq_left (hn.trans hcount)]

/-- The contacts that `closest` returns: as many as there are and asked for, no id twice, none
left out that is nearer, and in the order of their distance. -/
theorem closest_spec (hwf : WellFormed b) (halong : AlongLocal b) (hlengths : b.Lengths id.length)
    (hn : n ≠ some 0) :
    ∃ contacts, b.closest id n = .ok contacts ∧ contacts.length = atMost n b.count ∧
      contacts.Pairwise (fun x y => x.id ≠ y.id) ∧ (∀ x ∈ contacts, x ∈ b.toArray) ∧
      (∀ x ∈ b.toArray, x ∉ contacts → ∀ y ∈ contacts, distance y.id id ≤ distance x.id id) ∧
      contacts.Pairwise fun x y => distance x.id id ≤ distance y.id id := by
  obtain ⟨rest, hperm, hnear, henough⟩ := walk_spec hwf halong hlengths n
  refine ⟨_, if_neg hn, ?_⟩
  generalize closestLoop id n (nodesIn b._root) [b._root] 0 [] = gathered at hperm hnear henough
  have hsame := mergeSort_perm gathered fun x y => decide (distance x.id id ≤ distance y.id id)
  have hsorted : (gathered.mergeSort fun x y => decide (distance x.id id ≤ distance y.id id)).Pairwise
      fun x y => distance x.id id ≤ distance y.id id := by
    refine (pairwise_mergeSort ?_ ?_ gathered).imp of_decide_eq_true
    · intro x y z hxy hyz
      exact decide_eq_true ((of_decide_eq_true hxy).trans (of_decide_eq_true hyz))
    · intro x y
      rw [Bool.or_eq_true, decide_eq_true_eq, decide_eq_true_eq]
      exact Nat.le_total _ _
  generalize gathered.mergeSort (fun x y => decide (distance x.id id ≤ distance y.id id)) = sorted
    at hsame hsorted
  obtain ⟨cut, hcut, hlength⟩ := slice_append n sorted
  have hcount : b.count = gathered.length + rest.length := by
    rw [RoutingTable.count_eq_length, ← hperm.length_eq, length_append]
  -- what is returned, what is cut off and what was not visited are all contacts
  have hall : (slice n sorted ++ (cut ++ rest)).Perm b.toArray := by
    rw [← append_assoc, hcut]
    exact (hsame.append_right rest).trans hperm
  refine ⟨?_, ?_, ?_, ?_, ?_⟩
  · rw [hlength, hsame.length_eq, hcount]
    rcases henough with rfl | henough
    · rfl
    · exact atMost_of_enough henough (Nat.le_add_right _ _)
  · exact (pairwise_append.mp (hall.symm.pairwise hwf.distinct fun hne => hne.symm)).1
  · exact fun x hx => hall.mem_iff.mp (mem_append_left _ hx)
  · intro x hx hout y hy
    rcases mem_append.mp (hall.mem_iff.mpr hx) with hx | hx
    · exact absurd hx hout
    · rcases mem_append.mp hx with hx | hx
      · rw [← hcut] at hsorted
        exact (pairwise_append.mp hsorted).2.2 y hy x hx
      · apply hnear y _ x hx
        exact hsame.mem_iff.mp (hcut ▸ mem_append_left cut hy)
  · rw [← hcut] at hsorted
    exact (pairwise_append.mp hsorted).1

/-- After every run over ids of one length, for every id of that length. -/
theorem closest_run (localNodeId : Bytes) (k ping stack L : Nat) {calls : List Call}
    (hcalls : ∀ c ∈ calls, c.idLength L) {id : Bytes} (hid : id.length = L) {n : Option Nat}
    (hn : n ≠ some 0) :
    let b := run stack (new localNodeId k ping) calls
    ∃ contacts, b.closest id n = .ok contacts ∧ contacts.length = atMost n b.count ∧
      contacts.Pairwise (fun x y => x.id ≠ y.id) ∧ (∀ x ∈ contacts, x ∈ b.toArray) ∧
      (∀ x ∈ b.toArray, x ∉ contacts → ∀ y ∈ contacts, distance y.id id ≤ distance x.id id) ∧
      contacts.Pairwise fun x y => distance x.id id ≤ distance y.id id := by
  have hnew := wellFormed_new localNodeId k ping
  have halong : AlongLocal (new localNodeId k ping) := trivial
  have hlengths := hnew.lengths_run (fun x hx => absurd hx not_mem_nil) stack hcalls
  exact closest_spec (hnew.run stack calls).1 (halong.run hnew stack calls) (hid ▸ hlengths) hn

/-- Three contacts in two leaves, and the nearest two of an id across them. -/
theorem closest_run_across :
    let b := run 9 (new [0] 2 1)
      [.add (peerWithId [128]), .add (peerWithId [64]), .add (peerWithId [1])]
    ∃ contacts, b.closest [65] (some 2) = .ok contacts ∧ contacts.length = atMost (some 2) b.count ∧
      contacts.Pairwise (fun x y => x.id ≠ y.id) ∧ (∀ x ∈ contacts, x ∈ b.toArray) ∧
      (∀ x ∈ b.toArray, x ∉ contacts → ∀ y ∈ contacts, distance y.id [65] ≤ distance x.id [65]) ∧
      contacts.Pairwise fun x y => distance x.id [65] ≤ distance y.id [65] := by
  have hid : ∀ x : UInt8, (Call.add (peerWithId [x])).idLength 1 := by
    intro x id hid
    rw [← Option.some.inj hid]
    rfl
  refine closest_run [0] 2 1 9 1 ?_ rfl nofun
  simp only [forall_mem_cons]
  exact ⟨hid 128, hid 64, hid 1, nofun⟩

end KBucket
