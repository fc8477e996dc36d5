-- SUMMARY: The nodes that put updates after a change at the end of a walk: those of the changed trie over the change.
import TsEthereum.StateManager.BinaryTree.Reads

/-!
# Rebuilding the way to the root

After the stem node has changed, the internal nodes over it are updated from the deepest
to the root: those of the walk, and where a stem node makes room for another one, the
chain of nodes that their stems share.
-/

open List

namespace StateManager.BinaryTree

open BinaryNode SplitTrie InternalBinaryNode Context

variable (hashFunction : Bytes → Bytes)

/-- A subtrie on the put stack. -/
def entry (x : Bits × Trie) : Bytes × Option BinaryNode :=
  (digest hashFunction x.2, some (nodeOf hashFunction x.1 x.2))

/-- The internal node at `p` with `t` on the side of the bit. -/
def nodeAt (p : Bits) (b : Bool) (t s : Trie) : InternalBinaryNode :=
  match b with
  | false => ⟨reference hashFunction (p ++ [false]) t, reference hashFunction (p ++ [true]) s⟩
  | true => ⟨reference hashFunction (p ++ [false]) s, reference hashFunction (p ++ [true]) t⟩

variable {hashFunction}

def IsNode (t : Trie) : Prop := ∃ left right, t = .node left right

theorem isNode_branch (b : Bool) (t s : Trie) : IsNode (branch b t s) := by
  cases b <;> exact ⟨_, _, rfl⟩

variable {t : Trie}

theorem isNode_plug (ht : IsNode t) (c : Context StemBinaryNode) : IsNode (plug t c) := by
  induction c generalizing t with
  | nil => exact ht
  | cons side c ih => exact ih (isNode_branch _ _ _)

@[simp] theorem nodeOf_branch (p : Bits) (b : Bool) (t s : Trie) :
    nodeOf hashFunction p (branch b t s) = .internal (nodeAt hashFunction p b t s) := by
  cases b <;> rfl

variable (hashFunction) in
theorem setChild_nodeAt (p : Bits) (b : Bool) (t t' s : Trie) :
    (nodeAt hashFunction p b t s).setChild (some b) (reference hashFunction (p ++ [b]) t') =
      nodeAt hashFunction p b t' s := by
  cases b <;> rfl

variable (hashFunction) in
theorem create_setChild (p : Bits) (b : Bool) (t : Trie) :
    create.setChild (some b) (reference hashFunction (p ++ [b]) t) =
      nodeAt hashFunction p b t .empty := by
  cases b <;> rfl

variable (hashFunction) in
theorem create_setChild_both (p : Bits) (b : Bool) (t s : Trie) :
    (create.setChild (some b) (reference hashFunction (p ++ [b]) t)).setChild
        (some !b) (reference hashFunction (p ++ [!b]) s) = nodeAt hashFunction p b t s := by
  cases b <;> rfl

variable (hashFunction) in
theorem reference_isNode {p : Bits} (ht : IsNode t) :
    reference hashFunction p t = some ⟨digest hashFunction t, p⟩ := by
  obtain ⟨left, right, rfl⟩ := ht
  rfl

section Rebuild

variable (hlen : ∀ msg, (hashFunction msg).length = 32)

include hlen

theorem merkelize_isNode {p : Bits} {t : Trie} (ht : IsNode t) :
    merkelize hashFunction (nodeOf hashFunction p t) = .ok (digest hashFunction t) := by
  obtain ⟨left, right, rfl⟩ := ht
  exact merkelize_internal hlen left right

theorem merkelize_nodeAt (p : Bits) (b : Bool) (t s : Trie) :
    merkelize hashFunction (.internal (nodeAt hashFunction p b t s)) =
      .ok (digest hashFunction (branch b t s)) := by
  rw [← nodeOf_branch]
  exact merkelize_isNode hlen (isNode_branch b t s)

omit hlen in
variable (hashFunction) in
theorem updateParents_cons (node : InternalBinaryNode) (path : Bits) (next : BinaryNode × Bits)
    (stack : List (BinaryNode × Bits)) (child : Bytes × Option BinaryNode) (putStack : PutStack)
    (lastUpdatedParentPath : Bits) :
    updateParents hashFunction ((.internal node, path) :: next :: stack) (child :: putStack)
        lastUpdatedParentPath = (do
      let node := node.setChild lastUpdatedParentPath.getLast? (some ⟨child.1, lastUpdatedParentPath⟩)
      let key ← merkelize hashFunction (.internal node)
      updateParents hashFunction (next :: stack) ((key, some (.internal node)) :: child :: putStack)
        path) :=
  rfl

variable {c : Context StemBinaryNode} {w : Trie}

/-- Steps 3 and 4 over a changed internal node: they update the nodes over it. -/
theorem updateParents_spec {stemNode : StemBinaryNode} (hne : c ≠ [])
    (hpath : c.bits <+: stemBits stemNode) (u : Trie) (hw : IsNode w) (putStack : PutStack) :
    ∃ putStack', (do
        let (rootNode, putStack, lastUpdatedParentPath) ← updateParents hashFunction
          (stackOf hashFunction (upward [] c u)) (entry hashFunction (c.bits, w) :: putStack) c.bits
        updateRoot hashFunction stemNode rootNode putStack lastUpdatedParentPath) =
          .ok (nodeOf hashFunction [] (plug w c), putStack') ∧
      entry hashFunction ([], plug w c) :: putStack' =
        ((upward [] c w).map (entry hashFunction)).reverse ++
          entry hashFunction (c.bits, w) :: putStack := by
  induction c generalizing u w putStack with
  | nil => exact absurd rfl hne
  | cons side c ih =>
    obtain ⟨b, s⟩ := side
    have hlast : (Context.bits c ++ [b]).getLast? = some b := by simp
    rw [bits_cons] at hpath ⊢
    cases c with
    | nil =>
      -- The node stands right below the root.
      have hbit : (stemBits stemNode)[0]? = some b := by
        obtain ⟨l, hl⟩ := hpath
        rw [← hl]
        rfl
      have hmerk := merkelize_isNode hlen (p := [b]) hw
      have hset := setChild_nodeAt hashFunction [] b u w s
      obtain ⟨left, right, rfl⟩ := hw
      refine ⟨entry hashFunction ([b], .node left right) :: putStack, ?_, rfl⟩
      simp only [upward, stackOf, map_cons, map_nil, nodeOf_branch, updateParents, bind,
        Except.bind, plug]
      simp only [updateRoot, entry, bits_nil, nil_append, hmerk]
      simp only [nodeOf, isStemBinaryNode, ← stemBits.eq_1, hbit]
      exact congrArg (fun node => Except.ok (BinaryNode.internal node, _)) hset
    | cons side' c =>
      obtain ⟨b', s'⟩ := side'
      have hset := setChild_nodeAt hashFunction (Context.bits ((b', s') :: c)) b u w s
      rw [reference_isNode hashFunction hw] at hset
      obtain ⟨putStack', hsteps, hstack⟩ := ih (cons_ne_nil _ _)
        ((prefix_append _ _).trans hpath) (branch b u s) (isNode_branch b w s)
        (entry hashFunction (Context.bits ((b', s') :: c) ++ [b], w) :: putStack)
      refine ⟨putStack', ?_, ?_⟩
      · have hstep := updateParents_cons hashFunction
          (nodeAt hashFunction (Context.bits ((b', s') :: c)) b u s) (Context.bits ((b', s') :: c))
          (nodeOf hashFunction (Context.bits c) (branch b' (branch b u s) s'), Context.bits c)
          (stackOf hashFunction (upward [] c (branch b' (branch b u s) s')))
          (entry hashFunction (Context.bits ((b', s') :: c) ++ [b], w)) putStack
          (Context.bits ((b', s') :: c) ++ [b])
        rw [hlast] at hstep
        simp only [entry, hset, merkelize_nodeAt hlen, bind, Except.bind] at hstep
        refine Eq.trans ?_ hsteps
        simp only [entry, nodeOf_branch]
        simp only [nodeOf_branch] at hstep
        simp only [upward, stackOf, map_cons, nodeOf_branch, nil_append]
        simp only [stackOf] at hstep
        rw [hstep]
      · rw [upward, map_cons, reverse_cons, append_assoc]
        exact hstack

/-- Internal nodes are pushed as they are. -/
theorem pushUpdates_spec {l : List (Bits × Trie)} (hl : ∀ x ∈ l, IsNode x.2) (putStack : PutStack) :
    pushUpdates hashFunction (stackOf hashFunction l) putStack =
      .ok (l.map (entry hashFunction) ++ putStack) := by
  have hmap : ((stackOf hashFunction l).mapM fun update => do
      let key ← merkelize hashFunction update.1
      return (key, some update.1)) = (.ok (l.map (entry hashFunction)) : Except String PutStack) := by
    induction l with
    | nil => rfl
    | cons x l ih =>
      have hx := merkelize_isNode hlen (p := x.1) (hl x mem_cons_self)
      simp only [stackOf, map_cons, mapM_cons, hx]
      simp only [stackOf] at ih
      rw [ih fun y hy => hl y (mem_cons_of_mem _ hy)]
      rfl
  rw [pushUpdates, hmap]
  rfl

/-- A stem node at the end of the walk: the nodes of the walk are updated. -/
theorem updateTree_leaf {a : StemBinaryNode} (ha : StemFits a) (hne : c ≠ [])
    (hpath : c.bits <+: stemBits a) (f : Trie) :
    ∃ putStack', updateTree hashFunction a (stackOf hashFunction (upward [] c f))
        [entry hashFunction (c.bits, .leaf a)] =
          .ok (nodeOf hashFunction [] (plug (.leaf a) c), putStack') ∧
      entry hashFunction ([], plug (.leaf a) c) :: putStack' =
        ((upward [] c (.leaf a)).map (entry hashFunction)).reverse ++
          [entry hashFunction (c.bits, .leaf a)] := by
  have hmerk := merkelize_stem hlen ha
  cases c with
  | nil => exact absurd rfl hne
  | cons side c =>
    obtain ⟨b, s⟩ := side
    rw [bits_cons] at hpath ⊢
    have hbit : (stemBits a)[(Context.bits c).length]? = some b := by
      obtain ⟨l, hl⟩ := hpath
      rw [← hl]
      simp
    have hset := setChild_nodeAt hashFunction (Context.bits c) b f (.leaf a) s
    cases c with
    | nil =>
      refine ⟨[entry hashFunction ([b], .leaf a)], ?_, rfl⟩
      simp only [upward, stackOf, map_cons, map_nil, nodeOf_branch, updateTree, connectStem,
        updateParents, bind, Except.bind, pure, Except.pure, plug]
      simp only [updateRoot, entry, bits_nil, nil_append, nodeOf, hmerk, bind, Except.bind,
        ← stemBits.eq_1]
      simp only [isStemBinaryNode, if_true]
      rw [show (0 : Nat) = (Context.bits ([] : Context StemBinaryNode)).length from rfl, hbit]
      exact congrArg (fun node => Except.ok (BinaryNode.internal node, _)) hset
    | cons side' c =>
      obtain ⟨b', s'⟩ := side'
      obtain ⟨putStack', hsteps, hstack⟩ := updateParents_spec hlen (c := (b', s') :: c)
        (cons_ne_nil _ _) ((prefix_append _ _).trans hpath) (branch b f s)
        (isNode_branch b (.leaf a) s) [entry hashFunction (Context.bits ((b', s') :: c) ++ [b], .leaf a)]
      refine ⟨putStack', ?_, ?_⟩
      · refine Eq.trans ?_ hsteps
        have hpush := pushUpdates_spec hlen (l := [(Context.bits ((b', s') :: c), branch b (.leaf a) s)])
          (fun x hx => mem_singleton.mp hx ▸ isNode_branch b _ _)
          [entry hashFunction (Context.bits ((b', s') :: c) ++ [b], .leaf a)]
        simp only [stackOf, map_cons, map_nil, nodeOf_branch] at hpush
        have hconnect : connectStem hashFunction a
            (stackOf hashFunction (upward [] ((b, s) :: (b', s') :: c) f))
            [entry hashFunction (Context.bits ((b', s') :: c) ++ [b], .leaf a)] =
              .ok (stackOf hashFunction (upward [] ((b', s') :: c) (branch b f s)),
                entry hashFunction (Context.bits ((b', s') :: c), branch b (.leaf a) s) ::
                  [entry hashFunction (Context.bits ((b', s') :: c) ++ [b], .leaf a)],
                Context.bits ((b', s') :: c)) := by
          have hleaf : reference hashFunction (Context.bits ((b', s') :: c) ++ [b]) (.leaf a) =
            some ⟨digest hashFunction (.leaf a), stemBits a⟩ := rfl
          rw [hleaf] at hset
          simp only [upward, stackOf, map_cons, nodeOf_branch, connectStem, updateBranch, hmerk,
            bind, Except.bind, pure, Except.pure, ← stemBits.eq_1, nil_append, hbit, hset, hpush]
          rfl
        simp only [updateTree, hconnect, bind, Except.bind]
      · rw [upward, map_cons, reverse_cons, append_assoc]
        exact hstack

/-! ## Splitting a stem node -/

omit hlen in
/-- Two keys of one length part after a common prefix that contains every other one. -/
theorem matchingBitsLength_diverge {x y p : Bits} (hxy : x.length = y.length) (hne : x ≠ y)
    (hx : p <+: x) (hy : p <+: y) : ∃ l b, matchingBitsLength x y = (p ++ l).length ∧
      p ++ l ++ [b] <+: x ∧ p ++ l ++ [!b] <+: y := by
  obtain ⟨x, rfl⟩ := hx
  obtain ⟨y, rfl⟩ := hy
  have hmatch : matchingBitsLength (p ++ x) (p ++ y) = p.length + matchingBitsLength x y := by
    clear hxy hne
    induction p with
    | nil => exact (Nat.zero_add _).symm
    | cons b p ih =>
      simp only [cons_append, matchingBitsLength, if_true, ih, length_cons]
      omega
  obtain ⟨htake, hdiff⟩ := matchingBitsLength_spec x y
  obtain ⟨hlt, hbit⟩ := hdiff (by simpa using hxy) (fun h => hne (h ▸ rfl))
  have hlt' : matchingBitsLength x y < y.length := by
    rw [length_append, length_append] at hxy
    omega
  rw [getElem?_eq_getElem hlt, getElem?_eq_getElem hlt'] at hbit
  refine ⟨x.take (matchingBitsLength x y), x[matchingBitsLength x y], ?_, ?_, ?_⟩
  · rw [hmatch, length_append, length_take_of_le (Nat.le_of_lt hlt)]
  · rw [append_assoc, take_concat_get' _ _ hlt]
    exact prefix_append_right_inj p |>.mpr ( take_prefix _ _)
  · have hother : (!x[matchingBitsLength x y]) = y[matchingBitsLength x y] := by
      cases hb : x[matchingBitsLength x y] <;> cases hb' : y[matchingBitsLength x y] <;> simp_all
    rw [htake, hother, append_assoc, take_concat_get' _ _ hlt']
    exact prefix_append_right_inj p |>.mpr ( take_prefix _ _)

variable {key : Bits}

omit hlen in
theorem getElem?_of_snoc_prefix {p : Bits} {b : Bool} (h : p ++ [b] <+: key) :
    key[p.length]? = some b ∧ key.take p.length = p ∧ key.take (p.length + 1) = p ++ [b] := by
  obtain ⟨l, rfl⟩ := h
  exact ⟨by simp, by simp, take_left' length_append⟩

/-- The loop of `updateBranch` builds the chain up to the path `p`. -/
theorem newParents_spec {p : Bits} (hp : p ≠ []) {l : Bits} (hpath : p ++ l <+: key) (hw : IsNode w)
    {parent : InternalBinaryNode} (hparent : nodeOf hashFunction (p ++ l) w = .internal parent)
    (acc : List (BinaryNode × Bits)) :
    newParents hashFunction key (p.length - 1) (p.length + l.length) parent acc =
      .ok ((stackOf hashFunction (upward p (Context.chain l) w)).reverse ++ acc) := by
  obtain ⟨d, hd⟩ : ∃ d, p.length = d + 1 :=
    Nat.exists_eq_succ_of_ne_zero (fun h => hp (length_eq_zero_iff.mp h))
  induction l using List.reverseRecOn generalizing w parent acc with
  | nil =>
    rw [hd]
    exact if_neg (Nat.lt_irrefl d)
  | append_singleton l b ih =>
    have hmerk := merkelize_isNode hlen (p := p ++ (l ++ [b])) hw
    rw [hparent] at hmerk
    rw [← append_assoc] at hpath
    obtain ⟨hbit, htake, htake'⟩ := getElem?_of_snoc_prefix hpath
    rw [length_append] at hbit htake htake'
    have hnew := create_setChild hashFunction (p ++ l) b w
    rw [reference_isNode hashFunction hw] at hnew
    have hdepth : p.length + l.length > p.length - 1 := by omega
    rw [length_append, length_singleton, ← Nat.add_assoc, newParents, if_pos hdepth]
    simp only [hmerk, hbit, htake, htake', hnew, bind, Except.bind]
    rw [ih ((prefix_append _ _).trans hpath) (isNode_branch b w .empty)
      (nodeOf_branch _ _ _ _) _, chain_snoc]
    simp [upward, stackOf]

/-- The loop over a split root builds the chain up to the root. -/
theorem rootParents_spec {l : Bits} (hpath : l <+: key) (hw : IsNode w)
    {newRoot : InternalBinaryNode} (hroot : nodeOf hashFunction l w = .internal newRoot)
    (putStack : PutStack) :
    ∃ root putStack', rootParents hashFunction key l.length newRoot putStack = .ok (root, putStack') ∧
      nodeOf hashFunction [] (plug w (Context.chain l)) = .internal root ∧
      entry hashFunction ([], plug w (Context.chain l)) :: putStack' =
        (((l, w) :: upward [] (Context.chain l) w).map (entry hashFunction)).reverse ++ putStack := by
  induction l using List.reverseRecOn generalizing w newRoot putStack with
  | nil => exact ⟨newRoot, putStack, rfl, hroot, rfl⟩
  | append_singleton l b ih =>
    have hmerk := merkelize_isNode hlen (p := l ++ [b]) hw
    rw [hroot] at hmerk
    obtain ⟨hbit, htake, htake'⟩ := getElem?_of_snoc_prefix hpath
    have hnew := create_setChild hashFunction l b w
    rw [reference_isNode hashFunction hw] at hnew
    obtain ⟨root, putStack', hsteps, hplug, hstack⟩ := ih ((prefix_append _ _).trans hpath)
      (isNode_branch b w .empty) (nodeOf_branch _ _ _ _)
      ((digest hashFunction w, some (.internal newRoot)) :: putStack)
    refine ⟨root, putStack', ?_, ?_, ?_⟩
    · rw [length_append, length_singleton, rootParents]
      simp only [hmerk, hbit, htake', hnew, bind, Except.bind]
      exact hsteps
    · rw [chain_snoc]
      exact hplug
    · rw [chain_snoc, plug, hstack, ← hroot]
      simp [upward, entry]

omit hlen in
/-- The last node of a chain is the one right below its context. -/
theorem getLast_chain (p l : Bits) (w : Trie) :
    ∃ init, (p ++ l, w) :: upward p (Context.chain l) w =
      init ++ [(p, plug w (Context.chain l))] := by
  induction l using List.reverseRecOn generalizing w with
  | nil => exact ⟨[], by simp [Context.chain, upward, plug]⟩
  | append_singleton l b ih =>
    obtain ⟨init, hinit⟩ := ih (branch b w .empty)
    refine ⟨(p ++ (l ++ [b]), w) :: init, ?_⟩
    rw [chain_snoc, upward, plug, bits_chain, hinit]
    rfl

omit hlen in
theorem isNode_of_mem_upward {p : Bits} : ∀ x ∈ upward p c w, IsNode x.2 := by
  induction c generalizing w with
  | nil => exact fun _ hx => nomatch hx
  | cons side c ih =>
    intro x hx
    rcases mem_cons.mp hx with rfl | hx
    · exact isNode_branch _ _ _
    · exact ih x hx

section Split

variable {a a0 : StemBinaryNode} (ha : StemFits a) (ha0 : StemFits a0) {p l : Bits} {b : Bool}
  (hlength : matchingBitsLength (stemBits a) (stemBits a0) = (p ++ l).length)
  (hbit : p ++ l ++ [b] <+: stemBits a) (hbit0 : p ++ l ++ [!b] <+: stemBits a0)

include ha ha0 hlength hbit hbit0

/-- A stem node that stands at the end of the walk makes room for the new one. -/
theorem updateBranch_split (hp : p ≠ []) {q : Bits} (hq : q <+: p) (hqp : q.length = p.length - 1) :
    updateBranch hashFunction a (.stem a0) ((stemBits a).take (p ++ l).length) q =
      .ok (stackOf hashFunction ((p ++ l, branch b (.leaf a) (.leaf a0)) ::
          upward p (Context.chain l) (branch b (.leaf a) (.leaf a0))).reverse) := by
  have hmerk := merkelize_stem hlen ha
  have hmerk0 := merkelize_stem hlen ha0
  obtain ⟨hget, htake, -⟩ := getElem?_of_snoc_prefix hbit
  obtain ⟨hget0, -, -⟩ := getElem?_of_snoc_prefix hbit0
  have hnew := create_setChild_both hashFunction (p ++ l) b (.leaf a) (.leaf a0)
  have hmatch : matchingBitsLength (p ++ l) q = p.length - 1 :=
    (matchingBitsLength_begins (hq.trans (prefix_append p l))).trans hqp
  have hparents := newParents_spec hlen hp ((prefix_append _ _).trans hbit)
    (isNode_branch b (.leaf a) (.leaf a0)) (nodeOf_branch _ _ _ _)
    [(.internal (nodeAt hashFunction (p ++ l) b (.leaf a) (.leaf a0)), p ++ l)]
  rw [← length_append] at hparents
  simp only [updateBranch, ← stemBits.eq_1, hlength, hmerk, hmerk0, htake, hget, hget0, hmatch, bind,
    Except.bind]
  refine Eq.trans ?_ (hparents.trans ?_)
  · simp only [← hnew]
    rfl
  · simp [stackOf]

/-- The trie that a split puts in the place of the stem node, with the nodes over it. -/
theorem updateTree_split {c : Context StemBinaryNode} (hne : c ≠ []) (hc : c.bits = p) :
    ∃ putStack', updateTree hashFunction a
        ((.stem a0, (stemBits a).take (matchingBitsLength (stemBits a) (stemBits a0))) ::
          stackOf hashFunction (upward [] c (.leaf a0))) [entry hashFunction (c.bits, .leaf a)] =
          .ok (nodeOf hashFunction [] (plug (branch b (.leaf a) (.leaf a0)) (Context.chain l ++ c)),
            putStack') ∧
      entry hashFunction ([], plug (branch b (.leaf a) (.leaf a0)) (Context.chain l ++ c)) ::
          putStack' = (((p ++ l, branch b (.leaf a) (.leaf a0)) ::
          upward [] (Context.chain l ++ c) (branch b (.leaf a) (.leaf a0))).map
            (entry hashFunction)).reverse ++ [entry hashFunction (c.bits, .leaf a)] := by
  subst hc
  obtain ⟨side, rest, rfl⟩ := exists_cons_of_ne_nil hne
  obtain ⟨init, hinit⟩ := getLast_chain (Context.bits (side :: rest)) l (branch b (.leaf a) (.leaf a0))
  have hbits : Context.bits (side :: rest) = Context.bits rest ++ [side.1] :=
    bits_cons side.1 side.2 rest
  have hp : Context.bits (side :: rest) ≠ [] := by simp [hbits]
  have hupdated := updateBranch_split hlen ha ha0 hlength hbit hbit0 hp (q := Context.bits rest)
    (by rw [hbits]; exact prefix_append _ _) (by simp [hbits])
  have hisNode : ∀ x ∈ ((Context.bits (side :: rest) ++ l, branch b (.leaf a) (.leaf a0)) ::
      upward (Context.bits (side :: rest)) (Context.chain l) (branch b (.leaf a) (.leaf a0))).reverse,
      IsNode x.2 := by
    intro x hx
    rcases mem_cons.mp (mem_reverse.mp hx) with rfl | hx
    · exact isNode_branch _ _ _
    · exact isNode_of_mem_upward x hx
  have hpush := pushUpdates_spec hlen hisNode [entry hashFunction (Context.bits (side :: rest), .leaf a)]
  obtain ⟨putStack', hsteps, hstack⟩ := updateParents_spec hlen hne
    (((prefix_append _ _).trans (prefix_append _ _)).trans hbit) (.leaf a0)
    (isNode_plug (isNode_branch b (.leaf a) (.leaf a0)) (Context.chain l))
    ((init.reverse.map (entry hashFunction)) ++
      [entry hashFunction (Context.bits (side :: rest), .leaf a)])
  refine ⟨putStack', ?_, ?_⟩
  · have hconnect : connectStem hashFunction a
        ((.stem a0, (stemBits a).take (matchingBitsLength (stemBits a) (stemBits a0))) ::
          stackOf hashFunction (upward [] (side :: rest) (.leaf a0)))
        [entry hashFunction (Context.bits (side :: rest), .leaf a)] =
          .ok (stackOf hashFunction (upward [] (side :: rest) (.leaf a0)),
            entry hashFunction (Context.bits (side :: rest),
              plug (branch b (.leaf a) (.leaf a0)) (Context.chain l)) ::
              ((init.reverse.map (entry hashFunction)) ++
                [entry hashFunction (Context.bits (side :: rest), .leaf a)]),
            Context.bits (side :: rest)) := by
      rw [hlength]
      rw [hinit, reverse_append] at hupdated hpush
      simp only [upward, stackOf, map_cons, connectStem, nil_append]
      rw [hupdated]
      simp only [bind, Except.bind, hpush]
      rfl
    rw [plug_append]
    simp only [updateTree, hconnect, bind, Except.bind]
    exact hsteps
  · have hall : ∀ above, (Context.bits (side :: rest) ++ l, branch b (.leaf a) (.leaf a0)) ::
        (upward (Context.bits (side :: rest)) (Context.chain l) (branch b (.leaf a) (.leaf a0)) ++ above) =
          init ++ [(Context.bits (side :: rest),
            plug (branch b (.leaf a) (.leaf a0)) (Context.chain l))] ++ above := by
      intro above
      rw [← cons_append, hinit]
    rw [plug_append, hstack, upward_append, nil_append, hall]
    simp

omit hlength in
/-- A root that is another stem node is split. -/
theorem updateTree_root (hp : p = []) (hne : a0.stem ≠ a.stem)
    (hlength : matchingBitsLength (stemBits a0) (stemBits a) = (p ++ l).length) :
    ∃ putStack', updateTree hashFunction a [(.stem a0, [])] [entry hashFunction ([], .leaf a)] =
          .ok (nodeOf hashFunction [] (plug (branch b (.leaf a) (.leaf a0)) (Context.chain l)),
            putStack') ∧
      entry hashFunction ([], plug (branch b (.leaf a) (.leaf a0)) (Context.chain l)) :: putStack' =
        (((l, branch b (.leaf a) (.leaf a0)) ::
          upward [] (Context.chain l) (branch b (.leaf a) (.leaf a0))).map
            (entry hashFunction)).reverse ++ [entry hashFunction ([], .leaf a)] := by
  subst hp
  have hmerk := merkelize_stem hlen ha
  have hmerk0 := merkelize_stem hlen ha0
  rw [nil_append] at hbit hbit0 hlength
  obtain ⟨hget, -, -⟩ := getElem?_of_snoc_prefix hbit
  obtain ⟨hget0, -, -⟩ := getElem?_of_snoc_prefix hbit0
  have hnew := create_setChild_both hashFunction l b (.leaf a) (.leaf a0)
  obtain ⟨root, putStack', hsteps, hplug, hstack⟩ := rootParents_spec hlen
    ((prefix_append _ _).trans hbit) (isNode_branch b (.leaf a) (.leaf a0))
    (nodeOf_branch _ _ _ _) [entry hashFunction ([], .leaf a)]
  refine ⟨putStack', ?_, hstack⟩
  rw [hplug]
  simp only [updateTree, connectStem, updateParents, updateRoot, if_pos hne, ← stemBits.eq_1, hlength,
    hmerk, hmerk0, hget, hget0, bind, Except.bind, pure, Except.pure]
  rw [show setChild (create.setChild (some b)
    (some ⟨digest hashFunction (.leaf a), stemBits a⟩)) (some !b)
    (some ⟨digest hashFunction (.leaf a0), stemBits a0⟩) =
      nodeAt hashFunction l b (.leaf a) (.leaf a0) from hnew, hsteps]

end Split

end Rebuild

end StateManager.BinaryTree
