-- SUMMARY: What finding a path and saving a stack do to the tree that a trie holds: update and delete as changes of the tree.
import TsEthereum.MerkleTrie.Represent

/-!
# Updating and deleting on trees

A stack of nodes is a way through the tree with its last node. Saving it stores
the nodes of the way and makes the whole the new root; so an update grafts the
value in where the way ends, and a deletion erases the last node.
-/

open List Function

open Rlp (Item)
open Nibbles

namespace Trie

open PatriciaTree MPT MPTNode

variable {hash : Bytes → Bytes}

/-- The trie stands for the tree. -/
structure Holds (hash : Bytes → Bytes) (s : MPT) (t : Trie) : Prop where
  root : s._root = rootHash hash t
  top : isNode t = true → s._db.get (hash (enc hash t)) = some (enc hash t)
  stored : Stored hash s._db t

/-- The tree taken apart at a key, at a node. -/
structure Way (t : Trie) (key : Nibbles) (fs : List (Frame 16 Bytes Item)) (last : Trie)
    (rest : Nibbles) : Prop where
  split : Split t key fs last rest
  isNode : isNode last = true

variable {t : Trie}

theorem rootHash_of_isNode (ht : isNode t = true) : rootHash hash t = hash (enc hash t) := by
  cases t <;> first | rfl | cases ht

variable {last : Trie} {key : Bytes} {fs : List (Frame 16 Bytes Item)} {rest : Nibbles}

/-- What `findPath` answers. -/
theorem findPath_spec (hlen : ∀ m, (hash m).length = 32) {s : MPT} (fuel : Nat)
    (hroot : s._root = hash (enc hash t)) (htop : s._db.get (hash (enc hash t)) = some (enc hash t))
    (hway : StoredWay hash s._db fs last) (ht : isNode t = true) (hfits : Fits hash t)
    (hproper : Proper t) (throwIfMissing : Bool)
    (hdescend : descend t (bytesToNibbles key) [] = (fs, last, rest)) (hlast : isNode last = true)
    (hfuel : fs.length < fuel) :
    findPath fuel s key throwIfMissing =
      .ok ⟨if foundAt last rest then some (node hash last) else none,
        if foundAt last rest then [] else rest, node hash last :: wayNodes hash fs last⟩ := by
  have htarget : (bytesToNibbles key).drop 0 = bytesToNibbles key := drop_zero
  obtain ⟨stack, hwalk, hmap⟩ := walkPath_spec hlen t 0 fuel []
    (lookupNode_root ht htop hfits) ht (by rw [hdescend]; exact hway) hfits hproper htarget
    (fun e he => absurd he not_mem_nil) rfl (by rw [hdescend]; exact hlast)
    (by rw [hdescend]; simpa using hfuel)
  rw [hdescend] at hwalk hmap
  simp only [findPath, hroot, hwalk, hmap, walkResult]
  cases foundAt last rest <;> rfl

/-! ## Saving a stack -/

def putOp (hash : Bytes → Bytes) (t : Trie) : BatchDBOp := .put (hash (enc hash t)) (enc hash t)

/-- The operations that store a tree below the root. -/
def putOps (hash : Bytes → Bytes) (t : Trie) : List BatchDBOp :=
  if 32 ≤ (enc hash t).length then [putOp hash t] else []

/-- The operations that store the nodes of a way. -/
def wayOps (hash : Bytes → Bytes) : List (Frame 16 Bytes Item) → Trie → List BatchDBOp
  | [], t => [putOp hash t]
  | f :: fs, t => putOps hash t ++ wayOps hash fs (f.fill t)

theorem spliceEnd_append (a b : Nibbles) : spliceEnd (a ++ b) b.length = a := by
  unfold spliceEnd
  rw [if_pos (by simp), length_append, Nat.add_sub_cancel, take_left]

/-- A node of the way takes up the reference to the node saved before it. -/
theorem linkNode_frame (f : Frame 16 Bytes Item) (r r' : Item) (key : Nibbles) :
    linkNode (frameNode hash f r) (key ++ f.key) (some r') = (frameNode hash f r', key) := by
  cases f with
  | ext p =>
    simp only [frameNode, linkNode, Frame.key, spliceEnd_append]
    rfl
  | branch cs v i =>
    simp only [frameNode, linkNode, Frame.key, getLast?_concat, dropLast_concat,
      setBranch, update_idem]

theorem linkNode_last (ht : isNode t = true) (key : Nibbles) :
    linkNode (node hash t) (key ++ path t) none = (node hash t, key) := by
  cases t with
  | empty => cases ht
  | stub r => cases ht
  | leaf p v => simp only [node, linkNode, path, spliceEnd_append]
  | ext p c =>
    simp only [node, linkNode, path, spliceEnd_append]
    rfl
  | branch cs v => simp only [node, linkNode, path, append_nil]

theorem formatNode_below (ht : isNode t = true) (opts : MPTOpts) (opStack : List BatchDBOp) :
    formatNode hash opts (node hash t) false opStack false =
      (ref hash t, opStack ++ putOps hash t) := by
  rw [ref_eq ht]
  unfold formatNode refOf putOps
  by_cases hlong : 32 ≤ (node hash t).serialize.length
  · have hlong' : 32 ≤ (enc hash t).length := hlong
    simp only [hlong, hlong', Bool.false_eq_true, or_false, if_true, if_false]
    rfl
  · have hshort : ¬ 32 ≤ (enc hash t).length := hlong
    simp [hlong, hshort]

/-- The operations that remove a tree below the root where nodes are pruned. -/
def delOps (hash : Bytes → Bytes) (opts : MPTOpts) (t : Trie) : List BatchDBOp :=
  if opts.useNodePruning = true ∧ 32 ≤ (enc hash t).length then [.del (hash (enc hash t))] else []

theorem formatNode_remove (t : Trie) (opts : MPTOpts) (opStack : List BatchDBOp) :
    (formatNode hash opts (node hash t) false opStack true).2 =
      opStack ++ delOps hash opts t := by
  unfold formatNode delOps
  by_cases hlong : 32 ≤ (node hash t).serialize.length
  · have hlong' : 32 ≤ (enc hash t).length := hlong
    cases hprune : opts.useNodePruning <;> simp [hlong, enc]
  · have hshort : ¬ 32 ≤ (enc hash t).length := hlong
    simp [hlong, hshort]

theorem formatNode_top (t : Trie) (opts : MPTOpts) (opStack : List BatchDBOp) :
    formatNode hash opts (node hash t) true opStack false =
      (.bytes (hash (enc hash t)), opStack ++ [putOp hash t]) := by
  unfold formatNode
  rw [if_pos (Or.inr rfl)]
  rfl

variable {ns : List MPTNode}

/-- Saving the way from a node on. -/
theorem saveNodes_spec {n : MPTNode} {key : Nibbles} {lastRoot : Option Item} (opts : MPTOpts)
    (opStack : List BatchDBOp) (hns : FrameNodes hash fs ns) (ht : isNode t = true)
    (hlink : linkNode n key lastRoot = (node hash t, keyOf fs)) :
    saveNodes hash opts (n :: ns) key lastRoot opStack =
      (some (.bytes (hash (enc hash (plug fs t)))), opStack ++ wayOps hash fs t) := by
  induction fs generalizing ns t n key lastRoot opStack with
  | nil =>
    cases hns
    simp only [saveNodes, hlink, isEmpty_nil, formatNode_top, wayOps, plug_nil]
  | cons f fs ih =>
    cases hns with
    | @cons _ n' _ ns' hframe hrest =>
      obtain ⟨r, rfl⟩ := hframe
      have hnext := ih (opStack ++ putOps hash t) hrest (isNode_fill f t)
        (by rw [node_fill]; exact linkNode_frame f r (ref hash t) (keyOf fs))
      rw [saveNodes, hlink]
      simp only [isEmpty_cons, formatNode_below ht, keyOf_cons]
      rw [hnext, plug_cons, wayOps, append_assoc]

/-- The trie after a tree has been saved with the operations `ops`. -/
def saved (hash : Bytes → Bytes) (s : MPT) (t : Trie) (ops : List BatchDBOp) : MPT :=
  MPT.dbBatch { s with _root := rootHash hash t } ops

/-- Saving a way makes the whole tree the new root. -/
theorem saveStack_spec (hlen : ∀ m, (hash m).length = 32) (s : MPT) (opStack : List BatchDBOp)
    (hns : FrameNodes hash fs ns) (ht : isNode t = true) :
    s.saveStack hash (keyOf fs ++ path t) (node hash t :: ns) opStack =
      .ok (saved hash s (plug fs t) (opStack ++ wayOps hash fs t)) := by
  unfold saveStack
  rw [saveNodes_spec s._opts opStack hns ht (linkNode_last ht (keyOf fs))]
  simp only [setRoot, MPT.EMPTY_TRIE_ROOT, hlen, saved, rootHash_of_isNode (isNode_plug ht fs)]
  rfl

/-! ## Updating -/

theorem matchingNibbleLength_eq (p k : Nibbles) :
    matchingNibbleLength p k = (fork p k).1.length := by
  induction p generalizing k with
  | nil => cases k <;> rfl
  | cons a p ih =>
    cases k with
    | nil => rfl
    | cons b k =>
      simp only [matchingNibbleLength, fork]
      split
      · simp [ih]
      · rfl

/-- The parts of two paths at their fork, by its length. -/
theorem fork_parts_eq (p k : Nibbles) : p.take (matchingNibbleLength p k) = (fork p k).1 ∧
      p.drop (matchingNibbleLength p k) = (fork p k).2.1 ∧
      k.drop (matchingNibbleLength p k) = (fork p k).2.2 := by
  obtain ⟨hp, hk⟩ := fork_append p k
  rw [matchingNibbleLength_eq]
  generalize fork p k = f at hp hk ⊢
  subst hp hk
  exact ⟨take_left, drop_left, drop_left⟩

/-- What is stored of the node that is split, besides the way. -/
def splitOps (hash : Bytes → Bytes) (opts : MPTOpts) (last : Trie) (old : Nibbles) :
    List BatchDBOp :=
  match old, last with
  | [], _ => []
  | _ :: [], .ext p c => delOps hash opts (.ext p c)
  | _ :: q, last => putOps hash (last.withPath q)

/-- The node of the branch at a fork before the new value is put in. -/
theorem newBranch_spec (opts : MPTOpts) (old : Nibbles)
    (hlast : (∃ p v, last = .leaf p v) ∨ ∃ p c, last = .ext p c ∧ old ≠ []) :
    newBranch hash opts (node hash last) old =
      (node hash (forkBranch last old), splitOps hash opts last old) := by
  have hbranch (j : Nibble) (t : Trie) : emptyBranch.setBranch j (ref hash t) =
      node hash (.branch (Function.update (fun _ => .empty) j t) none) := by
    simp only [emptyBranch, setBranch, node, Option.getD_none]
    congr 1
    funext i
    by_cases hi : i = j
    · subst hi
      simp
    · simp [update_of_ne hi, ref]
  rcases hlast with ⟨p, v, rfl⟩ | ⟨p, c, rfl, hold⟩
  · cases old with
    | nil =>
      simp only [newBranch, node, forkBranch, leafValue, splitOps, emptyBranch, setValue,
        MPTNode.value, Option.getD_some, ref]
    | cons j q =>
      have hformat : formatNode hash opts _ _ [] _ = _ :=
        formatNode_below (t := .leaf q v) rfl opts []
      simp only [node, nil_append] at hformat
      have hops : splitOps hash opts (.leaf p v) (j :: q) = putOps hash (.leaf q v) := by
        cases q <;> rfl
      simp only [newBranch, node, setKey, or_true, if_true, hformat, hops]
      rw [hbranch j (.leaf q v)]
      rfl
  · obtain ⟨j, q, rfl⟩ := exists_cons_of_ne_nil hold
    cases q with
    | nil =>
      have hformat : (formatNode hash opts _ _ [] _).2 = _ := formatNode_remove (.ext p c) opts []
      simp only [node, nil_append] at hformat
      simp only [newBranch, node, MPTNode.value, ne_eq, not_true_eq_false, Bool.false_eq_true, or_false,
        if_false, Option.getD_some, hbranch, hformat]
      rfl
    | cons a q =>
      have hformat : formatNode hash opts _ _ [] _ = _ :=
        formatNode_below (t := .ext (a :: q) c) rfl opts []
      simp only [node, nil_append] at hformat
      simp only [newBranch, node, setKey, ne_eq, reduceCtorEq, not_false_eq_true, true_or, if_true,
        hformat]
      rw [hbranch j (.ext (a :: q) c)]
      rfl

/-- The nodes of a branch in which `value` is stored. -/
theorem putWay_nodes (hash : Bytes → Bytes) (cs : Nibble → Trie) (w : Option Bytes) (k : Nibbles) (value : Bytes) :
    ∃ ms, FrameNodes hash (putWay k value (.branch cs w)).1 ms ∧
      isNode (putWay k value (.branch cs w)).2 = true ∧
      keyOf (putWay k value (.branch cs w)).1 ++ path (putWay k value (.branch cs w)).2 = k ∧
      (match k with
        | _ :: k => [.leaf k (.bytes value), node hash (.branch cs w)]
        | [] => [(node hash (.branch cs w)).setValue (some (.bytes value))]) =
        node hash (putWay k value (.branch cs w)).2 :: ms := by
  cases k with
  | nil => exact ⟨[], List.Forall₂.nil, rfl, rfl, rfl⟩
  | cons i k =>
    refine ⟨[node hash (.branch cs w)], ?_, rfl, rfl, rfl⟩
    refine List.Forall₂.cons ⟨ref hash (cs i), ?_⟩ List.Forall₂.nil
    simp only [node, frameNode, update_eq_self]

theorem FrameNodes.append {fs gs : List (Frame 16 Bytes Item)} {ns ms : List MPTNode}
    (h : FrameNodes hash fs ns) (h' : FrameNodes hash gs ms) :
    FrameNodes hash (fs ++ gs) (ns ++ ms) :=
  rel_append h h'

/-- What splitting a node that the key leaves puts in its place. -/
theorem splitNode_spec (hash : Bytes → Bytes) (rest : Nibbles) (opts : MPTOpts) (value : Bytes)
    (hlast : (∃ p v, last = .leaf p v) ∨ ∃ p c, last = .ext p c ∧ ¬ p <+: rest) :
    ∃ ms, FrameNodes hash (forkWay last (path last) rest value).1 ms ∧
      isNode (forkWay last (path last) rest value).2 = true ∧
      keyOf (forkWay last (path last) rest value).1 ++
        path (forkWay last (path last) rest value).2 = rest ∧
      splitNode hash opts (node hash last) rest value =
        (node hash (forkWay last (path last) rest value).2 :: ms,
          splitOps hash opts last (fork (path last) rest).2.1) := by
  have hkey : (node hash last).key = path last := by
    rcases hlast with ⟨p, v, rfl⟩ | ⟨p, c, rfl, -⟩ <;> rfl
  have hbranch : newBranch hash opts (node hash last) _ = _ :=
    newBranch_spec opts (fork (path last) rest).2.1 (by
      rcases hlast with ⟨p, v, rfl⟩ | ⟨p, c, rfl, hp⟩
      · exact .inl ⟨p, v, rfl⟩
      · exact .inr ⟨p, c, rfl, fork_old_ne_nil hp⟩)
  obtain ⟨htake, hdrop, hdrop'⟩ := fork_parts_eq (path last) rest
  obtain ⟨-, hrest⟩ := fork_append (path last) rest
  have hlen := matchingNibbleLength_eq (path last) rest
  simp only [splitNode, hkey, htake, hdrop, hdrop', hbranch]
  rw [hlen]
  simp only [forkWay]
  generalize fork (path last) rest = f at hrest ⊢
  obtain ⟨common, old, new⟩ := f
  obtain ⟨cs, w, hcs⟩ := forkBranch_eq_branch last old
  simp only [hcs] at hrest ⊢
  obtain ⟨ms, hms, hnode, hputKey, hnodes⟩ := putWay_nodes hash cs w new value
  have hext : FrameNodes hash (extFrames common)
      (if common.length ≠ 0 then [extension common (.bytes value)] else []) := by
    unfold extFrames
    cases common with
    | nil => exact List.Forall₂.nil
    | cons a common => exact List.Forall₂.cons ⟨.bytes value, rfl⟩ List.Forall₂.nil
  refine ⟨_, hms.append hext, hnode, ?_, ?_⟩
  · rw [keyOf_append, keyOf_extFrames, append_assoc, hputKey, hrest]
  · rw [← cons_append, ← hnodes]
    cases new <;> rfl

theorem sum_keyLength (h : FrameNodes hash fs ns) :
    (ns.map (fun n => if n.isBranch then 1 else n.keyLength)).sum = (keyOf fs).length := by
  induction h with
  | nil => rfl
  | @cons f n fs ns hn _ ih =>
    obtain ⟨r, rfl⟩ := hn
    rw [map_cons, sum_cons, ih, keyOf_cons, length_append, Nat.add_comm]
    cases f <;> rfl

/-- The last node is taken for the leaf of the key exactly if it is. -/
theorem matchLeaf_leaf (p rest : Nibbles) (v : Bytes) (h : FrameNodes hash fs ns) :
    matchLeaf (keyOf fs ++ rest) (if p = rest then [] else rest) (.leaf p (.bytes v)) ns =
      decide (p = rest) := by
  unfold matchLeaf
  simp only [sum_keyLength h, drop_left]
  by_cases hp : p = rest
  · subst hp
    simp [matchingNibbleLength_eq, fork_self]
  · rw [if_neg hp]
    cases rest with
    | cons i rest => simp [hp]
    | nil =>
      obtain ⟨a, p, rfl⟩ := exists_cons_of_ne_nil hp
      simp [matchingNibbleLength]

/-- What an update saves besides the way to the new value. -/
def graftOps (hash : Bytes → Bytes) (opts : MPTOpts) (last : Trie) (rest : Nibbles) :
    List BatchDBOp :=
  match last with
  | .leaf p v => if p = rest then [] else splitOps hash opts (.leaf p v) (fork p rest).2.1
  | .ext p c => splitOps hash opts (.ext p c) (fork p rest).2.1
  | .empty | .stub _ | .branch _ _ => []

/-- The operations of an update. -/
def updateOps (hash : Bytes → Bytes) (opts : MPTOpts) (fs : List (Frame 16 Bytes Item))
    (last : Trie) (rest : Nibbles) (value : Bytes) : List BatchDBOp :=
  graftOps hash opts last rest ++
    wayOps hash (graftWay fs last rest value).1 (graftWay fs last rest value).2

/-- An update grafts the value in where the way to the key ends. -/
theorem updateNode_spec (hlen : ∀ m, (hash m).length = 32) (s : MPT)
    (h : Way t (bytesToNibbles key) fs last rest) (value : Bytes) :
    s.updateNode hash key value (if foundAt last rest then [] else rest)
        (node hash last :: wayNodes hash fs last) =
      .ok (saved hash s (plug fs (graft last rest value))
        (updateOps hash s._opts fs last rest value)) := by
  obtain ⟨⟨-, hkey, hstuck⟩, hnode⟩ := h
  have hns : FrameNodes hash fs _ := frameNodes_wayNodes fs last
  generalize wayNodes hash fs last = ns at hns ⊢
  have hsave {gs : List (Frame 16 Bytes Item)} {u : Trie} {ms : List MPTNode}
      (ops : List BatchDBOp) (hms : FrameNodes hash gs ms) (hu : isNode u = true)
      (hrest : keyOf gs ++ path u = rest) :
      s.saveStack hash (bytesToNibbles key) (node hash u :: (ms ++ ns)) ops =
        .ok (saved hash s (plug fs (plug gs u)) (ops ++ wayOps hash (gs ++ fs) u)) := by
    have hspec := saveStack_spec hlen s ops (hms.append hns) hu
    rwa [keyOf_append, append_assoc, hrest, hkey, plug_append] at hspec
  rw [← plug_graftWay]
  unfold updateNode
  cases last with
  | empty => cases hnode
  | stub r => cases hnode
  | branch cs w =>
    have hrest : (if foundAt (.branch cs w) rest = true then [] else rest) = rest := by
      cases rest <;> rfl
    obtain ⟨ms, hms, hu, hput, hnodes⟩ := putWay_nodes hash cs w rest value
    rw [hrest]
    have hspec := hsave [] hms hu hput
    rw [← cons_append, ← hnodes] at hspec
    simp only [graftWay, plug_append, updateOps, graftOps]
    rw [← hspec]
    cases rest <;> rfl
  | leaf p w =>
    have hfound : foundAt (.leaf p w) rest = decide (p = rest) := rfl
    have hmatch := matchLeaf_leaf p rest w hns
    rw [hkey] at hmatch
    simp only [node, hfound, decide_eq_true_eq, hmatch]
    by_cases hp : p = rest
    · simp only [hp, if_true, graftWay, updateOps, graftOps]
      exact hsave (u := .leaf rest value) [] List.Forall₂.nil rfl rfl
    · obtain ⟨ms, hms, hu, hput, hsplit⟩ := splitNode_spec hash rest s._opts value
        (.inl ⟨p, w, rfl⟩)
      simp only [node, path] at hsplit hms hu hput
      have hspec := hsave (splitOps hash s._opts (.leaf p w) (fork p rest).2.1) hms hu hput
      simp only [hp, if_false, graftWay, updateOps, graftOps, hsplit, plug_append]
      exact hspec
  | ext p c =>
    obtain ⟨ms, hms, hu, hput, hsplit⟩ := splitNode_spec hash rest s._opts value
      (.inr ⟨p, c, rfl, hstuck⟩)
    simp only [node, path] at hsplit hms hu hput
    have hspec := hsave (splitOps hash s._opts (.ext p c) (fork p rest).2.1) hms hu hput
    have hfound : foundAt (.ext p c) rest = false := rfl
    simp only [node, hfound, matchLeaf, Bool.false_eq_true, if_false, graftWay, updateOps,
      graftOps, hsplit, plug_append]
    exact hspec

/-! ## Deleting -/

/-- The removal of the one child that is left, where nodes are pruned. -/
def collapseOps (hash : Bytes → Bytes) (s : MPT) (cs : Nibble → Trie) : List BatchDBOp :=
  match children cs with
  | [j] =>
    if s._opts.useNodePruning = true then [.del (s.collapsedKey hash (ref hash (cs j)))] else []
  | _ => []

/-- The one child of a branch with its digit, below what is above the branch. -/
theorem processBranchMPTNode_spec (hns : FrameNodes hash fs ns) (j : Nibble) (ht : isNode t = true) :
     ∃ ms, FrameNodes hash (absorbWay fs j t).1 ms ∧ isNode (absorbWay fs j t).2 = true ∧
      processBranchMPTNode (keyOf fs) j (node hash t) ns.head? ns.tail =
        (keyOf (absorbWay fs j t).1 ++ path (absorbWay fs j t).2,
          node hash (absorbWay fs j t).2 :: ms) := by
  cases hns with
  | nil =>
    cases t with
    | empty => cases ht
    | stub r => cases ht
    | leaf p v => exact ⟨[], List.Forall₂.nil, rfl, rfl⟩
    | ext p c => exact ⟨[], List.Forall₂.nil, rfl, rfl⟩
    | branch cs v =>
      exact ⟨[.extension [j] (.bytes [])], List.Forall₂.cons ⟨_, rfl⟩ List.Forall₂.nil, rfl, rfl⟩
  | @cons f n fs ns hn hns =>
    obtain ⟨r, rfl⟩ := hn
    cases f with
    | ext p =>
      cases t with
      | empty => cases ht
      | stub r => cases ht
      | leaf q v =>
        refine ⟨ns, hns, rfl, ?_⟩
        simp [processBranchMPTNode, absorbWay, frameNode, node, MPTNode.key, setKey,
          prepend, path, Frame.key]
      | ext q c =>
        refine ⟨ns, hns, rfl, ?_⟩
        simp [processBranchMPTNode, absorbWay, frameNode, node, MPTNode.key, setKey,
          prepend, path, Frame.key]
      | branch cs v =>
        refine ⟨.extension (p ++ [j]) r :: ns, List.Forall₂.cons ⟨r, rfl⟩ hns, rfl, ?_⟩
        simp [processBranchMPTNode, absorbWay, frameNode, node, MPTNode.key, setKey,
          path, Frame.key]
    | branch ds w i =>
      have hparent : FrameNodes hash (.branch ds w i :: fs) (frameNode hash (.branch ds w i) r :: ns) :=
        List.Forall₂.cons ⟨r, rfl⟩ hns
      cases t with
      | empty => cases ht
      | stub r => cases ht
      | leaf q v =>
        refine ⟨_, hparent, rfl, ?_⟩
        simp [processBranchMPTNode, absorbWay, frameNode, node, MPTNode.key, setKey,
          prepend, path, Frame.key]
      | ext q c =>
        refine ⟨_, hparent, rfl, ?_⟩
        simp [processBranchMPTNode, absorbWay, frameNode, node, MPTNode.key, setKey,
          prepend, path, Frame.key]
      | branch cs v =>
        refine ⟨.extension [j] (.bytes []) :: _, List.Forall₂.cons ⟨_, rfl⟩ hparent, rfl, ?_⟩
        simp [processBranchMPTNode, absorbWay, frameNode, node, path, Frame.key]

/-- A branch that has lost a child or its value is closed up. -/
theorem collapseBranch_spec (hlen : ∀ m, (hash m).length = 32) (s : MPT) {cs : Nibble → Trie}
    {v : Option Bytes} (hns : FrameNodes hash fs ns) (hproper : ∀ i, Proper (cs i))
    (hlook : ∀ i, cs i ≠ .empty → isNode (cs i) = true ∧
      lookupNode s._db (ref hash (cs i)) = .ok (node hash (cs i))) (opStack : List BatchDBOp) :
    s.collapseBranch hash (keyOf fs) (fun i => ref hash (cs i)) (.bytes (v.getD [])) ns.head?
        ns.tail opStack = .ok (saved hash s (closeUp fs cs v) (opStack ++ collapseOps hash s cs ++
        wayOps hash (closeUpWay fs cs v).1 (closeUpWay fs cs v).2)) := by
  rw [← plug_closeUpWay]
  unfold collapseBranch closeUpWay collapseOps
  rw [getChildren_ref hlen hproper]
  have hstack : ns.head?.toList ++ ns.tail = ns := by cases ns <;> rfl
  have hkeep : s.saveStack hash (keyOf fs) (.branch (fun i => ref hash (cs i)) (.bytes (v.getD [])) ::
      (ns.head?.toList ++ ns.tail)) opStack =
      .ok (saved hash s (plug fs (.branch cs v)) (opStack ++ [] ++ wayOps hash fs (.branch cs v))) := by
    have hspec := saveStack_spec (t := .branch cs v) hlen s opStack hns rfl
    rw [hstack, append_nil]
    rwa [path, append_nil] at hspec
  match hchildren : children cs with
  | [] => exact hkeep
  | i :: j :: rest => exact hkeep
  | [j] =>
    have hj : cs j ≠ .empty := mem_children.mp (by rw [hchildren]; exact mem_singleton_self j)
    obtain ⟨hnode, hfound⟩ := hlook j hj
    obtain ⟨ms, hms, hlast, hprocess⟩ := processBranchMPTNode_spec hns j hnode
    simp only [map_cons, map_nil, hfound, bind, Except.bind, hprocess,
      saveStack_spec hlen s _ hms hlast]
    cases s._opts.useNodePruning <;> simp

/-- What an erasure removes or stores besides the way that it leaves behind. -/
def eraseOps (hash : Bytes → Bytes) (s : MPT) (fs : List (Frame 16 Bytes Item)) (last : Trie) :
    List BatchDBOp :=
  match fs, last with
  | [], _ => []
  | _, .branch cs _ => collapseOps hash s cs
  | .branch cs _ i :: _, last =>
    delOps hash s._opts last ++ collapseOps hash s (Function.update cs i .empty)
  | _, _ => []

/-- The operations of a deletion. -/
def deleteOps (hash : Bytes → Bytes) (s : MPT) (fs : List (Frame 16 Bytes Item)) (last : Trie) :
    List BatchDBOp :=
  match fs with
  | [] => []
  | _ :: _ => eraseOps hash s fs last ++ wayOps hash (eraseWay fs last).1 (eraseWay fs last).2

theorem setRoot_empty (hlen : ∀ m, (hash m).length = 32) (s : MPT) :
    s.setRoot hash (MPT.EMPTY_TRIE_ROOT hash) = .ok (saved hash s .empty []) := by
  simp only [setRoot, MPT.EMPTY_TRIE_ROOT, hlen, ne_eq, not_true_eq_false, if_false, saved,
    dbBatch, append_nil]
  rfl

/-- A deletion erases the node of the key. -/
theorem deleteNode_spec (hlen : ∀ m, (hash m).length = 32) {s : MPT}
    (h : Way t (bytesToNibbles key) fs last rest) (hwf : WF t) (hstored : Stored hash s._db t)
    (hfits : Fits hash t) (hfound : foundAt last rest = true) :
    s.deleteNode hash key (node hash last :: wayNodes hash fs last) =
      .ok (saved hash s (erase fs last) (deleteOps hash s fs last)) := by
  obtain ⟨⟨hplug, hkey, -⟩, hnode⟩ := h
  have hns : FrameNodes hash fs _ := frameNodes_wayNodes fs last
  generalize wayNodes hash fs last = ns at hns ⊢
  have hlook {u : Trie} (hsub : Sub u t) (hu : WF u) : isNode u = true ∧
      lookupNode s._db (ref hash u) = .ok (node hash u) := by
    have hunode : isNode u = true := isNode_iff.mpr ⟨hu.ne_empty, hu.ne_stub⟩
    exact ⟨hunode, lookupNode_ref hunode (hstored u hsub hunode) (hfits.sub hsub)⟩
  have hlastNe : last ≠ .empty := (isNode_iff.mp hnode).1
  have hwf' : WF (plug fs last) := hplug ▸ hwf
  have hwfLast : WF last := hwf'.hole hlastNe
  have hsubLast : Sub last t := hplug ▸ sub_plug fs last
  cases hns with
  | nil => exact setRoot_empty hlen s
  | @cons f n fs ns hn hns =>
    obtain ⟨r, rfl⟩ := hn
    have hparent : FrameNodes hash (f :: fs) (frameNode hash f r :: ns) :=
      List.Forall₂.cons ⟨r, rfl⟩ hns
    cases last with
    | empty => cases hnode
    | stub ref => cases hnode
    | ext p c => cases hfound
    | branch cs v =>
      have hrest : rest = [] := List.isEmpty_iff.mp hfound
      rw [hrest, append_nil] at hkey
      have hproper := proper_of_wf hwfLast
      have hcollapse := collapseBranch_spec (v := v) hlen s hparent hproper
        (fun i hi => hlook ((Sub.branch v i (.refl (cs i))).trans hsubLast) (hwfLast.2 i hi)) []
      rw [hkey] at hcollapse
      have herase : erase (f :: fs) (.branch cs v) = closeUp (f :: fs) cs v ∧
          eraseWay (f :: fs) (.branch cs v) = closeUpWay (f :: fs) cs v ∧
          eraseOps hash s (f :: fs) (.branch cs v) = collapseOps hash s cs := by
        cases f <;> exact ⟨rfl, rfl, rfl⟩
      simp only [deleteNode, node, deleteOps, herase]
      exact hcollapse
    | leaf p v =>
      have hp : p = rest := of_decide_eq_true hfound
      subst hp
      cases f with
      | ext q => cases hwf'.isBranch_of_ext
      | branch cs w i =>
        have hbranch : WF (.branch (Function.update cs i (.leaf p v)) w) :=
          WF.hole (t := .branch (Function.update cs i (.leaf p v)) w) hwf' (by rintro ⟨⟩)
        have hsubBranch : Sub (.branch (Function.update cs i (.leaf p v)) w) t :=
          hplug ▸ sub_plug fs _
        have hchild (j : Nibble) (hj : Function.update cs i .empty j ≠ .empty) :
            WF (Function.update cs i .empty j) ∧ Sub (Function.update cs i .empty j) t := by
          have hji : j ≠ i := by
            rintro rfl
            rw [update_self] at hj
            exact hj rfl
          have hwfj := hbranch.2 j
          have hsubj : Sub (Function.update cs i (.leaf p v) j) t :=
            (Sub.branch w j (.refl _)).trans hsubBranch
          rw [update_of_ne hji] at hj hwfj hsubj ⊢
          exact ⟨hwfj hj, hsubj⟩
        have hproper (j : Nibble) : Proper (Function.update cs i .empty j) := by
          by_cases hj : Function.update cs i .empty j = .empty
          · rw [hj]
            trivial
          · exact proper_of_wf (hchild j hj).1
        have hrefs : Function.update (Function.update (fun j => ref hash (cs j)) i r) i (.bytes []) =
            fun j => ref hash (Function.update cs i .empty j) := by
          funext j
          by_cases hji : j = i
          · subst hji
            simp [ref]
          · simp [update_of_ne hji]
        have hsplice : spliceEnd (bytesToNibbles key) p.length = keyOf fs ++ [i] := by
          rw [← hkey, keyOf_cons]
          exact spliceEnd_append _ p
        have hremove : (formatNode hash s._opts (node hash (.leaf p v)) false [] true).2 = _ :=
          formatNode_remove (.leaf p v) s._opts []
        have hcollapse := collapseBranch_spec (v := w) hlen s hns hproper
          (fun j hj => hlook (hchild j hj).2 (hchild j hj).1) (delOps hash s._opts (.leaf p v))
        simp only [node, nil_append] at hremove
        simp only [deleteNode, node, frameNode, keyLength, MPTNode.key, hsplice, hremove,
          getLast?_concat, dropLast_concat, hrefs, hcollapse]
        rfl

end Trie
