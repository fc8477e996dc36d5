-- SUMMARY: Tries that stand for a tidy tree: what get, put and del answer there and which tree they leave.
import TsEthereum.MerkleTrie.Sizes
import Mathlib.Data.Set.Function

/-!
# The tree of a trie

`Good s t` says that the trie `s` stands for the tree `t`. The database is kept
honest by its journal: what is stored under a key was put there, and it was put
there under its hash. So a node is found again as long as the hash function does
not take two of the encodings that occur to the same hash.
-/

open Rlp (Item)
open Nibbles

/-- An item that is `x` itself or nested in it. -/
inductive Rlp.Item.Within : Item → Item → Prop
  | refl (x) : Within x x
  | item {x y l} : y ∈ l → Within x y → Within x (.list l)

/-- The encodings of the nodes that `ops` put, of the nodes embedded in them, and of the empty
root. -/
def nodeEncodings (ops : List BatchDBOp) : Set Bytes :=
  {v | v = RLP_EMPTY_STRING ∨
    ∃ k x raw, BatchDBOp.put k (Rlp.encode x) ∈ ops ∧ Rlp.Item.Within (.list raw) x ∧
      v = Rlp.encode (.list raw)}

theorem nodeEncodings_mono {ops ops' : List BatchDBOp} (h : ops ⊆ ops') :
    nodeEncodings ops ⊆ nodeEncodings ops' := by
  rintro v (rfl | ⟨k, x, raw, hput, hwithin, rfl⟩)
  · exact .inl rfl
  · exact .inr ⟨k, x, raw, h hput, hwithin, rfl⟩

theorem mem_nodeEncodings {ops : List BatchDBOp} {k : Bytes} {n : MPTNode}
    (h : BatchDBOp.put k n.serialize ∈ ops) : n.serialize ∈ nodeEncodings ops :=
  .inr ⟨k, .list n.raw, n.raw, h, .refl _, rfl⟩

namespace Trie

open PatriciaTree

variable {hash : Bytes → Bytes}

/-! ## Storing and removing -/

/-- The tree with `v` stored under `k`. -/
def insert (t : Trie) (k : Nibbles) (v : Bytes) : Trie :=
  let (fs, last, rest) := descend t k []
  plug fs (graft last rest v)

/-- The tree without what is stored under `k`. -/
def remove (t : Trie) (k : Nibbles) : Trie :=
  let (fs, last, rest) := descend t k []
  if foundAt last rest then erase fs last else t

/-- A tree that a trie may stand for. -/
structure Tidy (t : Trie) : Prop where
  shape : t = .empty ∨ WF t
  bounded : Bounded t
  values : ∀ k v, lookup t k = some v → v ≠ []

theorem tidy_empty : Tidy .empty where
  shape := .inl rfl
  bounded := fun k v h => by simp at h
  values := fun k v h => by simp at h

variable {t : Trie}

theorem descend_isNode (h : WF t) (k : Nibbles) (fs : List (Frame 16 Bytes Item)) :
    isNode (descend t k fs).2.1 = true := by
  induction t generalizing k fs with
  | empty => exact h.elim
  | stub r => exact h.elim
  | leaf p v => rfl
  | ext p c ih =>
    simp only [descend]
    split
    · exact ih h.2.2 _ _
    · rfl
  | branch cs v ih =>
    cases k with
    | nil => rfl
    | cons i k =>
      simp only [descend]
      split
      · rfl
      · rename_i hempty
        exact ih i (h.2 i (isEmpty_eq_false.mp (Bool.eq_false_of_not_eq_true hempty))) _ _

variable {fs : List (Frame 16 Bytes Item)}

/-- Every frame takes up some of the key. -/
theorem length_frames_le (h : WF (plug fs t)) : fs.length ≤ (keyOf fs).length := by
  induction fs generalizing t with
  | nil => exact Nat.le_refl 0
  | cons f fs ih =>
    have hrest := ih (t := f.fill t) h
    have hkey : 1 ≤ f.key.length := by
      cases f with
      | branch cs v i => exact Nat.le_refl 1
      | ext p => exact List.length_pos_iff.mpr (WF.hole (t := .ext p t) h (fun h => nomatch h)).1
    rw [keyOf_cons, List.length_append, List.length_cons]
    omega

variable {last : Trie} {k rest : Nibbles}

theorem way_of_descend (h : WF t) (hdescend : descend t k [] = (fs, last, rest)) :
    Way t k fs last rest ∧ fs.length ≤ k.length := by
  have hsplit := descend_spec t k []
  have hnode := descend_isNode h k []
  rw [hdescend] at hsplit hnode
  refine ⟨⟨hsplit, hnode⟩, ?_⟩
  have hwf : WF (plug fs last) := hsplit.plug_eq ▸ h
  have hlen := length_frames_le hwf
  have hkey := congrArg List.length hsplit.key_eq
  simp only [keyOf_nil, List.nil_append, List.length_append] at hkey
  omega

theorem plug_of_descend (h : t = .empty ∨ WF t) (hdescend : descend t k [] = (fs, last, rest)) :
    plug fs last = t := by
  rcases h with rfl | h
  · cases hdescend
    rfl
  · exact (way_of_descend h hdescend).1.split.plug_eq

theorem lookup_insert (h : t = .empty ∨ WF t) (k : Nibbles) (v : Bytes) (x : Nibbles) :
    lookup (insert t k v) x = if x = k then some v else lookup t x := by
  rcases h with rfl | h
  · simp [insert, descend, graft, eq_comm]
  · obtain ⟨fs, last, rest, hdescend⟩ : ∃ fs last rest, descend t k [] = (fs, last, rest) :=
      ⟨_, _, _, rfl⟩
    obtain ⟨⟨hsplit, hnode⟩, -⟩ := way_of_descend h hdescend
    simp only [insert, hdescend]
    exact hsplit.lookup_graft (isNode_iff.mp hnode).2 v x

theorem wf_insert (h : t = .empty ∨ WF t) (k : Nibbles) (v : Bytes) : WF (insert t k v) := by
  rcases h with rfl | h
  · trivial
  · obtain ⟨fs, last, rest, hdescend⟩ : ∃ fs last rest, descend t k [] = (fs, last, rest) :=
      ⟨_, _, _, rfl⟩
    obtain ⟨⟨hsplit, hnode⟩, -⟩ := way_of_descend h hdescend
    simp only [insert, hdescend]
    exact hsplit.wf_graft h (isNode_iff.mp hnode).1 v

theorem Tidy.insert (h : Tidy t) {v : Bytes} (hk : k.length < 2 ^ 52) (hv : v.length < 2 ^ 51)
    (hne : v ≠ []) : Tidy (insert t k v) where
  shape := .inr (wf_insert h.shape k v)
  bounded := by
    intro x w hx
    rw [lookup_insert h.shape] at hx
    split at hx
    · rename_i hxk
      cases hx
      exact ⟨hxk ▸ hk, hv⟩
    · exact h.bounded x w hx
  values := by
    intro x w hx
    rw [lookup_insert h.shape] at hx
    split at hx
    · cases hx
      exact hne
    · exact h.values x w hx

/-- Where the key of a well-formed tree is found. -/
theorem found_cases (h : WF t) (hk : k = [] → t.isBranch = false) (hway : Way t k fs last rest)
    (hfound : foundAt last rest = true) :
    ((∃ v, last = .leaf rest v) ∨ (rest = [] ∧ fs ≠ [] ∧ last.isBranch = true)) ∧
      ∀ p gs, fs = .ext p :: gs → last.isBranch = true := by
  have hwf : WF (plug fs last) := hway.split.plug_eq ▸ h
  refine ⟨?_, ?_⟩
  · cases last with
    | empty => cases hfound
    | stub r => cases hfound
    | ext p c => cases hfound
    | leaf p v =>
      obtain rfl : p = rest := of_decide_eq_true hfound
      exact .inl ⟨v, rfl⟩
    | branch cs v =>
      have hrest : rest = [] := List.isEmpty_iff.mp hfound
      refine .inr ⟨hrest, ?_, rfl⟩
      rintro rfl
      have hkey := hway.split.key_eq
      have hroot := hway.split.plug_eq
      rw [hrest] at hkey
      have hbranch := hk hkey.symm
      rw [← hroot] at hbranch
      cases hbranch
  · rintro p gs rfl
    exact hwf.isBranch_of_ext

/-- No value is in the way where `k` is removed. -/
def RemovesCleanly (t : Trie) (k : Nibbles) : Prop :=
  let (fs, last, rest) := descend t k []
  foundAt last rest = true → ErasesCleanly fs last

instance (t : Trie) (k : Nibbles) : Decidable (RemovesCleanly t k) :=
  inferInstanceAs (Decidable (foundAt _ _ = true → ErasesCleanly _ _))

theorem lookup_of_not_found (hway : Way t k fs last rest) (hfound : foundAt last rest = false) :
    lookup t k = none := by
  rw [hway.split.lookup_eq]
  have hstuck := hway.split.stuck
  cases last with
  | empty => simp
  | stub r => cases rest <;> rfl
  | leaf p v =>
    rw [lookup_leaf, if_neg (of_decide_eq_false hfound)]
  | ext p c =>
    rw [lookup_ext, if_neg hstuck]
  | branch cs v =>
    cases rest with
    | nil => cases hfound
    | cons i rest =>
      have hempty : cs i = .empty := hstuck
      simp [hempty]

theorem lookup_remove (h : t = .empty ∨ WF t) (hk : k = [] → t.isBranch = false)
    (hclean : RemovesCleanly t k) (x : Nibbles) :
    lookup (remove t k) x = if x = k then none else lookup t x := by
  rcases h with rfl | h
  · simp [remove, descend, foundAt]
  · obtain ⟨fs, last, rest, hdescend⟩ : ∃ fs last rest, descend t k [] = (fs, last, rest) :=
      ⟨_, _, _, rfl⟩
    obtain ⟨hway, -⟩ := way_of_descend h hdescend
    simp only [RemovesCleanly, hdescend] at hclean
    simp only [remove, hdescend]
    cases hfound : foundAt last rest with
    | true =>
      obtain ⟨hcases, hext⟩ := found_cases h hk hway hfound
      simp only [if_true]
      exact hway.split.lookup_erase hcases hext (hclean hfound) x
    | false =>
      have hnone := lookup_of_not_found hway hfound
      simp only [Bool.false_eq_true, if_false]
      by_cases hx : x = k
      · rw [if_pos hx, hx, hnone]
      · rw [if_neg hx]

theorem remove_shape (h : t = .empty ∨ WF t) (k : Nibbles) :
    remove t k = .empty ∨ WF (remove t k) := by
  rcases h with rfl | h
  · exact .inl rfl
  · obtain ⟨fs, last, rest, hdescend⟩ : ∃ fs last rest, descend t k [] = (fs, last, rest) :=
      ⟨_, _, _, rfl⟩
    obtain ⟨⟨hsplit, hnode⟩, -⟩ := way_of_descend h hdescend
    simp only [remove, hdescend]
    split
    · exact WF.erase (hsplit.plug_eq ▸ h) (isNode_iff.mp hnode).1
    · exact .inr h

theorem Tidy.remove (h : Tidy t) (hk : k = [] → t.isBranch = false) (hclean : RemovesCleanly t k) :
    Tidy (remove t k) where
  shape := remove_shape h.shape k
  bounded := by
    intro x w hx
    rw [lookup_remove h.shape hk hclean] at hx
    split at hx
    · cases hx
    · exact h.bounded x w hx
  values := by
    intro x w hx
    rw [lookup_remove h.shape hk hclean] at hx
    split at hx
    · cases hx
    · exact h.values x w hx

/-! ## Tries that stand for a tree -/

/-- The journal accounts for the database. -/
structure Journaled (hash : Bytes → Bytes) (s : MPT) : Prop where
  written : ∀ k v, s._db.get k = some v → BatchDBOp.put k v ∈ s.journal
  keyed : ∀ k v, BatchDBOp.put k v ∈ s.journal → k = hash v ∧ ∃ n : MPTNode, v = n.serialize

structure Good (hash : Bytes → Bytes) (s : MPT) (t : Trie) : Prop where
  holds : Holds hash s t
  tidy : Tidy t
  journaled : Journaled hash s
  noCollision : Set.InjOn hash (nodeEncodings s.journal)

theorem serialize_ne_empty (n : MPTNode) : n.serialize ≠ RLP_EMPTY_STRING := by
  intro h
  have hlist : Rlp.encode (.list n.raw) = Rlp.encode (.bytes []) := h
  have hshort : (Rlp.encode (.list n.raw)).length < 2 ^ 53 := by
    rw [hlist]
    decide
  cases Rlp.encode_injective hshort hlist

variable {s : MPT}

/-- What is found under a hash is what was hashed. -/
theorem Good.get_eq (h : Good hash s t) {v w : Bytes} (hv : v ∈ nodeEncodings s.journal)
    (hw : s._db.get (hash v) = some w) : w = v := by
  have hput := h.journaled.written _ _ hw
  obtain ⟨hkey, n, rfl⟩ := h.journaled.keyed _ _ hput
  exact (h.noCollision hv (mem_nodeEncodings hput) hkey).symm

theorem Good.get_empty (h : Good hash s t) : s._db.get (MPT.EMPTY_TRIE_ROOT hash) = none := by
  cases hget : s._db.get (MPT.EMPTY_TRIE_ROOT hash) with
  | none => rfl
  | some w =>
    have heq := h.get_eq (v := RLP_EMPTY_STRING) (.inl rfl) hget
    obtain ⟨-, n, hn⟩ := h.journaled.keyed _ _ (h.journaled.written _ _ hget)
    exact absurd (hn.symm.trans heq) (serialize_ne_empty n)

theorem isNode_of_wf (h : WF t) : isNode t = true :=
  isNode_iff.mpr ⟨h.ne_empty, h.ne_stub⟩

theorem Good.root_ne (h : Good hash s t) (ht : WF t) : s._root ≠ MPT.EMPTY_TRIE_ROOT hash := by
  intro hroot
  have hnode := isNode_of_wf ht
  have htop := h.holds.top hnode
  have hsame : hash (enc hash t) = MPT.EMPTY_TRIE_ROOT hash := by
    rw [← hroot, h.holds.root, rootHash_of_isNode hnode]
  rw [hsame, h.get_empty] at htop
  cases htop

theorem Good.root_eq (h : Good hash s .empty) : s._root = MPT.EMPTY_TRIE_ROOT hash := h.holds.root

/-! ## Reading -/

theorem Good.findPath_empty (h : Good hash s .empty) (fuel : Nat) (key : Bytes) :
    MPT.findPath (fuel + 1) s key false = .ok ⟨none, [], []⟩ := by
  simp only [MPT.findPath, MPT.walkPath, MPT.lookupNode, h.root_eq, h.get_empty]
  rfl

variable {key : Bytes} {fuel : Nat}

theorem Good.findPath_node (hlen : ∀ m, (hash m).length = 32) (h : Good hash s t) (ht : WF t)
    (hfuel : 2 * key.length < fuel) (throwIfMissing : Bool)
    (hdescend : descend t (bytesToNibbles key) [] = (fs, last, rest)) :
    MPT.findPath fuel s key throwIfMissing =
      .ok ⟨if foundAt last rest then some (node hash last) else none,
        if foundAt last rest then [] else rest, node hash last :: wayNodes hash fs last⟩ := by
  obtain ⟨hway, hle⟩ := way_of_descend ht hdescend
  rw [length_bytesToNibbles] at hle
  have hnode := isNode_of_wf ht
  have hplug := plug_of_descend (.inr ht) hdescend
  exact findPath_spec hlen fuel (h.holds.root.trans (rootHash_of_isNode hnode)) (h.holds.top hnode)
    (fun x hx => h.holds.stored x (hplug ▸ hx.sub)) hnode (fits_of_bounded hlen ht h.tidy.bounded)
    (proper_of_wf ht) throwIfMissing hdescend hway.isNode (by omega)

theorem value_of_found (hfound : foundAt last rest = true)
    (hvalues : ∀ v, lookup last rest = some v → v ≠ []) :
    (node hash last).value = (lookup last rest).map Item.bytes := by
  cases last with
  | empty => cases hfound
  | stub r => cases hfound
  | ext p c => cases hfound
  | leaf p v =>
    obtain rfl : p = rest := of_decide_eq_true hfound
    simp [node, MPTNode.value]
  | branch cs v =>
    obtain rfl : rest = [] := List.isEmpty_iff.mp hfound
    cases v with
    | none => rfl
    | some v =>
      have hpos : 0 < v.length := List.length_pos_iff.mpr (hvalues v rfl)
      simp [node, MPTNode.value, MPTNode.nonempty, Item.length, hpos]

/-- `get` answers what the tree holds. -/
theorem Good.get_spec (hlen : ∀ m, (hash m).length = 32) (h : Good hash s t)
    (hfuel : 2 * (s.appliedKey hash key).length < fuel) : s.get hash fuel key false =
      .ok ((lookup t (bytesToNibbles (s.appliedKey hash key))).map Item.bytes) := by
  unfold MPT.get
  rcases h.tidy.shape with rfl | ht
  · obtain ⟨n, rfl⟩ : ∃ n, fuel = n + 1 := ⟨fuel - 1, by omega⟩
    rw [h.findPath_empty, lookup_empty]
    rfl
  · obtain ⟨fs, last, rest, hdescend⟩ : ∃ fs last rest,
        descend t (bytesToNibbles (s.appliedKey hash key)) [] = (fs, last, rest) := ⟨_, _, _, rfl⟩
    obtain ⟨hway, -⟩ := way_of_descend ht hdescend
    rw [h.findPath_node hlen ht hfuel false hdescend]
    cases hfound : foundAt last rest with
    | true =>
      have hvalue : (node hash last).value = _ := value_of_found hfound (fun v hv =>
        h.tidy.values _ v (hway.split.lookup_eq.trans hv))
      rw [hway.split.lookup_eq, ← hvalue]
      rfl
    | false =>
      rw [lookup_of_not_found hway hfound]
      rfl

/-! ## Storing -/

/-- The operations that prune the nodes of a way. -/
def pathDels (hash : Bytes → Bytes) (fs : List (Frame 16 Bytes Item)) (last : Trie) :
    List BatchDBOp :=
  MPT.pruneOps hash (node hash last :: wayNodes hash fs last)

/-- All operations of a `put`. -/
def putOpsOf (hash : Bytes → Bytes) (opts : MPTOpts) (t : Trie) (k : Nibbles) (value : Bytes) :
    List BatchDBOp :=
  let (fs, last, rest) := descend t k []
  updateOps hash opts fs last rest value ++
    if opts.useNodePruning = true ∧ t.isEmpty = false ∧ lookup t k ≠ some value then
      pathDels hash fs last
    else []

/-- All operations of a `del`. -/
def delOpsOf (hash : Bytes → Bytes) (s : MPT) (t : Trie) (k : Nibbles) : List BatchDBOp :=
  let (fs, last, rest) := descend t k []
  if foundAt last rest then
    deleteOps hash s fs last ++ if s._opts.useNodePruning = true then pathDels hash fs last else []
  else []

theorem dbBatch_saved (s : MPT) (t : Trie) (ops ops' : List BatchDBOp) :
    (saved hash s t ops).dbBatch ops' = saved hash s t (ops ++ ops') := by
  simp only [saved, MPT.dbBatch, MapDB.batch_append, List.append_assoc]

/-- `put` stores the value in the tree. -/
theorem Good.put_spec (hlen : ∀ m, (hash m).length = 32) (h : Good hash s t) {value : Bytes}
    (hfuel : 2 * (s.appliedKey hash key).length < fuel) (hvalue : value ≠ []) :
    s.put hash fuel key (some value) false =
      .ok (saved hash s (insert t (bytesToNibbles (s.appliedKey hash key)) value)
        (putOpsOf hash s._opts t (bytesToNibbles (s.appliedKey hash key)) value)) := by
  obtain ⟨b, bs, rfl⟩ := List.exists_cons_of_ne_nil hvalue
  have hget := h.get_spec hlen hfuel
  simp only [MPT.put, Bool.false_eq_true, if_false]
  generalize s.appliedKey hash key = k at hfuel hget ⊢
  rcases h.tidy.shape with rfl | ht
  · rw [if_pos h.root_eq]
    simp only [MPT.createInitialNode, MPT.setRoot, MPT.EMPTY_TRIE_ROOT, hlen]
    simp [insert, descend, graft, putOpsOf, updateOps, graftOps, graftWay, wayOps, isEmpty, saved,
      rootHash, putOp, enc, node, bind, Except.bind]
    rfl
  · obtain ⟨fs, last, rest, hdescend⟩ : ∃ fs last rest,
        descend t (bytesToNibbles k) [] = (fs, last, rest) := ⟨_, _, _, rfl⟩
    obtain ⟨hway, -⟩ := way_of_descend ht hdescend
    have hempty : t.isEmpty = false := isEmpty_eq_false.mpr ht.ne_empty
    rw [if_neg (h.root_ne ht), h.findPath_node hlen ht hfuel false hdescend]
    simp only [insert, putOpsOf, hdescend, hempty, true_and]
    have hupdate := updateNode_spec hlen s hway (b :: bs)
    have hobsolete : s.obsolete hash fuel key (b :: bs) (node hash last :: wayNodes hash fs last) =
        .ok (if s._opts.useNodePruning = true ∧ lookup t (bytesToNibbles k) ≠ some (b :: bs) then
          pathDels hash fs last else []) := by
      unfold MPT.obsolete
      cases s._opts.useNodePruning with
      | false => rfl
      | true =>
        simp only [if_true, hget, bind, Except.bind, true_and, pathDels]
        cases lookup t (bytesToNibbles k) with
        | none => rfl
        | some w =>
          simp only [Option.map_some, ne_eq, Option.some.injEq, Item.bytes.injEq]
          split <;> rfl
    simp only [bind, Except.bind, hobsolete, hupdate, pure, Except.pure, dbBatch_saved]

/-- `del` removes the key from the tree. -/
theorem Good.del_spec (hlen : ∀ m, (hash m).length = 32) (h : Good hash s t)
    (hfuel : 2 * (s.appliedKey hash key).length < fuel) : s.del hash fuel key false =
      .ok (saved hash s (remove t (bytesToNibbles (s.appliedKey hash key)))
        (delOpsOf hash s t (bytesToNibbles (s.appliedKey hash key)))) := by
  have hsame : saved hash s t [] = s := by
    simp only [saved, ← h.holds.root, MPT.dbBatch, MapDB.batch_nil, List.append_nil]
  simp only [MPT.del, Bool.false_eq_true, if_false]
  generalize s.appliedKey hash key = k at hfuel ⊢
  rcases h.tidy.shape with rfl | ht
  · obtain ⟨n, rfl⟩ : ∃ n, fuel = n + 1 := ⟨fuel - 1, by omega⟩
    simp only [h.findPath_empty, remove, delOpsOf, descend, foundAt, Bool.false_eq_true, if_false,
      hsame]
    rfl
  · obtain ⟨fs, last, rest, hdescend⟩ : ∃ fs last rest,
        descend t (bytesToNibbles k) [] = (fs, last, rest) := ⟨_, _, _, rfl⟩
    obtain ⟨hway, -⟩ := way_of_descend ht hdescend
    rw [h.findPath_node hlen ht hfuel false hdescend]
    simp only [remove, delOpsOf, hdescend]
    cases hfound : foundAt last rest with
    | false =>
      simp only [Bool.false_eq_true, if_false, hsame, bind, Except.bind]
      rfl
    | true =>
      have hdelete := deleteNode_spec hlen hway ht h.holds.stored
        (fits_of_bounded hlen ht h.tidy.bounded) hfound
      simp only [if_true, bind, Except.bind, hdelete]
      cases s._opts.useNodePruning with
      | false => simp [pure, Except.pure]
      | true => simp [pure, Except.pure, dbBatch_saved, pathDels]

end Trie
