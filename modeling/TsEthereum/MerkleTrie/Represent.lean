-- SUMMARY: Tries as Patricia trees: the nodes and references of a tree, where it is stored, and walking to a key.
import TsEthereum.Base.PatriciaWays
import TsEthereum.MerkleTrie.Mpt

/-!
# Tries as trees

A `Trie` is the tree that a root stands for. Its nodes refer to each other by
`ref`, as the code forms references; the database stores every node that is
referred to by its hash. A stub is a reference to a node that is not there.
-/

open List Function Bool

open Rlp (Item)
open Nibbles

abbrev Trie := PatriciaTree 16 Bytes Item

namespace Trie

open PatriciaTree MPTNode MPT

/-- The tree has a node at its root. -/
def isNode : Trie → Bool
  | .leaf _ _ | .ext _ _ | .branch _ _ => true
  | .empty | .stub _ => false

section

variable (hash : Bytes → Bytes)

/-- The reference to a node below the root. -/
def refOf (node : MPTNode) : Item :=
  if 32 ≤ node.serialize.length then .bytes (hash node.serialize) else .list node.raw

def ref : Trie → Item
  | .empty => .bytes []
  | .stub r => r
  | .leaf p v => refOf hash (.leaf p (.bytes v))
  | .ext p c => refOf hash (.extension p (ref c))
  | .branch cs v => refOf hash (.branch (fun i => ref (cs i)) (.bytes (v.getD [])))

/-- The node at the root of a tree. -/
def node : Trie → MPTNode
  | .leaf p v => .leaf p (.bytes v)
  | .ext p c => .extension p (ref hash c)
  | .branch cs v => .branch (fun i => ref hash (cs i)) (.bytes (v.getD []))
  | .empty | .stub _ => MPT.emptyBranch

def enc (t : Trie) : Bytes := (node hash t).serialize

def rootHash (t : Trie) : Bytes :=
  if t.isEmpty then MPT.EMPTY_TRIE_ROOT hash else hash (enc hash t)

/-- The node of a frame with the reference `r` in its hole. -/
def frameNode (f : Frame 16 Bytes Item) (r : Item) : MPTNode :=
  match f with
  | .ext p => .extension p r
  | .branch cs v i =>
    .branch (Function.update (fun j => ref hash (cs j)) i r) (.bytes (v.getD []))

/-- The nodes of frames, whatever is in their holes. -/
def FrameNodes (fs : List (Frame 16 Bytes Item)) (ns : List MPTNode) : Prop :=
  List.Forall₂ (fun f n => ∃ r, n = frameNode hash f r) fs ns

/-- The nodes of a way above its last node. -/
def wayNodes : List (Frame 16 Bytes Item) → Trie → List MPTNode
  | [], _ => []
  | f :: fs, t => node hash (f.fill t) :: wayNodes fs (f.fill t)

/-- Every node that is referred to by its hash is in the database. -/
def Stored (db : MapDB) (t : Trie) : Prop :=
  ∀ s, Sub s t → isNode s = true → 32 ≤ (enc hash s).length →
    db.get (hash (enc hash s)) = some (enc hash s)

/-- The nodes of a way that are referred to by their hash are in the database. -/
def StoredWay (db : MapDB) (fs : List (Frame 16 Bytes Item)) (t : Trie) : Prop :=
  ∀ s, OnWay fs t s → isNode s = true → 32 ≤ (enc hash s).length →
    db.get (hash (enc hash s)) = some (enc hash s)

/-- No node is too long to be decoded again. -/
def Fits (t : Trie) : Prop :=
  ∀ s, Sub s t → isNode s = true → (enc hash s).length < 2 ^ 53

end

/-- Extensions are not empty and have something below them; stubs are references. -/
def Proper : Trie → Prop
  | .empty | .leaf _ _ => True
  | .stub r => 0 < r.length
  | .ext p c => p ≠ [] ∧ c ≠ .empty ∧ Proper c
  | .branch cs _ => ∀ i, Proper (cs i)

variable {hash : Bytes → Bytes}

variable {t : Trie}

theorem isNode_iff : isNode t = true ↔ t ≠ .empty ∧ ∀ r, t ≠ .stub r := by
  cases t <;> simp [isNode]

theorem ref_eq (h : isNode t = true) : ref hash t = refOf hash (node hash t) := by
  cases t with
  | empty => cases h
  | stub r => cases h
  | leaf p v => rfl
  | ext p c => rfl
  | branch cs v => rfl

theorem isNode_fill (f : Frame 16 Bytes Item) (t : Trie) : isNode (f.fill t) = true := by
  cases f <;> rfl

theorem isNode_plug (h : isNode t = true) (fs : List (Frame 16 Bytes Item)) :
    isNode (plug fs t) = true := by
  induction fs generalizing t with
  | nil => exact h
  | cons f fs ih => exact ih (isNode_fill f t)

theorem node_fill (f : Frame 16 Bytes Item) (t : Trie) :
    node hash (f.fill t) = frameNode hash f (ref hash t) := by
  cases f with
  | ext p => rfl
  | branch cs v i =>
    have hrefs : (fun j => ref hash (update cs i t j)) =
        update (fun j => ref hash (cs j)) i (ref hash t) := by
      funext j
      by_cases hj : j = i
      · subst hj
        simp
      · simp [update_of_ne hj]
    simp only [Frame.fill, node, hrefs, frameNode]

theorem frameNodes_wayNodes (fs : List (Frame 16 Bytes Item)) (t : Trie) :
    FrameNodes hash fs (wayNodes hash fs t) := by
  induction fs generalizing t with
  | nil => exact List.Forall₂.nil
  | cons f fs ih => exact List.Forall₂.cons ⟨ref hash t, node_fill f t⟩ (ih (f.fill t))

/-- The nodes of a way are those of its trees. -/
theorem mem_wayNodes {fs : List (Frame 16 Bytes Item)} {n : MPTNode} :
    n ∈ node hash t :: wayNodes hash fs t ↔ ∃ w, OnWay fs t w ∧ n = node hash w := by
  induction fs generalizing t with
  | nil => simp [wayNodes, onWay_nil]
  | cons f fs ih =>
    rw [wayNodes, mem_cons, ih]
    simp only [onWay_cons, or_and_right, exists_or, exists_eq_left]

theorem getLast?_wayNodes (fs : List (Frame 16 Bytes Item)) (t : Trie) :
    (node hash t :: wayNodes hash fs t).getLast? = some (node hash (plug fs t)) := by
  induction fs generalizing t with
  | nil => rfl
  | cons f fs ih =>
    rw [wayNodes, getLast?_cons_cons, ih, plug_cons]

theorem proper_of_wf (h : WF t) : Proper t := by
  induction t with
  | empty => exact h.elim
  | stub r => exact h.elim
  | leaf p v => trivial
  | ext p c ih => exact ⟨h.1, h.2.2.ne_empty, ih h.2.2⟩
  | branch cs v ih =>
    intro i
    by_cases hi : cs i = .empty
    · rw [hi]
      trivial
    · exact ih i (h.2 i hi)

variable {db : MapDB}

theorem Stored.sub {s : Trie} (h : Stored hash db t) (hs : Sub s t) : Stored hash db s :=
  fun u hu => h u (hu.trans hs)

theorem Fits.sub {s : Trie} (h : Fits hash t) (hs : Sub s t) : Fits hash s :=
  fun u hu => h u (hu.trans hs)

/-! ## References -/

theorem length_raw_pos (n : MPTNode) : 0 < n.raw.length := by
  cases n <;> simp [MPTNode.raw]

section

variable (hlen : ∀ m, (hash m).length = 32)
include hlen

theorem length_refOf_pos (n : MPTNode) : 0 < (refOf hash n).length := by
  unfold refOf
  split
  · simp [Item.length, hlen]
  · exact length_raw_pos n

theorem length_ref_pos (ht : t ≠ .empty) (hproper : Proper t) : 0 < (ref hash t).length := by
  cases t with
  | empty => exact absurd rfl ht
  | stub r => exact hproper
  | leaf p v => exact length_refOf_pos hlen _
  | ext p c => exact length_refOf_pos hlen _
  | branch cs v => exact length_refOf_pos hlen _

/-- `getBranch` answers `null` for the empty children only. -/
theorem getBranch_ref {cs : Nibble → Trie}
    (hproper : ∀ i, Proper (cs i)) (i : Nibble) :
    getBranch (fun j => ref hash (cs j)) i =
      if (cs i).isEmpty then none else some (ref hash (cs i)) := by
  unfold getBranch nonempty
  cases hempty : (cs i).isEmpty with
  | true =>
    have hnil : cs i = .empty := isEmpty_iff.mp hempty
    simp [hnil, ref, Item.length]
  | false =>
    have hpos := length_ref_pos hlen (isEmpty_eq_false.mp hempty) (hproper i)
    simp [hpos]

theorem getChildren_ref {cs : Nibble → Trie} (hproper : ∀ i, Proper (cs i)) :
    getChildren (fun j => ref hash (cs j)) =
      (children cs).map (fun i => (i, ref hash (cs i))) := by
  unfold getChildren children
  induction List.finRange 16 with
  | nil => rfl
  | cons i is ih =>
    rw [filterMap_cons, getBranch_ref hlen hproper i, ih, filter_cons]
    cases (cs i).isEmpty <;> rfl

end

/-- A node is found under the reference to it. -/
theorem lookupNode_ref (ht : isNode t = true)
    (hstored : 32 ≤ (enc hash t).length → db.get (hash (enc hash t)) = some (enc hash t))
    (hfits : Fits hash t) : lookupNode db (ref hash t) = .ok (node hash t) := by
  rw [ref_eq ht]
  unfold refOf
  split
  · rename_i hlong
    simp only [lookupNode]
    rw [show db.get (hash (node hash t).serialize) = some (enc hash t) from
      hstored hlong]
    exact decodeMPTNode_serialize (hfits t (.refl t) ht)
  · exact decodeRawMPTNode_raw _

theorem lookupNode_root (ht : isNode t = true)
    (htop : db.get (hash (enc hash t)) = some (enc hash t)) (hfits : Fits hash t) :
    lookupNode db (.bytes (hash (enc hash t))) = .ok (node hash t) := by
  simp only [lookupNode, htop]
  exact decodeMPTNode_serialize (hfits t (.refl t) ht)

/-! ## Walking -/

/-- The key ends at the node `last` or goes on from it. -/
def foundAt (last : Trie) (rest : Nibbles) : Bool :=
  match last with
  | .leaf p _ => p = rest
  | .branch _ _ => rest.isEmpty
  | .empty | .stub _ | .ext _ _ => false

/-- What a walk that ends at `last` answers. -/
def walkResult (hash : Bytes → Bytes) (last : Trie) (rest : Nibbles) :
    Except MPTError (Option MPTNode × Nibbles) :=
  if foundAt last rest then .ok (some (node hash last), []) else .ok (none, rest)

theorem walkResult_leaf (p : Nibbles) (v : Bytes) (k : Nibbles) :
    walkResult hash (.leaf p v) k =
      if p = k then .ok (some (node hash (.leaf p v)), []) else .ok (none, k) := by
  simp [walkResult, foundAt]

theorem stackSet_eq {stack : List (Nat × MPTNode)} {progress : Nat} (n : MPTNode)
    (h : ∀ e ∈ stack, e.1 < progress) : stackSet stack progress n = (progress, n) :: stack := by
  unfold stackSet
  rw [List.filter_eq_self.mpr]
  intro e he
  have hlt := h e he
  simp only [ne_eq, decide_eq_true_eq]
  omega

theorem isPrefixOf_eq (p k : Nibbles) : p.isPrefixOf k = decide (p <+: k) := by
  rw [Bool.eq_iff_iff, decide_eq_true_iff, isPrefixOf_iff_prefix]

theorem walk_leaf (p k : Nibbles) : ¬ k.length > p.length ∧ p <+: k ↔ p = k := by
  constructor
  · rintro ⟨hlen, hp⟩
    exact hp.eq_of_length_le (Nat.le_of_not_gt hlen)
  · rintro rfl
    exact ⟨Nat.lt_irrefl _, prefix_refl p⟩

/-- The walk finds the frames and the node where the way to the key ends. -/
theorem walkPath_spec (hlen : ∀ m, (hash m).length = 32) {target : Nibbles} (t : Trie)
    (progress fuel : Nat) (stack : List (Nat × MPTNode)) {k : Nibbles}
    {fs : List (Frame 16 Bytes Item)} {r : Item} (hlook : lookupNode db r = .ok (node hash t))
    (hnode : isNode t = true) (hway : StoredWay hash db (descend t k fs).1 (descend t k fs).2.1)
    (hfits : Fits hash t) (hproper : Proper t) (htarget : target.drop progress = k)
    (hindex : ∀ e ∈ stack, e.1 < progress) (hstack : stack.map Prod.snd = wayNodes hash fs t)
    (hlast : isNode (descend t k fs).2.1 = true)
    (hfuel : (descend t k fs).1.length < fs.length + fuel) :
    ∃ stack', walkPath db target fuel r progress stack =
        ⟨walkResult hash (descend t k fs).2.1 (descend t k fs).2.2, stack'⟩ ∧
      stack'.map Prod.snd = node hash (descend t k fs).2.1 ::
        wayNodes hash (descend t k fs).1 (descend t k fs).2.1 := by
  induction t generalizing progress fuel stack k fs r with
  | empty => cases hnode
  | stub ref => cases hnode
  | leaf p v =>
    obtain ⟨n, rfl⟩ : ∃ n, fuel = n + 1 := ⟨fuel - 1, by simp only [descend] at hfuel; omega⟩
    refine ⟨(progress, node hash (.leaf p v)) :: stack, ?_, congrArg (_ :: ·) hstack⟩
    have hdescend : descend (.leaf p v) k fs = (fs, .leaf p v, k) := rfl
    rw [hdescend, walkResult_leaf]
    simp only [walkPath, hlook, node, stackSet_eq _ hindex, htarget, isPrefixOf_eq,
      decide_eq_true_eq]
    by_cases hp : p = k
    · have hboth := (walk_leaf p k).mpr hp
      rw [if_neg hboth.1, if_pos hboth.2, if_pos hp]
    · rw [if_neg hp]
      by_cases hlong : k.length > p.length
      · rw [if_pos hlong]
      · rw [if_neg hlong, if_neg (fun hprefix => hp ((walk_leaf p k).mp ⟨hlong, hprefix⟩))]
  | ext p c ih =>
    obtain ⟨hp, hc, hproperc⟩ := hproper
    by_cases hprefix : p <+: k
    · have hdescend : descend (.ext p c) k fs = descend c (k.drop p.length) (.ext p :: fs) := by
        simp only [descend, if_pos hprefix]
      rw [hdescend] at hlast hfuel hway ⊢
      have hgrow : (Frame.ext p :: fs).length ≤ (descend c (k.drop p.length) (.ext p :: fs)).1.length :=
        length_le_descend c _ _
      obtain ⟨n, rfl⟩ : ∃ n, fuel = n + 1 := ⟨fuel - 1, by simp only [length_cons] at hgrow; omega⟩
      have hcnode : isNode c = true := by
        rw [isNode_iff]
        refine ⟨hc, ?_⟩
        rintro ref rfl
        cases hlast
      have hsub : Sub c (.ext p c) := .ext p (.refl c)
      have hppos : 0 < p.length := List.length_pos_iff.mpr hp
      have hnodes : ((progress, node hash (.ext p c)) :: stack).map Prod.snd =
          wayNodes hash (.ext p :: fs) c := congrArg (node hash (.ext p c) :: ·) hstack
      have hwalk := ih (progress + p.length) n ((progress, node hash (.ext p c)) :: stack)
        (lookupNode_ref hcnode (hway c (onWay_descend _ _ _) hcnode) (hfits.sub hsub)) hcnode hway
        (hfits.sub hsub) hproperc (by rw [← drop_drop, htarget]) ?_
        hnodes hlast
        (by simp only [length_cons]; omega)
      · obtain ⟨stack', hrun, hmap⟩ := hwalk
        refine ⟨stack', ?_, hmap⟩
        simp only [walkPath, hlook, node, stackSet_eq _ hindex, htarget, isPrefixOf_eq,
          decide_eq_true_eq, if_pos hprefix]
        exact hrun
      · intro e he
        rcases mem_cons.mp he with rfl | he
        · exact Nat.lt_add_of_pos_right hppos
        · exact (hindex e he).trans (Nat.lt_add_of_pos_right hppos)
    · have hdescend : descend (.ext p c) k fs = (fs, .ext p c, k) := by
        simp only [descend, if_neg hprefix]
      rw [hdescend] at hfuel ⊢
      obtain ⟨n, rfl⟩ : ∃ n, fuel = n + 1 := ⟨fuel - 1, by simp only at hfuel; omega⟩
      refine ⟨(progress, node hash (.ext p c)) :: stack, ?_, congrArg (_ :: ·) hstack⟩
      simp only [walkPath, hlook, node, stackSet_eq _ hindex, htarget, isPrefixOf_eq,
        decide_eq_true_eq, if_neg hprefix, walkResult, foundAt, false_eq_true, if_false]
  | branch cs v ih =>
    cases k with
    | nil =>
      obtain ⟨n, rfl⟩ : ∃ n, fuel = n + 1 := ⟨fuel - 1, by simp only [descend] at hfuel; omega⟩
      refine ⟨(progress, node hash (.branch cs v)) :: stack, ?_, congrArg (_ :: ·) hstack⟩
      simp only [walkPath, hlook, node, stackSet_eq _ hindex, htarget, descend, walkResult,
        foundAt, isEmpty_nil, if_true]
    | cons i k =>
      have hbranch := getBranch_ref hlen hproper i
      cases hempty : (cs i).isEmpty with
      | true =>
        have hdescend : descend (.branch cs v) (i :: k) fs = (fs, .branch cs v, i :: k) := by
          simp only [descend, hempty, if_true]
        rw [hdescend] at hfuel ⊢
        obtain ⟨n, rfl⟩ : ∃ n, fuel = n + 1 := ⟨fuel - 1, by simp only at hfuel; omega⟩
        refine ⟨(progress, node hash (.branch cs v)) :: stack, ?_, congrArg (_ :: ·) hstack⟩
        rw [hempty, if_pos rfl] at hbranch
        simp only [walkPath, hlook, node, stackSet_eq _ hindex, htarget, hbranch, walkResult,
          foundAt, isEmpty_cons, false_eq_true, if_false]
      | false =>
        have hdescend : descend (.branch cs v) (i :: k) fs =
            descend (cs i) k (.branch cs v i :: fs) := by
          simp only [descend, hempty, false_eq_true, if_false]
        rw [hdescend] at hlast hfuel hway ⊢
        have hgrow : (Frame.branch cs v i :: fs).length ≤
            (descend (cs i) k (.branch cs v i :: fs)).1.length := length_le_descend _ _ _
        obtain ⟨n, rfl⟩ : ∃ n, fuel = n + 1 :=
          ⟨fuel - 1, by simp only [length_cons] at hgrow; omega⟩
        have hcnode : isNode (cs i) = true := by
          rw [isNode_iff]
          refine ⟨isEmpty_eq_false.mp hempty, ?_⟩
          intro ref href
          rw [href] at hlast
          cases hlast
        have hsub : Sub (cs i) (.branch cs v) := .branch v i (.refl _)
        have hnodes : ((progress, node hash (.branch cs v)) :: stack).map Prod.snd =
            wayNodes hash (.branch cs v i :: fs) (cs i) := by
          simp only [map_cons, wayNodes, Frame.fill, update_eq_self, hstack]
        have hwalk := ih i (progress + 1) n ((progress, node hash (.branch cs v)) :: stack)
          (lookupNode_ref hcnode (hway (cs i) (onWay_descend _ _ _) hcnode) (hfits.sub hsub)) hcnode
          hway (hfits.sub hsub) (hproper i) (by rw [← drop_drop, htarget, drop_one]; rfl) ?_
          hnodes hlast
          (by simp only [length_cons]; omega)
        · obtain ⟨stack', hrun, hmap⟩ := hwalk
          refine ⟨stack', ?_, hmap⟩
          rw [hempty, if_neg Bool.false_ne_true] at hbranch
          simp only [walkPath, hlook, node, stackSet_eq _ hindex, htarget, hbranch]
          exact hrun
        · intro e he
          rcases mem_cons.mp he with rfl | he
          · exact Nat.lt_succ_self progress
          · exact (hindex e he).trans (Nat.lt_succ_self progress)

end Trie
