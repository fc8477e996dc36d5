-- SUMMARY: Merkle proofs: creating them, verifying them in a trie of the proof's nodes, and what an accepted proof says.
import TsEthereum.MerkleTrie.PruningRuns

/-!
# Merkle proofs

A proof is the list of encoded nodes on the way to a key. The verifier stores them
under their hashes and reads the key there; so its walk is the walk of the trie, or
it misses a node. Whatever goes wrong is reported as an invalid proof.
-/

open List Except

open Rlp (Item)
open Nibbles

namespace MPT

open Trie

variable (hash : Bytes → Bytes)

def createMerkleProof (fuel : Nat) (trie : MPT) (key : Bytes) : Except MPTError (List Bytes) := do
  let path ← findPath fuel trie (trie.appliedKey hash key) false
  return (path.stack.map MPTNode.serialize).reverse

/-- The operations that store the nodes of a proof. -/
def proofOps (proof : List Bytes) : List BatchDBOp :=
  proof.map (fun nodeValue => .put (hash nodeValue) nodeValue)

/-- Puts all nodes of the proof into the trie, and answers the root of the proof. -/
def updateMPTFromMerkleProof (trie : MPT) (proof : List Bytes) (shouldVerifyRoot : Bool) :
    Except MPTError (MPT × Option Bytes) :=
  let opStack := proofOps hash proof
  match opStack with
  | [] => .ok (trie.dbBatch opStack, none)
  | op :: _ =>
    if shouldVerifyRoot ∧ trie._root ≠ op.key then .error .unexpectedRoot
    else .ok (trie.dbBatch opStack, some op.key)

def createMPTFromProof (proof : List Bytes) (trieOpts : MPTOpts) (root : Option Bytes) :
    Except MPTError MPT := do
  let trie ← match root with
    | none => .ok (new hash trieOpts)
    | some root => (new hash trieOpts).setRoot hash root
  let (trie, root) ← updateMPTFromMerkleProof hash trie proof root.isSome
  match root with
  | none => .ok trie
  | some root => trie.setRoot hash root

/-- The value from the key, `null` for a valid proof of non-existence. -/
def verifyMerkleProof (fuel : Nat) (key : Bytes) (proof : List Bytes) (opts : MPTOpts)
    (root : Option Bytes) : Except MPTError (Option Item) :=
  match (createMPTFromProof hash proof opts root).bind (fun proofTrie =>
      proofTrie.get hash fuel key true) with
  | .ok value => .ok value
  | .error _ => .error .invalidProof

variable {hash}

/-! ## The trie of a proof -/

/-- The trie in which a proof is verified against a root. -/
def proofTrie (hash : Bytes → Bytes) (proof : List Bytes) (opts : MPTOpts) (root : Bytes) : MPT :=
  { new hash opts with _root := root }.dbBatch (proofOps hash proof)

section

variable (hlen : ∀ m, (hash m).length = 32)
include hlen

/-- The first node of a proof has to be that of the root. -/
theorem createMPTFromProof_spec (proof : List Bytes)
    (opts : MPTOpts) {root : Bytes} (hroot : root.length = 32) :
    createMPTFromProof hash proof opts (some root) =
      if ∀ n ∈ proof.head?, hash n = root then .ok (proofTrie hash proof opts root)
      else .error .unexpectedRoot := by
  have hset (t : MPT) : t.setRoot hash root = .ok { t with _root := root } := by
    simp only [setRoot, EMPTY_TRIE_ROOT, hlen, hroot, ne_eq, not_true_eq_false, if_false]
  cases proof with
  | nil =>
    simp only [createMPTFromProof, hset, bind, Except.bind, updateMPTFromMerkleProof, proofOps,
      map_nil, head?_nil, Option.mem_def, reduceCtorEq, false_implies, implies_true, if_true]
    rfl
  | cons n proof =>
    have hhead : (∀ m ∈ (n :: proof).head?, hash m = root) ↔ hash n = root := by simp
    rw [if_congr hhead rfl rfl]
    simp only [createMPTFromProof, hset, bind, Except.bind, updateMPTFromMerkleProof, proofOps,
      map_cons, Option.isSome_some, true_and, BatchDBOp.key]
    by_cases hsame : hash n = root
    · rw [if_neg (not_not_intro hsame.symm), if_pos hsame]
      simp only [hsame, hset]
      simp only [proofTrie, proofOps, map_cons, hsame]
      rfl
    · rw [if_neg hsame, if_pos (Ne.symm hsame)]

/-- Without a root to compare with, the first node of a proof makes the root. -/
theorem createMPTFromProof_unrooted (n : Bytes) (proof : List Bytes)
    (opts : MPTOpts) : createMPTFromProof hash (n :: proof) opts none =
      .ok (proofTrie hash (n :: proof) opts (hash n)) := by
  have hset (t : MPT) : t.setRoot hash (hash n) = .ok { t with _root := hash n } := by
    simp only [setRoot, EMPTY_TRIE_ROOT, hlen, ne_eq, not_true_eq_false, if_false]
  simp only [createMPTFromProof, bind, Except.bind, updateMPTFromMerkleProof, proofOps, map_cons,
    Option.isSome_none, Bool.false_eq_true, false_and, if_false, BatchDBOp.key, hset]
  rfl

theorem verifyMerkleProof_unrooted (fuel : Nat) (key n : Bytes)
    (proof : List Bytes) (opts : MPTOpts) : verifyMerkleProof hash fuel key (n :: proof) opts none =
      verifyMerkleProof hash fuel key (n :: proof) opts (some (hash n)) := by
  have hhead : ∀ m ∈ (n :: proof).head?, hash m = hash n := by simp
  unfold verifyMerkleProof
  rw [createMPTFromProof_unrooted hlen, createMPTFromProof_spec hlen _ _ (hlen n), if_pos hhead]

end

variable {proof : List Bytes}

theorem mem_proof_of_get {opts : MPTOpts} {root k v : Bytes}
    (h : (proofTrie hash proof opts root)._db.get k = some v) : v ∈ proof ∧ k = hash v := by
  have hget : (MapDB.batch .empty (proofOps hash proof)).get k = some v := h
  rw [MapDB.get_batch] at hget
  cases hlast : BatchDBOp.lastWrite (proofOps hash proof) k with
  | none =>
    rw [hlast] at hget
    simp at hget
  | some w =>
    rw [hlast, Option.getD_some] at hget
    rw [hget] at hlast
    obtain ⟨n, hn, hop⟩ := mem_map.mp (BatchDBOp.put_mem_of_lastWrite hlast)
    obtain ⟨rfl, rfl⟩ := BatchDBOp.put.inj hop
    exact ⟨hn, rfl⟩

theorem get_of_mem_proof (opts : MPTOpts) (root : Bytes) {v : Bytes} (hv : v ∈ proof)
    (hinj : Set.InjOn hash {n | n ∈ proof}) :
    (proofTrie hash proof opts root)._db.get (hash v) = some v := by
  have hput : BatchDBOp.put (hash v) v ∈ proofOps hash proof := mem_map.mpr ⟨v, hv, rfl⟩
  refine MapDB.get_batch_of_puts (fun op hop hkey => ?_) (.inl hput)
  obtain ⟨n, hn, rfl⟩ := mem_map.mp hop
  have hkey' : hash n = hash v := hkey
  rw [hinj hn hv hkey']

/-! ## Walks in two databases -/

/-- Two walks that both arrive find the same, where no key has different values. -/
theorem walkPath_agree {db db' : MapDB} {target : Nibbles}
    (hagree : ∀ k v w, db.get k = some v → db'.get k = some w → v = w) (fuel fuel' : Nat)
    (ref : Item) (progress : Nat) (stack stack' : List (Nat × MPTNode))
    {r r' : Option MPTNode × Nibbles}
    (h : (walkPath db target fuel ref progress stack).result = .ok r)
    (h' : (walkPath db' target fuel' ref progress stack').result = .ok r') : r = r' := by
  induction fuel generalizing fuel' ref progress stack stack' with
  | zero => cases h
  | succ fuel ih =>
    cases fuel' with
    | zero => cases h'
    | succ fuel' =>
      have hlook {n n' : MPTNode} (hn : lookupNode db ref = .ok n) (hn' : lookupNode db' ref = .ok n') :
          n = n' := by
        cases ref with
        | list raw => exact ok.inj (hn.symm.trans hn')
        | bytes k =>
          simp only [lookupNode] at hn hn'
          split at hn
          · cases hn
          · split at hn'
            · cases hn'
            · rename_i v hv _ w hw
              rw [hagree k v w hv hw] at hn
              exact ok.inj (hn.symm.trans hn')
      unfold walkPath at h h'
      cases hn : lookupNode db ref with
      | error e =>
        rw [hn] at h
        cases h
      | ok n =>
        cases hn' : lookupNode db' ref with
        | error e =>
          rw [hn'] at h'
          cases h'
        | ok n' =>
          obtain rfl := hlook hn hn'
          simp only [hn] at h
          simp only [hn'] at h'
          cases n with
          | leaf p v =>
            simp only at h h'
            split at h
            · rename_i hlong
              rw [if_pos hlong] at h'
              exact ok.inj (h.symm.trans h')
            · rename_i hlong
              rw [if_neg hlong] at h'
              split at h
              · rename_i hp
                rw [if_pos hp] at h'
                exact ok.inj (h.symm.trans h')
              · rename_i hp
                rw [if_neg hp] at h'
                exact ok.inj (h.symm.trans h')
          | extension p v =>
            simp only at h h'
            split at h
            · rename_i hp
              rw [if_pos hp] at h'
              exact ih _ _ _ _ _ h h'
            · rename_i hp
              rw [if_neg hp] at h'
              exact ok.inj (h.symm.trans h')
          | branch cs v =>
            simp only at h h'
            split at h
            · rename_i hnil
              simp only [hnil] at h'
              exact ok.inj (h.symm.trans h')
            · rename_i i rest hcons
              simp only [hcons] at h'
              split at h
              · rename_i hnone
                simp only [hcons] at h
                simp only [hnone] at h'
                exact ok.inj (h.symm.trans h')
              · rename_i c hsome
                simp only [hsome] at h'
                exact ih _ _ _ _ _ h h'

/-! ## Proofs from a trie -/

variable {s : MPT} {fuel : Nat} {key : Bytes}

/-- The node that `findPath` answers, as `get` reads it. -/
theorem get_congr {s' : MPT} {fuel' : Nat} {b b' : Bool}
    (h : findPath fuel s (s.appliedKey hash key) b = findPath fuel' s' (s'.appliedKey hash key) b') :
     s.get hash fuel key b = s'.get hash fuel' key b' := by
  simp only [get, h]

variable {t : Trie}

/-- A proof from a trie that is not empty is accepted, with the value that the trie has. -/
theorem verify_create (hlen : ∀ m, (hash m).length = 32) (h : Trie.Good hash s t)
    (ht : PatriciaTree.WF t) (key : Bytes) (hfuel : s.walkFuel hash key ≤ fuel) :
    ∃ proof, s.createMerkleProof hash fuel key = .ok proof ∧
      verifyMerkleProof hash fuel key proof s._opts (some s._root) = s.read hash key := by
  obtain ⟨fs, last, rest, hdescend⟩ : ∃ fs last rest,
      PatriciaTree.descend t (bytesToNibbles (s.appliedKey hash key)) [] = (fs, last, rest) :=
    ⟨_, _, _, rfl⟩
  have hplug := plug_of_descend (.inr ht) hdescend
  have hnode := isNode_of_wf ht
  have hroot := h.holds.root.trans (rootHash_of_isNode hnode)
  have hpath {fuel : Nat} (hfuel : s.walkFuel hash key ≤ fuel) :=
    h.findPath_node hlen ht (Nat.lt_of_succ_le hfuel) false hdescend
  obtain ⟨proof, hproof⟩ : ∃ proof, proof =
      ((Trie.node hash last :: wayNodes hash fs last).map MPTNode.serialize).reverse := ⟨_, rfl⟩
  have hmem (v : Bytes) : v ∈ proof ↔ ∃ w, PatriciaTree.OnWay fs last w ∧ v = Trie.enc hash w := by
    rw [hproof, mem_reverse, mem_map]
    simp only [mem_wayNodes]
    constructor
    · rintro ⟨_, ⟨w, hw, rfl⟩, rfl⟩
      exact ⟨w, hw, rfl⟩
    · rintro ⟨w, hw, rfl⟩
      exact ⟨_, ⟨w, hw, rfl⟩, rfl⟩
  have hinj : Set.InjOn hash {n | n ∈ proof} := by
    refine h.noCollision.mono (fun v hv => ?_)
    obtain ⟨w, hw, rfl⟩ := (hmem v).mp hv
    refine enc_mem_of_puts (fun x hx hxnode hlong => h.put_mem hx hxnode hlong) (hplug ▸ hw.sub) ?_
    have hway := way_of_descend ht hdescend
    exact onWay_isNode hw hway.1.isNode
  have hstored {x : Trie} (hx : PatriciaTree.OnWay fs last x) :
      (proofTrie hash proof s._opts s._root)._db.get (hash (Trie.enc hash x)) =
        some (Trie.enc hash x) :=
    get_of_mem_proof _ _ ((hmem _).mpr ⟨x, hx, rfl⟩) hinj
  have hfirst : ∀ n ∈ proof.head?, hash n = s._root := by
    intro n hn
    rw [hproof, head?_reverse, getLast?_map, getLast?_wayNodes, hplug] at hn
    rw [hroot, ← Option.some.inj hn]
    rfl
  have hcreated : createMPTFromProof hash proof s._opts (some s._root) =
      .ok (proofTrie hash proof s._opts s._root) := by
    rw [createMPTFromProof_spec hlen proof s._opts (by rw [hroot, hlen]), if_pos hfirst]
  obtain ⟨⟨-, hlast⟩, hle⟩ := way_of_descend ht hdescend
  rw [length_bytesToNibbles] at hle
  have htop : PatriciaTree.OnWay fs last t := ⟨fs, [], (append_nil fs).symm, hplug.symm⟩
  have hroot' : (proofTrie hash proof s._opts s._root)._root = hash (Trie.enc hash t) := hroot
  have hfound := findPath_spec hlen fuel hroot' (hstored htop) (fun x hx _ _ => hstored hx) hnode
    (fits_of_bounded hlen ht h.tidy.bounded) (proper_of_wf ht) true hdescend hlast
    (hle.trans_lt (Nat.lt_of_succ_le hfuel))
  have hget : (proofTrie hash proof s._opts s._root).get hash fuel key true = s.read hash key :=
    get_congr (hfound.trans (hpath (Nat.le_refl _)).symm)
  refine ⟨proof, ?_, ?_⟩
  · simp only [createMerkleProof, hpath hfuel, bind, Except.bind, hproof]
    rfl
  · simp only [verifyMerkleProof, hcreated, Except.bind, hget, read_spec hlen h]

/-- The leaf of a key alone proves its value: it is the root of a trie with no other key. -/
theorem verify_leaf (hlen : ∀ m, (hash m).length = 32) (fuel : Nat) (key : Bytes) (value : Bytes)
    (hvalue : value.length < 2 ^ 51) : verifyMerkleProof hash (fuel + 1) key
        [(MPTNode.leaf (bytesToNibbles (hash key)) (.bytes value)).serialize] ⟨true, false⟩ none =
      .ok (some (.bytes value)) := by
  obtain ⟨n, hn⟩ : ∃ n, n = (MPTNode.leaf (bytesToNibbles (hash key)) (.bytes value)).serialize :=
    ⟨_, rfl⟩
  have hpath : (bytesToNibbles (hash key)).length < 2 ^ 52 := by
    rw [length_bytesToNibbles, hlen]
    decide
  have hdecode : MPTNode.decodeMPTNode n = .ok (.leaf (bytesToNibbles (hash key)) (.bytes value)) := by
    rw [hn]
    exact MPTNode.decodeMPTNode_serialize (@Trie.length_enc_leaf hash _ _ hpath hvalue)
  have hstored : (proofTrie hash [n] ⟨true, false⟩ (hash n))._db.get (hash n) = some n := by
    apply get_of_mem_proof _ _ (mem_singleton_self n)
    intro v hv w hw _
    exact (mem_singleton.mp hv).trans (mem_singleton.mp hw).symm
  have hwalk : (walkPath (proofTrie hash [n] ⟨true, false⟩ (hash n))._db (bytesToNibbles (hash key))
      (fuel + 1) (.bytes (hash n)) 0 []).result =
        .ok (some (.leaf (bytesToNibbles (hash key)) (.bytes value)), []) := by
    have hself : (bytesToNibbles (hash key)).isPrefixOf (bytesToNibbles (hash key)) = true :=
      isPrefixOf_iff_prefix.mpr (prefix_refl _)
    simp only [walkPath, lookupNode, hstored, hdecode, drop_zero, gt_iff_lt, lt_irrefl, if_false,
      hself, if_true]
  have hget : (proofTrie hash [n] ⟨true, false⟩ (hash n)).get hash (fuel + 1) key true =
      .ok (some (.bytes value)) := by
    have hkey : (proofTrie hash [n] ⟨true, false⟩ (hash n)).appliedKey hash key = hash key := rfl
    have hroot : (proofTrie hash [n] ⟨true, false⟩ (hash n))._root = hash n := rfl
    simp only [get, findPath, hkey, hroot, hwalk]
    rfl
  rw [← hn, verifyMerkleProof, createMPTFromProof_unrooted hlen]
  simp only [Except.bind, hget]

/-! ## Any proof -/

theorem findPath_ok {path : Path} (h : findPath fuel s key true = .ok path) :
    (walkPath s._db (bytesToNibbles key) fuel (.bytes s._root) 0 []).result =
      .ok (path.node, path.remaining) := by
  unfold findPath at h
  cases hwalk : (walkPath s._db (bytesToNibbles key) fuel (.bytes s._root) 0 []).result with
  | ok r =>
    obtain ⟨node, remaining⟩ := r
    simp only [hwalk] at h
    rw [← ok.inj h]
  | error e => cases e <;> simp [hwalk] at h

/-- What `get` makes of a path. -/
theorem get_eq_bind (s : MPT) (fuel : Nat) (key : Bytes) (b : Bool) :
    s.get hash fuel key b = (findPath fuel s (s.appliedKey hash key) b).map (fun path =>
      match path.node, path.remaining with
      | some node, [] => node.value
      | _, _ => none) := by
  unfold get
  cases findPath fuel s (s.appliedKey hash key) b with
  | error e => rfl
  | ok path =>
    obtain ⟨node, remaining, stack⟩ := path
    cases node with
    | none => rfl
    | some node => cases remaining <;> rfl

/-- What has been walked where a proof is accepted. -/
theorem walk_of_verify (hlen : ∀ m, (hash m).length = 32) (h : Trie.Good hash s t) {v : Option Item}
    (hverify : verifyMerkleProof hash fuel key proof s._opts (some s._root) = .ok v) :
    ∃ path : Path, (walkPath (proofTrie hash proof s._opts s._root)._db
        (bytesToNibbles (s.appliedKey hash key)) fuel (.bytes s._root) 0 []).result =
          .ok (path.node, path.remaining) ∧
      (match path.node, path.remaining with
        | some node, [] => node.value
        | _, _ => none) = v := by
  have hrootLen : s._root.length = 32 := by
    rw [h.holds.root]
    cases t <;> exact hlen _
  have hget : (proofTrie hash proof s._opts s._root).get hash fuel key true = .ok v := by
    unfold verifyMerkleProof at hverify
    rw [createMPTFromProof_spec hlen proof s._opts hrootLen] at hverify
    split at hverify
    · rename_i w hw
      split at hw
      · rw [← ok.inj hverify]
        exact hw
      · cases hw
    · cases hverify
  rw [get_eq_bind] at hget
  cases hfound : findPath fuel (proofTrie hash proof s._opts s._root)
      ((proofTrie hash proof s._opts s._root).appliedKey hash key) true with
  | error e =>
    rw [hfound] at hget
    cases hget
  | ok path =>
    rw [hfound] at hget
    exact ⟨path, findPath_ok hfound, ok.inj hget⟩

/-- The root of the empty trie is the hash of no node. -/
theorem walk_empty (h : Trie.Good hash s .empty) {target : Nibbles} {r : Option MPTNode × Nibbles}
    (hinj : Set.InjOn hash (nodeEncodings s.journal ∪ {n | n ∈ proof})) :
    (walkPath (proofTrie hash proof s._opts s._root)._db target fuel (.bytes s._root) 0 []).result ≠
      .ok r := by
  intro hwalk
  rw [h.root_eq] at hwalk
  cases fuel with
  | zero => cases hwalk
  | succ fuel =>
    simp only [walkPath, lookupNode] at hwalk
    cases hfirst : (proofTrie hash proof s._opts (EMPTY_TRIE_ROOT hash))._db.get
        (EMPTY_TRIE_ROOT hash) with
    | none =>
      rw [hfirst] at hwalk
      cases hwalk
    | some w =>
      obtain ⟨hmem, hkey⟩ := mem_proof_of_get hfirst
      have hempty : RLP_EMPTY_STRING = w := hinj (.inl (.inl rfl)) (.inr hmem) hkey
      rw [hfirst, ← hempty] at hwalk
      cases hwalk

/-- An accepted proof says what the trie says. -/
theorem verify_sound (hlen : ∀ m, (hash m).length = 32) (h : Trie.Good hash s t) {v : Option Item}
    (hinj : Set.InjOn hash (nodeEncodings s.journal ∪ {n | n ∈ proof}))
    (hverify : verifyMerkleProof hash fuel key proof s._opts (some s._root) = .ok v) :
    s.read hash key = .ok v := by
  obtain ⟨path, hwalk, hv⟩ := walk_of_verify hlen h hverify
  have hagree (k a b : Bytes) (ha : s._db.get k = some a)
      (hb : (proofTrie hash proof s._opts s._root)._db.get k = some b) : a = b := by
    have hput := h.journaled.written k a ha
    obtain ⟨rfl, n, rfl⟩ := h.journaled.keyed k a hput
    obtain ⟨hmem, hkey⟩ := mem_proof_of_get hb
    exact hinj (.inl (mem_nodeEncodings hput)) (.inr hmem) hkey
  rcases h.tidy.shape with rfl | ht
  · exact absurd hwalk (walk_empty h hinj)
  · obtain ⟨fs, last, rest, hdescend⟩ : ∃ fs last rest,
        PatriciaTree.descend t (bytesToNibbles (s.appliedKey hash key)) [] = (fs, last, rest) :=
      ⟨_, _, _, rfl⟩
    have hnode (b : Bool) := h.findPath_node hlen ht (Nat.lt_succ_self _) b hdescend
    have hsame := walkPath_agree hagree _ _ _ _ _ _ (findPath_ok (hnode true)) hwalk
    obtain ⟨hn, hr⟩ := Prod.mk.inj hsame
    unfold read
    rw [get_eq_bind, walkFuel, hnode false]
    refine congrArg Except.ok ?_
    rw [← hv, ← hn, ← hr]

/-- A proof from the empty trie has no nodes, and is not accepted. -/
theorem verify_create_empty (hlen : ∀ m, (hash m).length = 32) (h : Trie.Good hash s .empty)
    (key : Bytes) (hfuel : s.walkFuel hash key ≤ fuel) :
    s.createMerkleProof hash fuel key = .ok [] ∧
      verifyMerkleProof hash fuel key [] s._opts (some s._root) = .error .invalidProof := by
  obtain ⟨n, rfl⟩ : ∃ n, fuel = n + 1 := ⟨fuel - 1, by unfold walkFuel at hfuel; omega⟩
  refine ⟨?_, ?_⟩
  · simp only [createMerkleProof, h.findPath_empty]
    rfl
  · have hinj : Set.InjOn hash (nodeEncodings s.journal ∪ {n | n ∈ ([] : List Bytes)}) := by
      refine h.noCollision.mono ?_
      rintro v (hv | hv)
      · exact hv
      · exact absurd hv not_mem_nil
    cases hverify : verifyMerkleProof hash (n + 1) key [] s._opts (some s._root) with
    | ok v =>
      obtain ⟨path, hwalk, -⟩ := walk_of_verify hlen h hverify
      exact absurd hwalk (walk_empty h hinj)
    | error e =>
      unfold verifyMerkleProof at hverify
      split at hverify
      · cases hverify
      · exact hverify.symm ▸ rfl

/-- Proofs from a trie built over keys of one length are accepted with the value of their key
exactly if the trie is not empty; and any proof that is accepted has the value of its key. -/
theorem run_verify {opts : MPTOpts} (hlen : ∀ m, (hash m).length = 32) {n : Nat} {ops : List Op}
    (hkeys : ∀ op ∈ ops, op.key.val.length = n)
    (halone : opts.useNodePruning = true → PrunesAlone hash opts ops)
    (hinj : Set.InjOn hash (occurring hash opts ops)) : ∃ s, run hash opts ops = .ok s ∧
      (∀ key fuel, s.walkFuel hash key ≤ fuel →
        ((∃ proof v, s.createMerkleProof hash fuel key = .ok proof ∧ s.read hash key = .ok v ∧
            verifyMerkleProof hash fuel key proof opts (some s._root) = .ok v) ↔
          s._root ≠ EMPTY_TRIE_ROOT hash)) ∧
      ∀ key proof fuel v, Set.InjOn hash (occurring hash opts ops ∪ {n | n ∈ proof}) →
        verifyMerkleProof hash fuel key proof opts (some s._root) = .ok v →
          s.read hash key = .ok v := by
  obtain ⟨s, hrun, hgood, rfl⟩ := run_good_uniform hlen hkeys halone hinj
  refine ⟨s, hrun, fun key fuel hfuel => ?_, fun key proof fuel v hinj' hverify => ?_⟩
  · rcases hgood.tidy.shape with hempty | ht
    · rw [hempty] at hgood
      obtain ⟨hcreate, hverify⟩ := verify_create_empty hlen hgood key hfuel
      constructor
      · rintro ⟨proof, v, hproof, -, haccepted⟩
        obtain rfl := ok.inj (hcreate.symm.trans hproof)
        rw [hverify] at haccepted
        cases haccepted
      · exact fun hne => absurd hgood.root_eq hne
    · obtain ⟨proof, hproof, hverify⟩ := verify_create hlen hgood ht key hfuel
      refine ⟨fun _ => hgood.root_ne ht, fun _ => ⟨proof, _, hproof, read_spec hlen hgood key, ?_⟩⟩
      rw [hverify, read_spec hlen hgood key]
  · refine verify_sound hlen hgood (hinj'.mono (Set.union_subset_union_left _ ?_)) hverify
    exact fun w hw => ⟨ops, s, prefix_refl _, hrun, hw⟩

theorem run_verify_sharedThenDeleted :
    ∃ s, run sharedLeafTable (prunedOpts false) sharedThenDeleted = .ok s ∧
      (∀ key fuel, s.walkFuel sharedLeafTable key ≤ fuel →
        ((∃ proof v, s.createMerkleProof sharedLeafTable fuel key = .ok proof ∧
            s.read sharedLeafTable key = .ok v ∧
            verifyMerkleProof sharedLeafTable fuel key proof (prunedOpts false) (some s._root) = .ok v) ↔
          s._root ≠ EMPTY_TRIE_ROOT sharedLeafTable)) ∧ ∀ key proof fuel v,
        Set.InjOn sharedLeafTable (occurring sharedLeafTable (prunedOpts false) sharedThenDeleted ∪
          {n | n ∈ proof}) →
        verifyMerkleProof sharedLeafTable fuel key proof (prunedOpts false) (some s._root) = .ok v →
          s.read sharedLeafTable key = .ok v :=
  run_verify (n := 1) (length_tableHash _) (by decide) (fun _ => by decide +kernel)
    (injOn_of_collisionFree (by decide +kernel))

/-- The proof that the empty trie gives for a key is refused. -/
theorem emptyTrie_not_verified :
    ¬ ∃ proof v, (new sharedLeafTable (unprunedOpts false)).createMerkleProof sharedLeafTable 3 [0x11] =
        .ok proof ∧ (new sharedLeafTable (unprunedOpts false)).read sharedLeafTable [0x11] = .ok v ∧
      verifyMerkleProof sharedLeafTable 3 [0x11] proof (unprunedOpts false)
        (some (new sharedLeafTable (unprunedOpts false))._root) = .ok v := by
  rintro ⟨proof, v, hcreate, -, hverify⟩
  obtain ⟨hnone, hrefused⟩ := verify_create_empty (length_tableHash _)
    (good_new (unprunedOpts false)) [0x11] (Nat.le_refl 3)
  obtain rfl := ok.inj (hnone.symm.trans hcreate)
  have h := hrefused.symm.trans hverify
  cases h

end MPT
