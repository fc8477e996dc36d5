-- SUMMARY: With pruning a trie over keys of one length stands for its tree as long as no node that is removed is needed elsewhere.
import TsEthereum.MerkleTrie.TrieRuns

/-!
# Pruning

Pruning removes the nodes of the old way by their hashes, and the child that takes
the place of a branch. Nodes that are as deep as these are told apart by their
keys, so only an equal subtree beside the way can be lost.
-/

open Function

open List hiding lookup

open Rlp (Item)
open Nibbles

namespace PatriciaTree

variable {r : Nat} {ν ρ : Type}

/-- A well-formed tree has keys of one length only. -/
theorem KeysOfLength.unique {t : PatriciaTree r ν ρ} {n m : Nat} (ht : WF t)
    (hn : KeysOfLength n t) (hm : KeysOfLength m t) : n = m := by
  obtain ⟨k, v, hk⟩ := ht.exists_key
  exact (hn k v hk).symm.trans (hm k v hk)

/-- Keys below a node are shorter than its keys. -/
theorem exists_shorter_key {t x : PatriciaTree r ν ρ} {n : Nat} (ht : WF t)
    (hn : KeysOfLength n t) (hx : WF x) (h : Below t x) :
    ∃ k v, lookup x k = some v ∧ k.length < n := by
  have hsub {c : PatriciaTree r ν ρ} (q : List (Fin r)) (hq : q ≠ [])
      (hlook : ∀ k, lookup t (q ++ k) = lookup c k) (hxc : Sub x c) :
      ∃ k v, lookup x k = some v ∧ k.length < n := by
    obtain ⟨p, hp⟩ := hxc.exists_prefix
    obtain ⟨k, v, hk⟩ := hx.exists_key
    have hlen := hn (q ++ (p ++ k)) v (by rw [hlook, hp, hk])
    have hpos := List.length_pos_iff.mpr hq
    simp only [length_append] at hlen
    exact ⟨k, v, hk, by omega⟩
  cases t with
  | empty => exact h.elim
  | stub ref => exact h.elim
  | leaf p v => exact h.elim
  | ext p c => exact hsub p ht.1 (lookup_ext_append p c) h
  | branch cs v =>
    obtain ⟨i, hi⟩ := h
    exact hsub [i] (cons_ne_nil i []) (fun k => rfl) hi

/-- What is split off has shorter keys. -/
theorem exists_shorter_key_splitOff {t x : PatriciaTree r ν ρ} {n : Nat} {k : List (Fin r)}
    (ht : WF t) (hn : KeysOfLength n t) (h : SplitOff t k x) :
    ∃ k v, lookup x k = some v ∧ k.length < n := by
  obtain ⟨hbranch, j, q, hold, rfl⟩ := h
  obtain ⟨hpath, -⟩ := fork_append t.path k
  have hshort : q.length < t.path.length := by
    rw [← hpath, hold, length_append, length_cons]
    omega
  cases t with
  | empty => exact ht.elim
  | stub ref => exact ht.elim
  | branch cs v => cases hbranch
  | leaf p v =>
    have hlen := hn p v (by simp)
    exact ⟨q, v, by simp [withPath], hlen ▸ hshort⟩
  | ext p c =>
    obtain ⟨y, v, hy⟩ := ht.2.2.exists_key
    have hlen := hn (p ++ y) v (by rw [lookup_ext_append, hy])
    rw [length_append] at hlen
    refine ⟨q ++ y, v, ?_, ?_⟩
    · simp only [withPath, lookup_extend, prefix_append, if_true, drop_left, hy]
    · have hshort' : q.length < p.length := hshort
      rw [length_append]
      omega

/-- Where the keys of the whole tree have the length of `a ++ b`, those of a subtree that is at
`a` have the length of `b`. -/
theorem KeysOfLength.at_key {t x : PatriciaTree r ν ρ} {a b : List (Fin r)}
    (h : KeysOfLength (a ++ b).length t) (hx : ∀ y, lookup x y = lookup t (a ++ y)) :
    KeysOfLength b.length x := by
  intro k v hk
  have hlen := h (a ++ k) v ((hx k).symm.trans hk)
  simp only [length_append] at hlen
  omega

/-- Subtrees at parts of one key that hold its rest differently are different. -/
theorem ne_of_lookup_ne {t t' x w : PatriciaTree r ν ρ} {k a b a' b' : List (Fin r)} (hw : WF w)
    (hk : k = a ++ b) (hk' : k = a' ++ b') (ht : KeysOfLength k.length t)
    (ht' : KeysOfLength k.length t') (hx : ∀ y, lookup x y = lookup t (a ++ y))
    (hw' : ∀ y, lookup w y = lookup t' (a' ++ y)) (hne : lookup t k ≠ lookup t' k) : x ≠ w := by
  rintro rfl
  have hlen : b.length = b'.length :=
    KeysOfLength.unique hw (KeysOfLength.at_key (hk ▸ ht) hx) (KeysOfLength.at_key (hk' ▸ ht') hw')
  obtain ⟨rfl, rfl⟩ := append_inj' (hk.symm.trans hk') hlen
  exact hne (by rw [hk, ← hx, hw'])

end PatriciaTree

namespace Trie

open PatriciaTree

variable {hash : Bytes → Bytes}

/-! ## What is removed -/

/-- No node that is referred to by its hash is both removed and kept. -/
def Apart (hash : Bytes → Bytes) (removed kept : Trie → Prop) : Prop :=
  ∀ w x, removed w → kept x → 32 ≤ (enc hash x).length → x ≠ w

/-- Beside the way of `k` there is no node of the way. -/
def StoresAlone (hash : Bytes → Bytes) (t : Trie) (k : Nibbles) : Prop :=
  let (fs, last, _) := descend t k []
  Apart hash (OnWay fs last) (fun x => ∃ f ∈ fs, f.Beside x)

/-- Beside the way of `k`, less a child that takes the place of its branch, there is no node of
the way; nor is there that child beside the way of the branch, unless it is a branch itself. -/
def RemovesAlone (hash : Bytes → Bytes) (t : Trie) (k : Nibbles) : Prop :=
  match descend t k [] with
  | (.branch cs v i :: fs, .leaf p w, _) =>
    match children (Function.update cs i .empty) with
    | [j] =>
      Apart hash (fun y => OnWay (.branch cs v i :: fs) (.leaf p w) y ∨
          (cs j).isBranch = false ∧ y = cs j)
        (fun x => ∃ f ∈ fs, f.Beside x)
    | _ =>
      Apart hash (OnWay (.branch cs v i :: fs) (.leaf p w))
        (fun x => ∃ f ∈ .branch cs v i :: fs, f.Beside x)
  | _ => True

theorem apart_iff {removed kept : Trie → Prop} {rs ks : List Trie} (hr : ∀ w, w ∈ rs ↔ removed w)
    (hk : ∀ x, x ∈ ks ↔ kept x) : (∀ w ∈ rs, ∀ x ∈ ks, 32 ≤ (enc hash x).length → x ≠ w) ↔
      Apart hash removed kept := by
  simp only [Apart, hr, hk]
  exact ⟨fun h w x hw hx => h w hw x hx, fun h w hw x hx => h w x hw hx⟩

theorem mem_besides {fs : List (Frame 16 Bytes Item)} (x : Trie) :
    x ∈ fs.flatMap Frame.besides ↔ ∃ f ∈ fs, f.Beside x := by
  simp only [mem_flatMap, Frame.mem_besides]

instance (t : Trie) (k : Nibbles) : Decidable (StoresAlone hash t k) :=
  decidable_of_iff _ (apart_iff (fun _ => mem_wayTrees) mem_besides)

/-- The nodes that a `del` removes, and those that stay beside them. -/
def removedAndBesides (t : Trie) (k : Nibbles) : List Trie × List Trie :=
  match descend t k [] with
  | (.branch cs v i :: fs, .leaf p w, _) =>
    match children (Function.update cs i .empty) with
    | [j] =>
      (wayTrees (.branch cs v i :: fs) (.leaf p w) ++ (if (cs j).isBranch then [] else [cs j]),
        fs.flatMap Frame.besides)
    | _ =>
      (wayTrees (.branch cs v i :: fs) (.leaf p w),
        (Frame.branch cs v i :: fs).flatMap Frame.besides)
  | _ => ([], [])

theorem removesAlone_iff {t : Trie} {k : Nibbles} :
    (∀ w ∈ (removedAndBesides t k).1, ∀ x ∈ (removedAndBesides t k).2,
      32 ≤ (enc hash x).length → x ≠ w) ↔ RemovesAlone hash t k := by
  unfold removedAndBesides RemovesAlone
  split
  · split
    · refine apart_iff (fun y => ?_) mem_besides
      rw [mem_append, mem_wayTrees]
      refine or_congr_right ?_
      split <;> simp_all
    · exact apart_iff (fun _ => mem_wayTrees) mem_besides
  · simp

instance (t : Trie) (k : Nibbles) : Decidable (RemovesAlone hash t k) :=
  decidable_of_iff _ removesAlone_iff

theorem mem_pathDels {fs : List (Frame 16 Bytes Item)} {last : Trie} {op : BatchDBOp}
    (h : op ∈ pathDels hash fs last) : ∃ w, OnWay fs last w ∧ op = .del (hash (enc hash w)) := by
  unfold pathDels MPT.pruneOps at h
  obtain ⟨n, hn, rfl⟩ := mem_map.mp h
  obtain ⟨w, hw, rfl⟩ := mem_wayNodes.mp (mem_reverse.mp hn)
  exact ⟨w, hw, rfl⟩

/-- Trees over keys of one length, without values in branches. -/
structure Uniform (n : Nat) (t : Trie) : Prop where
  noValues : NoValues t
  keys : KeysOfLength n t

theorem uniform_empty (n : Nat) : Uniform n .empty := ⟨trivial, fun k v h => by simp at h⟩

theorem Uniform.insert {n : Nat} {t : Trie} (h : Uniform n t) (ht : t = .empty ∨ WF t)
    {k : Nibbles} (hk : k.length = n) (v : Bytes) : Uniform n (insert t k v) where
  noValues := by
    rcases ht with rfl | ht
    · trivial
    · obtain ⟨fs, last, rest, hdescend⟩ : ∃ fs last rest, descend t k [] = (fs, last, rest) :=
        ⟨_, _, _, rfl⟩
      obtain ⟨⟨hsplit, hnode⟩, -⟩ := way_of_descend ht hdescend
      simp only [Trie.insert, hdescend]
      exact hsplit.noValues_graft h.noValues ht (isNode_iff.mp hnode).1 (hk ▸ h.keys) v
  keys := by
    intro x w hx
    rw [lookup_insert ht] at hx
    split at hx
    · rename_i hxk
      rw [hxk, hk]
    · exact h.keys x w hx

/-- No key ends at a branch. -/
theorem Uniform.root {n : Nat} {t : Trie} (h : Uniform n t) (ht : t = .empty ∨ WF t) {k : Nibbles}
    (hk : k.length = n) : k = [] → t.isBranch = false := by
  rintro rfl
  rcases ht with rfl | ht
  · rfl
  · cases t with
    | branch cs v =>
      obtain ⟨rfl, -⟩ := h.noValues
      obtain ⟨i, -, ki, -, vi, -, -, hi, -⟩ := ht.exists_two_keys
      have hlen := h.keys (i :: ki) vi hi
      rw [← hk] at hlen
      cases hlen
    | empty => rfl
    | stub r => rfl
    | leaf p v => rfl
    | ext p c => rfl

/-- Where a key of full length is found there is a leaf. -/
theorem Uniform.found_leaf {n : Nat} {t last : Trie} (h : Uniform n t) (ht : WF t) {k rest : Nibbles}
    {fs : List (Frame 16 Bytes Item)} (hk : k.length = n) (hway : Way t k fs last rest)
    (hfound : foundAt last rest = true) : ∃ v, last = .leaf rest v := by
  obtain ⟨⟨rfl, rfl, -⟩, hnode⟩ := hway
  cases last with
  | empty => cases hfound
  | stub r => cases hfound
  | ext p c => cases hfound
  | leaf p v =>
    obtain rfl : p = rest := of_decide_eq_true hfound
    exact ⟨v, rfl⟩
  | branch cs v =>
    obtain rfl : rest = [] := List.isEmpty_iff.mp hfound
    obtain ⟨rfl, -⟩ := NoValues.hole h.noValues
    have hbranch : WF (.branch cs none) := WF.hole ht nofun
    obtain ⟨i, -, ki, -, vi, -, -, hi, -⟩ := hbranch.exists_two_keys
    have hlen := h.keys.hole (i :: ki) vi hi
    rw [← hk] at hlen
    simp at hlen

theorem Uniform.removesCleanly {n : Nat} {t : Trie} (h : Uniform n t) (ht : t = .empty ∨ WF t)
    (k : Nibbles) : RemovesCleanly t k := by
  rcases ht with rfl | ht
  · rintro ⟨⟩
  · obtain ⟨fs, last, rest, hdescend⟩ : ∃ fs last rest, descend t k [] = (fs, last, rest) :=
      ⟨_, _, _, rfl⟩
    obtain ⟨⟨hsplit, -⟩, -⟩ := way_of_descend ht hdescend
    simp only [RemovesCleanly, hdescend]
    intro hfound
    have hvalues : NoValues (plug fs last) := hsplit.plug_eq ▸ h.noValues
    cases last with
    | empty => cases hfound
    | stub r => cases hfound
    | ext p c => cases hfound
    | branch cs v =>
      obtain ⟨rfl, -⟩ := hvalues.hole
      cases fs with
      | nil => exact .inl rfl
      | cons f fs => cases f <;> exact .inl rfl
    | leaf p v =>
      rcases fs with _ | ⟨q | ⟨cs, w, i⟩, fs⟩
      · trivial
      · trivial
      · obtain ⟨rfl, -⟩ := NoValues.hole (t := .branch (update cs i (.leaf p v)) w) hvalues
        exact .inl rfl

theorem Uniform.remove {n : Nat} {t : Trie} (h : Uniform n t) (ht : t = .empty ∨ WF t)
    {k : Nibbles} (hk : k.length = n) : Uniform n (remove t k) where
  noValues := by
    rcases ht with rfl | ht
    · simp [Trie.remove, descend, foundAt, NoValues]
    · obtain ⟨fs, last, rest, hdescend⟩ : ∃ fs last rest, descend t k [] = (fs, last, rest) :=
        ⟨_, _, _, rfl⟩
      obtain ⟨⟨hsplit, -⟩, -⟩ := way_of_descend ht hdescend
      simp only [Trie.remove, hdescend]
      split
      · exact NoValues.erase (hsplit.plug_eq ▸ h.noValues)
      · exact h.noValues
  keys := by
    intro x w hx
    rw [lookup_remove ht (h.root ht hk) (h.removesCleanly ht k)] at hx
    split at hx
    · cases hx
    · exact h.keys x w hx

/-! ## Nothing that is kept is removed -/

/-- A node of the old way has the keys of its last node behind it. -/
theorem length_onWay {n : Nat} {fs : List (Frame 16 Bytes Item)} {last w : Trie} {k rest : Nibbles}
    (h : OnWay fs last w) (hkey : keyOf fs ++ rest = k) (hk : k.length = n)
    (hkeys : KeysOfLength n (plug fs last)) : ∃ m, rest.length ≤ m ∧ KeysOfLength m w := by
  obtain ⟨a, c, hac, hlook⟩ := h.at_key rest
  refine ⟨(c ++ rest).length, by simp, KeysOfLength.at_key ?_ hlook⟩
  rwa [← hac, hkey, hk]

theorem ne_of_shorter_key {x w : Trie} {n m : Nat} (hx : ∃ k v, lookup x k = some v ∧ k.length < n)
    (hle : n ≤ m) (hw : KeysOfLength m w) : x ≠ w := by
  rintro rfl
  obtain ⟨k, v, hk, hlt⟩ := hx
  have hlen := hw k v hk
  omega

/-- No node of the new tree is one that a `put` removes. -/
theorem insert_apart {n : Nat} {t x w last : Trie} {k rest : Nibbles} {value : Bytes}
    {fs : List (Frame 16 Bytes Item)} (hu : Uniform n t) (ht : WF t) (hk : k.length = n)
    (hdescend : descend t k [] = (fs, last, rest)) (halone : StoresAlone hash t k)
    (hne : lookup t k ≠ some value) (hx : Sub x (insert t k value)) (hnode : isNode x = true)
    (hlong : 32 ≤ (enc hash x).length ∨ x = insert t k value) (hw : OnWay fs last w) : x ≠ w := by
  obtain ⟨⟨hsplit, hlast⟩, -⟩ := way_of_descend ht hdescend
  have hplug := hsplit.plug_eq
  have hkey := hsplit.key_eq
  have hu' := hu.insert (.inr ht) hk value
  have hwf' := wf_insert (.inr ht) k value
  have hwfw : WF w := by
    refine ht.sub (hplug ▸ hw.sub) ?_
    obtain ⟨gs, hs, -, rfl⟩ := hw
    exact (isNode_iff.mp (isNode_plug hlast gs)).1
  have hlookup : lookup (insert t k value) k = some value := by
    rw [lookup_insert (.inr ht), if_pos rfl]
  have hinsert : insert t k value = plug fs (graft last rest value) := by
    simp only [insert, hdescend]
  obtain ⟨a', c', hac', hlook'⟩ := hw.at_key rest
  rw [hkey] at hac'
  rw [hplug] at hlook'
  obtain ⟨m, hm, hkeysw⟩ := length_onWay hw hkey hk (hplug ▸ hu.keys)
  have hkeysLast : KeysOfLength rest.length last := by
    refine KeysOfLength.at_key (a := keyOf fs) (b := rest) (hkey ▸ hk ▸ hu.keys) (fun y => ?_)
    rw [← hplug, lookup_plug]
  have hwfLast : WF last := (hplug ▸ ht : WF (plug fs last)).hole (isNode_iff.mp hlast).1
  have hwfx : WF x := hwf'.sub hx (isNode_iff.mp hnode).1
  have honWay (h : OnWay (graftWay fs last rest value).1 (graftWay fs last rest value).2 x) :
      x ≠ w := by
    obtain ⟨a, c, hac, hlook⟩ := h.at_key (path (graftWay fs last rest value).2)
    rw [keyOf_graftWay, hkey] at hac
    rw [plug_graftWay, ← hinsert] at hlook
    exact ne_of_lookup_ne hwfw hac hac' (hk ▸ hu'.keys) (hk ▸ hu.keys) hlook hlook'
      (hlookup ▸ hne.symm)
  rcases hlong with hlong | htop
  · rw [hinsert] at hx
    rcases sub_graftWay hx with h | h | h | h | h
    · exact honWay h
    · simp only [StoresAlone, hdescend] at halone
      exact halone w x hw h hlong
    · exact absurd h (isNode_iff.mp hnode).1
    · exact ne_of_shorter_key (exists_shorter_key hwfLast hkeysLast hwfx h) hm hkeysw
    · exact ne_of_shorter_key (exists_shorter_key_splitOff hwfLast hkeysLast h) hm hkeysw
  · refine honWay ⟨_, [], (append_nil _).symm, ?_⟩
    rw [plug_graftWay, ← hinsert, htop]

/-! ## Saving with pruning -/

theorem Good.put_mem {s : MPT} {t x : Trie} (h : Good hash s t) (hx : Sub x t)
    (hnode : isNode x = true) (hlong : 32 ≤ (enc hash x).length ∨ x = t) :
    putOp hash x ∈ s.journal := by
  refine h.journaled.written _ _ ?_
  rcases hlong with hlong | rfl
  · exact h.holds.stored x hx hnode hlong
  · exact h.holds.top hnode

/-- Every node encoding of a tree whose nodes are put occurs. -/
theorem enc_mem_of_puts {ops : List BatchDBOp} {t x : Trie}
    (h : ∀ y, Sub y t → isNode y = true → (32 ≤ (enc hash y).length ∨ y = t) → putOp hash y ∈ ops)
    (hx : Sub x t) (hnode : isNode x = true) : enc hash x ∈ nodeEncodings ops := by
  have ht := isNode_of_sub hx hnode
  have htop : Occurs hash ops t := .of_put (h t (.refl t) ht (.inr rfl))
  exact (htop.sub hx hnode (fun y hy hynode hlong => h y hy hynode (.inl hlong))).enc_mem

/-- What a change of the tree writes: deletions and new nodes, the new way, deletions. -/
structure Change (hash : Bytes → Bytes) (t t' : Trie) (pre way dels : List BatchDBOp) : Prop where
  preOps : ∀ op ∈ pre, StoresNode hash op ∨ ∃ k, op = .del k
  wayOps : ∀ op ∈ way, StoresNode hash op
  delOps : ∀ op ∈ dels, ∃ k, op = .del k
  /-- A node of the new tree is not removed at the end, and is written with the way or not
  removed before it. -/
  kept : ∀ x, Sub x t' → isNode x = true → (32 ≤ (enc hash x).length ∨ x = t') →
    BatchDBOp.del (hash (enc hash x)) ∉ dels ∧
      (putOp hash x ∈ way ∨ BatchDBOp.del (hash (enc hash x)) ∉ pre ∧
        (putOp hash x ∈ pre ∨ Sub x t ∧ (32 ≤ (enc hash x).length ∨ x = t)))

theorem Good.change {s : MPT} {t t' : Trie} {pre way dels : List BatchDBOp} (h : Good hash s t)
    (htidy : Tidy t') (hchange : Change hash t t' pre way dels)
    (hinj : Set.InjOn hash (nodeEncodings (s.journal ++ (pre ++ way ++ dels)))) :
    Good hash (Trie.saved hash s t' (pre ++ way ++ dels)) t' where
  tidy := htidy
  noCollision := hinj
  journaled := by
    refine journaled_saved t' h.journaled (fun op hop => ?_)
    simp only [mem_append, or_assoc] at hop
    rcases hop with hop | hop | hop
    · exact hchange.preOps op hop
    · exact .inl (hchange.wayOps op hop)
    · exact .inr (hchange.delOps op hop)
  holds := by
    refine holds_saved (fun x hx hnode hlong => ?_)
    obtain ⟨hdels, hkept⟩ := hchange.kept x hx hnode hlong
    have hput : putOp hash x ∈ s.journal ++ (pre ++ way ++ dels) := by
      simp only [mem_append, or_assoc]
      rcases hkept with hway | ⟨-, hpre | ⟨hsub, hold⟩⟩
      · exact .inr (.inr (.inl hway))
      · exact .inr (.inl hpre)
      · exact .inl (h.put_mem hsub hnode hold)
    have hmem : enc hash x ∈ nodeEncodings (s.journal ++ (pre ++ way ++ dels)) :=
      mem_nodeEncodings (n := node hash x) hput
    have hstores {op : BatchDBOp} (hop : op ∈ pre ++ way ++ dels) (hstores : StoresNode hash op)
        (hkey : op.key = hash (enc hash x)) : op = putOp hash x := by
      obtain ⟨y, rfl⟩ := hstores
      have hmem' : enc hash y ∈ nodeEncodings (s.journal ++ (pre ++ way ++ dels)) :=
        mem_nodeEncodings (n := node hash y) (mem_append.mpr (.inr hop))
      have hsame : enc hash y = enc hash x := hinj hmem' hmem hkey
      simp only [putOp, hsame]
    have hdelKey {op : BatchDBOp} {k : Bytes} (hop : op = .del k)
        (hkey : op.key = hash (enc hash x)) : op = .del (hash (enc hash x)) := by
      subst hop
      obtain rfl : k = hash (enc hash x) := hkey
      rfl
    rw [MapDB.batch_append, MapDB.batch_append]
    refine MapDB.get_batch_of_puts (fun op hop hkey => ?_) (.inr ?_)
    · obtain ⟨k, hk⟩ := hchange.delOps op hop
      exact absurd (hdelKey hk hkey ▸ hop) hdels
    · refine MapDB.get_batch_of_puts (fun op hop hkey => hstores (by simp [hop])
        (hchange.wayOps op hop) hkey) (hkept.imp_right (fun hrest => ?_))
      obtain ⟨hpre, hrest⟩ := hrest
      refine MapDB.get_batch_of_puts (fun op hop hkey => ?_) (hrest.imp_right (fun hold => ?_))
      · rcases hchange.preOps op hop with hop' | ⟨k, hk⟩
        · exact hstores (by simp [hop]) hop' hkey
        · exact absurd (hdelKey hk hkey ▸ hop) hpre
      · rcases hold with ⟨hsub, hlong | rfl⟩
        · exact h.holds.stored x hsub hnode hlong
        · exact h.holds.top hnode

/-- Trees of one key length whose encodings occur are told apart by them. -/
theorem enc_ne_of_ne (hlen : ∀ m, (hash m).length = 32) {n m : Nat} {known : Set Bytes}
    {t t' x w : Trie} (hinj : Set.InjOn hash known) (ht : WF t) (ht' : WF t') (hu : Uniform n t)
    (hu' : Uniform m t') (hb' : Bounded t') (hx : Sub x t') (hw : Sub w t) (hxnode : isNode x = true)
    (hwnode : isNode w = true) (hmem : ∀ y, Sub y t → isNode y = true → enc hash y ∈ known)
    (hmem' : ∀ y, Sub y t' → isNode y = true → enc hash y ∈ known) (hne : x ≠ w) :
    hash (enc hash x) ≠ hash (enc hash w) := by
  intro hsame
  have hvalues {u v : Trie} (h : NoValues u) (hv : Sub v u) : NoValues v := by
    induction hv with
    | refl => exact h
    | ext p _ ih => exact ih h
    | branch w i _ ih => exact ih (h.2 i)
  have hwfx := ht'.sub hx (isNode_iff.mp hxnode).1
  have hwfw := ht.sub hw (isNode_iff.mp hwnode).1
  refine hne (eq_of_enc_eq hlen hinj (plain_of_wf (.inr hwfx) (hvalues hu'.noValues hx))
    (plain_of_wf (.inr hwfw) (hvalues hu.noValues hw)) hwfx.ne_empty hwfw.ne_empty
    (fun z hz => hmem' z (hz.trans hx)) (fun z hz => hmem z (hz.trans hw))
    (fits_of_bounded hlen hwfx (hb'.sub hx)) ?_)
  exact hinj (hmem' x hx hxnode) (hmem w hw hwnode) hsame

theorem onWay_isNode {fs : List (Frame 16 Bytes Item)} {last w : Trie} (h : OnWay fs last w)
    (hlast : isNode last = true) : isNode w = true := by
  obtain ⟨gs, hs, -, rfl⟩ := h
  exact isNode_plug hlast gs

theorem graftOps_of_found {opts : MPTOpts} {last : Trie} {rest : Nibbles}
    (h : foundAt last rest = true) : graftOps hash opts last rest = [] := by
  cases last with
  | empty => rfl
  | stub r => rfl
  | branch cs v => rfl
  | ext p c => cases h
  | leaf p v => exact if_pos (of_decide_eq_true h)

/-- A `put` keeps the trie that of its tree where what it removes is alone. -/
theorem Good.put_pruned (hlen : ∀ m, (hash m).length = 32) {s : MPT} {t : Trie} {n : Nat}
    (h : Good hash s t) (hu : Uniform n t) {k : Nibbles} {value : Bytes} (hk : k.length = n)
    (hkmax : k.length < 2 ^ 52) (hv : value.length < 2 ^ 51) (hne : value ≠ [])
    (halone : lookup t k ≠ some value → StoresAlone hash t k)
    (hinj : Set.InjOn hash (nodeEncodings (s.journal ++ putOpsOf hash s._opts t k value))) :
    Good hash (Trie.saved hash s (insert t k value) (putOpsOf hash s._opts t k value))
      (insert t k value) := by
  have htidy := h.tidy.insert hkmax hv hne
  obtain ⟨fs, last, rest, hdescend⟩ : ∃ fs last rest, descend t k [] = (fs, last, rest) :=
    ⟨_, _, _, rfl⟩
  have hops : putOpsOf hash s._opts t k value = graftOps hash s._opts last rest ++
      Trie.wayOps hash (graftWay fs last rest value).1 (graftWay fs last rest value).2 ++
      (if s._opts.useNodePruning = true ∧ t.isEmpty = false ∧ lookup t k ≠ some value then
        pathDels hash fs last else []) := by
    simp only [putOpsOf, hdescend, updateOps]
  have hstored (x : Trie) (hx : Sub x (insert t k value)) (hnode : isNode x = true)
      (hlong : 32 ≤ (enc hash x).length ∨ x = insert t k value) :
      putOp hash x ∈ s.journal ++ putOpsOf hash s._opts t k value := by
    rcases insert_stored s._opts h.tidy.shape hx hnode hlong with hput | ⟨hsub, hold⟩
    · exact mem_append.mpr (.inr hput)
    · exact mem_append.mpr (.inl (h.put_mem hsub hnode (.inl hold)))
  have hdels : ∀ op ∈ (if s._opts.useNodePruning = true ∧ t.isEmpty = false ∧
      lookup t k ≠ some value then pathDels hash fs last else []),
      t.isEmpty = false ∧ lookup t k ≠ some value ∧
        ∃ w, OnWay fs last w ∧ op = .del (hash (enc hash w)) := by
    intro op hop
    split at hop
    · rename_i hboth
      exact ⟨hboth.2.1, hboth.2.2, mem_pathDels hop⟩
    · exact absurd hop not_mem_nil
  -- a node of the old way has another hash than every node of the new tree
  have hapart {x w : Trie} (hempty : t.isEmpty = false) (hchanged : lookup t k ≠ some value)
      (hx : Sub x (insert t k value)) (hnode : isNode x = true)
      (hlong : 32 ≤ (enc hash x).length ∨ x = insert t k value) (hw : OnWay fs last w) :
      hash (enc hash x) ≠ hash (enc hash w) := by
    have ht : WF t := h.tidy.shape.resolve_left (isEmpty_eq_false.mp hempty)
    obtain ⟨⟨hsplit, hlast⟩, -⟩ := way_of_descend ht hdescend
    have hsubw : Sub w t := hsplit.plug_eq ▸ hw.sub
    refine enc_ne_of_ne hlen hinj ht (wf_insert (.inr ht) k value) hu (hu.insert (.inr ht) hk value)
      htidy.bounded hx hsubw hnode (onWay_isNode hw hlast) (fun y hy hynode => ?_)
      (fun y hy hynode => enc_mem_of_puts hstored hy hynode)
      (insert_apart hu ht hk hdescend (halone hchanged) hchanged hx hnode hlong hw)
    exact nodeEncodings_mono (subset_append_left _ _)
      (enc_mem_of_puts (fun z hz hznode hzlong => h.put_mem hz hznode hzlong) hy hynode)
  rw [hops] at hinj ⊢
  refine h.change htidy ?_ hinj
  constructor
  · intro op hop
    rcases mem_graftOps hop with ⟨x, -, hx⟩ | hop
    · exact .inl ⟨x, hx⟩
    · exact .inr ⟨_, (mem_delOps hop).2.2⟩
  · intro op hop
    obtain ⟨x, -, hx⟩ := mem_wayOps hop
    exact ⟨x, hx⟩
  · intro op hop
    obtain ⟨-, -, w, -, hop⟩ := hdels op hop
    exact ⟨_, hop⟩
  · intro x hx hnode hlong
    refine ⟨fun hdel => ?_, ?_⟩
    · obtain ⟨hempty, hchanged, w, hw, hop⟩ := hdels _ hdel
      exact hapart hempty hchanged hx hnode hlong hw (BatchDBOp.del.inj hop)
    · have hway (hx' : OnWay (graftWay fs last rest value).1 (graftWay fs last rest value).2 x ∧
          32 ≤ (enc hash x).length ∨ x = insert t k value) :
          putOp hash x ∈
            Trie.wayOps hash (graftWay fs last rest value).1 (graftWay fs last rest value).2 := by
        refine putOp_mem_wayOps (hx'.imp_right (fun htop => ?_))
        rw [htop, plug_graftWay]
        simp only [Trie.insert, hdescend]
      have hpre : BatchDBOp.del (hash (enc hash x)) ∉ graftOps hash s._opts last rest := by
        intro hdel
        have hempty : t.isEmpty = false := by
          refine isEmpty_eq_false.mpr ?_
          rintro rfl
          cases hdescend
          exact absurd hdel not_mem_nil
        have ht : WF t := h.tidy.shape.resolve_left (isEmpty_eq_false.mp hempty)
        have hfound : foundAt last rest = false := by
          refine Bool.eq_false_of_not_eq_true (fun hfound => ?_)
          rw [graftOps_of_found hfound] at hdel
          exact absurd hdel not_mem_nil
        have hnone := lookup_of_not_found (way_of_descend ht hdescend).1 hfound
        rcases mem_graftOps hdel with ⟨y, -, hy⟩ | hdel
        · cases hy
        · refine hapart hempty (by rw [hnone]; rintro ⟨⟩) hx hnode hlong
            (onWay_last fs last) (BatchDBOp.del.inj (mem_delOps hdel).2.2)
      rcases hlong with hlong | htop
      · have hplug : plug fs last = t := plug_of_descend h.tidy.shape hdescend
        have hlast : Sub last t := hplug ▸ sub_plug fs last
        have hx' : Sub x (plug fs (graft last rest value)) := by
          simpa only [Trie.insert, hdescend] using hx
        rcases sub_graftWay hx' with hx' | hx' | hx' | hx' | hx'
        · exact .inl (hway (.inl ⟨hx', hlong⟩))
        · exact .inr ⟨hpre, .inr ⟨hplug ▸ Sub.of_beside hx', .inl hlong⟩⟩
        · exact absurd hx' (isNode_iff.mp hnode).1
        · exact .inr ⟨hpre, .inr ⟨(sub_iff_below.mpr (.inr hx')).trans hlast, .inl hlong⟩⟩
        · rcases splitOff_stored s._opts hx' hnode hlong with hx' | hx'
          · exact .inr ⟨hpre, .inr ⟨(sub_iff_below.mpr (.inr hx')).trans hlast, .inl hlong⟩⟩
          · exact .inr ⟨hpre, .inl hx'⟩
      · exact .inl (hway (.inr htop))

/-! ## Removing with pruning -/

section Remove

variable {n : Nat} {t : Trie} {k p : Nibbles} {fs : List (Frame 16 Bytes Item)} {cs : Nibble → Trie}
  {w : Option Bytes} {i : Nibble} {v : Bytes}

theorem remove_eq_closeUp (hdescend : descend t k [] = (.branch cs w i :: fs, .leaf p v, p)) :
    Trie.remove t k = closeUp fs (Function.update cs i .empty) w := by
  simp only [Trie.remove, hdescend, foundAt, decide_true, if_true, erase]

/-- The other children of the branch above the leaf of the key. -/
theorem sibling (hu : Uniform n t) (ht : WF t) (hk : k.length = n)
    (hdescend : descend t k [] = (.branch cs w i :: fs, .leaf p v, p)) {j : Nibble}
    (hj : Function.update cs i .empty j ≠ .empty) :
    j ≠ i ∧ Function.update cs i .empty j = cs j ∧ WF (cs j) ∧ KeysOfLength p.length (cs j) := by
  have hji : j ≠ i := by
    rintro rfl
    rw [update_self] at hj
    exact hj rfl
  have hsame := update_of_ne hji (PatriciaTree.empty : Trie) cs
  obtain ⟨⟨hsplit, -⟩, -⟩ := way_of_descend ht hdescend
  have hplug := hsplit.plug_eq
  have hkey := hsplit.key_eq
  have hbranch : WF (.branch (update cs i (.leaf p v)) w) :=
    WF.hole (t := .branch (update cs i (.leaf p v)) w) (hplug ▸ ht) nofun
  have hwf := hbranch.2 j
  rw [hsame] at hj
  rw [update_of_ne hji] at hwf
  refine ⟨hji, hsame, hwf hj, ?_⟩
  refine KeysOfLength.at_key (t := t) (a := keyOf fs ++ [j]) ?_ (fun y => ?_)
  · have hlen : (keyOf fs ++ [j] ++ p).length = n := by
      rw [← hk, ← hkey]
      simp [keyOf_cons, Frame.key]
    rw [hlen]
    exact hu.keys
  · rw [← hplug, plug_cons, append_assoc, lookup_plug]
    simp [Frame.fill, update_of_ne hji]

/-- Above the leaf of the key the nodes of the old way have longer keys. -/
theorem length_above (hu : Uniform n t) (ht : WF t) (hk : k.length = n)
    (hdescend : descend t k [] = (.branch cs w i :: fs, .leaf p v, p)) {y : Trie}
    (hy : OnWay (.branch cs w i :: fs) (.leaf p v) y) :
    WF y ∧ ((y = .leaf p v ∧ KeysOfLength p.length y) ∨ ∃ m, p.length < m ∧ KeysOfLength m y) := by
  obtain ⟨⟨hsplit, hlast⟩, -⟩ := way_of_descend ht hdescend
  have hplug := hsplit.plug_eq
  have hkey := hsplit.key_eq
  have hwf : WF y := ht.sub (hplug ▸ hy.sub) (isNode_iff.mp (onWay_isNode hy hlast)).1
  refine ⟨hwf, ?_⟩
  rcases onWay_cons.mp hy with rfl | hy
  · refine .inl ⟨rfl, fun x u hx => ?_⟩
    rw [lookup_leaf] at hx
    split at hx
    · rename_i hp
      rw [← hp]
    · cases hx
  · refine .inr ?_
    have hkey' : keyOf fs ++ (i :: p) = k := by
      rw [← hkey, keyOf_cons, append_assoc]
      rfl
    obtain ⟨m, hm, hlen⟩ := length_onWay hy hkey' hk (hplug ▸ hu.keys)
    exact ⟨m, hm, hlen⟩

/-- Everything below a sibling of the leaf differs from the nodes of the old way. -/
theorem ne_of_below_sibling (hu : Uniform n t) (ht : WF t) (hk : k.length = n)
    (hdescend : descend t k [] = (.branch cs w i :: fs, .leaf p v, p)) {j : Nibble} {x y : Trie}
    (hj : Function.update cs i .empty j ≠ .empty) (hx : Below (cs j) x) (hnode : isNode x = true)
    (hy : OnWay (.branch cs w i :: fs) (.leaf p v) y) : x ≠ y := by
  obtain ⟨-, -, hwf, hkeys⟩ := sibling hu ht hk hdescend hj
  have hxwf : WF x := hwf.sub (sub_iff_below.mpr (.inr hx)) (isNode_iff.mp hnode).1
  have hshort := exists_shorter_key hwf hkeys hxwf hx
  obtain ⟨-, ⟨-, hlen⟩ | ⟨m, hm, hlen⟩⟩ := length_above hu ht hk hdescend hy
  · exact ne_of_shorter_key hshort (Nat.le_refl _) hlen
  · exact ne_of_shorter_key hshort (Nat.le_of_lt hm) hlen

/-- The new way has no node of the old one. -/
theorem closeUpWay_apart (hu : Uniform n t) (ht : WF t) (hk : k.length = n)
    (hdescend : descend t k [] = (.branch cs w i :: fs, .leaf p v, p)) {x y : Trie}
    (hx : OnWay (closeUpWay fs (Function.update cs i .empty) w).1
      (closeUpWay fs (Function.update cs i .empty) w).2 x)
    (hy : OnWay (.branch cs w i :: fs) (.leaf p v) y) : x ≠ y := by
  obtain ⟨⟨hsplit, -⟩, -⟩ := way_of_descend ht hdescend
  have hplug := hsplit.plug_eq
  have hkey := hsplit.key_eq
  obtain ⟨hywf, hyold⟩ := length_above hu ht hk hdescend hy
  rcases onWay_closeUpWay hx with ⟨j, hone, hbranch, rfl⟩ | ⟨gs, hs, rfl, hlook⟩
  · have hj : update cs i .empty j ≠ .empty := by
      rw [← mem_children, hone]
      exact mem_singleton_self j
    obtain ⟨-, hsame, hwf, hkeys⟩ := sibling hu ht hk hdescend hj
    rw [hsame] at hbranch ⊢
    rintro rfl
    rcases hyold with ⟨hleaf, -⟩ | ⟨m, hm, hlen⟩
    · rw [hleaf] at hbranch
      cases hbranch
    · exact absurd (KeysOfLength.unique hwf hkeys hlen) (Nat.ne_of_lt hm)
  · obtain ⟨a, c, hac, hlook'⟩ := hy.at_key p
    rw [hkey] at hac
    rw [hplug] at hlook'
    rw [← remove_eq_closeUp hdescend] at hlook
    have hremoved : lookup (Trie.remove t k) k = none := by
      rw [lookup_remove (.inr ht) (hu.root (.inr ht) hk) (hu.removesCleanly (.inr ht) k), if_pos rfl]
    have hthere : lookup t k = some v := by
      rw [hsplit.lookup_eq, lookup_leaf, if_pos rfl]
    have hpath : k = keyOf hs ++ (keyOf gs ++ i :: p) := by
      rw [← hkey, keyOf_cons, keyOf_append]
      simp [Frame.key]
    refine ne_of_lookup_ne hywf hpath hac (hk ▸ (hu.remove (.inr ht) hk).keys) (hk ▸ hu.keys) hlook
      hlook' ?_
    rw [hremoved, hthere]
    rintro ⟨⟩

/-- A node that is left is not one of the old way; it is on the new way, or was in the old tree and
is not the child that took the place of its branch. -/
theorem remove_kept (hu : Uniform n t) (ht : WF t) (hk : k.length = n)
    (hdescend : descend t k [] = (.branch cs w i :: fs, .leaf p v, p)) (halone : RemovesAlone hash t k)
    {x : Trie} (hx : Sub x (Trie.remove t k)) (hnode : isNode x = true)
    (hlong : 32 ≤ (enc hash x).length ∨ x = Trie.remove t k) :
    (∀ y, OnWay (.branch cs w i :: fs) (.leaf p v) y → x ≠ y) ∧
      (OnWay (closeUpWay fs (Function.update cs i .empty) w).1
          (closeUpWay fs (Function.update cs i .empty) w).2 x ∨ 32 ≤ (enc hash x).length ∧ Sub x t ∧
          ∀ j, children (Function.update cs i .empty) = [j] →
            x ≠ Function.update cs i .empty j) := by
  have hplug := plug_of_descend (.inr ht) hdescend
  have hnew (h : OnWay (closeUpWay fs (update cs i .empty) w).1
      (closeUpWay fs (update cs i .empty) w).2 x) :
      ∀ y, OnWay (.branch cs w i :: fs) (.leaf p v) y → x ≠ y :=
    fun y hy => closeUpWay_apart hu ht hk hdescend h hy
  rw [remove_eq_closeUp hdescend] at hx hlong
  rcases hlong with hlong | htop
  swap
  · have h : OnWay (closeUpWay fs (update cs i .empty) w).1
        (closeUpWay fs (update cs i .empty) w).2 x :=
      ⟨_, [], (append_nil _).symm, by rw [plug_closeUpWay, htop]⟩
    exact ⟨hnew h, .inl h⟩
  simp only [RemovesAlone, hdescend] at halone
  unfold closeUp at hx
  split at hx
  · rename_i j hone
    rw [hone] at halone
    have hj : update cs i .empty j ≠ .empty := by
      rw [← mem_children, hone]
      exact mem_singleton_self j
    obtain ⟨hji, hsame, hwf, hkeys⟩ := sibling hu ht hk hdescend hj
    have hway : closeUpWay fs (update cs i .empty) w = absorbWay fs j (cs j) := by
      unfold closeUpWay
      simp only [hone, hsame]
    rw [hsame] at hx
    have hnot (hne : x ≠ cs j) (j' : Nibble) (hj' : children (update cs i .empty) = [j']) :
        x ≠ update cs i .empty j' := by
      obtain rfl : j = j' := by
        rw [hone] at hj'
        exact (List.cons.inj hj').1
      rwa [hsame]
    rcases sub_absorbWay hx with h | h | h | ⟨ref, h⟩ | h
    · rw [← hway] at h
      exact ⟨hnew h, .inl h⟩
    · have hold : Sub x t := hplug ▸ Sub.of_beside (h.imp fun f hf => ⟨mem_cons_of_mem _ hf.1, hf.2⟩)
      refine ⟨fun y hy => halone y x (.inl hy) h hlong, ?_⟩
      by_cases hchild : x = cs j
      · cases hbranch : (cs j).isBranch with
        | true =>
          refine .inl ?_
          rw [hway, hchild]
          exact ⟨[], _, rfl, (absorbWay_of_isBranch hbranch fs j).symm⟩
        | false => exact absurd hchild (halone (cs j) x (.inr ⟨hbranch, rfl⟩) h hlong)
      · exact .inr ⟨hlong, hold, hnot hchild⟩
    · exact absurd h (isNode_iff.mp hnode).1
    · exact absurd h ((isNode_iff.mp hnode).2 ref)
    · have hbeside : ∃ f ∈ Frame.branch cs w i :: fs, f.Beside x :=
        ⟨_, mem_cons_self, j, hji, sub_iff_below.mpr (.inr h)⟩
      have hxwf := hwf.sub (sub_iff_below.mpr (.inr h)) (isNode_iff.mp hnode).1
      refine ⟨fun y hy => ne_of_below_sibling hu ht hk hdescend hj h hnode hy, .inr ⟨hlong, ?_, ?_⟩⟩
      · exact hplug ▸ Sub.of_beside hbeside
      · exact hnot (ne_of_shorter_key (exists_shorter_key hwf hkeys hxwf h) (Nat.le_refl _) hkeys)
  · rename_i hmany
    have halone' : Apart hash (OnWay (.branch cs w i :: fs) (.leaf p v))
        (fun x => ∃ f ∈ .branch cs w i :: fs, f.Beside x) := by
      split at halone
      · rename_i j hone
        exact absurd hone (hmany j)
      · exact halone
    have hway : closeUpWay fs (update cs i .empty) w =
        (fs, .branch (update cs i .empty) w) := by
      unfold closeUpWay
      split
      · rename_i j hone
        exact absurd hone (hmany j)
      · rfl
    rw [hway] at hnew ⊢
    have hold (h : ∃ f ∈ Frame.branch cs w i :: fs, f.Beside x) : 32 ≤ (enc hash x).length ∧
        Sub x t ∧ ∀ j, children (update cs i .empty) = [j] →
          x ≠ update cs i .empty j :=
      ⟨hlong, hplug ▸ Sub.of_beside h, fun j hone => absurd hone (hmany j)⟩
    rcases sub_plug_cases.mp hx with h | h | ⟨j, h⟩
    · exact ⟨hnew h, .inl h⟩
    · have hbeside := h.imp fun f hf => And.intro (mem_cons_of_mem (.branch cs w i) hf.1) hf.2
      exact ⟨fun y hy => halone' y x hy hbeside hlong, .inr (hold hbeside)⟩
    · have hj : update cs i .empty j ≠ .empty := by
        intro hempty
        rw [hempty, sub_empty_iff] at h
        exact (isNode_iff.mp hnode).1 h
      obtain ⟨hji, hsame, -, -⟩ := sibling hu ht hk hdescend hj
      rw [hsame] at h
      have hbeside : ∃ f ∈ Frame.branch cs w i :: fs, f.Beside x :=
        ⟨_, mem_cons_self, j, hji, h⟩
      exact ⟨fun y hy => halone' y x hy hbeside hlong, .inr (hold hbeside)⟩

end Remove

theorem mem_collapseOps {s : MPT} {cs : Nibble → Trie} {op : BatchDBOp}
    (h : op ∈ collapseOps hash s cs) :
    ∃ j, children cs = [j] ∧ op = .del (s.collapsedKey hash (ref hash (cs j))) := by
  unfold collapseOps at h
  split at h
  · rename_i j hone
    split at h
    · exact ⟨j, hone, mem_singleton.mp h⟩
    · exact absurd h not_mem_nil
  · exact absurd h not_mem_nil

/-- The one child that is left is removed under its hash, or under no hash at all. -/
theorem collapsedKey_ref (s : MPT) {c : Trie} (hc : isNode c = true) :
    s.collapsedKey hash (ref hash c) = hash (enc hash c) ∨
      (s.collapsedKey hash (ref hash c)).length < 32 := by
  rw [ref_eq hc]
  unfold refOf
  split
  · exact .inl rfl
  · rename_i hshort
    unfold MPT.collapsedKey MPT.appliedKey
    dsimp only
    split
    · exact .inl rfl
    · exact .inr (Nat.lt_of_not_le hshort)

/-- A `del` keeps the trie that of its tree where what it removes is alone. -/
theorem Good.del_pruned (hlen : ∀ m, (hash m).length = 32) {s : MPT} {t : Trie} {n : Nat}
    (h : Good hash s t) (hu : Uniform n t) {k : Nibbles} (hk : k.length = n)
    (halone : RemovesAlone hash t k)
    (hinj : Set.InjOn hash (nodeEncodings (s.journal ++ delOpsOf hash s t k))) :
    Good hash (Trie.saved hash s (Trie.remove t k) (delOpsOf hash s t k)) (Trie.remove t k) := by
  have htidy := h.tidy.remove (hu.root h.tidy.shape hk) (hu.removesCleanly h.tidy.shape k)
  obtain ⟨fs, last, rest, hdescend⟩ : ∃ fs last rest, descend t k [] = (fs, last, rest) :=
    ⟨_, _, _, rfl⟩
  -- where the key is not found nothing changes
  have hsame (hremove : Trie.remove t k = t) (hops : delOpsOf hash s t k = []) :
      Good hash (Trie.saved hash s (Trie.remove t k) (delOpsOf hash s t k)) (Trie.remove t k) := by
    rw [hops] at hinj ⊢
    have hchange : Change hash t (Trie.remove t k) [] [] [] := ⟨fun _ h => absurd h not_mem_nil, fun _ h => absurd h not_mem_nil,
      fun _ h => absurd h not_mem_nil, fun x hx _ hlong =>
        ⟨not_mem_nil, .inr ⟨not_mem_nil, .inr ⟨hremove ▸ hx, hremove ▸ hlong⟩⟩⟩⟩
    exact h.change htidy hchange hinj
  rcases h.tidy.shape with rfl | ht
  · exact hsame (by simp [Trie.remove, descend, foundAt]) (by simp [delOpsOf, descend, foundAt])
  obtain ⟨hway, -⟩ := way_of_descend ht hdescend
  cases hfound : foundAt last rest with
  | false =>
    exact hsame (by simp [Trie.remove, hdescend, hfound]) (by simp [delOpsOf, hdescend, hfound])
  | true =>
    obtain ⟨v, rfl⟩ := hu.found_leaf ht hk hway hfound
    have hplug := hway.split.plug_eq
    have hdels (fs : List (Frame 16 Bytes Item)) (op : BatchDBOp)
        (hop : op ∈ if s._opts.useNodePruning = true then pathDels hash fs (.leaf rest v) else []) :
        ∃ y, OnWay fs (.leaf rest v) y ∧ op = .del (hash (enc hash y)) := by
      split at hop
      · exact mem_pathDels hop
      · exact absurd hop not_mem_nil
    rcases fs with _ | ⟨q | ⟨cs, w, i⟩, fs⟩
    ·
      have hempty : Trie.remove t k = .empty := by
        simp only [Trie.remove, hdescend, hfound, if_true, erase]
      have hops : delOpsOf hash s t k =
          [] ++ [] ++ (if s._opts.useNodePruning = true then pathDels hash [] (.leaf rest v) else []) := by
        simp only [delOpsOf, hdescend, hfound, if_true, deleteOps]
        rfl
      rw [hops] at hinj ⊢
      refine h.change htidy ⟨fun _ h => absurd h not_mem_nil,
        fun _ h => absurd h not_mem_nil, fun op hop => ?_, fun x hx hnode _ => ?_⟩ hinj
      · obtain ⟨y, -, hy⟩ := hdels [] op hop
        exact ⟨_, hy⟩
      · rw [hempty, sub_empty_iff] at hx
        exact absurd hx (isNode_iff.mp hnode).1
    · cases (hplug ▸ ht : WF (plug (.ext q :: fs) (.leaf rest v))).isBranch_of_ext
    · have hops : delOpsOf hash s t k =
          (delOps hash s._opts (.leaf rest v) ++
              collapseOps hash s (update cs i .empty)) ++
            Trie.wayOps hash (closeUpWay fs (update cs i .empty) w).1
              (closeUpWay fs (update cs i .empty) w).2 ++
            (if s._opts.useNodePruning = true then
              pathDels hash (.branch cs w i :: fs) (.leaf rest v) else []) := by
        simp only [delOpsOf, hdescend, hfound, if_true, deleteOps, eraseOps, eraseWay]
      have hstored (x : Trie) (hx : Sub x (Trie.remove t k)) (hnode : isNode x = true)
          (hlong : 32 ≤ (enc hash x).length ∨ x = Trie.remove t k) :
          putOp hash x ∈ s.journal ++ delOpsOf hash s t k := by
        rcases remove_stored s h.tidy.shape hx hnode hlong with hput | ⟨hsub, hold⟩
        · exact mem_append.mpr (.inr hput)
        · exact mem_append.mpr (.inl (h.put_mem hsub hnode hold))
      have hapart {x y : Trie} (hx : Sub x (Trie.remove t k)) (hnode : isNode x = true)
          (hy : Sub y t) (hynode : isNode y = true) (hne : x ≠ y) :
          hash (enc hash x) ≠ hash (enc hash y) := by
        have hwf : WF (Trie.remove t k) := by
          refine htidy.shape.resolve_left (fun hempty => ?_)
          rw [hempty, sub_empty_iff] at hx
          exact (isNode_iff.mp hnode).1 hx
        refine enc_ne_of_ne hlen hinj ht hwf hu (hu.remove (.inr ht) hk) htidy.bounded hx hy hnode
          hynode (fun z hz hznode => ?_) (fun z hz hznode => enc_mem_of_puts hstored hz hznode) hne
        exact nodeEncodings_mono (subset_append_left _ _)
          (enc_mem_of_puts (fun z hz hznode hzlong => h.put_mem hz hznode hzlong) hz hznode)
      have hold {y : Trie} (hy : OnWay (.branch cs w i :: fs) (.leaf rest v) y) : Sub y t ∧ isNode y = true :=
        ⟨hplug ▸ hy.sub, onWay_isNode hy rfl⟩
      rw [hops] at hinj ⊢
      refine h.change htidy ?_ hinj
      constructor
      · intro op hop
        rcases mem_append.mp hop with hop | hop
        · exact .inr ⟨_, (mem_delOps hop).2.2⟩
        · obtain ⟨j, -, hj⟩ := mem_collapseOps hop
          exact .inr ⟨_, hj⟩
      · intro op hop
        obtain ⟨x, -, hx⟩ := mem_wayOps hop
        exact ⟨x, hx⟩
      · intro op hop
        obtain ⟨y, -, hy⟩ := hdels _ op hop
        exact ⟨_, hy⟩
      · intro x hx hnode hlong
        obtain ⟨hnew, hkept⟩ := remove_kept hu ht hk hdescend halone hx hnode hlong
        refine ⟨fun hdel => ?_, ?_⟩
        · obtain ⟨y, hy, hop⟩ := hdels _ _ hdel
          exact hapart hx hnode (hold hy).1 (hold hy).2 (hnew y hy) (BatchDBOp.del.inj hop)
        · rcases hkept with hway | ⟨hlong', hsub, hchild⟩
          · refine .inl (putOp_mem_wayOps ?_)
            rw [plug_closeUpWay, ← remove_eq_closeUp hdescend]
            exact hlong.imp_left (fun hlong => ⟨hway, hlong⟩)
          · refine .inr ⟨fun hdel => ?_, .inr ⟨hsub, .inl hlong'⟩⟩
            rcases mem_append.mp hdel with hdel | hdel
            · have hlast := onWay_last (.branch cs w i :: fs) (.leaf rest v)
              exact hapart hx hnode (hold hlast).1 (hold hlast).2 (hnew _ hlast)
                (BatchDBOp.del.inj (mem_delOps hdel).2.2)
            · obtain ⟨j, hone, hop⟩ := mem_collapseOps hdel
              have hkey := BatchDBOp.del.inj hop
              have hj : update cs i .empty j ≠ .empty := by
                rw [← mem_children, hone]
                exact mem_singleton_self j
              obtain ⟨hji, hsame', hwf, -⟩ := sibling hu ht hk hdescend hj
              have hjnode : isNode (update cs i .empty j) = true := by
                rw [hsame']
                exact isNode_of_wf hwf
              have hsubj : Sub (update cs i .empty j) t := by
                rw [hsame', ← hplug]
                exact Sub.of_beside ⟨_, mem_cons_self, j, hji, .refl _⟩
              rcases collapsedKey_ref s hjnode with hhash | hshort
              · exact hapart hx hnode hsubj hjnode (hchild j hone) (hkey.trans hhash)
              · rw [← hkey, hlen] at hshort
                exact absurd hshort (Nat.lt_irrefl 32)

end Trie
