-- SUMMARY: Without pruning a trie stands for its tree through every put and del, as long as no two encodings collide.
import TsEthereum.MerkleTrie.TrieState

/-!
# Refinement

What an operation saves is the new way; everything else of the new tree was in
the database before. Where nothing is deleted from the database, both are found
again afterwards.
-/

open List

open Rlp (Item)
open Nibbles

namespace Trie

open PatriciaTree

variable {hash : Bytes → Bytes}

/-! ## What the operations write -/

variable {t : Trie} {op : BatchDBOp}

theorem mem_putOps (h : op ∈ putOps hash t) : op = putOp hash t := by
  unfold putOps at h
  split at h
  · exact mem_singleton.mp h
  · exact absurd h not_mem_nil

theorem putOp_mem_putOps (h : 32 ≤ (enc hash t).length) : putOp hash t ∈ putOps hash t := by
  unfold putOps
  rw [if_pos h]
  exact mem_singleton_self _

theorem mem_wayOps {fs : List (Frame 16 Bytes Item)} (h : op ∈ wayOps hash fs t) :
    ∃ x, OnWay fs t x ∧ op = putOp hash x := by
  induction fs generalizing t with
  | nil => exact ⟨t, onWay_last [] t, mem_singleton.mp h⟩
  | cons f fs ih =>
    rcases mem_append.mp h with h | h
    · exact ⟨t, onWay_last _ t, mem_putOps h⟩
    · obtain ⟨x, hx, hop⟩ := ih h
      exact ⟨x, onWay_cons.mpr (.inr hx), hop⟩

variable {x : Trie}

/-- The nodes of a way are stored where they are referred to by their hash. -/
theorem putOp_mem_wayOps {fs : List (Frame 16 Bytes Item)}
    (h : OnWay fs t x ∧ 32 ≤ (enc hash x).length ∨ x = plug fs t) :
    putOp hash x ∈ wayOps hash fs t := by
  induction fs generalizing t with
  | nil =>
    have hx : x = t := by
      rcases h with ⟨h, -⟩ | h
      · exact onWay_nil.mp h
      · exact h
    rw [hx]
    exact mem_singleton_self _
  | cons f fs ih =>
    refine mem_append.mpr ?_
    rcases h with ⟨h, hlong⟩ | h
    · rcases onWay_cons.mp h with rfl | h
      · exact .inl (putOp_mem_putOps hlong)
      · exact .inr (ih (.inl ⟨h, hlong⟩))
    · exact .inr (ih (.inr h))

variable {opts : MPTOpts}

theorem mem_delOps (h : op ∈ delOps hash opts t) :
    opts.useNodePruning = true ∧ 32 ≤ (enc hash t).length ∧ op = .del (hash (enc hash t)) := by
  unfold delOps at h
  split at h
  · rename_i hboth
    exact ⟨hboth.1, hboth.2, mem_singleton.mp h⟩
  · exact absurd h not_mem_nil

variable {last : Trie}

theorem mem_splitOps {old : Nibbles} (h : op ∈ splitOps hash opts last old) :
    (∃ j q, old = j :: q ∧ op = putOp hash (last.withPath q)) ∨ op ∈ delOps hash opts last := by
  match old, last with
  | [], _ => exact absurd h not_mem_nil
  | [_], .ext p c => exact .inr h
  | j :: a :: q, .ext p c => exact .inl ⟨j, a :: q, rfl, mem_putOps h⟩
  | j :: q, .leaf p v =>
    refine .inl ⟨j, q, rfl, ?_⟩
    cases q <;> exact mem_putOps h
  | j :: q, .empty =>
    refine .inl ⟨j, q, rfl, ?_⟩
    cases q <;> exact mem_putOps h
  | j :: q, .stub r =>
    refine .inl ⟨j, q, rfl, ?_⟩
    cases q <;> exact mem_putOps h
  | j :: q, .branch cs v =>
    refine .inl ⟨j, q, rfl, ?_⟩
    cases q <;> exact mem_putOps h

theorem mem_graftOps {rest : Nibbles} (h : op ∈ graftOps hash opts last rest) :
    (∃ x, SplitOff last rest x ∧ op = putOp hash x) ∨ op ∈ delOps hash opts last := by
  have hsplit (last : Trie) (hlast : last.isBranch = false)
      (h : op ∈ splitOps hash opts last (fork (path last) rest).2.1) :
      (∃ x, SplitOff last rest x ∧ op = putOp hash x) ∨ op ∈ delOps hash opts last := by
    rcases mem_splitOps h with ⟨j, q, hold, hop⟩ | h
    · exact .inl ⟨_, ⟨hlast, j, q, hold, rfl⟩, hop⟩
    · exact .inr h
  cases last with
  | empty => exact absurd h not_mem_nil
  | stub r => exact absurd h not_mem_nil
  | branch cs v => exact absurd h not_mem_nil
  | leaf p v =>
    simp only [graftOps] at h
    split at h
    · exact absurd h not_mem_nil
    · exact hsplit (.leaf p v) rfl h
  | ext p c => exact hsplit (.ext p c) rfl h

/-- What is split off is stored, unless it was below the node before. -/
theorem splitOff_stored {rest : Nibbles} (opts : MPTOpts) (h : SplitOff last rest x)
    (hnode : isNode x = true) (hlong : 32 ≤ (enc hash x).length) :
    Below last x ∨ putOp hash x ∈ graftOps hash opts last rest := by
  obtain ⟨hlast, j, q, hold, rfl⟩ := h
  cases last with
  | empty => cases hnode
  | stub r => cases hnode
  | branch cs v => cases hlast
  | leaf p v =>
    refine .inr ?_
    have hne : p ≠ rest := by
      rintro rfl
      have hself : (fork p p).2.1 = j :: q := hold
      rw [fork_self] at hself
      cases hself
    have hold' : (fork p rest).2.1 = j :: q := hold
    simp only [graftOps, hne, if_false, hold']
    cases q <;> exact putOp_mem_putOps hlong
  | ext p c =>
    have hold' : (fork p rest).2.1 = j :: q := hold
    cases q with
    | nil => exact .inl (.refl c)
    | cons a q =>
      refine .inr ?_
      simp only [graftOps, hold']
      exact putOp_mem_putOps hlong

/-! ## Without pruning -/

/-- An operation that stores a node under its hash. -/
def StoresNode (hash : Bytes → Bytes) (op : BatchDBOp) : Prop := ∃ x, op = putOp hash x

theorem storesNode_putOpsOf (hprune : opts.useNodePruning = false) (t : Trie) (k : Nibbles)
    (value : Bytes) : ∀ op ∈ putOpsOf hash opts t k value, StoresNode hash op := by
  intro op hop
  simp only [putOpsOf, updateOps, hprune, Bool.false_eq_true, false_and, if_false,
    append_nil] at hop
  rcases mem_append.mp hop with hop | hop
  · rcases mem_graftOps hop with ⟨x, -, hx⟩ | hop
    · exact ⟨x, hx⟩
    · have hpruned := (mem_delOps hop).1
      rw [hprune] at hpruned
      cases hpruned
  · obtain ⟨x, -, hx⟩ := mem_wayOps hop
    exact ⟨x, hx⟩

variable {s : MPT}

theorem eraseOps_eq_nil (hprune : s._opts.useNodePruning = false) (fs : List (Frame 16 Bytes Item))
    (last : Trie) : eraseOps hash s fs last = [] := by
  have hcollapse (cs : Nibble → Trie) : collapseOps hash s cs = [] := by
    unfold collapseOps
    split
    · rw [hprune]
      rfl
    · rfl
  have hdel (t : Trie) : delOps hash s._opts t = [] := by
    unfold delOps
    rw [if_neg]
    rw [hprune]
    exact fun h => nomatch h.1
  match fs, last with
  | [], _ => rfl
  | .ext p :: fs, .branch cs v => exact hcollapse cs
  | .branch ds w i :: fs, .branch cs v => exact hcollapse cs
  | .branch ds w i :: fs, .empty => simp only [eraseOps, hdel, hcollapse, append_nil]
  | .branch ds w i :: fs, .stub ref => simp only [eraseOps, hdel, hcollapse, append_nil]
  | .branch ds w i :: fs, .leaf p v => simp only [eraseOps, hdel, hcollapse, append_nil]
  | .branch ds w i :: fs, .ext p c => simp only [eraseOps, hdel, hcollapse, append_nil]
  | .ext p :: fs, .empty => rfl
  | .ext p :: fs, .stub ref => rfl
  | .ext p :: fs, .leaf q v => rfl
  | .ext p :: fs, .ext q c => rfl

theorem storesNode_delOpsOf (hprune : s._opts.useNodePruning = false) (t : Trie) (k : Nibbles) :
    ∀ op ∈ delOpsOf hash s t k, StoresNode hash op := by
  intro op hop
  simp only [delOpsOf, hprune, Bool.false_eq_true, if_false, append_nil] at hop
  split at hop
  · unfold deleteOps at hop
    split at hop
    · exact absurd hop not_mem_nil
    · rw [eraseOps_eq_nil hprune, nil_append] at hop
      obtain ⟨x, -, hx⟩ := mem_wayOps hop
      exact ⟨x, hx⟩
  · exact absurd hop not_mem_nil

/-- Every node of the new tree is stored by a `put`, or was in the old tree. -/
theorem insert_stored {k : Nibbles} {value : Bytes} (opts : MPTOpts) (ht : t = .empty ∨ WF t)
    (hx : Sub x (insert t k value)) (hnode : isNode x = true)
    (hlong : 32 ≤ (enc hash x).length ∨ x = insert t k value) :
    putOp hash x ∈ putOpsOf hash opts t k value ∨ Sub x t ∧ 32 ≤ (enc hash x).length := by
  obtain ⟨fs, last, rest, hdescend⟩ : ∃ fs last rest, descend t k [] = (fs, last, rest) :=
    ⟨_, _, _, rfl⟩
  have hplug : plug fs last = t := by
    rcases ht with rfl | ht
    · cases hdescend
      rfl
    · exact (way_of_descend ht hdescend).1.split.plug_eq
  simp only [insert, hdescend] at hx hlong
  simp only [putOpsOf, hdescend, updateOps, mem_append]
  have hway (hx' : OnWay (graftWay fs last rest value).1 (graftWay fs last rest value).2 x ∧
      32 ≤ (enc hash x).length ∨ x = plug fs (graft last rest value)) :
      putOp hash x ∈ wayOps hash (graftWay fs last rest value).1 (graftWay fs last rest value).2 := by
    rw [← plug_graftWay] at hx'
    exact putOp_mem_wayOps hx'
  rcases hlong with hlong | htop
  · have hlast : Sub last t := hplug ▸ sub_plug fs last
    rcases sub_graftWay hx with h | h | h | h | h
    · exact .inl (.inl (.inr (hway (.inl ⟨h, hlong⟩))))
    · exact .inr ⟨hplug ▸ Sub.of_beside h, hlong⟩
    · exact absurd h (isNode_iff.mp hnode).1
    · exact .inr ⟨(sub_iff_below.mpr (.inr h)).trans hlast, hlong⟩
    · rcases splitOff_stored opts h hnode hlong with h | h
      · exact .inr ⟨(sub_iff_below.mpr (.inr h)).trans hlast, hlong⟩
      · exact .inl (.inl (.inl h))
  · exact .inl (.inl (.inr (hway (.inr htop))))

/-- Every node of the new tree is stored by a `del`, or was in the old tree. -/
theorem remove_stored {k : Nibbles} (s : MPT) (ht : t = .empty ∨ WF t) (hx : Sub x (remove t k))
    (hnode : isNode x = true) (hlong : 32 ≤ (enc hash x).length ∨ x = remove t k) :
    putOp hash x ∈ delOpsOf hash s t k ∨ Sub x t ∧ (32 ≤ (enc hash x).length ∨ x = t) := by
  rcases ht with rfl | ht
  · have hempty : remove .empty k = .empty := by simp [remove, descend, foundAt]
    rw [hempty, sub_empty_iff] at hx
    exact absurd hx (isNode_iff.mp hnode).1
  · obtain ⟨fs, last, rest, hdescend⟩ : ∃ fs last rest, descend t k [] = (fs, last, rest) :=
      ⟨_, _, _, rfl⟩
    obtain ⟨hsplit, -⟩ := way_of_descend ht hdescend
    simp only [remove, hdescend] at hx hlong
    simp only [delOpsOf, hdescend]
    cases hfound : foundAt last rest with
    | false =>
      simp only [hfound, Bool.false_eq_true, if_false] at hx hlong
      exact .inr ⟨hx, hlong⟩
    | true =>
      simp only [hfound, if_true] at hx hlong ⊢
      cases fs with
      | nil => exact absurd (sub_empty_iff.mp hx) (isNode_iff.mp hnode).1
      | cons f fs =>
        simp only [deleteOps, mem_append]
        have hway (hx' : OnWay (eraseWay (f :: fs) last).1 (eraseWay (f :: fs) last).2 x ∧
            32 ≤ (enc hash x).length ∨ x = erase (f :: fs) last) :
            putOp hash x ∈
              wayOps hash (eraseWay (f :: fs) last).1 (eraseWay (f :: fs) last).2 := by
          rw [← plug_eraseWay] at hx'
          exact putOp_mem_wayOps hx'
        rcases hlong with hlong | htop
        · rcases sub_eraseWay hx with h | h | ⟨ref, h⟩ | h
          · exact .inl (.inl (.inr (hway (.inl ⟨h, hlong⟩))))
          · exact absurd h (isNode_iff.mp hnode).1
          · exact absurd h ((isNode_iff.mp hnode).2 ref)
          · exact .inr ⟨hsplit.split.plug_eq ▸ h, .inl hlong⟩
        · exact .inl (.inl (.inr (hway (.inr htop))))

theorem journal_saved (s : MPT) (t : Trie) (ops : List BatchDBOp) :
    (saved hash s t ops).journal = s.journal ++ ops := rfl

theorem db_saved (s : MPT) (t : Trie) (ops : List BatchDBOp) :
    (saved hash s t ops)._db = s._db.batch ops := rfl

variable {ops : List BatchDBOp}

theorem holds_saved (h : ∀ x, Sub x t → isNode x = true → (32 ≤ (enc hash x).length ∨ x = t) →
      (s._db.batch ops).get (hash (enc hash x)) = some (enc hash x)) :
    Holds hash (saved hash s t ops) t where
  root := rfl
  top := fun hnode => h t (.refl t) hnode (.inr rfl)
  stored := fun x hx hnode hlong => h x hx hnode (.inl hlong)

theorem journaled_saved (t : Trie) (h : Journaled hash s)
    (hops : ∀ op ∈ ops, StoresNode hash op ∨ ∃ k, op = .del k) :
    Journaled hash (saved hash s t ops) where
  written := by
    intro k v hget
    rw [db_saved, MapDB.get_batch] at hget
    rw [journal_saved, mem_append]
    cases hlast : BatchDBOp.lastWrite ops k with
    | none =>
      rw [hlast] at hget
      exact .inl (h.written k v hget)
    | some w =>
      rw [hlast, Option.getD_some] at hget
      rw [hget] at hlast
      exact .inr (BatchDBOp.put_mem_of_lastWrite hlast)
  keyed := by
    intro k v hput
    rw [journal_saved, mem_append] at hput
    rcases hput with hput | hput
    · exact h.keyed k v hput
    · rcases hops _ hput with ⟨x, hx⟩ | ⟨k', hx⟩
      · obtain ⟨rfl, rfl⟩ := BatchDBOp.put.inj hx
        exact ⟨rfl, node hash x, rfl⟩
      · cases hx

/-- Where nothing is deleted, a new tree that is stored or was there before is held. -/
theorem Good.saved {t' : Trie} (h : Good hash s t) (htidy : Tidy t')
    (hops : ∀ op ∈ ops, StoresNode hash op)
    (hkept : ∀ x, Sub x t' → isNode x = true → (32 ≤ (enc hash x).length ∨ x = t') →
      putOp hash x ∈ ops ∨ Sub x t ∧ (32 ≤ (enc hash x).length ∨ x = t))
    (hinj : Set.InjOn hash (nodeEncodings (s.journal ++ ops))) :
    Good hash (saved hash s t' ops) t' where
  tidy := htidy
  journaled := journaled_saved t' h.journaled (fun op hop => .inl (hops op hop))
  noCollision := hinj
  holds := by
    refine holds_saved (fun x hx hnode hlong => ?_)
    have hold : putOp hash x ∈ ops ∨ s._db.get (hash (enc hash x)) = some (enc hash x) := by
      refine (hkept x hx hnode hlong).imp_right (fun hsub => ?_)
      rcases hsub with ⟨hsub, hlong | rfl⟩
      · exact h.holds.stored x hsub hnode hlong
      · exact h.holds.top hnode
    have hmem : enc hash x ∈ nodeEncodings (s.journal ++ ops) := by
      refine mem_nodeEncodings (k := hash (enc hash x)) (n := node hash x) (mem_append.mpr ?_)
      rcases hold with hput | hget
      · exact .inr hput
      · exact .inl (h.journaled.written _ _ hget)
    refine MapDB.get_batch_of_puts (fun op hop hkey => ?_) hold
    obtain ⟨y, rfl⟩ := hops op hop
    have hmem' : enc hash y ∈ nodeEncodings (s.journal ++ ops) :=
      mem_nodeEncodings (k := hash (enc hash y)) (n := node hash y)
        (mem_append.mpr (.inr hop))
    have hsame : enc hash y = enc hash x := hinj hmem' hmem hkey
    simp only [putOp, hsame]

end Trie
