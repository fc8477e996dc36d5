-- SUMMARY: The keys and values of a well-formed tree bound the encodings of its nodes.
import TsEthereum.MerkleTrie.Saving

/-!
# Sizes of nodes

A node refers to its children by at most 33 bytes each, so only its own path and
value can make it long.
-/

open List hiding lookup

open Rlp (Item)
open Nibbles

/-- A byte array. The bound leaves room for a node that holds one array in its path and one
as its value; no engine allocates an array near it. -/
abbrev Uint8Array := { b : Bytes // b.length < 2 ^ 51 }

namespace Trie

open PatriciaTree

/-- The keys and values of a tree are byte arrays. -/
def Bounded (t : Trie) : Prop :=
  ∀ k v, lookup t k = some v → k.length < 2 ^ 52 ∧ v.length < 2 ^ 51

theorem Bounded.sub {s t : Trie} (h : Bounded t) (hs : Sub s t) : Bounded s := by
  obtain ⟨q, hq⟩ := hs.exists_prefix
  intro k v hk
  obtain ⟨hlen, hv⟩ := h (q ++ k) v ((hq k).trans hk)
  rw [length_append] at hlen
  exact ⟨Nat.lt_of_le_of_lt (Nat.le_add_left _ _) hlen, hv⟩

variable {hash : Bytes → Bytes}

theorem length_encode_refOf (hlen : ∀ m, (hash m).length = 32) (n : MPTNode) :
    (Rlp.encode (refOf hash n)).length ≤ 33 := by
  unfold refOf
  split
  · have hheader : (Rlp.encodeBytes (hash n.serialize)).length ≤ 33 := by
      have hlen' := hlen n.serialize
      unfold Rlp.encodeBytes
      split
      · rename_i x hx
        rw [hx] at hlen'
        cases hlen'
      · rw [length_append, hlen', Rlp.encodeLength_short (by omega)]
        rfl
    simpa only [Rlp.encode] using hheader
  · rename_i hshort
    have hserialize : Rlp.encode (.list n.raw) = n.serialize := rfl
    rw [hserialize]
    omega

theorem length_encode_ref (hlen : ∀ m, (hash m).length = 32) {t : Trie}
    (ht : ∀ r, t ≠ .stub r) : (Rlp.encode (ref hash t)).length ≤ 33 := by
  cases t with
  | empty => simp [ref, Rlp.encode, Rlp.encodeBytes, Rlp.encodeLength]
  | stub r => exact absurd rfl (ht r)
  | leaf p v => exact length_encode_refOf hlen _
  | ext p c => exact length_encode_refOf hlen _
  | branch cs v => exact length_encode_refOf hlen _

theorem length_encode_path (p : Nibbles) (isLeaf : Bool) (hp : p.length < 2 ^ 52) :
    (Rlp.encode (.bytes (MPTNode.encodedKey p isLeaf))).length ≤ 11 + p.length := by
  have hpacked := length_packed_le (addHexPrefix p isLeaf)
  have hprefix := length_addHexPrefix_le p isLeaf
  have hkey : (MPTNode.encodedKey p isLeaf).length ≤ p.length + 2 := hpacked.trans hprefix
  have hbytes := Rlp.length_encodeBytes_le (k := 7) (b := MPTNode.encodedKey p isLeaf) (by omega)
  simp only [Rlp.encode]
  omega

theorem length_encode_value {v : Bytes} (hv : v.length < 2 ^ 51) :
    (Rlp.encode (.bytes v)).length ≤ 9 + v.length := by
  rw [Rlp.encode, Nat.add_comm]
  exact Rlp.length_encodeBytes_le (k := 7) (by omega)

theorem length_encode_node {l : List Item} (hl : (Rlp.encodeAll l).length < 2 ^ 52 + 2 ^ 51 + 1000) :
    (Rlp.encode (.list l)).length < 2 ^ 53 := by
  have hlist := Rlp.length_encode_list_le (l := l) (by omega)
  omega

theorem length_enc_leaf {p : Nibbles} {v : Bytes} (hp : p.length < 2 ^ 52) (hv : v.length < 2 ^ 51) :
    (enc hash (.leaf p v)).length < 2 ^ 53 := by
  have hpath := length_encode_path p true hp
  have hval := length_encode_value hv
  refine length_encode_node ?_
  simp only [node, MPTNode.raw, Rlp.encodeAll, length_append, length_nil]
  omega

variable (hlen : ∀ m, (hash m).length = 32)
include hlen

theorem length_enc_ext {p : Nibbles} {c : Trie}
    (hp : p.length < 2 ^ 52) (hc : ∀ r, c ≠ .stub r) : (enc hash (.ext p c)).length < 2 ^ 53 := by
  have hpath := length_encode_path p false hp
  have hchild := length_encode_ref hlen hc
  refine length_encode_node ?_
  simp only [node, MPTNode.raw, Rlp.encodeAll, length_append, length_nil]
  omega

theorem length_enc_branch {cs : Nibble → Trie} {v : Option Bytes}
    (hv : ∀ w, v = some w → w.length < 2 ^ 51) (hcs : ∀ i r, cs i ≠ .stub r) :
    (enc hash (.branch cs v)).length < 2 ^ 53 := by
  have hrefs : (Rlp.encodeAll (List.ofFn (fun i => ref hash (cs i)))).length ≤ 16 * 33 := by
    have hall := Rlp.length_encodeAll_le (l := List.ofFn (fun i => ref hash (cs i))) (b := 33) (by
      intro x hx
      obtain ⟨i, rfl⟩ := List.mem_ofFn.mp hx
      exact length_encode_ref hlen (hcs i))
    rwa [length_ofFn] at hall
  have hval : (Rlp.encode (.bytes (v.getD []))).length ≤ 9 + 2 ^ 51 := by
    cases v with
    | none => simp [Rlp.encode, Rlp.encodeBytes, Rlp.encodeLength]
    | some v =>
      have hlong := hv v rfl
      have hval := length_encode_value hlong
      simp only [Option.getD_some]
      omega
  refine length_encode_node ?_
  have hraw : (node hash (.branch cs v)).raw =
      List.ofFn (fun i => ref hash (cs i)) ++ [.bytes (v.getD [])] := rfl
  rw [hraw, Rlp.length_encodeAll_append]
  simp only [Rlp.encodeAll, length_append, length_nil]
  omega

/-- No node of a well-formed tree is too long for a byte array. -/
theorem length_enc_lt {t : Trie} (ht : WF t)
    (hbounded : Bounded t) : (enc hash t).length < 2 ^ 53 := by
  cases t with
  | empty => exact ht.elim
  | stub r => exact ht.elim
  | leaf p v =>
    obtain ⟨hp, hv⟩ := hbounded p v (by simp)
    exact length_enc_leaf hp hv
  | ext p c =>
    obtain ⟨k, v, hk⟩ := ht.2.2.exists_key
    obtain ⟨hp, -⟩ := hbounded (p ++ k) v (by rw [lookup_ext_append, hk])
    rw [length_append] at hp
    exact length_enc_ext hlen (by omega) ht.2.2.ne_stub
  | branch cs v =>
    refine length_enc_branch hlen (fun w hw => (hbounded [] w hw).2) (fun i r hr => ?_)
    exact (ht.2 i (by rw [hr]; exact fun h => nomatch h)).ne_stub r hr

theorem fits_of_bounded {t : Trie} (ht : WF t) (hbounded : Bounded t) : Fits hash t := by
  intro s hs hnode
  exact length_enc_lt hlen (ht.sub hs (isNode_iff.mp hnode).1) (hbounded.sub hs)

end Trie
