-- SUMMARY: The encodings of the nodes of a tree: they occur in the journal that stored the tree, and determine the tree.
import TsEthereum.MerkleTrie.Refinement

/-!
# Encodings determine trees

A node is stored under its hash or embedded in the node above it, so its encoding
occurs among those of the journal. Where the hash function is one-to-one on these,
trees with the same encoding are the same.
-/

open Rlp (Item)
open Nibbles

theorem Rlp.Item.Within.trans {x y z : Item} (h : Within x y) (h' : Within y z) : Within x z := by
  induction h' with
  | refl => exact h
  | item hmem _ ih => exact .item hmem ih

namespace Trie

open PatriciaTree

variable {hash : Bytes → Bytes}

/-- The raw node of the tree is stored or embedded in one that is. -/
def Occurs (hash : Bytes → Bytes) (ops : List BatchDBOp) (t : Trie) : Prop :=
  ∃ k x, BatchDBOp.put k (Rlp.encode x) ∈ ops ∧ Item.Within (.list (node hash t).raw) x

variable {ops : List BatchDBOp} {t : Trie}

theorem Occurs.of_put (h : putOp hash t ∈ ops) : Occurs hash ops t :=
  ⟨_, .list (node hash t).raw, h, .refl _⟩

theorem Occurs.enc_mem (h : Occurs hash ops t) : enc hash t ∈ nodeEncodings ops := by
  obtain ⟨k, x, hput, hwithin⟩ := h
  exact .inr ⟨k, x, _, hput, hwithin, rfl⟩

theorem Occurs.child {ops : List BatchDBOp} {t c : Trie} (h : Occurs hash ops t)
    (hc : isNode c = true) (hmem : ref hash c ∈ (node hash t).raw)
    (hput : 32 ≤ (enc hash c).length → putOp hash c ∈ ops) : Occurs hash ops c := by
  by_cases hlong : 32 ≤ (enc hash c).length
  · exact .of_put (hput hlong)
  · obtain ⟨k, x, hx, hwithin⟩ := h
    have href : ref hash c = .list (node hash c).raw := by
      rw [ref_eq hc]
      exact if_neg hlong
    rw [href] at hmem
    exact ⟨k, x, hx, .trans (.item hmem (.refl _)) hwithin⟩

variable {x : Trie}

theorem isNode_of_sub (h : Sub x t) (hx : isNode x = true) : isNode t = true := by
  cases t with
  | empty => rw [sub_empty_iff.mp h] at hx; exact hx
  | stub r => rw [sub_stub_iff.mp h] at hx; exact hx
  | leaf p v => rfl
  | ext p c => rfl
  | branch cs v => rfl

/-- Every node of a tree occurs where those are put that are referred to by their hash. -/
theorem Occurs.sub (h : Occurs hash ops t) (hsub : Sub x t) (hx : isNode x = true)
    (hput : ∀ y, Sub y t → isNode y = true → 32 ≤ (enc hash y).length → putOp hash y ∈ ops) :
    Occurs hash ops x := by
  induction hsub with
  | refl => exact h
  | @ext c p hsub ih =>
    have hc := isNode_of_sub hsub hx
    have hput' (y : Trie) (hy : Sub y c) := hput y (.ext p hy)
    exact ih (h.child hc (by simp [node, MPTNode.raw]) (hput' c (.refl c) hc)) hput'
  | @branch cs v i hsub ih =>
    have hc := isNode_of_sub hsub hx
    have hput' (y : Trie) (hy : Sub y (cs i)) := hput y (.branch v i hy)
    refine ih (h.child hc ?_ (hput' (cs i) (.refl _) hc)) hput'
    exact List.mem_append.mpr (.inl (List.mem_ofFn.mpr ⟨i, rfl⟩))

/-! ## Trees with the same encoding -/

/-- The references to two trees that are told apart by their encodings. -/
theorem eq_of_ref_eq (hlen : ∀ m, (hash m).length = 32) {a b : Trie} {known : Set Bytes}
    (hinj : Set.InjOn hash known) (ha : a ≠ .empty → isNode a = true ∧ enc hash a ∈ known)
    (hb : b ≠ .empty → isNode b = true ∧ enc hash b ∈ known)
    (heq : a ≠ .empty → b ≠ .empty → enc hash a = enc hash b → a = b) (h : ref hash a = ref hash b) :
    a = b := by
  have hempty {c : Trie} (hc : isNode c = true) : ref hash c ≠ .bytes [] := by
    intro hnil
    have hpos := length_refOf_pos hlen (node hash c)
    rw [← ref_eq hc, hnil] at hpos
    exact absurd hpos (Nat.lt_irrefl 0)
  by_cases ha' : a = .empty
  · by_contra hne
    have hb' : b ≠ .empty := fun hb' => hne (ha'.trans hb'.symm)
    rw [ha'] at h
    exact hempty (hb hb').1 h.symm
  · by_cases hb' : b = .empty
    · rw [hb'] at h
      exact absurd h (hempty (ha ha').1)
    · obtain ⟨hanode, hamem⟩ := ha ha'
      obtain ⟨hbnode, hbmem⟩ := hb hb'
      refine heq ha' hb' ?_
      rw [ref_eq hanode, ref_eq hbnode] at h
      unfold refOf at h
      split at h
      · split at h
        · exact hinj hamem hbmem (Item.bytes.inj h)
        · cases h
      · split at h
        · cases h
        · have hnode : node hash a = node hash b := MPTNode.raw_injective (Item.list.inj h)
          exact congrArg MPTNode.serialize hnode

/-- A tree without stubs, with something below its extensions and no empty values in its
branches. -/
def Plain : Trie → Prop
  | .empty | .leaf _ _ => True
  | .stub _ => False
  | .ext _ c => c ≠ .empty ∧ Plain c
  | .branch cs v => v ≠ some [] ∧ ∀ i, Plain (cs i)

theorem plain_of_wf (h : t = .empty ∨ WF t) (hv : NoValues t) : Plain t := by
  induction t with
  | empty => trivial
  | stub r => exact h.elim (fun h => nomatch h) id
  | leaf p v => trivial
  | ext p c ih =>
    have hc := (h.resolve_left (fun h => nomatch h)).2.2
    exact ⟨hc.ne_empty, ih (.inr hc) hv⟩
  | branch cs v ih =>
    have hwf := h.resolve_left (fun h => nomatch h)
    refine ⟨fun hnil => ?_, fun i => ih i ?_ (hv.2 i)⟩
    · rw [hv.1] at hnil
      cases hnil
    · by_cases hi : cs i = .empty
      · exact .inl hi
      · exact .inr (hwf.2 i hi)

theorem Plain.isNode (h : Plain t) (ht : t ≠ .empty) : isNode t = true := by
  cases t <;> first | rfl | exact absurd rfl ht | exact h.elim

/-- Trees are determined by their encodings. -/
theorem eq_of_enc_eq (hlen : ∀ m, (hash m).length = 32) {known : Set Bytes}
    (hinj : Set.InjOn hash known) {y : Trie} (hx : Plain x) (hy : Plain y) (hxne : x ≠ .empty)
    (hyne : y ≠ .empty) (hmemx : ∀ z, Sub z x → isNode z = true → enc hash z ∈ known)
    (hmemy : ∀ z, Sub z y → isNode z = true → enc hash z ∈ known) (hfits : Fits hash x)
    (h : enc hash x = enc hash y) : x = y := by
  induction x generalizing y with
  | empty => exact absurd rfl hxne
  | stub r => exact hx.elim
  | leaf p v =>
    have hnode : node hash (.leaf p v) = node hash y :=
      MPTNode.serialize_injective (hfits _ (.refl _) rfl) h
    cases y with
    | empty => exact absurd rfl hyne
    | stub r => exact hy.elim
    | leaf q w =>
      obtain ⟨rfl, hv⟩ := MPTNode.leaf.inj hnode
      rw [Item.bytes.inj hv]
    | ext q c => cases hnode
    | branch cs w => cases hnode
  | ext p c ih =>
    have hnode : node hash (.ext p c) = node hash y :=
      MPTNode.serialize_injective (hfits _ (.refl _) rfl) h
    cases y with
    | empty => exact absurd rfl hyne
    | stub r => exact hy.elim
    | leaf q w => cases hnode
    | branch cs w => cases hnode
    | ext q d =>
      obtain ⟨rfl, href⟩ := MPTNode.extension.inj hnode
      have hc := hx.2.isNode hx.1
      have hd := hy.2.isNode hy.1
      have hsame : c = d := by
        refine eq_of_ref_eq hlen hinj (fun _ => ⟨hc, hmemx c (.ext p (.refl c)) hc⟩)
          (fun _ => ⟨hd, hmemy d (.ext p (.refl d)) hd⟩) (fun hcne hdne => ?_) href
        exact ih hx.2 hy.2 hcne hdne (fun z hz => hmemx z (.ext p hz))
          (fun z hz => hmemy z (.ext p hz)) (hfits.sub (.ext p (.refl c)))
      rw [hsame]
  | branch cs v ih =>
    have hnode : node hash (.branch cs v) = node hash y :=
      MPTNode.serialize_injective (hfits _ (.refl _) rfl) h
    cases y with
    | empty => exact absurd rfl hyne
    | stub r => exact hy.elim
    | leaf q w => cases hnode
    | ext q d => cases hnode
    | branch ds w =>
      obtain ⟨hrefs, hvalue⟩ := MPTNode.branch.inj hnode
      have hvw : v = w := by
        have hgetD := Item.bytes.inj hvalue
        have hv := hx.1
        have hw := hy.1
        cases v <;> cases w <;> simp_all
      subst hvw
      have hsame : cs = ds := by
        funext i
        have hci (hne : cs i ≠ .empty) : isNode (cs i) = true := (hx.2 i).isNode hne
        have hdi (hne : ds i ≠ .empty) : isNode (ds i) = true := (hy.2 i).isNode hne
        refine eq_of_ref_eq hlen hinj
          (fun hne => ⟨hci hne, hmemx (cs i) (.branch v i (.refl _)) (hci hne)⟩)
          (fun hne => ⟨hdi hne, hmemy (ds i) (.branch v i (.refl _)) (hdi hne)⟩)
          (fun hne hne' => ?_) (congrFun hrefs i)
        exact ih i (hx.2 i) (hy.2 i) hne hne'
          (fun z hz => hmemx z (.branch v i hz)) (fun z hz => hmemy z (.branch v i hz))
          (hfits.sub (.branch v i (.refl _)))
      rw [hsame]

end Trie
