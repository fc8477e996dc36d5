-- SUMMARY: The map of values lists the entries of a trie exactly when the walk skips none of them and the limit leaves at most one over.
import TsEthereum.Base.PatriciaTours
import TsEthereum.MerkleTrie.HistoryIndependence
import TsEthereum.MerkleTrie.ValueMap

/-!
# What the map of values lists

The walk of a trie that stands for a tree is a tour through that tree: it yields
the leaves that the tour reaches, in the order of their keys. A node embedded in
its parent is shown to the walk only where the database happens to have it.
-/

open List hiding lookup

open Rlp (Item)
open Nibbles

namespace Trie

open PatriciaTree

/-- By what the walk tells nodes apart. -/
def ident (hash : Bytes → Bytes) (t : Trie) : Bytes := hash (enc hash t)

/-- The walk finds the child of a branch. -/
def shown (hash : Bytes → Bytes) (db : MapDB) (t : Trie) : Bool :=
  isNode t && (db.get (ident hash t)).isSome

/-- The database answers for the tree as one that holds nothing but nodes under their hashes. -/
structure Walkable (hash : Bytes → Bytes) (db : MapDB) (t : Trie) : Prop where
  plain : Plain t
  noValues : NoValues t
  fits : Fits hash t
  stored : Stored hash db t
  honest : ∀ s, Sub s t → isNode s = true → ∀ w, db.get (ident hash s) = some w → w = enc hash s
  noRoot : ∀ s, Sub s t → isNode s = true → ident hash s ≠ MPT.EMPTY_TRIE_ROOT hash
  noNil : db.get [] = none
  distinct : Distinct (ident hash) t

variable {hash : Bytes → Bytes} {db : MapDB}

theorem solid_iff {t : Trie} : t.Solid ↔ isNode t = true := isNode_iff.symm

theorem Walkable.ext {p : Nibbles} {c : Trie} (h : Walkable hash db (.ext p c)) :
    Walkable hash db c where
  plain := h.plain.2
  noValues := h.noValues
  fits := h.fits.sub (.ext p (.refl c))
  stored := h.stored.sub (.ext p (.refl c))
  honest := fun s hs => h.honest s (.ext p hs)
  noRoot := fun s hs => h.noRoot s (.ext p hs)
  noNil := h.noNil
  distinct := h.distinct.sub (.ext p (.refl c))

theorem Walkable.child {cs : Nibble → Trie} {v : Option Bytes}
    (h : Walkable hash db (.branch cs v)) (i : Nibble) : Walkable hash db (cs i) where
  plain := h.plain.2 i
  noValues := h.noValues.2 i
  fits := h.fits.sub (.branch v i (.refl _))
  stored := h.stored.sub (.branch v i (.refl _))
  honest := fun s hs => h.honest s (.branch v i hs)
  noRoot := fun s hs => h.noRoot s (.branch v i hs)
  noNil := h.noNil
  distinct := h.distinct.sub (.branch v i (.refl _))

end Trie

namespace MPT

open PatriciaTree Trie

variable {hash : Bytes → Bytes} {db : MapDB}

/-! ## Walks -/

/-- The walk ends, with these leaves among what it has found and these nodes visited. -/
def Yields (walk : Option Tour) (es : List (Nibbles × Item)) (visited : List Bytes) : Prop :=
  ∃ tour, walk = some tour ∧ leaves tour.found = es ∧ ∀ b, b ∈ tour.visited ↔ b ∈ visited

/-- A binding of a tree below `key`, as the walk finds it. -/
def below (key : Nibbles) (e : Nibbles × Bytes) : Nibbles × Item := (key ++ e.1, .bytes e.2)

theorem leaves_append (found found' : List (Nibbles × MPTNode)) :
    leaves (found ++ found') = leaves found ++ leaves found' := filterMap_append

theorem Yields.after {walk : Option Tour} {es : List (Nibbles × Item)} {visited : List Bytes}
    (h : Yields walk es visited) (before : Tour) :
    Yields (walk.map before.followedBy) (leaves before.found ++ es) visited := by
  obtain ⟨tour, rfl, rfl, hvisited⟩ := h
  exact ⟨before.followedBy tour, rfl, leaves_append _ _, hvisited⟩

theorem Yields.nothing {visited visited' : List Bytes} (h : ∀ b, b ∈ visited ↔ b ∈ visited') :
    Yields (some ⟨[], visited⟩) [] visited' :=
  ⟨_, rfl, rfl, h⟩

/-- Walks from a reference to the tree are tours through it. -/
def Walks (hash : Bytes → Bytes) (db : MapDB) (t : Trie) : Prop :=
  ∀ ref, lookupNode db ref = .ok (node hash t) → ref ≠ .bytes (EMPTY_TRIE_ROOT hash) →
    ∀ seen, Closed (ident hash) (shown hash db) seen t → ∀ fuel, depth t < fuel → ∀ key,
      Yields (_walkTrie hash db isValueNode fuel ref key seen)
        (((bindings t).filter fun e => reached (ident hash) (shown hash db) t seen e.1).map (below key))
        (seen ++ met (ident hash) (shown hash db) t)

variable {c : Trie}

theorem childHash_ref (h : isNode c = true) :
    childHash hash (ref hash c) = .bytes (ident hash c) := by
  rw [ref_eq h]
  unfold refOf
  split <;> rfl

variable {seen : List Bytes} {fuel : Nat}

/-- From a branch the walk goes on to the children that are shown. -/
theorem walk_child (h : Walkable hash db c) (hwalks : isNode c = true → Walks hash db c)
    (hclosed : Closed (ident hash) (shown hash db) seen c) (hfuel : depth c < fuel) (key : Nibbles) :
    
    Yields (_walkTrie hash db isValueNode fuel (childHash hash (ref hash c)) key seen)
      (((bindings c).filter fun e => shown hash db c &&
        reached (ident hash) (shown hash db) c seen e.1).map (below key))
      (seen ++ if shown hash db c then met (ident hash) (shown hash db) c else []) := by
  obtain ⟨fuel, rfl⟩ : ∃ n, fuel = n + 1 := ⟨fuel - 1, by omega⟩
  have hmissing {b : Bytes} (hget : db.get b = none) (hshown : shown hash db c = false) :
      Yields (_walkTrie hash db isValueNode (fuel + 1) (.bytes b) key seen)
        (((bindings c).filter fun e => shown hash db c &&
          reached (ident hash) (shown hash db) c seen e.1).map (below key))
        (seen ++ if shown hash db c then met (ident hash) (shown hash db) c else []) := by
    have hnothing : _walkTrie hash db isValueNode (fuel + 1) (.bytes b) key seen =
        some ⟨[], seen⟩ := by
      simp [_walkTrie, lookupNode, hget]
    rw [hnothing, hshown]
    simpa using Yields.nothing (fun b => Iff.rfl)
  by_cases hempty : c = .empty
  · subst hempty
    exact hmissing h.noNil rfl
  · have hnode := h.plain.isNode hempty
    rw [childHash_ref hnode]
    cases hget : db.get (ident hash c) with
    | none => exact hmissing hget (by simp [shown, hget])
    | some w =>
      have hshown : shown hash db c = true := by simp [shown, hget, hnode]
      have hw := h.honest c (.refl c) hnode w hget
      have hlookup := lookupNode_root hnode (hw ▸ hget) h.fits
      have hroot := h.noRoot c (.refl c) hnode
      rw [hshown]
      simp only [Bool.true_and, if_true]
      exact hwalks hnode _ hlookup (fun heq => hroot (Item.bytes.inj heq)) seen hclosed _ hfuel key

/-- What there is to meet once a branch and everything to the left of a child has been met. -/
def metBefore (hash : Bytes → Bytes) (db : MapDB) (cs : Nibble → Trie) (v : Option Bytes)
    (is : List Nibble) (seen : List Bytes) : List Bytes :=
  ident hash (.branch cs v) :: (metIn (ident hash) (shown hash db) cs is ++ seen)

variable {cs : Nibble → Trie} {v : Option Bytes}

theorem closed_metBefore (h : Walkable hash db (.branch cs v))
    (hclosed : Closed (ident hash) (shown hash db) seen (.branch cs v)) (is : List Nibble)
    (i : Nibble) : Closed (ident hash) (shown hash db) (metBefore hash db cs v is seen) (cs i) := by
  have hsub : Sub (cs i) (.branch cs v) := .branch v i (.refl _)
  have hsolid : Solid (.branch cs v : Trie) := ⟨nofun, nofun⟩
  have hmet := (closed_metIn h.distinct is i).append (hclosed.sub hsub)
  exact hmet.cons hsolid h.distinct hsub (depth_child_lt cs v i)

theorem mem_metBefore_concat {is : List Nibble} {i : Nibble} {b : Bytes} :
    b ∈ metBefore hash db cs v (is ++ [i]) seen ↔ b ∈ metBefore hash db cs v is seen ++
      if shown hash db (cs i) then met (ident hash) (shown hash db) (cs i) else [] := by
  simp only [metBefore, metIn, flatMap_append, flatMap_singleton, cons_append,
    mem_cons, mem_append, append_assoc]
  tauto

/-- The children to the left of one of them. -/
theorem mem_left {before after : List Nibble} {i j : Nibble}
    (h : List.finRange 16 = before ++ i :: after) :
    j ∈ before ↔ j ∈ (List.finRange 16).filter (· < i) := by
  have hsorted := pairwise_lt_finRange 16
  rw [h] at hsorted ⊢
  have hbefore := (pairwise_append.mp hsorted).2.2
  have hafter := (pairwise_cons.mp (pairwise_append.mp hsorted).2.1).1
  simp only [mem_filter, mem_append, mem_cons, decide_eq_true_eq]
  constructor
  · exact fun hj => ⟨.inl hj, hbefore j hj i mem_cons_self⟩
  · rintro ⟨hj | rfl | hj, hlt⟩
    · exact hj
    · exact absurd hlt (lt_irrefl j)
    · exact absurd (hafter j hj) (not_lt_of_gt hlt)

/-- The loop over the children of a branch. -/
theorem walk_children (h : Walkable hash db (.branch cs v))
    (hwalks : ∀ i, isNode (cs i) = true → Walks hash db (cs i))
    (hclosed : Closed (ident hash) (shown hash db) seen (.branch cs v))
    (hfuel : ∀ i, depth (cs i) < fuel) (key : Nibbles) {before is : List Nibble}
    (hsplit : List.finRange 16 = before ++ is) {here : Tour}
    (hvisited : ∀ b, b ∈ here.visited ↔ b ∈ metBefore hash db cs v before seen) :
    Yields (is.foldlM (fun tour nibble =>
        (_walkTrie hash db isValueNode fuel (childHash hash (ref hash (cs nibble)))
          (key ++ [nibble]) tour.visited).map tour.followedBy) here)
      (leaves here.found ++ is.flatMap fun i =>
        ((bindings (cs i)).filter fun e => shown hash db (cs i) &&
          reached (ident hash) (shown hash db) (cs i)
            (metBefore hash db cs v ((List.finRange 16).filter (· < i)) seen) e.1).map
          (below (key ++ [i]))) (metBefore hash db cs v (List.finRange 16) seen) := by
  induction is generalizing before here with
  | nil =>
    rw [append_nil] at hsplit
    exact ⟨here, rfl, (append_nil _).symm, hsplit ▸ hvisited⟩
  | cons i is ih =>
    have hclosed' := (closed_metBefore h hclosed before i).congr hvisited
    have hchild := walk_child (h.child i) (hwalks i) hclosed' (hfuel i) (key ++ [i])
    obtain ⟨tour, hwalk, hfound, hafter⟩ := hchild
    -- the walk has met what lies to the left of the child
    have hleft (b : Bytes) : b ∈ here.visited ↔
        b ∈ metBefore hash db cs v ((List.finRange 16).filter (· < i)) seen := by
      simp only [hvisited, metBefore, mem_cons, mem_append, mem_metIn, mem_left hsplit]
    have hnext (b : Bytes) : b ∈ (here.followedBy tour).visited ↔
        b ∈ metBefore hash db cs v (before ++ [i]) seen := by
      rw [mem_metBefore_concat, mem_append, ← hvisited, ← mem_append]
      exact hafter b
    have hsplit' : List.finRange 16 = before ++ [i] ++ is :=
      hsplit.trans (append_cons before i is)
    have hrest := ih hsplit' hnext
    simp only [reached_congr hleft] at hfound
    simp only [foldlM_cons, hwalk, flatMap_cons]
    rw [← append_assoc, ← hfound, ← leaves_append]
    exact hrest

variable {t : Trie}

/-- A node that has been visited ends the walk. -/
theorem yields_seen {ref : Item} (hlookup : lookupNode db ref = .ok (node hash t))
    (hclosed : Closed (ident hash) (shown hash db) seen t) (hsolid : t.Solid)
    (hseen : ident hash t ∈ seen) (fuel : Nat) (key : Nibbles) :
    Yields (_walkTrie hash db isValueNode (fuel + 1) ref key seen)
      (((bindings t).filter fun e => reached (ident hash) (shown hash db) t seen e.1).map (below key))
      (seen ++ met (ident hash) (shown hash db) t) := by
  have hnothing : _walkTrie hash db isValueNode (fuel + 1) ref key seen = some ⟨[], seen⟩ := by
    have hvisited : hash (node hash t).serialize ∈ seen := hseen
    simp only [_walkTrie, hlookup, if_pos hvisited, ite_self]
  have hmet := hclosed t (.refl t) hsolid hseen
  rw [hnothing]
  simp only [reached_of_seen hseen, filter_false, map_nil]
  refine Yields.nothing fun b => ⟨fun hb => mem_append.mpr (.inl hb), fun hb => ?_⟩
  exact (mem_append.mp hb).elim id fun hb => hmet hb

/-- It is enough to follow walks that have not visited the root of the tree yet. -/
theorem walks_of_unseen (hsolid : t.Solid)
    (h : ∀ ref, lookupNode db ref = .ok (node hash t) → ref ≠ .bytes (EMPTY_TRIE_ROOT hash) →
      ∀ seen, Closed (ident hash) (shown hash db) seen t → hash (node hash t).serialize ∉ seen →
        ∀ fuel, depth t < fuel + 1 → ∀ key,
          Yields (_walkTrie hash db isValueNode (fuel + 1) ref key seen)
            (((bindings t).filter fun e =>
              reached (ident hash) (shown hash db) t seen e.1).map (below key))
            (seen ++ met (ident hash) (shown hash db) t)) : Walks hash db t := by
  intro ref hlookup hroot seen hclosed fuel hfuel key
  obtain ⟨fuel, rfl⟩ : ∃ n, fuel = n + 1 := ⟨fuel - 1, by omega⟩
  by_cases hseen : ident hash t ∈ seen
  · exact yields_seen hlookup hclosed hsolid hseen fuel key
  · exact h ref hlookup hroot seen hclosed hseen fuel hfuel key

theorem walks_leaf (p : Nibbles) (v : Bytes) : Walks hash db (.leaf p v) := by
  refine walks_of_unseen ⟨nofun, nofun⟩ fun ref hlookup hroot seen _ hseen fuel _ key => ?_
  have hwalk : _walkTrie hash db isValueNode (fuel + 1) ref key seen =
      some ⟨[(key, .leaf p (.bytes v))], ident hash (.leaf p v) :: seen⟩ := by
    simp only [_walkTrie, hlookup, if_neg hroot, if_neg hseen]
    rfl
  have hnew : ident hash (.leaf p v) ∉ seen := hseen
  refine ⟨_, hwalk, ?_, fun b => ?_⟩
  · simp [bindings, reached, hnew, below, leaves]
  · simp [met, or_comm]

theorem lookupNode_ref_ne (h : Walkable hash db t) (hnode : isNode t = true) :
    lookupNode db (ref hash t) = .ok (node hash t) ∧
      ref hash t ≠ .bytes (EMPTY_TRIE_ROOT hash) := by
  refine ⟨lookupNode_ref hnode (h.stored t (.refl t) hnode) h.fits, fun heq => ?_⟩
  rw [ref_eq hnode] at heq
  unfold refOf at heq
  split at heq
  · exact h.noRoot t (.refl t) hnode (Item.bytes.inj heq)
  · cases heq

theorem walks_ext {p : Nibbles} (h : Walkable hash db (.ext p c)) (hwalks : Walks hash db c) :
    Walks hash db (.ext p c) := by
  have hsolid : Solid (.ext p c : Trie) := ⟨nofun, nofun⟩
  refine walks_of_unseen hsolid fun ref hlookup hroot seen hclosed hseen fuel hfuel key => ?_
  have hwalk : _walkTrie hash db isValueNode (fuel + 1) ref key seen =
      (_walkTrie hash db isValueNode fuel (Trie.ref hash c) (key ++ p)
        (ident hash (.ext p c) :: seen)).map
        (Tour.followedBy ⟨[], ident hash (.ext p c) :: seen⟩) := by
    simp only [_walkTrie, hlookup, if_neg hroot, if_neg hseen]
    rfl
  have hnew : ident hash (.ext p c) ∉ seen := hseen
  obtain ⟨hchild, hne⟩ := lookupNode_ref_ne h.ext (h.plain.2.isNode h.plain.1)
  have hsub : Sub c (.ext p c) := .ext p (.refl c)
  have hclosed' := (hclosed.sub hsub).cons hsolid h.distinct hsub (Nat.lt_succ_self _)
  have hrest := hwalks _ hchild hne _ hclosed' fuel (Nat.lt_of_succ_lt_succ hfuel) (key ++ p)
  obtain ⟨tour, htour, hfound, hvisited⟩ := hrest.after ⟨[], ident hash (.ext p c) :: seen⟩
  refine ⟨tour, hwalk.trans htour, hfound.trans ?_, fun b => (hvisited b).trans ?_⟩
  · simp only [bindings, filter_map, map_map]
    simp [leaves, reached, under, below, Function.comp_def, hnew]
  · simp only [met, mem_append, mem_cons]
    tauto

theorem walks_branch (h : Walkable hash db (.branch cs v))
    (hwalks : ∀ i, isNode (cs i) = true → Walks hash db (cs i)) : Walks hash db (.branch cs v) := by
  have hsolid : Solid (.branch cs v : Trie) := ⟨nofun, nofun⟩
  refine walks_of_unseen hsolid fun ref hlookup hroot seen hclosed hseen fuel hfuel key => ?_
  obtain rfl : v = none := h.noValues.1
  have hnew : ident hash (.branch cs none) ∉ seen := hseen
  have hvisited (b : Bytes) : b ∈ (⟨[], ident hash (.branch cs none) :: seen⟩ : Tour).visited ↔
      b ∈ metBefore hash db cs none [] seen := Iff.rfl
  have hfuel' (i : Nibble) : depth (cs i) < fuel :=
    Nat.lt_of_lt_of_le (depth_child_lt cs none i) (Nat.le_of_lt_succ hfuel)
  have hloop := walk_children h hwalks hclosed hfuel' key rfl hvisited
  have hwalk : _walkTrie hash db isValueNode (fuel + 1) ref key seen =
      (List.finRange 16).foldlM (fun tour nibble =>
        (_walkTrie hash db isValueNode fuel (childHash hash (Trie.ref hash (cs nibble)))
          (key ++ [nibble]) tour.visited).map tour.followedBy)
        ⟨[], ident hash (.branch cs none) :: seen⟩ := by
    simp only [_walkTrie, hlookup, if_neg hroot, if_neg hseen]
    rfl
  obtain ⟨tour, htour, hfound, hafter⟩ := hloop
  refine ⟨tour, hwalk.trans htour, hfound.trans ?_, fun b => (hafter b).trans ?_⟩
  · simp only [bindings, Option.toList_none, map_nil, nil_append, leaves,
      filterMap_nil, filter_flatMap, map_flatMap, filter_map, map_map]
    refine flatMap_congr fun i _ => ?_
    simp [reached, under, below, Function.comp_def, hnew, metBefore]
  · simp only [metBefore, met, metIn, mem_append, mem_cons]
    tauto

/-- The walk of a stored trie is the tour through its tree. -/
theorem walks (h : Walkable hash db t) (hnode : isNode t = true) : Walks hash db t := by
  induction t with
  | empty | stub r => cases hnode
  | leaf p v => exact walks_leaf p v
  | ext p c ih => exact walks_ext h (ih h.ext (h.plain.2.isNode h.plain.1))
  | branch cs v ih => exact walks_branch h fun i => ih i (h.child i)

/-! ## Tries of a tree -/

variable {s : MPT}

theorem walkable (hlen : ∀ m, (hash m).length = 32) (h : Trie.Good hash s t) (ht : WF t)
    (hv : NoValues t) : Walkable hash s._db t := by
  have hknown {x : Trie} (hx : Sub x t) (hnode : isNode x = true) :
      enc hash x ∈ nodeEncodings s.journal :=
    enc_mem_of_puts (fun y hy hynode hlong => h.put_mem hy hynode hlong) hx hnode
  have hplain {x : Trie} (hx : Sub x t) (hsolid : x.Solid) : Plain x :=
    plain_of_wf (.inr (ht.sub hx hsolid.1)) (hv.sub hx)
  have hfits := fits_of_bounded hlen ht h.tidy.bounded
  constructor
  · exact plain_of_wf (.inr ht) hv
  · exact hv
  · exact hfits
  · exact h.holds.stored
  · exact fun x hx hnode w hget => h.get_eq (hknown hx hnode) hget
  · intro x hx hnode heq
    exact serialize_ne_empty _ (h.noCollision (hknown hx hnode) (.inl rfl) heq)
  · cases hget : s._db.get [] with
    | none => rfl
    | some w =>
      have hnil := (h.journaled.keyed _ _ (h.journaled.written _ _ hget)).1
      exact absurd (congrArg List.length hnil) (by rw [hlen]; decide)
  · rintro x ⟨hx, hsolid⟩ y ⟨hy, hsolid'⟩ hsame
    refine eq_of_enc_eq hlen h.noCollision (hplain hx hsolid) (hplain hy hsolid') hsolid.1 hsolid'.1
      (fun z hz hnode => hknown (hz.trans hx) hnode) (fun z hz hnode => hknown (hz.trans hy) hnode)
      (hfits.sub hx) ?_
    exact h.noCollision (hknown hx (solid_iff.mp hsolid)) (hknown hy (solid_iff.mp hsolid')) hsame

/-! ## The entries of a trie -/

theorem bytesToBigInt_cons (b : UInt8) (bs : Bytes) :
    bytesToBigInt (b :: bs) = 256 ^ bs.length * b.toNat + bytesToBigInt bs :=
  (bytesToBigInt_append [b] bs).trans (by simp [bytesToBigInt])

/-- Byte strings of one length are ordered as their nibbles are. -/
theorem bytesToBigInt_lt {a b : Bytes} (hlen : a.length = b.length)
    (h : bytesToNibbles a < bytesToNibbles b) : bytesToBigInt a < bytesToBigInt b := by
  induction a generalizing b with
  | nil =>
    rw [length_eq_zero_iff.mp hlen.symm] at h
    exact absurd h (List.lt_irrefl _)
  | cons x a ih =>
    cases b with
    | nil => cases hlen
    | cons y b =>
      have hlen' : a.length = b.length := Nat.succ.inj hlen
      rw [bytesToBigInt_cons, bytesToBigInt_cons, ← hlen']
      have hpos : (0 : Int) < 256 ^ a.length := by positivity
      -- a smaller first byte outweighs the rest
      have hfirst (hxy : x.toNat < y.toNat) : 256 ^ a.length * (x.toNat : Int) + bytesToBigInt a <
          256 ^ a.length * y.toNat + bytesToBigInt b := by
        have hle : (x.toNat : Int) + 1 ≤ y.toNat := by exact_mod_cast hxy
        have hmul := mul_le_mul_of_nonneg_left hle hpos.le
        linarith [(bytesToBigInt_bounds a).2, (bytesToBigInt_bounds b).1]
      simp only [bytesToNibbles_cons, cons_lt_cons_iff, high, low, Fin.mk_lt_mk, Fin.mk.injEq] at h
      rcases h with h | ⟨hhigh, h | ⟨hlow, h⟩⟩
      · exact hfirst (by omega)
      · exact hfirst (by omega)
      · have hxy : x.toNat = y.toNat := by omega
        rw [hxy]
        exact add_lt_add_right (ih hlen' h) _

/-- The bindings of a tree under the bytes of their keys. -/
def entriesOf (t : Trie) : List (Bytes × Item) := (bindings t).map fun e => packed (below [] e)

variable {n : Nat}

section

variable (hkeys : KeysOfLength n t)
include hkeys

theorem bytesToNibbles_entry (heven : n % 2 = 0) {e : Nibbles × Bytes}
    (h : e ∈ bindings t) : bytesToNibbles (packed (below [] e)).1 = e.1 :=
  bytesToNibbles_packed e.1 (hkeys e.1 e.2 (mem_bindings.mp h) ▸ heven)

theorem increasing_entriesOf (heven : n % 2 = 0) : Increasing (entriesOf t) := by
  apply pairwise_map.mpr
  refine (pairwise_bindings t).imp_of_mem fun {a b} ha hb hlt => ?_
  have hsame : a.1.length = b.1.length :=
    (hkeys _ _ (mem_bindings.mp ha)).trans (hkeys _ _ (mem_bindings.mp hb)).symm
  apply bytesToBigInt_lt
  · apply Nat.mul_left_cancel (Nat.succ_pos 1)
    rw [← length_bytesToNibbles, ← length_bytesToNibbles, bytesToNibbles_entry hkeys heven ha,
      bytesToNibbles_entry hkeys heven hb, hsame]
  · rw [bytesToNibbles_entry hkeys heven ha, bytesToNibbles_entry hkeys heven hb]
    exact hlt

theorem mem_entriesOf (heven : n % 2 = 0) {k : Bytes} {x : Item} : (k, x) ∈ entriesOf t ↔
      ∃ v, x = .bytes v ∧ lookup t (bytesToNibbles k) = some v := by
  apply mem_map.trans
  constructor
  · rintro ⟨⟨y, v⟩, hmem, heq⟩
    have hy : bytesToNibbles (packed (below [] (y, v))).1 = y :=
      bytesToNibbles_entry hkeys heven hmem
    cases heq
    exact ⟨v, rfl, (congrArg (lookup t) hy).trans (mem_bindings.mp hmem)⟩
  · rintro ⟨v, rfl, hk⟩
    exact ⟨_, mem_bindings.mpr hk, Prod.ext (packed_bytesToNibbles k) rfl⟩

end

/-- The walk gets to what a trie that stands for `t` has under the key. -/
def walked (hash : Bytes → Bytes) (db : MapDB) (t : Trie) (key : Bytes) : Bool :=
  reached (ident hash) (shown hash db) t [] (bytesToNibbles key)

/-- The leaves that `walkAllValueNodes` finds are the entries that the walk gets to. -/
theorem walkAllValueNodes_spec (hlen : ∀ m, (hash m).length = 32) (h : Trie.Good hash s t)
    (hu : Trie.Uniform n t) (heven : n % 2 = 0) (hfuel : depth t < fuel) :
    ∃ found, walkAllValueNodes hash fuel s = some found ∧
      (leaves found).map packed = (entriesOf t).filter fun e => walked hash s._db t e.1 := by
  rcases h.tidy.shape with rfl | ht
  · obtain ⟨fuel, rfl⟩ : ∃ n, fuel = n + 1 := ⟨fuel - 1, by omega⟩
    refine ⟨[], ?_, rfl⟩
    simp [walkAllValueNodes, _walkTrie, h.root_eq]
  · have hnode := isNode_of_wf ht
    have hw := walkable hlen h ht hu.noValues
    have hroot : s._root = ident hash t := h.holds.root.trans (rootHash_of_isNode hnode)
    have hlookup : lookupNode s._db (.bytes (ident hash t)) = .ok (node hash t) :=
      lookupNode_root hnode (h.holds.top hnode) hw.fits
    have hne : Item.bytes (ident hash t) ≠ .bytes (EMPTY_TRIE_ROOT hash) :=
      fun heq => hw.noRoot t (.refl t) hnode (Item.bytes.inj heq)
    obtain ⟨tour, hwalk, hfound, -⟩ :=
      walks hw hnode _ hlookup hne [] (fun _ _ _ hseen => nomatch hseen) fuel hfuel []
    refine ⟨tour.found, ?_, ?_⟩
    · rw [walkAllValueNodes, hroot, hwalk]
      rfl
    · rw [hfound, entriesOf, filter_map, map_map]
      refine congrArg _ (filter_congr fun e he => ?_)
      simp only [walked, Function.comp_apply, bytesToNibbles_entry hu.keys heven he]

theorem ValueMap.eq_of_entries {a b : ValueMap} (hvalues : a.values.entries = b.values.entries)
    (hnext : a.nextKey = b.nextKey) : a = b := by
  obtain ⟨⟨entries, hnodup⟩, nextKey⟩ := a
  cases hvalues
  cases hnext
  rfl

theorem fromKey_filter (startKey : Int) (limit : Option Nat) (all : List (Bytes × Item))
    (p : Bytes × Item → Bool) :
    fromKey startKey limit (all.filter p) = (fromKey startKey limit all).filter p := by
  cases limit with
  | none => rfl
  | some n => exact filter_comm _ _ all

theorem nodup_fromKey {all : List (Bytes × Item)} (h : Increasing all) (startKey : Int)
    (limit : Option Nat) : ((fromKey startKey limit all).map Prod.fst).Nodup := by
  have hall : (all.map Prod.fst).Nodup :=
    pairwise_map.mpr (h.imp fun hlt heq => absurd hlt (by rw [heq]; exact lt_irrefl _))
  unfold fromKey
  split
  · exact hall
  · exact hall.sublist (filter_sublist.map _)

/-- On a trie that stands for a tree `getValueMap` answers, and the answer is right exactly if of
the entries in question the walk gets to the first ones up to one beyond the limit. -/
theorem getValueMap_spec (hlen : ∀ m, (hash m).length = 32) (h : Trie.Good hash s t)
    (hu : Trie.Uniform n t) (heven : n % 2 = 0) (startKey : Int) (limit : Option Nat) : ∃ answer,
      (∀ fuel, depth t < fuel → getValueMap hash fuel s startKey limit = some answer) ∧
      (Answers (entriesOf t) startKey limit answer ↔
        ((fromKey startKey limit (entriesOf t)).filter fun e => walked hash s._db t e.1) =
          upTo (limit.map (· + 1)) (fromKey startKey limit (entriesOf t))) := by
  have hsorted := increasing_entriesOf hu.keys heven
  have hcollect (fuel : Nat) (hfuel : depth t < fuel) : ∃ answer,
      getValueMap hash fuel s startKey limit = some answer ∧
      let part := (fromKey startKey limit (entriesOf t)).filter fun e => walked hash s._db t e.1
      answer.values.entries = upTo limit part ∧
        answer.nextKey = (beyond limit part).getLast?.map Prod.fst := by
    obtain ⟨found, hwalk, hleaves⟩ := walkAllValueNodes_spec hlen h hu heven hfuel
    have hincreasing : Increasing ((leaves found).map packed) :=
      hleaves ▸ List.Pairwise.sublist filter_sublist hsorted
    have hall : Collected startKey limit ((leaves found).map packed) _ := collected_foldl hincreasing
    rw [hleaves] at hall
    refine ⟨_, by rw [getValueMap, hwalk]; rfl, ?_⟩
    rw [← fromKey_filter]
    exact ⟨hall.values, hall.nextKey⟩
  obtain ⟨answer, -, hvalues, hnext⟩ := hcollect (depth t + 1) (Nat.lt_succ_self _)
  refine ⟨answer, fun fuel hfuel => ?_, ?_⟩
  · obtain ⟨answer', hanswer, hvalues', hnext'⟩ := hcollect fuel hfuel
    rw [hanswer, ValueMap.eq_of_entries (hvalues'.trans hvalues.symm) (hnext'.trans hnext.symm)]
  · rw [← upTo_beyond_iff filter_sublist (nodup_fromKey hsorted startKey limit) limit,
      ← hvalues, ← hnext]
    exact ⟨fun h => ⟨h.values, h.nextKey⟩, fun h => ⟨h.1, h.2⟩⟩

/-! ## Runs -/

/-- `all` lists what the operations leave in the order of the keys under which it is stored. -/
structure Lists (hash : Bytes → Bytes) (opts : MPTOpts) (ops : List Op)
    (all : List (Bytes × Item)) : Prop where
  ordered : Increasing all
  mem : ∀ k x, (k, x) ∈ all ↔
    ∃ key v, entries ops key = some v ∧ bytesToNibbles k = keyNibbles hash opts key ∧ x = .bytes v

/-- The tree of a run over keys of one length holds what the operations leave. -/
theorem lists_entriesOf (hlen : ∀ m, (hash m).length = 32) {opts : MPTOpts} {ops : List Op}
    (hkeys : ∀ op ∈ ops, op.key.val.length = n)
    (hkey : opts.useKeyHashing = true → Set.InjOn hash {k | ∃ op ∈ ops, op.key.val = k}) :
    Lists hash opts ops (entriesOf (treeOf hash opts ops)) := by
  have hu := uniform_treeOf hlen opts hkeys
  have heven : nibbleLength opts n % 2 = 0 := by
    unfold nibbleLength
    split
    · rfl
    · exact Nat.mul_mod_right 2 n
  obtain ⟨hroot, hclean⟩ := uniform_steps hlen opts hkeys
  have hlookup {op : Op} (hop : op ∈ ops) :
      lookup (treeOf hash opts ops) (keyNibbles hash opts op.key) = entries ops op.key := by
    refine lookup_treeOf hroot hclean (keyNibbles_inj fun hhash => (hkey hhash).mono ?_)
    rintro k (rfl | hk)
    · exact ⟨op, hop, rfl⟩
    · exact hk
  refine ⟨increasing_entriesOf hu.keys heven, fun k x => (mem_entriesOf hu.keys heven).trans ?_⟩
  constructor
  · rintro ⟨v, rfl, hk⟩
    obtain ⟨op, hop, hsame, -⟩ := written_of_lookup_treeOf hroot hclean hk
    rw [hsame, hlookup hop] at hk
    exact ⟨_, v, hk, hsame, rfl⟩
  · rintro ⟨key, v, hentry, hsame, rfl⟩
    obtain ⟨op, hop, rfl, -⟩ := (entries_eq_some_iff ops key v).mp hentry
    refine ⟨v, rfl, ?_⟩
    rw [hsame, hlookup ((finalPuts_sublist ops).subset hop), hentry]

/-- After a run over keys of one length, whose steps prune alone if they prune, `getValueMap`
answers with the entries from the start key on up to the limit, and with the next key, exactly if
the walk gets to the first of these entries up to one beyond the limit and to no others. -/
theorem getValueMap_answers_iff (hlen : ∀ m, (hash m).length = 32) {opts : MPTOpts} {n : Nat}
    {ops : List Op} (hkeys : ∀ op ∈ ops, op.key.val.length = n)
    (halone : opts.useNodePruning = true → PrunesAlone hash opts ops)
    (hinj : Set.InjOn hash (occurring hash opts ops))
    (hkey : opts.useKeyHashing = true → Set.InjOn hash {k | ∃ op ∈ ops, op.key.val = k})
    (startKey : Int) (limit : Option Nat) :
    ∃ s all answer enough, run hash opts ops = .ok s ∧ Lists hash opts ops all ∧
      (∀ fuel, enough < fuel → getValueMap hash fuel s startKey limit = some answer) ∧
      (Answers all startKey limit answer ↔
        ((fromKey startKey limit all).filter fun e => walked hash s._db (treeOf hash opts ops) e.1) =
          upTo (limit.map (· + 1)) (fromKey startKey limit all)) := by
  obtain ⟨s, hrun, hgood, -⟩ := run_good_uniform hlen hkeys halone hinj
  have hu := uniform_treeOf hlen opts hkeys
  have heven : nibbleLength opts n % 2 = 0 := by
    unfold nibbleLength
    split
    · rfl
    · exact Nat.mul_mod_right 2 n
  obtain ⟨answer, hanswer, hiff⟩ := getValueMap_spec hlen hgood hu heven startKey limit
  exact ⟨s, _, answer, _, hrun, lists_entriesOf hlen hkeys hkey, hanswer, hiff⟩

/-- Two keys with the same value. -/
def shared : List Op := sharedThenDeleted.take 2

theorem getValueMap_answers_iff_shared :
    ∃ s all answer enough, run sharedLeafTable (unprunedOpts false) shared = .ok s ∧
      Lists sharedLeafTable (unprunedOpts false) shared all ∧
      (∀ fuel, enough < fuel → getValueMap sharedLeafTable fuel s 0x20 (some 1) = some answer) ∧
      (Answers all 0x20 (some 1) answer ↔
        ((fromKey 0x20 (some 1) all).filter fun e => walked sharedLeafTable s._db
          (treeOf sharedLeafTable (unprunedOpts false) shared) e.1) =
          upTo (some 2) (fromKey 0x20 (some 1) all)) :=
  getValueMap_answers_iff (n := 1) (length_tableHash _) (by decide) (fun h => absurd h (by decide))
    (injOn_of_collisionFree (by decide +kernel)) (fun h => absurd h (by decide)) 0x20 (some 1)

/-- The leaf under the second key is the one under the first, and is not visited again. -/
theorem getValueMap_skips_shared :
    Set.InjOn sharedLeafTable (occurring sharedLeafTable (unprunedOpts false) shared) ∧
      ∃ s answer, run sharedLeafTable (unprunedOpts false) shared = .ok s ∧
        getValueMap sharedLeafTable 10 s 0 none = some answer ∧
        ∀ all, Lists sharedLeafTable (unprunedOpts false) shared all → ¬ Answers all 0 none answer := by
  refine ⟨injOn_of_collisionFree (by decide +kernel), ?_⟩
  have hvalues : (run sharedLeafTable (unprunedOpts false) shared).map (fun s =>
      (getValueMap sharedLeafTable 10 s 0 none).map fun answer => answer.values.entries) =
      .ok (some [([0x11], .bytes sharedValue)]) := by decide +kernel
  cases hrun : run sharedLeafTable (unprunedOpts false) shared with
  | error e =>
    rw [hrun] at hvalues
    cases hvalues
  | ok s =>
    rw [hrun] at hvalues
    obtain ⟨answer, hanswer, hentries⟩ := Option.map_eq_some_iff.mp (Except.ok.inj hvalues)
    refine ⟨s, answer, rfl, hanswer, fun all hlists hanswers => ?_⟩
    have hmem : ([0x21], .bytes sharedValue) ∈ all :=
      (hlists.mem _ _).mpr ⟨[0x21], sharedValue, by decide, by decide, rfl⟩
    have hall : all = [([0x11], .bytes sharedValue)] := hanswers.values.symm.trans hentries
    rw [hall] at hmem
    exact absurd (congrArg Prod.fst (mem_singleton.mp hmem)) (by decide)

end MPT
