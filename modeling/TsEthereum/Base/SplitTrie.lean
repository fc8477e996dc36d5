-- SUMMARY: Binary tries that split where keys differ: contexts, replacing at a key, subtrees with their paths, and that the leaves determine the trie.
import Mathlib.Data.List.Induction
import Mathlib.Data.List.Nodup
import Mathlib.Data.List.Perm.Basic

/-!
# Splitting tries

A leaf stands right below the bits that it shares with another leaf, and every node
has two leaves under it. A trie is changed at the end of the walk along a key, in the
context of the nodes on that walk.
-/

open List

inductive SplitTrie (α : Type) where
  | empty
  | leaf (a : α)
  | node (left right : SplitTrie α)

namespace SplitTrie

variable {α : Type}

def leaves : SplitTrie α → List α
  | .empty => []
  | .leaf a => [a]
  | .node left right => leaves left ++ leaves right

/-- The node with `t` on the side of the bit, and `s` on the other side. -/
def branch : Bool → SplitTrie α → SplitTrie α → SplitTrie α
  | false, t, s => .node t s
  | true, t, s => .node s t

def child : Bool → SplitTrie α → SplitTrie α → SplitTrie α
  | false, left, _ => left
  | true, _, right => right

@[simp] theorem branch_child (b : Bool) (left right : SplitTrie α) :
    branch b (child b left right) (child (!b) left right) = .node left right := by
  cases b <;> rfl

theorem leaves_branch (b : Bool) (t s : SplitTrie α) :
    (branch b t s).leaves.Perm (t.leaves ++ s.leaves) := by
  cases b with
  | false => exact .refl _
  | true => exact perm_append_comm

/-! ## Contexts -/

/-- The nodes over a subtrie, the innermost first: the side of the subtrie, and the other side. -/
abbrev Context (α : Type) := List (Bool × SplitTrie α)

namespace Context

/-- The bits that lead to the subtrie. -/
def bits (c : Context α) : List Bool := (c.map Prod.fst).reverse

def leaves (c : Context α) : List α := c.flatMap fun side => side.2.leaves

/-- A chain of nodes with one child each. -/
def chain (l : List Bool) : Context α := (l.map fun b => (b, .empty)).reverse

@[simp] theorem bits_nil : bits ([] : Context α) = [] := rfl

@[simp] theorem bits_cons (b : Bool) (s : SplitTrie α) (c : Context α) :
    bits ((b, s) :: c) = bits c ++ [b] := by
  simp [bits]

@[simp] theorem bits_append (c c' : Context α) : bits (c ++ c') = bits c' ++ bits c := by
  simp [bits]

@[simp] theorem length_bits (c : Context α) : (bits c).length = c.length := by
  simp [bits]

@[simp] theorem bits_chain (l : List Bool) : bits (chain l : Context α) = l := by
  simp [bits, chain, Function.comp_def]

@[simp] theorem leaves_chain (l : List Bool) : leaves (chain l : Context α) = [] := by
  simp [leaves, chain, SplitTrie.leaves]

theorem leaves_append (c c' : Context α) : leaves (c ++ c') = leaves c ++ leaves c' := by
  simp [leaves]

theorem chain_snoc (l : List Bool) (b : Bool) :
    (chain (l ++ [b]) : Context α) = (b, .empty) :: chain l := by
  simp [chain]

end Context

def plug : SplitTrie α → Context α → SplitTrie α
  | t, [] => t
  | t, (b, s) :: c => plug (branch b t s) c

@[simp] theorem plug_append (t : SplitTrie α) (c c' : Context α) :
    plug t (c ++ c') = plug (plug t c) c' := by
  induction c generalizing t with
  | nil => rfl
  | cons side c ih => exact ih _

theorem leaves_plug (t : SplitTrie α) (c : Context α) :
    (plug t c).leaves.Perm (t.leaves ++ c.leaves) := by
  induction c generalizing t with
  | nil => simp [plug, Context.leaves]
  | cons side c ih =>
    refine (ih _).trans ?_
    have hbranch := (leaves_branch side.1 t side.2).append_right (Context.leaves c)
    simpa [Context.leaves] using hbranch

/-- The walk along the bits of a key: where it ends, in its context. -/
def descend : List Bool → SplitTrie α → Context α → Context α × SplitTrie α
  | b :: bits, .node left right, c =>
    descend bits (child b left right) ((b, child (!b) left right) :: c)
  | _, t, c => (c, t)

theorem plug_descend (bits : List Bool) (t : SplitTrie α) (c : Context α) :
    plug (descend bits t c).2 (descend bits t c).1 = plug t c := by
  induction bits generalizing t c with
  | nil => cases t <;> rfl
  | cons b bits ih =>
    cases t with
    | empty => rfl
    | leaf a => rfl
    | node left right => simp [descend, ih, plug]

theorem bits_descend (bits : List Bool) (t : SplitTrie α) (c : Context α) :
    (descend bits t c).1.bits <+: c.bits ++ bits := by
  induction bits generalizing t c with
  | nil => cases t <;> simp [descend]
  | cons b bits ih =>
    cases t with
    | empty => exact prefix_append _ _
    | leaf a => exact prefix_append _ _
    | node left right => simpa [descend] using ih (child b left right) ((b, _) :: c)

/-! ## Well-formed tries -/

variable (bits : α → List Bool) (n : Nat)

/-- The keys of the leaves have `n` bits and lead to them, and every node is over two leaves. -/
def Fits : List Bool → SplitTrie α → Prop
  | _, .empty => True
  | p, .leaf a => p <+: bits a ∧ (bits a).length = n
  | p, .node left right =>
    Fits (p ++ [false]) left ∧ Fits (p ++ [true]) right ∧
      2 ≤ left.leaves.length + right.leaves.length

namespace Context

/-- What the context asks for, of a subtrie with `k` leaves. -/
def Fits : Context α → Nat → Prop
  | [], _ => True
  | (b, s) :: c, k =>
    s.Fits bits n (Context.bits c ++ [!b]) ∧ 2 ≤ k + s.leaves.length ∧ Fits c (k + s.leaves.length)

end Context

variable {bits n}

variable {p : List Bool} {b : Bool} {t : SplitTrie α}

theorem fits_branch {s : SplitTrie α} : (branch b t s).Fits bits n p ↔
      t.Fits bits n (p ++ [b]) ∧ s.Fits bits n (p ++ [!b]) ∧ 2 ≤ t.leaves.length + s.leaves.length := by
  cases b with
  | false => exact Iff.rfl
  | true =>
    simp only [branch, Fits, Bool.not_true, Nat.add_comm t.leaves.length]
    exact and_left_comm

variable {c : Context α}

theorem fits_plug :
    (plug t c).Fits bits n [] ↔ t.Fits bits n c.bits ∧ c.Fits bits n t.leaves.length := by
  induction c generalizing t with
  | nil => simp [plug, Context.Fits]
  | cons side c ih =>
    obtain ⟨b, s⟩ := side
    have hlen : (branch b t s).leaves.length = t.leaves.length + s.leaves.length := by
      rw [(leaves_branch b t s).length_eq, length_append]
    simp only [plug, ih, fits_branch, Context.Fits, Context.bits_cons, hlen]
    tauto

variable {k : Nat}

theorem Context.Fits.mono {j : Nat} (h : c.Fits bits n j) (hjk : j ≤ k) : c.Fits bits n k := by
  induction c generalizing j k with
  | nil => trivial
  | cons side c ih =>
    obtain ⟨hs, htwo, hc⟩ := h
    exact ⟨hs, Nat.le_trans htwo (Nat.add_le_add_right hjk _), ih hc (Nat.add_le_add_right hjk _)⟩

variable {a : α}

theorem Fits.leaf_begins (h : t.Fits bits n p) (ha : a ∈ t.leaves) :
    p <+: bits a ∧ (bits a).length = n := by
  induction t generalizing p with
  | empty => cases ha
  | leaf a' => exact mem_singleton.mp ha ▸ h
  | node left right ihl ihr =>
    rcases mem_append.mp ha with ha | ha
    · exact (ihl h.1 ha).imp_left (prefix_append p [false]).trans
    · exact (ihr h.2.1 ha).imp_left (prefix_append p [true]).trans

variable {left right : SplitTrie α}

/-- A node stands above the end of its keys. -/
theorem Fits.length_lt (h : (SplitTrie.node left right).Fits bits n p) : p.length < n := by
  have hside : ∀ (b : Bool) (s : SplitTrie α), s.Fits bits n (p ++ [b]) → 1 ≤ s.leaves.length → p.length < n := by
    intro b s hs hpos
    obtain ⟨a, ha⟩ := exists_mem_of_length_pos hpos
    obtain ⟨hpre, hlen⟩ := hs.leaf_begins ha
    have hle := hpre.length_le
    rw [length_append, length_singleton, hlen] at hle
    exact hle
  obtain ⟨hl, hr, htwo⟩ := h
  rcases Nat.eq_zero_or_pos left.leaves.length with hzero | hpos
  · exact hside true right hr (by omega)
  · exact hside false left hl hpos

/-- No leaf beside the walk has a key that the walk follows. -/
theorem Context.Fits.not_prefix (h : c.Fits bits n k) (ha : a ∈ c.leaves) :
    ¬ c.bits <+: bits a := by
  induction c generalizing k with
  | nil => cases ha
  | cons side c ih =>
    obtain ⟨b, s⟩ := side
    intro hpre
    rw [Context.bits_cons] at hpre
    rcases mem_append.mp ha with ha | ha
    · -- The sibling's leaves take the other bit.
      have hother := (h.1.leaf_begins ha).1
      have heq := prefix_of_prefix_length_le hpre hother (by simp)
      have hbit := append_cancel_left (heq.eq_of_length (by simp))
      simp at hbit
    · exact ih h.2.2 ha ((prefix_append _ _).trans hpre)

/-- The walk along a key of full length ends outside of nodes. -/
theorem descend_not_node {key : List Bool} (h : (plug t c).Fits bits n [])
    (hlen : c.length + key.length = n) : (descend key t c).2 ≠ .node left right := by
  induction key generalizing t c with
  | nil =>
    intro heq
    have ht : t = .node left right := by
      cases t <;> exact heq
    have hlt := Fits.length_lt (ht ▸ (fits_plug.mp h).1)
    rw [Context.length_bits] at hlt
    exact absurd hlen (Nat.ne_of_lt hlt)
  | cons b key ih =>
    cases t with
    | empty => exact nofun
    | leaf a => exact nofun
    | node l r =>
      refine ih (t := child b l r) ?_ (by simpa [Nat.add_assoc, Nat.add_comm 1] using hlen)
      simpa [plug] using h

/-! ## Changing a trie -/

theorem Fits.replace {f w : SplitTrie α} (h : (plug f c).Fits bits n []) (hw : w.Fits bits n c.bits)
    (hle : f.leaves.length ≤ w.leaves.length) : (plug w c).Fits bits n [] :=
  fits_plug.mpr ⟨hw, (fits_plug.mp h).2.mono hle⟩

theorem Context.Fits.chain (h : c.Fits bits n k) (htwo : 2 ≤ k) (l : List Bool) :
    (Context.chain l ++ c).Fits bits n k := by
  induction l using List.reverseRecOn with
  | nil => exact h
  | append_singleton l b ih =>
    rw [Context.chain_snoc]
    exact ⟨trivial, htwo, ih⟩

/-- A leaf makes room for another one where their keys part. -/
theorem Fits.split {a' : α} {l : List Bool} (h : (plug (.leaf a') c).Fits bits n [])
    (ha : c.bits ++ l ++ [b] <+: bits a) (ha' : c.bits ++ l ++ [!b] <+: bits a')
    (hlen : (bits a).length = n) :
    (plug (branch b (.leaf a) (.leaf a')) (Context.chain l ++ c)).Fits bits n [] := by
  obtain ⟨hleaf, hc⟩ := fits_plug.mp h
  apply fits_plug.mpr
  constructor
  · apply fits_branch.mpr
    rw [Context.bits_append, Context.bits_chain]
    exact ⟨⟨ha, hlen⟩, ⟨ha', hleaf.2⟩, Nat.le_refl 2⟩
  · have htwo : (branch b (.leaf a) (.leaf a')).leaves.length = 2 :=
      (leaves_branch b _ _).length_eq
    rw [htwo]
    exact (hc.mono (Nat.le_succ 1)).chain (Nat.le_refl 2) l

/-! ## Subtries with their paths -/

/-- The subtries that are not empty. -/
def subtries : List Bool → SplitTrie α → List (List Bool × SplitTrie α)
  | _, .empty => []
  | p, .leaf a => [(p, .leaf a)]
  | p, .node left right =>
    (p, .node left right) :: (subtries (p ++ [false]) left ++ subtries (p ++ [true]) right)

/-- The nodes over a subtrie of a context that stands at `p`, the innermost first. -/
def upward (p : List Bool) : Context α → SplitTrie α → List (List Bool × SplitTrie α)
  | [], _ => []
  | (b, s) :: c, t => (p ++ Context.bits c, branch b t s) :: upward p c (branch b t s)

def Context.subtries : Context α → List (List Bool × SplitTrie α)
  | [] => []
  | (b, s) :: c => s.subtries (Context.bits c ++ [!b]) ++ Context.subtries c

variable {x : List Bool × SplitTrie α}

theorem mem_subtries_branch {s : SplitTrie α} : x ∈ (branch b t s).subtries p ↔
      x = (p, branch b t s) ∨ x ∈ t.subtries (p ++ [b]) ∨ x ∈ s.subtries (p ++ [!b]) := by
  cases b with
  | false => simp [branch, subtries]
  | true =>
    simp only [branch, subtries, mem_cons, mem_append, Bool.not_true]
    rw [or_comm (a := x ∈ s.subtries (p ++ [false]))]

theorem upward_append (p : List Bool) (c c' : Context α) (t : SplitTrie α) :
    upward p (c ++ c') t = upward (p ++ c'.bits) c t ++ upward p c' (plug t c) := by
  induction c generalizing t with
  | nil => rfl
  | cons side c ih => simp [upward, plug, ih]

/-- The subtries of a trie in a context: those of the subtrie, the nodes over it, and those at
their other sides. -/
theorem mem_subtries_plug : x ∈ (plug t c).subtries [] ↔
      x ∈ t.subtries c.bits ∨ x ∈ upward [] c t ∨ x ∈ c.subtries := by
  induction c generalizing t with
  | nil => simp [plug, upward, Context.subtries]
  | cons side c ih =>
    obtain ⟨b, s⟩ := side
    simp only [plug, ih, mem_subtries_branch, upward, Context.subtries, Context.bits_cons,
      mem_cons, mem_append, nil_append]
    tauto

theorem Context.subtries_append (c c' : Context α) (h : ∀ side ∈ c, side.2 = .empty) :
    Context.subtries (c ++ c') = Context.subtries c' := by
  induction c with
  | nil => rfl
  | cons side c ih =>
    obtain ⟨b, s⟩ := side
    obtain rfl : s = .empty := h _ mem_cons_self
    simpa [Context.subtries, SplitTrie.subtries] using
      ih fun side hside => h side (mem_cons_of_mem _ hside)

theorem Context.subtries_chain (l : List Bool) (c : Context α) :
    Context.subtries (Context.chain l ++ c) = Context.subtries c := by
  apply Context.subtries_append
  intro side hside
  obtain ⟨b, _, rfl⟩ := mem_map.mp (mem_reverse.mp hside)
  rfl

theorem Fits.of_mem_subtries (h : t.Fits bits n p) (hx : x ∈ t.subtries p) :
    x.2.Fits bits n x.1 ∧ x.2 ≠ .empty ∧ x.2.leaves ⊆ t.leaves := by
  induction t generalizing p with
  | empty => cases hx
  | leaf a =>
    rw [mem_singleton.mp hx]
    exact ⟨h, nofun, List.Subset.refl _⟩
  | node left right ihl ihr =>
    rcases mem_cons.mp hx with rfl | hx
    · exact ⟨h, nofun, List.Subset.refl _⟩
    rcases mem_append.mp hx with hx | hx
    · obtain ⟨hfits, hne, hsub⟩ := ihl h.1 hx
      exact ⟨hfits, hne, List.Subset.trans hsub (subset_append_left _ _)⟩
    · obtain ⟨hfits, hne, hsub⟩ := ihr h.2.1 hx
      exact ⟨hfits, hne, List.Subset.trans hsub (subset_append_right _ _)⟩

/-! ## The leaves determine the trie -/

/-- Where a node has leaves on both sides, no longer path leads to it. -/
theorem Fits.length_le {p' : List Bool} (hl : left.Fits bits n (p ++ [false]))
    (hr : right.Fits bits n (p ++ [true])) (hl' : left.Fits bits n (p' ++ [false]))
    (hr' : right.Fits bits n (p' ++ [true])) {a' : α} (ha : a ∈ left.leaves)
    (ha' : a' ∈ right.leaves) : p'.length ≤ p.length := by
  apply Nat.le_of_not_lt
  intro hlt
  have hlen : ∀ b : Bool, (p ++ [b]).length ≤ p'.length := by
    intro b
    rw [length_append]
    exact hlt
  -- Both sides would lie under `p'`, with different bits after `p`.
  have h1 := prefix_of_prefix_length_le (hl.leaf_begins ha).1
    ((prefix_append p' [false]).trans (hl'.leaf_begins ha).1) (hlen false)
  have h2 := prefix_of_prefix_length_le (hr.leaf_begins ha').1
    ((prefix_append p' [true]).trans (hr'.leaf_begins ha').1) (hlen true)
  have hbit := (prefix_of_prefix_length_le h1 h2 (by simp)).eq_of_length (by simp)
  simp at hbit

/-- A trie with two leaves stands at one path only. -/
theorem Fits.path_unique {p' : List Bool} (h : t.Fits bits n p) (h' : t.Fits bits n p')
    (htwo : 2 ≤ t.leaves.length) : p = p' := by
  induction t generalizing p p' with
  | empty => cases htwo
  | leaf a => exact absurd htwo (by simp [leaves])
  | node left right ihl ihr =>
    obtain ⟨hl, hr, -⟩ := h
    obtain ⟨hl', hr', -⟩ := h'
    have hsum : 2 ≤ left.leaves.length + right.leaves.length := by
      simpa [leaves] using htwo
    rcases Nat.lt_or_ge left.leaves.length 2 with hleft | hleft
    · rcases Nat.lt_or_ge right.leaves.length 2 with hright | hright
      · obtain ⟨a, ha⟩ := exists_mem_of_length_pos (l := left.leaves) (by omega)
        obtain ⟨a', ha'⟩ := exists_mem_of_length_pos (l := right.leaves) (by omega)
        have hlen := Nat.le_antisymm (hl'.length_le hr' hl hr ha ha') (hl.length_le hr hl' hr' ha ha')
        exact (prefix_of_prefix_length_le
          ((prefix_append p [false]).trans (hl.leaf_begins ha).1)
          ((prefix_append p' [false]).trans (hl'.leaf_begins ha).1)
          (Nat.le_of_eq hlen)).eq_of_length hlen
      · exact append_inj_left' (ihr hr hr' hright) rfl
    · exact append_inj_left' (ihl hl hl' hleft) rfl

/-- The trie of a list of leaves with `rest` bits from the bit `d` on: one leaf stands by itself,
and several part at the bit. -/
def ofLeaves (bits : α → List Bool) : (rest d : Nat) → List α → SplitTrie α
  | _, _, [] => .empty
  | _, _, [a] => .leaf a
  | 0, _, _ :: _ :: _ => .empty
  | rest + 1, d, a :: a' :: l =>
    .node (ofLeaves bits rest (d + 1) ((a :: a' :: l).filter fun x => (bits x)[d]? = some false))
      (ofLeaves bits rest (d + 1) ((a :: a' :: l).filter fun x => (bits x)[d]? = some true))

theorem ofLeaves_node {rest d : Nat} {l : List α} (h : 2 ≤ l.length) :
    ofLeaves bits (rest + 1) d l =
      .node (ofLeaves bits rest (d + 1) (l.filter fun x => (bits x)[d]? = some false))
        (ofLeaves bits rest (d + 1) (l.filter fun x => (bits x)[d]? = some true)) := by
  match l, h with
  | a :: a' :: l, _ => rfl

theorem Fits.getElem?_bits (h : t.Fits bits n (p ++ [b])) (ha : a ∈ t.leaves) :
    (bits a)[p.length]? = some b := by
  obtain ⟨l, hl⟩ := (h.leaf_begins ha).1
  rw [← hl]
  simp

/-- A well-formed trie is the trie of its leaves, in any order. -/
theorem Fits.eq_ofLeaves (h : t.Fits bits n p) (rest : Nat) (hrest : p.length + rest = n)
    {l : List α} (hl : l.Perm t.leaves) : ofLeaves bits rest p.length l = t := by
  induction t generalizing p rest l with
  | empty =>
    rw [List.perm_nil.mp hl]
    cases rest <;> rfl
  | leaf a =>
    rw [List.perm_singleton.mp hl]
    cases rest <;> rfl
  | node left right ihl ihr =>
    have hlt := h.length_lt
    obtain ⟨rest, rfl⟩ : ∃ rest', rest = rest' + 1 :=
      Nat.exists_eq_succ_of_ne_zero (by omega)
    obtain ⟨hleft, hright, htwo⟩ := h
    rw [ofLeaves_node (by rw [hl.length_eq]; simpa [leaves] using htwo)]
    have hside : ∀ b, (l.filter fun x => (bits x)[p.length]? = some b).Perm
        (child b left right).leaves := by
      intro b
      refine (hl.filter _).trans ?_
      rw [leaves, filter_append]
      have hall : ∀ (b' : Bool) (s : SplitTrie α), s.Fits bits n (p ++ [b']) →
          s.leaves.filter (fun x => (bits x)[p.length]? = some b) =
            if b' = b then s.leaves else [] := by
        intro b' s hs
        split
        · next heq =>
          exact List.filter_eq_self.mpr fun a ha => decide_eq_true (heq ▸ hs.getElem?_bits ha)
        · next hne =>
          refine filter_eq_nil_iff.mpr fun a ha => ?_
          rw [hs.getElem?_bits ha]
          simpa using hne
      rw [hall false left hleft, hall true right hright]
      cases b <;> simp [child]
    have hlen : ∀ b : Bool, (p ++ [b]).length = p.length + 1 := fun b => by simp
    have hl' := ihl hleft rest (by simp; omega) (hside false)
    have hr' := ihr hright rest (by simp; omega) (hside true)
    rw [hlen] at hl' hr'
    rw [hl', hr']

end SplitTrie
