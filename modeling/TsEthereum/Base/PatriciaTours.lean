-- SUMMARY: Walks through a Patricia tree from left to right: its bindings in order, and what is left of them where subtrees are skipped.
import TsEthereum.Base.PatriciaShape
import Mathlib.Data.Finset.Lattice.Fold
import Mathlib.Data.Fintype.Basic
import Mathlib.Data.List.Lex
import Mathlib.Data.Set.Function

/-!
# Tours through a Patricia tree

The bindings are listed as a walk through the tree from left to right meets them.
They are what lookup finds, each once, in the order of the keys. A tour is such a
walk that knows subtrees by an identity: it goes into a child of a branch only
where that is shown, and into no subtree whose identity it has seen before.
-/

open List

namespace PatriciaTree

variable {r : Nat} {ν ρ : Type}

theorem append_lt_append_iff (p : List (Fin r)) {a b : List (Fin r)} : p ++ a < p ++ b ↔ a < b := by
  induction p with
  | nil => rfl
  | cons i p ih => simp [ih]

/-- A binding of a subtree, as one of the tree above it. -/
def under (p : List (Fin r)) (e : List (Fin r) × ν) : List (Fin r) × ν := (p ++ e.1, e.2)

def bindings : PatriciaTree r ν ρ → List (List (Fin r) × ν)
  | .empty | .stub _ => []
  | .leaf p v => [(p, v)]
  | .ext p c => (bindings c).map (under p)
  | .branch cs v =>
    v.toList.map (fun v => ([], v)) ++
      (List.finRange r).flatMap fun i => (bindings (cs i)).map (under [i])

theorem mem_map_under {p k : List (Fin r)} {v : ν} {l : List (List (Fin r) × ν)} :
    (k, v) ∈ l.map (under p) ↔ ∃ rest, k = p ++ rest ∧ (rest, v) ∈ l := by
  rw [mem_map]
  constructor
  · rintro ⟨⟨rest, w⟩, hmem, heq⟩
    cases heq
    exact ⟨rest, rfl, hmem⟩
  · rintro ⟨rest, rfl, hmem⟩
    exact ⟨_, hmem, rfl⟩

variable {t : PatriciaTree r ν ρ}

/-- The bindings are what lookup finds. -/
theorem mem_bindings {k : List (Fin r)} {v : ν} : (k, v) ∈ bindings t ↔ lookup t k = some v := by
  induction t generalizing k with
  | empty => simp [bindings]
  | stub ref => cases k <;> simp [bindings, lookup]
  | leaf p w =>
    simp only [bindings, mem_singleton, Prod.mk.injEq, lookup_leaf]
    constructor
    · rintro ⟨rfl, rfl⟩
      exact if_pos rfl
    · intro h
      split at h
      · next hk => exact ⟨hk.symm, (Option.some.inj h).symm⟩
      · cases h
  | ext p c ih =>
    simp only [bindings, mem_map_under, ih]
    constructor
    · rintro ⟨rest, rfl, h⟩
      rw [lookup_ext_append, h]
    · intro h
      obtain ⟨rest, rfl⟩ := prefix_of_lookup_ext h
      rw [lookup_ext_append] at h
      exact ⟨rest, rfl, h⟩
  | branch cs w ih =>
    simp only [bindings, mem_append, mem_flatMap, mem_finRange, true_and,
      mem_map_under, ih]
    cases k with
    | nil => cases w <;> simp [eq_comm]
    | cons i k => cases w <;> simp

theorem pairwise_map_under {l : List (List (Fin r) × ν)} (p : List (Fin r))
    (h : l.Pairwise fun a b => a.1 < b.1) : (l.map (under p)).Pairwise fun a b => a.1 < b.1 := by
  apply pairwise_map.mpr
  exact h.imp fun hlt => (append_lt_append_iff p).mpr hlt

/-- The bindings are in the order of their keys. -/
theorem pairwise_bindings (t : PatriciaTree r ν ρ) : t.bindings.Pairwise fun a b => a.1 < b.1 := by
  induction t with
  | empty | stub ref => exact .nil
  | leaf p v => exact pairwise_singleton _ _
  | ext p c ih => exact pairwise_map_under p ih
  | branch cs w ih =>
    refine pairwise_append.mpr ⟨?_, ?_, ?_⟩
    · cases w with
      | none => exact .nil
      | some v => exact pairwise_singleton _ _
    · apply List.pairwise_flatMap.mpr
      refine ⟨fun i _ => pairwise_map_under [i] (ih i), ?_⟩
      apply (pairwise_lt_finRange r).imp
      rintro i j hij ⟨a, v⟩ ha ⟨b, w⟩ hb
      obtain ⟨a, rfl, -⟩ := mem_map_under.mp ha
      obtain ⟨b, rfl, -⟩ := mem_map_under.mp hb
      exact cons_lt_cons_iff.mpr (.inl hij)
    · -- the key of the value of the branch is a prefix of every other
      rintro ⟨a, v⟩ ha ⟨b, w⟩ hb
      obtain ⟨_, -, heq⟩ := mem_map.mp ha
      obtain ⟨i, -, hb⟩ := mem_flatMap.mp hb
      obtain ⟨b, rfl, -⟩ := mem_map_under.mp hb
      cases heq
      exact nil_lt_cons i b

/-! ## Depth -/

def depth : PatriciaTree r ν ρ → Nat
  | .empty | .stub _ | .leaf _ _ => 0
  | .ext _ c => depth c + 1
  | .branch cs _ => (Finset.univ.sup fun i => depth (cs i)) + 1

theorem depth_child_lt (cs : Fin r → PatriciaTree r ν ρ) (v : Option ν) (i : Fin r) :
    (cs i).depth < (PatriciaTree.branch cs v).depth :=
  Nat.lt_succ_of_le (Finset.le_sup (f := fun i => depth (cs i)) (Finset.mem_univ i))

theorem Sub.depth_le {s : PatriciaTree r ν ρ} (h : Sub s t) : s.depth ≤ t.depth := by
  induction h with
  | refl => exact Nat.le_refl _
  | ext p _ ih => exact Nat.le_succ_of_le ih
  | branch v i _ ih => exact Nat.le_of_lt (Nat.lt_of_le_of_lt ih (depth_child_lt _ v i))

theorem NoValues.sub {s : PatriciaTree r ν ρ} (h : NoValues t) (hs : Sub s t) : NoValues s := by
  induction hs with
  | refl => exact h
  | ext p _ ih => exact ih h
  | branch v i _ ih => exact ih (h.2 i)

/-! ## Tours -/

/-- The tree has a node at its root. -/
def Solid (t : PatriciaTree r ν ρ) : Prop := t ≠ .empty ∧ ∀ ref, t ≠ .stub ref

section

variable {β : Type} [DecidableEq β] (ident : PatriciaTree r ν ρ → β)
  (shown : PatriciaTree r ν ρ → Bool)

omit [DecidableEq β] in
/-- The identities of what there is to meet in a tree. -/
def met : PatriciaTree r ν ρ → List β
  | .empty | .stub _ => []
  | .leaf p v => [ident (.leaf p v)]
  | .ext p c => ident (.ext p c) :: met c
  | .branch cs v =>
    ident (.branch cs v) ::
      (List.finRange r).flatMap fun i => if shown (cs i) then met (cs i) else []

/-- The identities of what there is to meet in some of the children of a branch. -/
def metIn (cs : Fin r → PatriciaTree r ν ρ) (is : List (Fin r)) : List β :=
  is.flatMap fun i => if shown (cs i) then met ident shown (cs i) else []

/-- A tour that has seen the identities `seen` before gets to where the key leads. -/
def reached : PatriciaTree r ν ρ → List β → List (Fin r) → Bool
  | .empty, _, _ | .stub _, _, _ => false
  | .leaf p v, seen, _ => ident (.leaf p v) ∉ seen
  | .ext p c, seen, k =>
    ident (.ext p c) ∉ seen && reached c (ident (.ext p c) :: seen) (k.drop p.length)
  | .branch cs v, seen, [] => ident (.branch cs v) ∉ seen
  | .branch cs v, seen, i :: k =>
    ident (.branch cs v) ∉ seen && shown (cs i) &&
      -- everything to the left has been met
      reached (cs i) (ident (.branch cs v) ::
        (metIn ident shown cs ((List.finRange r).filter (· < i)) ++ seen)) k

/-- Subtrees of `t` with the same identity are the same. -/
def Distinct (t : PatriciaTree r ν ρ) : Prop := Set.InjOn ident {s | Sub s t ∧ s.Solid}

/-- Whatever of `t` has been seen has been met as a whole. -/
def Closed (seen : List β) (t : PatriciaTree r ν ρ) : Prop :=
  ∀ s, Sub s t → s.Solid → ident s ∈ seen → met ident shown s ⊆ seen

variable {ident shown}

variable {t : PatriciaTree r ν ρ}

omit [DecidableEq β] in
theorem Distinct.sub {s : PatriciaTree r ν ρ} (h : Distinct ident t) (hs : Sub s t) :
    Distinct ident s :=
  fun _ hx _ hy heq => h ⟨hx.1.trans hs, hx.2⟩ ⟨hy.1.trans hs, hy.2⟩ heq

variable {seen : List β}

omit [DecidableEq β] in
theorem Closed.sub {s : PatriciaTree r ν ρ} (h : Closed ident shown seen t) (hs : Sub s t) :
    Closed ident shown seen s :=
  fun x hx => h x (hx.trans hs)

omit [DecidableEq β] in
theorem mem_metIn {cs : Fin r → PatriciaTree r ν ρ} {is : List (Fin r)} {b : β} :
    b ∈ metIn ident shown cs is ↔ ∃ i ∈ is, shown (cs i) = true ∧ b ∈ met ident shown (cs i) := by
  apply mem_flatMap.trans
  refine exists_congr fun i => and_congr_right fun _ => ?_
  cases shown (cs i) <;> simp

omit [DecidableEq β] in
/-- What is met is a subtree, and all of that is met. -/
theorem exists_of_mem_met {b : β} (h : b ∈ met ident shown t) :
    ∃ s, Sub s t ∧ s.Solid ∧ ident s = b ∧ met ident shown s ⊆ met ident shown t := by
  induction t with
  | empty | stub ref => cases h
  | leaf p v =>
    refine ⟨_, .refl _, ⟨nofun, nofun⟩, (mem_singleton.mp h).symm, List.Subset.refl _⟩
  | ext p c ih =>
    rcases mem_cons.mp h with rfl | h
    · exact ⟨_, .refl _, ⟨nofun, nofun⟩, rfl, List.Subset.refl _⟩
    · obtain ⟨s, hs, hsolid, hb, hmet⟩ := ih h
      exact ⟨s, .ext p hs, hsolid, hb, List.Subset.trans hmet (subset_cons_self _ _)⟩
  | branch cs v ih =>
    rcases mem_cons.mp h with rfl | h
    · exact ⟨_, .refl _, ⟨nofun, nofun⟩, rfl, List.Subset.refl _⟩
    · obtain ⟨i, hi, hshown, h⟩ := mem_metIn.mp h
      obtain ⟨s, hs, hsolid, hb, hmet⟩ := ih i h
      refine ⟨s, .branch v i hs, hsolid, hb, fun x hx => mem_cons_of_mem _ ?_⟩
      exact mem_metIn.mpr ⟨i, hi, hshown, hmet hx⟩

omit [DecidableEq β] in
/-- What has been met to the left is closed for every child. -/
theorem closed_metIn {cs : Fin r → PatriciaTree r ν ρ} {v : Option ν}
    (h : Distinct ident (.branch cs v)) (is : List (Fin r)) (j : Fin r) :
    Closed ident shown (metIn ident shown cs is) (cs j) := by
  intro s hs hsolid hseen x hx
  obtain ⟨i, hi, hshown, hmet⟩ := mem_metIn.mp hseen
  obtain ⟨s', hs', hsolid', hsame, hsub⟩ := exists_of_mem_met hmet
  -- the subtree that was met is the one at hand
  obtain rfl : s' = s := h ⟨.branch v i hs', hsolid'⟩ ⟨.branch v j hs, hsolid⟩ hsame
  exact mem_metIn.mpr ⟨i, hi, hshown, hsub hx⟩

omit [DecidableEq β] in
theorem Closed.append {t : PatriciaTree r ν ρ} {seen seen' : List β}
    (h : Closed ident shown seen t) (h' : Closed ident shown seen' t) :
    Closed ident shown (seen ++ seen') t := by
  intro s hs hsolid hseen
  rcases mem_append.mp hseen with hseen | hseen
  · exact List.Subset.trans (h s hs hsolid hseen) (subset_append_left _ _)
  · exact List.Subset.trans (h' s hs hsolid hseen) (subset_append_right _ _)

omit [DecidableEq β] in
/-- A tree that is just being met is no subtree of itself. -/
theorem Closed.cons {s t : PatriciaTree r ν ρ} {seen : List β} (h : Closed ident shown seen s)
    (ht : t.Solid) (hdistinct : Distinct ident t) (hs : Sub s t) (hdepth : s.depth < t.depth) :
    Closed ident shown (ident t :: seen) s := by
  intro x hx hsolid hseen
  rcases mem_cons.mp hseen with hsame | hseen
  · obtain rfl : x = t := hdistinct ⟨hx.trans hs, hsolid⟩ ⟨.refl t, ht⟩ hsame
    exact absurd (hx.depth_le) (Nat.not_le_of_lt hdepth)
  · exact List.Subset.trans (h x hx hsolid hseen) (subset_cons_self _ _)

omit [DecidableEq β] in
theorem Closed.congr {seen' : List β} (h : Closed ident shown seen t)
    (hsame : ∀ b, b ∈ seen' ↔ b ∈ seen) : Closed ident shown seen' t :=
  fun s hs hsolid hseen b hb => (hsame b).mpr (h s hs hsolid ((hsame _).mp hseen) hb)

/-- Nothing is reached in a tree that has been seen. -/
theorem reached_of_seen (h : ident t ∈ seen) (k : List (Fin r)) :
    reached ident shown t seen k = false := by
  cases t with
  | empty | stub ref => rfl
  | leaf p v | ext p c => simp [reached, h]
  | branch cs v => cases k <;> simp [reached, h]

/-- Only which identities have been seen matters. -/
theorem reached_congr {seen' : List β} (h : ∀ b, b ∈ seen ↔ b ∈ seen') (k : List (Fin r)) :
    reached ident shown t seen k = reached ident shown t seen' k := by
  induction t generalizing seen seen' k with
  | empty | stub ref => rfl
  | leaf p v => simp only [reached, h]
  | ext p c ih =>
    have hcons (b : β) : b ∈ ident (.ext p c) :: seen ↔ b ∈ ident (.ext p c) :: seen' := by
      simp only [mem_cons, h]
    simp only [reached, h, ih hcons]
  | branch cs v ih =>
    cases k with
    | nil => simp only [reached, h]
    | cons i k =>
      have hcons (left : List β) (b : β) : b ∈ ident (.branch cs v) :: (left ++ seen) ↔
          b ∈ ident (.branch cs v) :: (left ++ seen') := by
        simp only [mem_cons, mem_append, h]
      simp only [reached, h, ih i (hcons _)]

end

end PatriciaTree
