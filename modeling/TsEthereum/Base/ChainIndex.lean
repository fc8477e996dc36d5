-- SUMMARY: Indexes that number the nodes on one way down a tree.
import Mathlib.Logic.Function.Basic

/-!
# Chain indexes

A tree is given by who is whose parent, with a number for each node that is one
more than its parent's. An index of one of its chains has at every number the
node of the chain, from the root up to the top, and nothing above.
-/

/-- `link k x p`: the node `x` at `k + 1` has the parent `p`. -/
structure ChainIndex {κ : Type} (link : Nat → κ → κ → Prop) (root : κ) (index : Nat → Option κ)
    (n : Nat) (top : κ) : Prop where
  root : index 0 = some root
  linked : ∀ k < n, ∃ x p, index (k + 1) = some x ∧ index k = some p ∧ link k x p
  top : index n = some top
  above : ∀ k, n < k → index k = none

namespace ChainIndex

variable {κ : Type} {link : Nat → κ → κ → Prop} {root top : κ} {index index' : Nat → Option κ}
  {n : Nat}

variable (h : ChainIndex link root index n top)
include h

theorem congr (heq : ∀ k, index' k = index k) : ChainIndex link root index' n top := by
  have hsame : index' = index := funext heq
  rwa [hsame]

theorem exists_of_le {k : Nat} (hk : k ≤ n) : ∃ x, index k = some x := by
  rcases Nat.lt_or_eq_of_le hk with hlt | rfl
  · obtain ⟨-, p, -, hp, -⟩ := h.linked k hlt
    exact ⟨p, hp⟩
  · exact ⟨top, h.top⟩

theorem le_of_some {k : Nat} {x : κ} (hx : index k = some x) : k ≤ n := by
  refine Nat.le_of_not_lt (fun hlt => ?_)
  rw [h.above k hlt] at hx
  cases hx

/-- The index is defined exactly from the root to the top. -/
theorem isSome_iff (k : Nat) : (index k).isSome ↔ k ≤ n := by
  rw [Option.isSome_iff_exists]
  exact ⟨fun ⟨_, hx⟩ => h.le_of_some hx, h.exists_of_le⟩

theorem link_of_succ {k : Nat} {x : κ}
    (hx : index (k + 1) = some x) : ∃ p, index k = some p ∧ link k x p := by
  obtain ⟨y, p, hy, hp, hlink⟩ := h.linked k (h.le_of_some hx)
  obtain rfl := Option.some.inj (hx.symm.trans hy)
  exact ⟨p, hp, hlink⟩

/-- What is left of a chain up to one of its nodes. -/
theorem truncate {m : Nat} {x : κ} (hx : index m = some x) :
    ChainIndex link root (fun k => if k ≤ m then index k else none) m x where
  root := by simp [h.root]
  linked := by
    intro k hk
    obtain ⟨y, p, hy, hp, hlink⟩ := h.linked k (Nat.lt_of_lt_of_le hk (h.le_of_some hx))
    refine ⟨y, p, ?_, ?_, hlink⟩
    · rw [if_pos (Nat.succ_le_of_lt hk), hy]
    · rw [if_pos (Nat.le_of_lt hk), hp]
  top := by rw [if_pos (Nat.le_refl m), hx]
  above := fun k hk => if_neg (Nat.not_le_of_lt hk)

/-- A chain grows by a child of its top. -/
theorem extend {x : κ} (hlink : link n x top) :
    ChainIndex link root (fun k => if k = n + 1 then some x else index k) (n + 1) x where
  root := h.root
  linked := by
    intro k hk
    rcases Nat.lt_or_eq_of_le (Nat.le_of_lt_succ hk) with hlt | rfl
    · obtain ⟨y, p, hy, hp, hlink⟩ := h.linked k hlt
      refine ⟨y, p, ?_, ?_, hlink⟩
      · rw [if_neg (by omega), hy]
      · rw [if_neg (by omega), hp]
    · refine ⟨x, top, if_pos rfl, ?_, hlink⟩
      rw [if_neg (by omega), h.top]
  top := if_pos rfl
  above := by
    intro k hk
    rw [if_neg (by omega), h.above k (by omega)]

end ChainIndex
