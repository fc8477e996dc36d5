-- SUMMARY: Filters that mark the positions of what is added, and what passes them.
import Mathlib.Data.Set.Insert
import Mathlib.Logic.Function.Basic

/-!
# Bloom filters

A filter is a set of marks. An element marks its positions when it is added, one
filter is merged into another by taking its marks over, and an element passes a
filter that has all its positions. Named filters start with any marks; what was
added to one of them, or came into it with another, passes it.
-/

namespace BloomFilters

variable {ι α ν : Type} (positions : α → Set ι)

inductive Op (ν α : Type) where
  | add (i : ν) (e : α)
  | or (i j : ν)

variable [DecidableEq ν]

/-- What has been added, or came with another filter. -/
def contentsStep (contents : ν → Set α) : Op ν α → ν → Set α
  | .add i e => Function.update contents i (insert e (contents i))
  | .or i j => Function.update contents i (contents i ∪ contents j)

def contents (ops : List (Op ν α)) : ν → Set α := ops.foldl contentsStep fun _ => ∅

def marksStep (marks : ν → Set ι) : Op ν α → ν → Set ι
  | .add i e => Function.update marks i (marks i ∪ positions e)
  | .or i j => Function.update marks i (marks i ∪ marks j)

/-- Every element of a filter has its positions marked. -/
def Holds (added : ν → Set α) (marks : ν → Set ι) : Prop :=
  ∀ i, ∀ e ∈ added i, positions e ⊆ marks i

variable {positions} {added : ν → Set α} {marks : ν → Set ι}

theorem Holds.step (h : Holds positions added marks) (op : Op ν α) :
    Holds positions (contentsStep added op) (marksStep positions marks op) := by
  cases op with
  | add i e =>
    intro k x hx
    by_cases hk : k = i
    · subst hk
      simp only [contentsStep, marksStep, Function.update_self] at hx ⊢
      rcases hx with rfl | hx
      · exact Set.subset_union_right
      · exact (h k x hx).trans Set.subset_union_left
    · simp only [contentsStep, marksStep, Function.update_of_ne hk] at hx ⊢
      exact h k x hx
  | or i j =>
    intro k x hx
    by_cases hk : k = i
    · subst hk
      simp only [contentsStep, marksStep, Function.update_self] at hx ⊢
      rcases hx with hx | hx
      · exact (h k x hx).trans Set.subset_union_left
      · exact (h j x hx).trans Set.subset_union_right
    · simp only [contentsStep, marksStep, Function.update_of_ne hk] at hx ⊢
      exact h k x hx

theorem Holds.foldl (h : Holds positions added marks) (ops : List (Op ν α)) :
    Holds positions (ops.foldl contentsStep added) (ops.foldl (marksStep positions) marks) := by
  induction ops generalizing added marks with
  | nil => exact h
  | cons op ops ih => exact ih (h.step op)

omit [DecidableEq ν] in
theorem holds_empty (marks : ν → Set ι) : Holds positions (fun _ => ∅) marks :=
  fun _ _ he => absurd he (Set.notMem_empty _)

end BloomFilters
