-- SUMMARY: Merge sort by a strict order, of lists in which any two elements are ordered.
import Mathlib.Data.List.Sort

/-!
# Sorting by a strict order

Merge sort with a comparison that holds of no element and itself. It sorts the lists
whose elements differ.
-/

namespace StrictSort

open List

variable {α : Type} {lt : α → α → Bool} (htrans : ∀ a b c, lt a b = true → lt b c = true → lt a c = true)

/-- The elements of one list are ordered with those of the other. -/
def Ordered (lt : α → α → Bool) (xs ys : List α) : Prop :=
  ∀ x ∈ xs, ∀ y ∈ ys, lt x y = true ∨ lt y x = true

include htrans in
theorem pairwise_merge {xs ys : List α} (hxs : xs.Pairwise (lt · ·)) (hys : ys.Pairwise (lt · ·))
    (h : Ordered lt xs ys) : (merge xs ys lt).Pairwise (lt · ·) := by
  induction xs generalizing ys with
  | nil => rwa [nil_merge]
  | cons x xs ihx =>
    induction ys with
    | nil => rwa [merge_right]
    | cons y ys ihy =>
      obtain ⟨hx, hxs'⟩ := pairwise_cons.mp hxs
      obtain ⟨hy, hys'⟩ := pairwise_cons.mp hys
      rw [cons_merge_cons]
      split
      · next hlt =>
        refine pairwise_cons.mpr ⟨?_, ihx hxs' hys fun a ha => h a (mem_cons_of_mem x ha)⟩
        intro a ha
        rcases mem_merge.mp ha with ha | ha
        · exact hx a ha
        · rcases mem_cons.mp ha with rfl | ha
          · exact hlt
          · exact htrans _ _ _ hlt (hy a ha)
      · next hnot =>
        have hlt : lt y x = true := (h x mem_cons_self y mem_cons_self).resolve_left hnot
        refine pairwise_cons.mpr ⟨?_, ihy hys' fun a ha b hb => h a ha b (mem_cons_of_mem y hb)⟩
        intro a ha
        rcases mem_merge.mp ha with ha | ha
        · rcases mem_cons.mp ha with rfl | ha
          · exact hlt
          · exact htrans _ _ _ hlt (hx a ha)
        · exact hy a ha

include htrans in
theorem pairwise_mergeSort {l : List α} (h : l.Pairwise fun a b => lt a b = true ∨ lt b a = true) :
    (mergeSort l lt).Pairwise (lt · ·) := by
  induction hn : l.length using Nat.strong_induction_on generalizing l with
  | _ n ih =>
    match l, h, hn with
    | [], _, _ => exact mergeSort_nil.symm ▸ Pairwise.nil
    | [a], _, _ => exact (mergeSort_singleton a).symm ▸ pairwise_singleton _ a
    | a :: b :: xs, h, rfl =>
      rw [mergeSort]
      simp only [MergeSort.Internal.splitInTwo_fst, MergeSort.Internal.splitInTwo_snd]
      -- both halves are shorter, and their elements are ordered with each other
      have hlen : (a :: b :: xs).length = xs.length + 2 := rfl
      generalize hk : ((a :: b :: xs).length + 1) / 2 = k
      have hhalves := h
      rw [← take_append_drop k (a :: b :: xs), pairwise_append] at hhalves
      obtain ⟨hfirst, hsecond, hcross⟩ := hhalves
      apply pairwise_merge htrans
      · exact ih _ (by rw [length_take]; omega) hfirst rfl
      · exact ih _ (by rw [length_drop]; omega) hsecond rfl
      · intro x hx y hy
        exact hcross x (mem_mergeSort.mp hx) y (mem_mergeSort.mp hy)

end StrictSort
