-- SUMMARY: What a stable sort keeps of the order of equal elements.
import Mathlib.Data.List.Sort

/-!
# Stable sorting

A list that is ordered in some way and then sorted by keys is ordered by the keys, and
where these are equal in the old way.
-/

namespace StableSort

open List

variable {α : Type} {le : α → α → Bool} {P : α → α → Prop}

/-- The order of the keys, and of equal keys the order `P`. -/
def Refined (le : α → α → Bool) (P : α → α → Prop) (a b : α) : Prop :=
  le a b = true ∧ (le b a = true → P a b)

theorem pairwise_mergeSort (htrans : ∀ a b c, le a b = true → le b c = true → le a c = true)
    (htotal : ∀ a b, (le a b || le b a) = true) {l : List α} (h : l.Pairwise P) :
    (mergeSort l le).Pairwise (Refined le P) := by
  induction l with
  | nil => exact mergeSort_nil.symm ▸ Pairwise.nil
  | cons a l ih =>
    obtain ⟨before, after, hsorted, hrest, hlt⟩ := mergeSort_cons htrans htotal a l
    obtain ⟨ha, hl⟩ := pairwise_cons.mp h
    have hkeys := List.pairwise_mergeSort htrans htotal (a :: l)
    have hold := ih hl
    rw [hsorted] at hkeys
    rw [hrest] at hold
    obtain ⟨hbefore, hafter, hcross⟩ := pairwise_append.mp hold
    obtain ⟨-, hkeys, hkeysCross⟩ := pairwise_append.mp hkeys
    rw [hsorted]
    refine pairwise_append.mpr ⟨hbefore, pairwise_cons.mpr ⟨fun c hc => ?_, hafter⟩, ?_⟩
    · have hmem : c ∈ l := mem_mergeSort.mp (hrest ▸ mem_append_right before hc)
      exact ⟨(pairwise_cons.mp hkeys).1 c hc, fun _ => ha c hmem⟩
    · intro b hb c hc
      rcases mem_cons.mp hc with rfl | hc
      · have hstrict := hlt b hb
        exact ⟨hkeysCross b hb c mem_cons_self, fun h => absurd h (by simpa using hstrict)⟩
      · exact hcross b hb c hc

end StableSort
