-- SUMMARY: Balances that cover what each item of a family owes.
import Mathlib

/-!
# Coverage

Of the items of a family only finitely many owe something. A balance covers them if
it is at least what they owe together. Where one item's debt changes and the balance
follows it, the balance still covers them.
-/

open Finset

namespace Coverage

variable {ι M : Type} [AddCommGroup M] [PartialOrder M]

def Covers (debt : ι → M) (balance : M) : Prop :=
  ∃ items : Finset ι, (∀ x, x ∉ items → debt x = 0) ∧ ∑ x ∈ items, debt x ≤ balance

variable {debt debt' : ι → M} {balance balance' : M}

theorem Covers.of_nothing (hdebt : ∀ x, debt x = 0) (hbalance : 0 ≤ balance) :
    Covers debt balance :=
  ⟨∅, fun x _ => hdebt x, hbalance⟩

theorem Covers.mono (h : Covers debt balance) (hle : balance ≤ balance') : Covers debt balance' := by
  obtain ⟨items, hother, hsum⟩ := h
  exact ⟨items, hother, hsum.trans hle⟩

variable [DecidableEq ι]

/-- What the items owe together, the debt of one of them apart. -/
theorem Covers.split (h : Covers debt balance) (x : ι) :
    ∃ items : Finset ι, x ∉ items ∧ (∀ y, y ∉ insert x items → debt y = 0) ∧
      debt x + ∑ y ∈ items, debt y ≤ balance := by
  obtain ⟨items, hother, hsum⟩ := h
  refine ⟨items.erase x, notMem_erase x items, fun y hy => hother y fun hmem => hy ?_, ?_⟩
  · exact mem_insert.mpr (or_iff_not_imp_left.mpr fun hne => Finset.mem_erase.mpr ⟨hne, hmem⟩)
  · by_cases hmem : x ∈ items
    · rw [add_sum_erase items debt hmem]
      exact hsum
    · rw [erase_eq_of_notMem hmem, hother x hmem, zero_add]
      exact hsum

variable [IsOrderedAddMonoid M]

/-- No item owes more than the balance. -/
theorem Covers.le (h : Covers debt balance) (hdebt : ∀ x, 0 ≤ debt x) (x : ι) :
    debt x ≤ balance := by
  obtain ⟨items, -, -, hsum⟩ := h.split x
  exact (le_add_of_nonneg_right (sum_nonneg fun y _ => hdebt y)).trans hsum

/-- One item's debt changes. -/
theorem Covers.update (h : Covers debt balance) (x : ι) (hsame : ∀ y, y ≠ x → debt' y = debt y)
    (hbalance : balance - debt x + debt' x ≤ balance') : Covers debt' balance' := by
  obtain ⟨items, hx, hother, hsum⟩ := h.split x
  refine ⟨insert x items, fun y hy => ?_, ?_⟩
  · have hne : y ≠ x := fun heq => hy (heq ▸ mem_insert_self x items)
    exact (hsame y hne).trans (hother y hy)
  · have hrest : ∑ y ∈ items, debt' y = ∑ y ∈ items, debt y :=
      sum_congr rfl fun y hy => hsame y fun heq => hx (heq ▸ hy)
    rw [sum_insert hx, hrest]
    calc debt' x + ∑ y ∈ items, debt y
        ≤ debt' x + (balance - debt x) := add_le_add_right (le_sub_iff_add_le'.mpr hsum) _
      _ = balance - debt x + debt' x := add_comm _ _
      _ ≤ balance' := hbalance

end Coverage
