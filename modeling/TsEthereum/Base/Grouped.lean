-- SUMMARY: Lists in which equal elements stand together, and the runs of equal elements in them.
import Mathlib.Data.List.Dedup
import Mathlib.Data.List.Destutter

/-!
# Grouped lists

Equal elements stand next to each other, as they do in a sorted list. A pass that
remembers one element only finds the distinct ones of such a list.
-/

namespace List

variable {α : Type} {l l' : List α} {a : α}

/-- Equal elements stand together. -/
def Grouped : List α → Prop
  | [] => True
  | a :: l => (a ∈ l → l.head? = some a) ∧ Grouped l

/-- Sorted lists are grouped. -/
theorem Grouped.of_pairwise {r : α → α → Prop} (hanti : ∀ a b, r a b → r b a → a = b)
    (h : l.Pairwise r) : l.Grouped := by
  induction l with
  | nil => exact trivial
  | cons a l ih =>
    obtain ⟨ha, hl⟩ := pairwise_cons.mp h
    refine ⟨fun hmem => ?_, ih hl⟩
    cases l with
    | nil => cases hmem
    | cons b l =>
      rcases mem_cons.mp hmem with rfl | hmem
      · rfl
      · have hab := hanti a b (ha b mem_cons_self) ((pairwise_cons.mp hl).1 a hmem)
        rw [hab]
        rfl

/-- What is left of a list that starts with an element still starts with it, where it has it. -/
theorem Grouped.head?_of_sublist (h : (a :: l).Grouped) (hsub : l'.Sublist l) (ha : a ∈ l') :
    l'.head? = some a := by
  induction l with
  | nil =>
    rw [sublist_nil.mp hsub] at ha
    cases ha
  | cons b l ih =>
    obtain rfl := Option.some.inj (h.1 (hsub.subset ha))
    cases hsub with
    | cons _ hsub => exact ih h.2 hsub
    | cons_cons _ _ => rfl

theorem Grouped.sublist (h : l.Grouped) (hsub : l'.Sublist l) : l'.Grouped := by
  induction hsub with
  | slnil => exact trivial
  | cons _ _ ih => exact ih h.2
  | cons_cons a hsub ih => exact ⟨fun hmem => h.head?_of_sublist hsub hmem, ih h.2⟩

/-- Between two equal elements are only elements equal to them. -/
theorem Grouped.eq_of_between {mid rest : List α} (h : (a :: (mid ++ a :: rest)).Grouped) :
    ∀ b ∈ mid, b = a := by
  induction mid with
  | nil => exact fun b hb => (nomatch hb)
  | cons b mid ih =>
    have hhead : b = a := Option.some.inj (h.1 (mem_append_right _ mem_cons_self))
    subst hhead
    intro c hc
    rcases mem_cons.mp hc with rfl | hc
    · rfl
    · exact ih h.2 c hc

section
variable [DecidableEq α]

/-- Dropping repetitions drops all that is not distinct. -/
theorem Grouped.destutter'_eq_dedup (h : (a :: l).Grouped) : l.destutter' (· ≠ ·) a = (a :: l).dedup := by
  induction l generalizing a with
  | nil => rfl
  | cons b l ih =>
    by_cases hab : a = b
    · subst hab
      rw [destutter'_cons_neg _ (not_not.mpr rfl), ih h.2, dedup_cons_of_mem (mem_cons_self (l := l))]
    · have hmem : a ∉ b :: l := fun hmem => hab (Option.some.inj (h.1 hmem)).symm
      rw [destutter'_cons_pos _ hab, ih h.2, dedup_cons_of_notMem hmem]

theorem dedup_append_same {p : List α} {mid : List α} (h : ∀ b ∈ mid, b = a) :
    (p ++ a :: mid).dedup = (p ++ [a]).dedup := by
  induction p with
  | nil =>
    rw [nil_append, nil_append]
    induction mid with
    | nil => rfl
    | cons b mid ih =>
      obtain rfl := h b mem_cons_self
      rw [dedup_cons_of_mem mem_cons_self, ih fun c hc => h c (mem_cons_of_mem b hc)]
  | cons b p ih =>
    have hiff : b ∈ p ++ a :: mid ↔ b ∈ p ++ [a] := by
      simp only [mem_append, mem_cons, not_mem_nil, or_false]
      constructor
      · rintro (hb | hb | hb)
        exacts [.inl hb, .inr hb, .inr (h b hb)]
      · rintro (hb | hb)
        exacts [.inl hb, .inr (.inl hb)]
    rw [cons_append, cons_append, dedup_cons, dedup_cons, ih]
    exact if_congr hiff rfl rfl

end

end List
