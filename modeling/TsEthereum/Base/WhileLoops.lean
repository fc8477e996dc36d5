-- SUMMARY: Loops whose steps go on or end: a rule for those that end, and one for those that never do.

/-!
# While loops

A step of a loop leads to the next state or ends with a result. A loop that ends
does so with one result; it ends if a variant decreases in every step that goes
on, and it does not if an invariant makes every step go on.
-/

namespace WhileLoop

variable {σ ρ : Type} {step : σ → σ ⊕ ρ} {s s' : σ} {r r' : ρ}

/-- The result of the loop, if it ends after at most `fuel` steps. -/
def run (step : σ → σ ⊕ ρ) : Nat → σ → Option ρ
  | 0, _ => none
  | fuel + 1, s =>
    match step s with
    | .inl s' => run step fuel s'
    | .inr r => some r

inductive Ends (step : σ → σ ⊕ ρ) : σ → ρ → Prop
  | done {s : σ} {r : ρ} (h : step s = .inr r) : Ends step s r
  | next {s s' : σ} {r : ρ} (h : step s = .inl s') (hrest : Ends step s' r) : Ends step s r

/-- A loop ends with what it returns for some number of steps. -/
theorem exists_run_iff : (∃ fuel, run step fuel s = some r) ↔ Ends step s r := by
  constructor
  · rintro ⟨fuel, hrun⟩
    induction fuel generalizing s with
    | zero => cases hrun
    | succ fuel ih =>
      unfold run at hrun
      split at hrun
      · rename_i hstep
        exact .next hstep (ih hrun)
      · rename_i hstep
        exact .done (hstep.trans (congrArg Sum.inr (Option.some.inj hrun)))
  · intro h
    induction h with
    | done hstep => exact ⟨1, by simp only [run, hstep]⟩
    | next hstep _ ih =>
      obtain ⟨fuel, hrun⟩ := ih
      exact ⟨fuel + 1, by simp only [run, hstep, hrun]⟩

theorem Ends.of_next (h : Ends step s r) (hstep : step s = .inl s') : Ends step s' r := by
  cases h with
  | done hdone => exact nomatch hstep.symm.trans hdone
  | next hnext hrest => exact Sum.inl.inj (hnext.symm.trans hstep) ▸ hrest

theorem Ends.of_done (h : Ends step s r) (hstep : step s = .inr r') : r = r' := by
  cases h with
  | done hdone => exact Sum.inr.inj (hdone.symm.trans hstep)
  | next hnext _ => exact nomatch hstep.symm.trans hnext

theorem Ends.unique (h : Ends step s r) (h' : Ends step s r') : r = r' := by
  induction h with
  | done hstep => exact (h'.of_done hstep).symm
  | next hstep _ ih => exact ih (h'.of_next hstep)

/-- A loop with an invariant ends if a variant decreases in every step that goes on. -/
theorem exists_ends {I : σ → Prop} {Q : ρ → Prop} (variant : σ → Nat)
    (hstep : ∀ s, I s → (∃ s', step s = .inl s' ∧ I s' ∧ variant s' < variant s) ∨
      ∃ r, step s = .inr r ∧ Q r) (h : I s) : ∃ r, Ends step s r ∧ Q r := by
  induction hv : variant s using Nat.strongRecOn generalizing s with
  | ind v ih =>
    rcases hstep s h with ⟨s', hnext, h', hlt⟩ | ⟨r, hdone, hr⟩
    · obtain ⟨r, hends, hr⟩ := ih (variant s') (hv ▸ hlt) h' rfl
      exact ⟨r, .next hnext hends, hr⟩
    · exact ⟨r, .done hdone, hr⟩

/-- What an invariant gives for the result, if there is one. -/
theorem Ends.result {I : σ → Prop} {Q : ρ → Prop}
    (hstep : ∀ s, I s → (∃ s', step s = .inl s' ∧ I s') ∨ ∃ r, step s = .inr r ∧ Q r)
    (h : I s) (hends : Ends step s r) : Q r := by
  induction hends with
  | done hdone =>
    rcases hstep _ h with ⟨s', hnext, -⟩ | ⟨r', hdone', hr⟩
    · exact nomatch hdone.symm.trans hnext
    · exact Sum.inr.inj (hdone'.symm.trans hdone) ▸ hr
  | next hnext _ ih =>
    rcases hstep _ h with ⟨s', hnext', h'⟩ | ⟨r', hdone, -⟩
    · exact ih (Sum.inl.inj (hnext'.symm.trans hnext) ▸ h')
    · exact nomatch hnext.symm.trans hdone

/-- A loop does not end if an invariant makes every step go on. -/
theorem not_ends {I : σ → Prop} (hstep : ∀ s, I s → ∃ s', step s = .inl s' ∧ I s') (h : I s) :
    ¬Ends step s r :=
  Ends.result (I := I) (Q := fun _ => False) (fun s hs => .inl (hstep s hs)) h

end WhileLoop
