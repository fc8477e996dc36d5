-- SUMMARY: Programs that are run again and again until they come to a result, and simulations between two of them.
import TsEthereum.Base.Program

/-!
# Rounds

`rounds body n` runs `body` at most `n` times and stops at the first result. Two
such loops with different states agree where one round of the first is matched by
one round of the second.
-/

namespace Program

variable {ε σ τ α : Type}

def rounds (body : Program ε σ (Option α)) : Nat → Program ε σ (Option α)
  | 0 => pure none
  | n + 1 => do
    match ← body with
    | some a => pure (some a)
    | none => rounds body n

/-- The same outcome: the states are related by `R` where the loop goes on, and by `E` in any case. -/
structure Matches (R E : σ → τ → Prop) (x : Except ε (Option α) × σ) (y : Except ε (Option α) × τ) :
    Prop where
  outcome : y.1 = x.1
  goesOn : x.1 = .ok none → R x.2 y.2
  ended : E x.2 y.2

variable {R E : σ → τ → Prop} {p : Program ε σ (Option α)} {q : Program ε τ (Option α)} {s : σ} {t : τ}

/-- Rounds of a loop match those of another whose single rounds match. -/
theorem rounds_matches (hended : ∀ s t, R s t → E s t)
    (hround : ∀ s t, R s t → Matches R E (p s) (q t)) (n : Nat) (h : R s t) :
    Matches R E (rounds p n s) (rounds q n t) := by
  induction n generalizing s t with
  | zero => exact ⟨rfl, fun _ => h, hended s t h⟩
  | succ n ih =>
    have hone := hround s t h
    rcases hp : p s with ⟨e | _ | a, s'⟩ <;> rcases hq : q t with ⟨y, t'⟩ <;> rw [hp, hq] at hone
    · obtain rfl : y = .error e := hone.outcome
      have hleft : rounds p (n + 1) s = (.error e, s') := bind_of_error hp
      have hright : rounds q (n + 1) t = (.error e, t') := bind_of_error hq
      rw [hleft, hright]
      exact hone
    · obtain rfl : y = .ok none := hone.outcome
      have hleft : rounds p (n + 1) s = rounds p n s' := bind_of_ok hp
      have hright : rounds q (n + 1) t = rounds q n t' := bind_of_ok hq
      rw [hleft, hright]
      exact ih (hone.goesOn rfl)
    · obtain rfl : y = .ok (some a) := hone.outcome
      have hleft : rounds p (n + 1) s = (.ok (some a), s') := bind_of_ok hp
      have hright : rounds q (n + 1) t = (.ok (some a), t') := bind_of_ok hq
      rw [hleft, hright]
      exact hone

end Program
