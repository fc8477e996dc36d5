-- SUMMARY: Computations with a bound on their steps: what they return and what they throw once the bound suffices.
import TsEthereum.Base.Fallible

/-!
# Computations with fuel

A computation that is given a number of steps fails with the error `out` where they
do not suffice. It is steady if more steps change nothing once they suffice. What it
returns and what it throws then does not depend on the number.
-/

namespace Fueled

variable {ε α β : Type} {out e : ε} {f : Nat → Except ε α} {g : Nat → α → Except ε β}

def Steady (out : ε) (f : Nat → Except ε α) : Prop :=
  ∀ n, f n ≠ .error out → f (n + 1) = f n

def Returns (f : Nat → Except ε α) (a : α) : Prop := ∃ n, f n = .ok a

def Throws (out : ε) (f : Nat → Except ε α) (e : ε) : Prop := e ≠ out ∧ ∃ n, f n = .error e

/-! ## Steadiness -/

theorem Steady.le (hf : Steady out f) {n m : Nat} (hn : f n ≠ .error out) (hle : n ≤ m) :
    f m = f n := by
  induction hle with
  | refl => rfl
  | step _ ih => exact (hf _ (ih ▸ hn)).trans ih

theorem Steady.const (x : Except ε α) : Steady out fun _ => x := fun _ _ => rfl

theorem Steady.andThen (hf : Steady out f) (hg : ∀ a, Steady out fun n => g n a) :
    Steady out fun n => f n >>= g n := by
  intro n hn
  cases hfirst : f n with
  | error e =>
    have hne : f n ≠ .error out := fun h => hn (by simp [h, bind, Except.bind])
    simp only [hf n hne, hfirst, bind, Except.bind]
  | ok a =>
    have hne : f n ≠ .error out := fun h => nomatch hfirst.symm.trans h
    have hnext : g n a ≠ .error out := fun h => hn (by simp [hfirst, h, bind, Except.bind])
    have hmore : f (n + 1) = .ok a := (hf n hne).trans hfirst
    simp only [hmore, hfirst, bind, Except.bind]
    exact hg a n hnext

theorem Steady.ite {c : Prop} [Decidable c] {f' : Nat → Except ε α} (hf : Steady out f)
    (hf' : Steady out f') : Steady out fun n => if c then f n else f' n := by
  split
  · exact hf
  · exact hf'

/-- What returns for some number of steps does not throw for another. -/
theorem Returns.not_throws (hf : Steady out f) {a : α} (h : Returns f a) : ¬Throws out f e := by
  obtain ⟨n, hn⟩ := h
  rintro ⟨hout, m, hm⟩
  have hreturns := hf.le (fun h => nomatch hn.symm.trans h) (Nat.le_max_left n m)
  have hthrows := hf.le (fun h => hout (Except.error.inj (hm.symm.trans h))) (Nat.le_max_right n m)
  exact (nomatch hn.symm.trans (hreturns.symm.trans (hthrows.trans hm)))

/-! ## Sequences -/

theorem throws_const {x : Except ε α} : Throws out (fun _ => x) e ↔ e ≠ out ∧ x = .error e :=
  and_congr_right fun _ => exists_const Nat

variable (hf : Steady out f)
include hf

/-- A number of steps that suffices for both parts of a sequence. -/
theorem Steady.both (hg : ∀ a, Steady out fun n => g n a) {a : α} {n m : Nat}
    (hn : f n = .ok a) (hm : g m a ≠ .error out) : f (max n m) >>= g (max n m) = g m a := by
  have hfirst : f (max n m) = .ok a :=
    (hf.le (fun h => nomatch hn.symm.trans h) (Nat.le_max_left n m)).trans hn
  have hnext : g (max n m) a = g m a := (hg a).le hm (Nat.le_max_right n m)
  exact (congrArg (fun x => x >>= g (max n m)) hfirst).trans hnext

/-- A sequence throws what its first part throws, or the rest on a value of the first. -/
theorem throws_bind (hg : ∀ a, Steady out fun n => g n a) : Throws out (fun n => f n >>= g n) e ↔
      Throws out f e ∨ ∃ a, Returns f a ∧ Throws out (fun n => g n a) e := by
  constructor
  · rintro ⟨hout, n, hn⟩
    cases hfirst : f n with
    | error e' =>
      simp only [hfirst, bind, Except.bind] at hn
      exact .inl ⟨hout, n, Except.error.inj hn ▸ hfirst⟩
    | ok a =>
      simp only [hfirst, bind, Except.bind] at hn
      exact .inr ⟨a, ⟨n, hfirst⟩, hout, n, hn⟩
  · rintro (⟨hout, n, hn⟩ | ⟨a, ⟨n, hn⟩, hout, m, hm⟩)
    · exact ⟨hout, n, by simp only [hn, bind, Except.bind]⟩
    · exact ⟨hout, max n m, (hf.both hg hn (fun h => hout (Except.error.inj (hm.symm.trans h)))).trans hm⟩

/-- So it is where the rest takes no steps. -/
theorem throws_then {h : α → Except ε β} : Throws out (fun n => f n >>= h) e ↔
      Throws out f e ∨ ∃ a, Returns f a ∧ e ≠ out ∧ h a = .error e := by
  apply (throws_bind hf fun a => .const (h a)).trans
  exact or_congr_right (exists_congr fun a => and_congr_right fun _ => throws_const)

end Fueled
