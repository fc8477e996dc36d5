-- SUMMARY: The price of blob gas: the loop that approximates it ends, and it grows with the excess.
import TsEthereum.Base.WhileLoops
import TsEthereum.ChainConfig.GlobalConfig
import Mathlib.Algebra.BigOperators.Group.Finset.Basic
import Mathlib.Algebra.Order.BigOperators.Group.Finset

/-!
# Blob gas

`fakeExponential` and `computeBlobGasPrice` of `block/src/helpers.ts`.
-/

namespace BlobGas

structure Approximation where
  i : Int
  output : Int
  numeratorAccumulator : Int

/-- One round of the loop, or the result after it. -/
def fakeExponentialRound (numerator denominator : Int) (s : Approximation) : Approximation ⊕ Int :=
  if s.numeratorAccumulator > 0 then
    .inl ⟨s.i + 1, s.output + s.numeratorAccumulator,
      (s.numeratorAccumulator * numerator).tdiv (denominator * s.i)⟩
  else .inr (s.output.tdiv denominator)

/-- The approximation of `factor * e ** (numerator / denominator)`, if it takes less than `fuel`
rounds. -/
def fakeExponential (fuel : Nat) (factor numerator denominator : Int) : Option Int :=
  WhileLoop.run (fakeExponentialRound numerator denominator) fuel ⟨1, 0, factor * denominator⟩

def computeBlobGasPrice (fuel : Nat) (excessBlobGas : Int) (common : GlobalConfig) : Option Int :=
  fakeExponential fuel (common.param "minBlobGas") excessBlobGas
    (common.param "blobGasPriceUpdateFraction")

/-- With enough fuel there is a result for every argument, at least `least` and monotone. -/
structure Grows (least : Int) (f : Nat → Int → Option Int) : Prop where
  total : ∀ x, 0 ≤ x → ∃ fuel y, f fuel x = some y ∧ least ≤ y
  monotone : ∀ x x' y y' fuel fuel', 0 ≤ x → x ≤ x' → f fuel x = some y → f fuel' x' = some y' → y ≤ y'

/-! ## The terms of the sum -/

/-- The values of the accumulator. -/
def term (factor numerator denominator : Nat) : Nat → Nat
  | 0 => factor * denominator
  | n + 1 => term factor numerator denominator n * numerator / (denominator * (n + 1))

variable {factor numerator numerator' denominator : Nat}

theorem term_mono (h : numerator ≤ numerator') (n : Nat) :
    term factor numerator denominator n ≤ term factor numerator' denominator n := by
  induction n with
  | zero => exact Nat.le_refl _
  | succ n ih => exact Nat.div_le_div_right (Nat.mul_le_mul ih h)

/-- From the numerator on the terms decrease. -/
theorem term_lt (hdenominator : 0 < denominator) {n : Nat} (hn : numerator ≤ n)
    (h : 0 < term factor numerator denominator n) :
    term factor numerator denominator (n + 1) < term factor numerator denominator n := by
  refine Nat.div_lt_of_lt_mul ?_
  rw [Nat.mul_comm]
  refine Nat.mul_lt_mul_of_pos_right ?_ h
  calc numerator < n + 1 := Nat.lt_succ_of_le hn
    _ ≤ denominator * (n + 1) := Nat.le_mul_of_pos_left _ hdenominator

theorem exists_term_eq_zero (factor numerator : Nat) (hdenominator : 0 < denominator) :
    ∃ n, term factor numerator denominator n = 0 := by
  suffices h : ∀ t n, numerator ≤ n → term factor numerator denominator n = t →
      ∃ m, term factor numerator denominator m = 0 from h _ numerator (Nat.le_refl _) rfl
  intro t
  induction t using Nat.strongRecOn with
  | ind t ih =>
    intro n hn ht
    obtain hzero | hpos := Nat.eq_zero_or_pos t
    · exact ⟨n, ht.trans hzero⟩
    · subst ht
      exact ih _ (term_lt hdenominator hn hpos) (n + 1) (Nat.le_succ_of_le hn) rfl

/-- The state after `n` rounds. -/
def approximation (factor numerator denominator n : Nat) : Approximation :=
  ⟨n + 1, (∑ k ∈ Finset.range n, term factor numerator denominator k : Nat),
    term factor numerator denominator n⟩

theorem fakeExponentialRound_approximation (n : Nat) :
    fakeExponentialRound numerator denominator (approximation factor numerator denominator n) =
      if 0 < term factor numerator denominator n then
        .inl (approximation factor numerator denominator (n + 1))
      else .inr ((∑ k ∈ Finset.range n, term factor numerator denominator k) / denominator : Nat) := by
  simp only [fakeExponentialRound, approximation, gt_iff_lt, Int.natCast_pos]
  split
  · rw [Finset.sum_range_succ]
    rfl
  · rfl

/-- The loop ends at the first term that is zero, with the sum of those before it. -/
theorem ends_of_first {n : Nat} (hzero : term factor numerator denominator n = 0)
    (hfirst : ∀ k < n, 0 < term factor numerator denominator k) :
    WhileLoop.Ends (fakeExponentialRound numerator denominator)
      (approximation factor numerator denominator 0)
      ((∑ k ∈ Finset.range n, term factor numerator denominator k) / denominator : Nat) := by
  refine Nat.decreasingInduction (motive := fun m _ => WhileLoop.Ends _
    (approximation factor numerator denominator m) _) (fun k hk ih => .next ?_ ih) (.done ?_)
    (Nat.zero_le n)
  · rw [fakeExponentialRound_approximation, if_pos (hfirst k hk)]
  · rw [fakeExponentialRound_approximation, if_neg (by omega)]

/-- What the loop returns: the sum of the terms up to the first that is zero. -/
theorem fakeExponential_spec (factor numerator : Nat) (hdenominator : 0 < denominator) :
    ∃ n, term factor numerator denominator n = 0 ∧
      (∀ k < n, 0 < term factor numerator denominator k) ∧
      ∀ y, (∃ fuel, fakeExponential fuel factor numerator denominator = some y) ↔
        y = ((∑ k ∈ Finset.range n, term factor numerator denominator k) / denominator : Nat) := by
  have hexists := exists_term_eq_zero factor numerator hdenominator
  have hfirst : ∀ k < Nat.find hexists, 0 < term factor numerator denominator k := fun k hk =>
    Nat.pos_of_ne_zero (Nat.find_min hexists hk)
  have hends := ends_of_first (Nat.find_spec hexists) hfirst
  refine ⟨Nat.find hexists, Nat.find_spec hexists, hfirst, fun y => ?_⟩
  refine Iff.trans (WhileLoop.exists_run_iff (s := approximation factor numerator denominator 0))
    ⟨fun h => h.unique hends, fun h => h ▸ hends⟩

theorem fakeExponential_grows {factor denominator : Int} (hfactor : 0 ≤ factor)
    (hdenominator : 1 ≤ denominator) :
    Grows factor fun fuel numerator => fakeExponential fuel factor numerator denominator := by
  obtain ⟨factor, rfl⟩ := Int.eq_ofNat_of_zero_le hfactor
  obtain ⟨denominator, rfl⟩ := Int.eq_ofNat_of_zero_le (by omega : 0 ≤ denominator)
  have hpos : 0 < denominator := by omega
  constructor
  · intro x hx
    obtain ⟨numerator, rfl⟩ := Int.eq_ofNat_of_zero_le hx
    obtain ⟨n, hzero, -, hresult⟩ := fakeExponential_spec factor numerator hpos
    obtain ⟨fuel, hfuel⟩ := (hresult _).mpr rfl
    refine ⟨fuel, _, hfuel, Int.ofNat_le.mpr ((Nat.le_div_iff_mul_le hpos).mpr ?_)⟩
    cases n with
    | zero => exact Nat.le_of_eq hzero
    | succ n =>
      exact Finset.single_le_sum (f := term factor numerator denominator)
        (fun k _ => Nat.zero_le _) (Finset.mem_range.mpr (Nat.succ_pos n))
  · intro x x' y y' fuel fuel' hx hle hy hy'
    obtain ⟨numerator, rfl⟩ := Int.eq_ofNat_of_zero_le hx
    obtain ⟨numerator', rfl⟩ := Int.eq_ofNat_of_zero_le (hx.trans hle)
    have hle := Int.ofNat_le.mp hle
    obtain ⟨n, -, hfirst, hresult⟩ := fakeExponential_spec factor numerator hpos
    obtain ⟨n', hzero', -, hresult'⟩ := fakeExponential_spec factor numerator' hpos
    rw [(hresult y).mp ⟨fuel, hy⟩, (hresult' y').mp ⟨fuel', hy'⟩]
    -- The terms of the smaller numerator are zero no later.
    have hn : n ≤ n' := by
      by_contra hlt
      have hterm := @term_mono factor numerator numerator' denominator hle n'
      have := hfirst n' (by omega)
      omega
    refine Int.ofNat_le.mpr (Nat.div_le_div_right ?_)
    calc ∑ k ∈ Finset.range n, term factor numerator denominator k
      _ ≤ ∑ k ∈ Finset.range n, term factor numerator' denominator k :=
        Finset.sum_le_sum fun k _ => term_mono hle k
      _ ≤ ∑ k ∈ Finset.range n', term factor numerator' denominator k :=
        Finset.sum_le_sum_of_subset (Finset.range_mono hn)

/-- The loop ends, its result is at least the factor and monotone in the numerator; so is the
price of blob gas in the excess, and it is at least `minBlobGas`. -/
theorem computeBlobGasPrice_grows :
    (∀ factor denominator : Int, 0 ≤ factor → 1 ≤ denominator →
      Grows factor fun fuel numerator => fakeExponential fuel factor numerator denominator) ∧
    ∀ common : GlobalConfig, 0 ≤ common.param "minBlobGas" →
      1 ≤ common.param "blobGasPriceUpdateFraction" →
      Grows (common.param "minBlobGas") fun fuel excessBlobGas =>
        computeBlobGasPrice fuel excessBlobGas common :=
  ⟨fun _ _ => fakeExponential_grows, fun _ => fakeExponential_grows⟩

/-- A price that grows by a factor e with each unit of the excess. -/
theorem computeBlobGasPrice_grows_seven : ∃ fuel price,
    computeBlobGasPrice fuel 7 ⟨.Cancun, fun _ => 1, false, false, 1⟩ = some price ∧ 1 ≤ price :=
  (computeBlobGasPrice_grows.2 ⟨.Cancun, fun _ => 1, false, false, 1⟩ (by decide) (by decide)).total 7
    (by decide)

end BlobGas
