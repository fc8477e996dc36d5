-- SUMMARY: What memory accesses are charged, and that the charges of a run add up to the cost of the largest one.
import TsEthereum.Evm.Arithmetic

/-!
# Memory gas

`subMemUsage` of `opcodes/util.ts`. A charge is the difference to the highest cost so far,
which is the cost of the word count.
-/

namespace MemoryGas

open Handlers (mod)

/-- `Find Ceil(a / b)`. -/
def divCeil (a b : Int) : Int :=
  let div := a.tdiv b
  if mod a b = 0 then div
  else if div < 0 then div - 1 else div + 1

def subMemUsage (common : GlobalConfig) (r : RunState) (offset length : Int) : RunState × Int :=
  if length = 0 then (r, 0)
  else
    let newMemoryWordCount := divCeil (offset + length) 32
    if newMemoryWordCount ≤ r.memoryWordCount then (r, 0)
    else
      let words := newMemoryWordCount
      let fee := common.param "memoryGas"
      let quadCoefficient := common.param "quadCoefficientDivGas"
      let cost := words * fee + (words * words).tdiv quadCoefficient
      if cost > r.highestMemCost then
        ({ r with highestMemCost := cost, memoryWordCount := newMemoryWordCount },
          cost - r.highestMemCost)
      else ({ r with memoryWordCount := newMemoryWordCount }, cost)

/-- Accesses one after the other, with the costs that have been returned. -/
def charge (common : GlobalConfig) (s : RunState × List Int) (access : Nat × Nat) :
    RunState × List Int :=
  let (r, cost) := subMemUsage common s.1 access.1 access.2
  (r, s.2 ++ [cost])

def charges (common : GlobalConfig) (r : RunState) (accesses : List (Nat × Nat)) :
    RunState × List Int := accesses.foldl (charge common) (r, [])

/-! ## The closed form -/

/-- The words that an access reaches. -/
def words (access : Nat × Nat) : Nat :=
  if access.2 = 0 then 0 else (access.1 + access.2 + 31) / 32

/-- The largest of the accesses. -/
def largest (accesses : List (Nat × Nat)) : Nat := (accesses.map words).foldl max 0

def memoryCost (common : GlobalConfig) (w : Nat) : Int :=
  common.param "memoryGas" * w + w ^ 2 / common.param "quadCoefficientDivGas"

/-- `evm-params.ts` sets them to 3 and 512. -/
structure Params (common : GlobalConfig) : Prop where
  memoryGas : 0 < common.param "memoryGas"
  quadCoefficientDivGas : 0 < common.param "quadCoefficientDivGas"

variable {common : GlobalConfig} {r : RunState}

theorem divCeil_words (n : Nat) : divCeil n 32 = ((n + 31) / 32 : Nat) := by
  have hdiv : (n : Int).tdiv 32 = (n / 32 : Nat) := rfl
  have hmod : mod n 32 = (n % 32 : Nat) := by
    have htmod : (n : Int).tmod 32 = (n % 32 : Nat) := rfl
    simp only [mod, htmod]
    exact if_neg (by omega)
  simp only [divCeil, hdiv, hmod]
  split
  · omega
  · rw [if_neg (Int.not_lt.mpr (Int.natCast_nonneg _))]
    omega

theorem memoryCost_lt (hparams : Params common) {w w' : Nat} (h : w < w') :
    memoryCost common w < memoryCost common w' := by
  have hfee : common.param "memoryGas" * (w : Int) < common.param "memoryGas" * w' :=
    mul_lt_mul_of_pos_left (Int.ofNat_lt.mpr h) hparams.memoryGas
  have hsquare : (w : Int) ^ 2 ≤ (w' : Int) ^ 2 :=
    pow_le_pow_left₀ (Int.natCast_nonneg w) (Int.ofNat_le.mpr h.le) 2
  have hquad := Int.ediv_le_ediv hparams.quadCoefficientDivGas hsquare
  unfold memoryCost
  linarith

/-- The highest cost is the cost of the word count. -/
structure Charged (common : GlobalConfig) (r : RunState) (w : Nat) : Prop where
  memoryWordCount : r.memoryWordCount = w
  highestMemCost : r.highestMemCost = memoryCost common w

/-- An access is charged what the cost of the larger of its words and the count grows by. -/
theorem subMemUsage_spec (hparams : Params common) {w : Nat} (h : Charged common r w)
    (access : Nat × Nat) :
    Charged common (subMemUsage common r access.1 access.2).1 (max w (words access)) ∧
      (subMemUsage common r access.1 access.2).2 =
        memoryCost common (max w (words access)) - memoryCost common w := by
  obtain ⟨offset, length⟩ := access
  unfold subMemUsage words
  by_cases hlength : length = 0
  · subst hlength
    simp [h]
  · have hwords := divCeil_words (offset + length)
    rw [if_neg (Int.natCast_ne_zero.mpr hlength), if_neg hlength, ← Int.natCast_add, hwords,
      h.memoryWordCount]
    dsimp only
    generalize (offset + length + 31) / 32 = w'
    by_cases hle : w' ≤ w
    · rw [if_pos (Int.ofNat_le.mpr hle), Nat.max_eq_left hle]
      exact ⟨h, (sub_self _).symm⟩
    · have hlt := Nat.lt_of_not_le hle
      have hcost : (w' : Int) * common.param "memoryGas" +
          ((w' : Int) * w').tdiv (common.param "quadCoefficientDivGas") = memoryCost common w' := by
        rw [Int.tdiv_eq_ediv_of_nonneg (mul_nonneg (Int.natCast_nonneg w') (Int.natCast_nonneg w')),
          ← sq, mul_comm]
        rfl
      rw [if_neg (fun hle' => hle (Int.ofNat_le.mp hle')), Nat.max_eq_right hlt.le, hcost,
        h.highestMemCost, if_pos (memoryCost_lt hparams hlt)]
      exact ⟨⟨rfl, rfl⟩, rfl⟩

/-- After any accesses the word count is that of the largest, the costs add up to its cost,
and none is negative. -/
theorem charges_telescope (hparams : Params common) (hcount : r.memoryWordCount = 0)
    (hhighest : r.highestMemCost = 0) (accesses : List (Nat × Nat)) :
    (charges common r accesses).1.memoryWordCount = largest accesses ∧
      (charges common r accesses).2.sum = memoryCost common (largest accesses) ∧
      ∀ cost ∈ (charges common r accesses).2, 0 ≤ cost := by
  have hzero : memoryCost common 0 = 0 := by simp [memoryCost]
  suffices hcharged : Charged common (charges common r accesses).1 (largest accesses) ∧
      (charges common r accesses).2.sum = memoryCost common (largest accesses) ∧
      ∀ cost ∈ (charges common r accesses).2, 0 ≤ cost from
    ⟨hcharged.1.memoryWordCount, hcharged.2⟩
  induction accesses using List.reverseRecOn with
  | nil => exact ⟨⟨hcount, hhighest.trans hzero.symm⟩, hzero.symm, nofun⟩
  | append_singleton accesses access ih =>
    obtain ⟨hcharged, hsum, hnonneg⟩ := ih
    have hlargest : largest (accesses ++ [access]) = max (largest accesses) (words access) := by
      simp [largest]
    obtain ⟨hnext, hcost⟩ := subMemUsage_spec hparams hcharged access
    have hcharges : charges common r (accesses ++ [access]) =
        ((subMemUsage common (charges common r accesses).1 access.1 access.2).1,
          (charges common r accesses).2 ++ [memoryCost common (max (largest accesses) (words access)) -
            memoryCost common (largest accesses)]) := by
      rw [← hcost]
      simp [charges, charge]
    rw [hcharges, hlargest]
    refine ⟨hnext, ?_, fun cost hmem => ?_⟩
    · rw [List.sum_append, List.sum_singleton, hsum]
      exact add_sub_cancel _ _
    · obtain hmem | hmem := List.mem_append.mp hmem
      · exact hnonneg cost hmem
      · rw [List.mem_singleton.mp hmem]
        obtain heq | hlt := (Nat.le_max_left (largest accesses) (words access)).eq_or_lt
        · rw [← heq, sub_self]
        · exact sub_nonneg.mpr (memoryCost_lt hparams hlt).le

/-- A word, the same word again, and a byte two words on. -/
theorem charges_telescope_two :
    (charges ⟨.Chainstart, fun name => if name = "memoryGas" then 3 else 512, false, false, 1⟩
      ⟨0, 0, [], 0, 0, [], [], 0, 0, [], none⟩ [(0, 32), (0, 32), (64, 1)]).2.sum = 9 :=
  (charges_telescope ⟨by decide, by decide⟩ rfl rfl _).2.1.trans (by decide)

end MemoryGas
