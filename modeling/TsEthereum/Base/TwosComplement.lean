-- SUMMARY: Truncated division by signs, masks of high bits, and words read with a sign.
import Mathlib.Data.Int.Bitwise
import Mathlib.Data.Nat.Bitwise
import Mathlib.Tactic.Ring

/-!
# Two's complement

What arithmetic on unbounded integers does to words of a fixed width: division
that truncates, masks that set the bits from one place on, and the word of a
number that is read with a sign.
-/

open Nat Int

namespace TwosComplement

/-! ## Truncated division -/

theorem tdiv_eq_sign (a b : Int) :
    a.tdiv b = a.sign * b.sign * ((a.natAbs / b.natAbs : Nat) : Int) := by
  have hnat (m n : Nat) : (m : Int).tdiv n = ((m / n : Nat) : Int) := (ofNat_tdiv m n).symm
  obtain ⟨m, rfl | rfl⟩ := a.eq_nat_or_neg <;> obtain ⟨n, rfl | rfl⟩ := b.eq_nat_or_neg <;>
    rcases eq_or_ne m 0 with rfl | hm <;> rcases eq_or_ne n 0 with rfl | hn <;>
    simp [*, sign_natCast_of_ne_zero, Int.neg_tdiv, Int.tdiv_neg]

theorem tmod_eq_sign (a b : Int) : a.tmod b = a.sign * ((a.natAbs % b.natAbs : Nat) : Int) := by
  have hnat (m n : Nat) : (m : Int).tmod n = ((m % n : Nat) : Int) := (ofNat_tmod m n).symm
  obtain ⟨m, rfl | rfl⟩ := a.eq_nat_or_neg <;> obtain ⟨n, rfl | rfl⟩ := b.eq_nat_or_neg <;>
    rcases eq_or_ne m 0 with rfl | hm <;>
    simp [*, sign_natCast_of_ne_zero, neg_tmod, tmod_neg]

/-! ## Masks -/

theorem two_pow_sub_two_pow {n s : Nat} (hs : s ≤ n) :
    2 ^ n - 2 ^ s = 2 ^ s * (2 ^ (n - s) - 1) := by
  rw [Nat.mul_sub, ← Nat.pow_add, Nat.add_sub_cancel' hs, Nat.mul_one]

/-- All bits, shifted out and back. -/
theorem allOnes_div_mul {n s : Nat} (hs : s ≤ n) : (2 ^ n - 1) / 2 ^ s * 2 ^ s = 2 ^ n - 2 ^ s := by
  have hpow : 2 ^ s * 2 ^ (n - s) = 2 ^ n := by rw [← Nat.pow_add, Nat.add_sub_cancel' hs]
  have hdiv : (2 ^ s * 2 ^ (n - s) - 1) / 2 ^ s = 2 ^ (n - s) - 1 := by
    rw [mul_sub_div 0 _ _ (hpow ▸ Nat.two_pow_pos n), Nat.zero_div]
  rw [two_pow_sub_two_pow hs, ← hpow, hdiv, Nat.mul_comm]

theorem testBit_high {n s : Nat} (hs : s ≤ n) (i : Nat) :
    (2 ^ n - 2 ^ s).testBit i = decide (s ≤ i ∧ i < n) := by
  rw [two_pow_sub_two_pow hs, testBit_two_pow_mul, testBit_two_pow_sub_one]
  by_cases hsi : s ≤ i
  · have hlt : i - s < n - s ↔ i < n := by omega
    simp [hsi, hlt]
  · simp [hsi]

/-- Setting all bits from `s` on keeps the ones below. -/
theorem lor_high {n s y : Nat} (hs : s ≤ n) (hy : y < 2 ^ n) :
    y ||| (2 ^ n - 2 ^ s) = 2 ^ n - 2 ^ s + y % 2 ^ s := by
  apply eq_of_testBit_eq
  intro i
  have hlow : y % 2 ^ s < 2 ^ s := mod_lt _ (Nat.two_pow_pos s)
  rw [testBit_or, testBit_high hs, two_pow_sub_two_pow hs, testBit_two_pow_mul_add _ hlow,
    testBit_mod_two_pow, testBit_two_pow_sub_one]
  by_cases hi : i < s
  · simp [hi, Nat.not_le.mpr hi]
  · have hsi : s ≤ i := Nat.le_of_not_lt hi
    have hlt : i - s < n - s ↔ i < n := by omega
    by_cases hin : i < n
    · simp [hi, hsi, hlt, hin]
    · have hle : 2 ^ n ≤ 2 ^ i := Nat.pow_le_pow_right (by decide) (Nat.le_of_not_lt hin)
      have hbit : y.testBit i = false := testBit_lt_two_pow (hy.trans_le hle)
      simp [hi, hlt, hin, hbit]

/-- The value with the bit `s` is what is below it, or that and the bit. -/
theorem mod_two_pow_succ (y s : Nat) :
    y % 2 ^ (s + 1) = y % 2 ^ s + if y.testBit s then 2 ^ s else 0 := by
  rw [Nat.pow_succ, mod_mul, testBit_eq_decide_div_mod_eq]
  rcases mod_two_eq_zero_or_one (y / 2 ^ s) with hbit | hbit <;> simp [hbit]

/-! ## Words with a sign -/

/-- The word of a negative number counts down from the end. -/
theorem toNat_ofInt_neg {n m : Nat} (hm : m < 2 ^ n) (hpos : 0 < m) :
    (BitVec.ofInt n (-m)).toNat = 2 ^ n - m := by
  rw [BitVec.toNat_ofInt]
  have hmod : (-(m : Int)) % ((2 ^ n : Nat) : Int) = ((2 ^ n - m : Nat) : Int) := by
    rw [← add_emod_right, cast_sub hm.le]
    refine Eq.trans ?_ (emod_eq_of_lt (b := ((2 ^ n : Nat) : Int)) ?_ ?_)
    · congr 1
      ring
    · omega
    · omega
  rw [hmod, toNat_natCast]

theorem toNat_ofInt_natCast {n m : Nat} (hm : m < 2 ^ n) : (BitVec.ofInt n m).toNat = m := by
  rw [BitVec.ofInt_natCast, BitVec.toNat_ofNat, mod_eq_of_lt hm]

/-- Extending a sign sets the bits above it, or clears them. -/
theorem toNat_signExtend {n s : Nat} (hs : s < n) (x : BitVec n) :
    (BitVec.ofInt n (x.setWidth (s + 1)).toInt).toNat =
      if x.toNat.testBit s then 2 ^ n - 2 ^ s + x.toNat % 2 ^ s else x.toNat % 2 ^ s := by
  have hlow : x.toNat % 2 ^ s < 2 ^ s := mod_lt _ (Nat.two_pow_pos s)
  have hpow : 2 ^ s < 2 ^ n := Nat.pow_lt_pow_right (by decide) hs
  rw [BitVec.toInt_eq_toNat_cond, BitVec.toNat_setWidth, mod_two_pow_succ, Nat.pow_succ]
  split_ifs with hbit hsmall hsmall
  · omega
  · have hneg : ((x.toNat % 2 ^ s + 2 ^ s : Nat) : Int) - ((2 ^ s * 2 : Nat) : Int) =
        -((2 ^ s - x.toNat % 2 ^ s : Nat) : Int) := by
      push_cast [hlow.le]
      ring
    rw [hneg, toNat_ofInt_neg (by omega) (by omega)]
    omega
  · rw [Nat.add_zero]
    exact toNat_ofInt_natCast (hlow.trans hpow)
  · omega

end TwosComplement
