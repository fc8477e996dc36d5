-- SUMMARY: Reflected cyclic redundancy codes, bit by bit and from a table.
import Mathlib.Init

/-!
# Cyclic redundancy codes

A register of `w` bits that is moved down one bit at a time, with the polynomial added
where a one falls out. Several moves at once are read from a table of the low bits.
-/

namespace CyclicCode

variable {w : Nat} (polynomial : BitVec w)

/-- The register is moved down by one bit. -/
def shift (c : BitVec w) : BitVec w :=
  (c >>> 1) ^^^ if c.getLsbD 0 then polynomial else 0#w

def shifts : Nat → BitVec w → BitVec w
  | 0, c => c
  | n + 1, c => shifts n (shift polynomial c)

/-- The register after a byte. -/
def step (c : BitVec w) (byte : UInt8) : BitVec w :=
  shifts polynomial 8 (c ^^^ BitVec.ofNat w byte.toNat)

/-- The code of a byte string, from a register that starts with ones and with all its bits
turned at the end. -/
def code (bytes : List UInt8) : BitVec w :=
  bytes.foldl (step polynomial) (BitVec.allOnes w) ^^^ BitVec.allOnes w

/-! ## The moves are linear -/

theorem xor_left_comm (a b c : BitVec w) : a ^^^ (b ^^^ c) = b ^^^ (a ^^^ c) := by
  rw [← BitVec.xor_assoc, BitVec.xor_comm a b, BitVec.xor_assoc]

theorem shift_xor (a b : BitVec w) :
    shift polynomial (a ^^^ b) = shift polynomial a ^^^ shift polynomial b := by
  unfold shift
  rw [BitVec.ushiftRight_xor_distrib, BitVec.getLsbD_xor, BitVec.xor_assoc, BitVec.xor_assoc]
  congr 1
  rw [xor_left_comm]
  congr 1
  cases a.getLsbD 0 <;> cases b.getLsbD 0 <;> simp

theorem shifts_xor (n : Nat) (a b : BitVec w) :
    shifts polynomial n (a ^^^ b) = shifts polynomial n a ^^^ shifts polynomial n b := by
  induction n generalizing a b with
  | zero => rfl
  | succ n ih =>
    unfold shifts
    rw [shift_xor, ih]

/-- Where no one falls out the bits only move. -/
theorem shifts_of_low_clear {n : Nat} {c : BitVec w} (h : ∀ i < n, c.getLsbD i = false) :
    shifts polynomial n c = c >>> n := by
  induction n generalizing c with
  | zero => exact (BitVec.ushiftRight_zero c).symm
  | succ n ih =>
    have hshift : shift polynomial c = c >>> 1 := by
      unfold shift
      rw [h 0 n.succ_pos]
      exact BitVec.xor_zero
    unfold shifts
    rw [hshift, ih, ← BitVec.shiftRight_add, Nat.add_comm]
    intro i hi
    rw [BitVec.getLsbD_ushiftRight]
    exact h (1 + i) (by omega)

/-! ## The table -/

/-- The bits of a mask of the low `n` bits. -/
def Masks (mask : BitVec w) (n : Nat) : Prop := ∀ i < w, mask.getLsbD i = decide (i < n)

section
variable {polynomial} {mask : BitVec w} {n : Nat}

/-- Moves at once: the table's entry for the low bits, and the rest moved down. -/
theorem shifts_split (hmask : Masks mask n) (c : BitVec w) :
    shifts polynomial n c = shifts polynomial n (c &&& mask) ^^^ (c >>> n) := by
  have hsplit : c = (c &&& mask) ^^^ (c &&& ~~~mask) := by
    apply BitVec.eq_of_getLsbD_eq
    intro i hi
    rw [BitVec.getLsbD_xor, BitVec.getLsbD_and, BitVec.getLsbD_and, BitVec.getLsbD_not]
    cases c.getLsbD i <;> cases mask.getLsbD i <;> simp [hi]
  have hhigh : ∀ i < n, (c &&& ~~~mask).getLsbD i = false := by
    intro i hi
    rw [BitVec.getLsbD_and, BitVec.getLsbD_not]
    by_cases hw : i < w
    · rw [hmask i hw, decide_eq_true hi]
      simp
    · rw [decide_eq_false hw, Bool.false_and, Bool.and_false]
  have hrest : (c &&& ~~~mask) >>> n = c >>> n := by
    apply BitVec.eq_of_getLsbD_eq
    intro i _
    rw [BitVec.getLsbD_ushiftRight, BitVec.getLsbD_ushiftRight, BitVec.getLsbD_and, BitVec.getLsbD_not]
    by_cases hw : n + i < w
    · rw [hmask _ hw]
      simp [hw]
    · rw [BitVec.getLsbD_of_ge c _ (Nat.not_lt.mp hw), Bool.false_and]
  conv => lhs; rw [hsplit]
  rw [shifts_xor, shifts_of_low_clear polynomial hhigh, hrest]

/-- A byte at a time: the table is entered with the low bits of register and byte. -/
theorem step_eq_table (hmask : Masks mask 8) {table : BitVec w → BitVec w}
    (htable : ∀ c : BitVec w, table (c &&& mask) = shifts polynomial 8 (c &&& mask))
    (c : BitVec w) (byte : UInt8) :
    step polynomial c byte = table ((c ^^^ BitVec.ofNat w byte.toNat) &&& mask) ^^^ (c >>> 8) := by
  have hbyte : BitVec.ofNat w byte.toNat >>> 8 = 0#w := by
    apply BitVec.eq_of_toNat_eq
    rw [BitVec.toNat_ushiftRight, BitVec.toNat_ofNat, BitVec.toNat_ofNat, Nat.shiftRight_eq_div_pow,
      Nat.zero_mod]
    exact Nat.div_eq_of_lt (Nat.lt_of_le_of_lt (Nat.mod_le _ _) byte.toNat_lt)
  unfold step
  rw [shifts_split hmask, htable, BitVec.ushiftRight_xor_distrib, hbyte, BitVec.xor_zero]

end

end CyclicCode
