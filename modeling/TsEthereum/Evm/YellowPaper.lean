-- SUMMARY: What the arithmetic opcodes mean on words of 256 bits, and that the handlers compute it.
import TsEthereum.Base.TwosComplement
import TsEthereum.Evm.Arithmetic

/-!
# Arithmetic of words

The results as the Yellow Paper gives them, on words of 256 bits: a word is a
number below `2^256`, and where an opcode is signed it is read as the two's
complement of one. Each handler pops its words and pushes the word of the result.
-/

open Nat Int

abbrev Word := BitVec 256

namespace YellowPaper

def sdiv (a b : Word) : Word :=
  if b = 0 then 0
  else if a.toInt = -2 ^ 255 ∧ b.toInt = -1 then BitVec.ofInt 256 (-2 ^ 255)
  else BitVec.ofInt 256
    (a.toInt.sign * b.toInt.sign * ((a.toInt.natAbs / b.toInt.natAbs : Nat) : Int))

def smod (a b : Word) : Word :=
  if b = 0 then 0
  else BitVec.ofInt 256 (a.toInt.sign * ((a.toInt.natAbs % b.toInt.natAbs : Nat) : Int))

/-- The sum is not wrapped. -/
def addmod (a b c : Word) : Word :=
  if c = 0 then 0 else BitVec.ofNat 256 ((a.toNat + b.toNat) % c.toNat)

def mulmod (a b c : Word) : Word :=
  if c = 0 then 0 else BitVec.ofNat 256 ((a.toNat * b.toNat) % c.toNat)

def exp (a b : Word) : Word := BitVec.ofNat 256 (a.toNat ^ b.toNat)

/-- The last `k + 1` bytes, read with their sign. -/
def signextend (k x : Word) : Word :=
  if k.toNat < 31 then BitVec.ofInt 256 (x.setWidth (8 * k.toNat + 8)).toInt else x

def slt (a b : Word) : Word := if a.toInt < b.toInt then 1 else 0

def sgt (a b : Word) : Word := if a.toInt > b.toInt then 1 else 0

/-- Byte `0` is the first. -/
def byte (i x : Word) : Word :=
  if i.toNat < 32 then BitVec.ofNat 256 (x.toNat / 256 ^ (31 - i.toNat) % 256) else 0

def shl (a b : Word) : Word := BitVec.ofNat 256 (b.toNat * 2 ^ a.toNat)

def shr (a b : Word) : Word := BitVec.ofNat 256 (b.toNat / 2 ^ a.toNat)

/-- Rounded down, also where `b` is negative. -/
def sar (a b : Word) : Word := BitVec.ofInt 256 (b.toInt / 2 ^ a.toNat)

end YellowPaper

namespace Handlers

open TwosComplement

/-! ## Words as stack items -/

/-- The item of a word. -/
def item (w : Word) : Int := w.toNat

theorem item_nonneg (w : Word) : 0 ≤ item w := natCast_nonneg _

theorem item_lt (w : Word) : item w < 2 ^ 256 := by
  have h := w.isLt
  unfold item
  exact_mod_cast h

theorem item_eq_zero {w : Word} : item w = 0 ↔ w = 0 := by
  rw [item, natCast_eq_zero]
  exact ⟨fun h => BitVec.eq_of_toNat_eq h, fun h => h ▸ rfl⟩

theorem item_ofNat (n : Nat) : item (BitVec.ofNat 256 n) = ((n % 2 ^ 256 : Nat) : Int) := by
  rw [item, BitVec.toNat_ofNat]

theorem item_ofNat_of_lt {n : Nat} (h : n < 2 ^ 256) : item (BitVec.ofNat 256 n) = n := by
  rw [item_ofNat, mod_eq_of_lt h]

theorem fromTwos_item (w : Word) : fromTwos (item w) = w.toInt :=
  (BitVec.toInt_eq_toNat_bmod w).symm

theorem toTwos_eq (a : Int) : toTwos a = item (BitVec.ofInt 256 a) := by
  rw [item, BitVec.toNat_ofInt, toNat_of_nonneg (emod_nonneg _ (by decide))]
  rfl

theorem mod_natCast (a b : Nat) : mod a b = ((a % b : Nat) : Int) := by
  have hr : (a : Int).tmod b = ((a % b : Nat) : Int) := (ofNat_tmod a b).symm
  simp only [mod, hr]
  exact if_neg (by omega)

/-- The opcode pops the words and pushes the result. -/
def Computes (op : Nat) (args : List Word) (result : Word) : Prop :=
  ∃ handler, arithmeticHandlers op = some handler ∧
    ∀ (r : RunState) (env : Env) (s : EvmState) (rest : List Int),
      r.stack = args.map item ++ rest → handler r env s = pushed r rest (item result)

theorem computes_binary {op : Nat} {f : Int → Int → Int} {a b result : Word}
    (hop : arithmeticHandlers op = some (binary f)) (h : f (item a) (item b) = item result) :
    Computes op [a, b] result := by
  refine ⟨_, hop, fun r env s rest hstack => ?_⟩
  have hstack : r.stack = item a :: item b :: rest := hstack
  simp only [binary, hstack, h]

theorem computes_ternary {op : Nat} {f : Int → Int → Int → Int} {a b c result : Word}
    (hop : arithmeticHandlers op = some (ternary f))
    (h : f (item a) (item b) (item c) = item result) : Computes op [a, b, c] result := by
  refine ⟨_, hop, fun r env s rest hstack => ?_⟩
  have hstack : r.stack = item a :: item b :: item c :: rest := hstack
  simp only [ternary, hstack, h]

/-! ## Division -/

theorem sdiv_computes (a b : Word) : Computes 0x05 [a, b] (YellowPaper.sdiv a b) := by
  refine computes_binary rfl ?_
  unfold YellowPaper.sdiv
  simp only [item_eq_zero, fromTwos_item, toTwos_eq]
  split_ifs with hzero hmin
  · rfl
  · -- the one quotient that leaves the range comes back to where it started
    have hquotient : a.toInt.tdiv b.toInt = 2 ^ 255 := by
      rw [hmin.1, hmin.2]
      decide
    rw [hquotient]
    decide
  · rw [tdiv_eq_sign]

theorem smod_computes (a b : Word) : Computes 0x07 [a, b] (YellowPaper.smod a b) := by
  refine computes_binary rfl ?_
  unfold YellowPaper.smod
  simp only [item_eq_zero, fromTwos_item, toTwos_eq]
  split_ifs with hzero
  · rw [hzero]
    rfl
  · rw [tmod_eq_sign]

theorem addmod_computes (a b c : Word) : Computes 0x08 [a, b, c] (YellowPaper.addmod a b c) := by
  refine computes_ternary rfl ?_
  unfold YellowPaper.addmod
  simp only [item_eq_zero]
  split_ifs with hzero
  · rfl
  · have hpos : 0 < c.toNat := Nat.pos_of_ne_zero fun h => hzero (BitVec.eq_of_toNat_eq h)
    rw [item_ofNat_of_lt ((mod_lt _ hpos).trans c.isLt)]
    exact mod_natCast _ _

theorem mulmod_computes (a b c : Word) : Computes 0x09 [a, b, c] (YellowPaper.mulmod a b c) := by
  refine computes_ternary rfl ?_
  unfold YellowPaper.mulmod
  simp only [item_eq_zero]
  split_ifs with hzero
  · rfl
  · have hpos : 0 < c.toNat := Nat.pos_of_ne_zero fun h => hzero (BitVec.eq_of_toNat_eq h)
    rw [item_ofNat_of_lt ((mod_lt _ hpos).trans c.isLt)]
    exact mod_natCast _ _

/-! ## Powers -/

theorem tmod_TWO_POW256 (m : Nat) : (m : Int).tmod TWO_POW256 = ((m % 2 ^ 256 : Nat) : Int) :=
  (ofNat_tmod m (2 ^ 256)).symm

/-- What the loop of the squares has still to multiply in. -/
theorem exponentiation_loop (e : Nat) {t x : Nat} (ht : t < 2 ^ 256) :
    exponentiation.loop t x e = ((t * x ^ e % 2 ^ 256 : Nat) : Int) := by
  induction e using Nat.strong_induction_on generalizing t x with
  | _ e ih =>
    have hhalf : (e : Int).tdiv 2 = ((e / 2 : Nat) : Int) := (Int.ofNat_tdiv e 2).symm
    have hbit : (e : Int).tmod 2 = ((e % 2 : Nat) : Int) := (Int.ofNat_tmod e 2).symm
    rw [exponentiation.loop, hhalf, hbit, ← Nat.cast_mul, ← Nat.cast_mul, tmod_TWO_POW256,
      tmod_TWO_POW256]
    rcases e.eq_zero_or_pos with rfl | hpos
    · rw [if_neg (by decide), Nat.pow_zero, Nat.mul_one, Nat.mod_eq_of_lt ht]
    · have hlt : e / 2 < e := Nat.div_lt_self hpos (by decide)
      have hmod (m : Nat) : m % 2 ^ 256 < 2 ^ 256 := Nat.mod_lt _ (by decide)
      have hsquares : (x * x) ^ (e / 2) = x ^ (2 * (e / 2)) := by rw [← pow_two, ← pow_mul]
      rw [if_pos (by exact_mod_cast hpos)]
      rcases Nat.mod_two_eq_zero_or_one e with heven | hodd
      · have he : 2 * (e / 2) = e := by omega
        rw [heven, if_neg (by decide), ih _ hlt ht, Nat.mul_mod, ← Nat.pow_mod, ← Nat.mul_mod,
          hsquares, he]
      · have he : (2 * (e / 2)).succ = e := by omega
        rw [hodd, if_pos (by decide), ih _ hlt (hmod _), Nat.mul_mod, ← Nat.pow_mod, Nat.mod_mod,
          ← Nat.mul_mod, hsquares, Nat.mul_assoc, ← Nat.pow_succ', he]

theorem exp_computes (a b : Word) : Computes 0x0a [a, b] (YellowPaper.exp a b) := by
  refine computes_binary rfl ?_
  have hresult : item (YellowPaper.exp a b) = ((a.toNat ^ b.toNat % 2 ^ 256 : Nat) : Int) :=
    item_ofNat _
  have hpower {m n : Nat} (hm : item a = m) (hn : item b = n) :
      item (YellowPaper.exp a b) = ((m ^ n % 2 ^ 256 : Nat) : Int) := by
    rw [hresult, Int.ofNat_inj.mp hm, Int.ofNat_inj.mp hn]
  split_ifs with h96 h160 h224 hone hzero
  · rw [hpower h96.1 h96.2]
    decide
  · rw [hpower h160.1 h160.2]
    decide
  · rw [hpower h224.1 h224.2]
    decide
  · rw [hresult, natCast_eq_zero.mp hone]
    rfl
  · have hexponent : b.toNat ≠ 0 := fun h => hone (natCast_eq_zero.mpr h)
    rw [hresult, hzero, natCast_eq_zero.mp hzero, Nat.zero_pow (Nat.pos_of_ne_zero hexponent)]
    rfl
  · have hloop := exponentiation_loop b.toNat (t := 1) (x := a.toNat) (by decide)
    rw [hresult, ← Nat.one_mul (a.toNat ^ b.toNat)]
    exact hloop

/-! ## Signs -/

theorem slt_computes (a b : Word) : Computes 0x12 [a, b] (YellowPaper.slt a b) := by
  refine computes_binary rfl ?_
  unfold YellowPaper.slt
  simp only [fromTwos_item]
  split_ifs <;> rfl

theorem sgt_computes (a b : Word) : Computes 0x13 [a, b] (YellowPaper.sgt a b) := by
  refine computes_binary rfl ?_
  unfold YellowPaper.sgt
  simp only [fromTwos_item]
  split_ifs <;> rfl

theorem land_natCast (m n : Nat) : (m : Int).land n = ((m &&& n : Nat) : Int) := rfl

theorem lor_natCast (m n : Nat) : (m : Int).lor n = ((m ||| n : Nat) : Int) := rfl

theorem lnot_mask (s : Nat) : Int.lnot ((2 ^ s - 1 : Nat) : Int) = -((2 ^ s : Nat) : Int) := by
  have hpos := Nat.two_pow_pos s
  have hneg : Int.lnot ((2 ^ s - 1 : Nat) : Int) = Int.negSucc (2 ^ s - 1) := rfl
  rw [hneg, negSucc_eq]
  omega

theorem signextend_computes (k x : Word) : Computes 0x0b [k, x] (YellowPaper.signextend k x) := by
  refine computes_binary rfl ?_
  unfold YellowPaper.signextend
  have hcond : item k < 31 ↔ k.toNat < 31 := by
    unfold item
    omega
  by_cases hk : k.toNat < 31
  · obtain ⟨s, hs, hlt⟩ : ∃ s, s = 8 * k.toNat + 7 ∧ s < 256 := ⟨_, rfl, by omega⟩
    have hbit : item k * 8 + 7 = (s : Int) := by
      unfold item
      omega
    have hmask : (1 : Int) <<< (s : Int) - 1 = ((2 ^ s - 1 : Nat) : Int) := by
      rw [Int.one_shiftLeft, Nat.cast_sub (Nat.one_le_two_pow)]
      rfl
    have hwidth : 8 * k.toNat + 8 = s + 1 := by omega
    have hset : (item x >>> (s : Int)).land 1 ≠ 0 ↔ x.toNat.testBit s = true := by
      have hland : (item x >>> (s : Int)).land 1 = ((1 &&& x.toNat >>> s : Nat) : Int) := by
        rw [item, Int.shiftRight_natCast, Nat.and_comm]
        rfl
      rw [hland, Nat.testBit, bne_iff_ne, ne_eq, Int.natCast_eq_zero]
    have hresult : item (BitVec.ofInt 256 (x.setWidth (8 * k.toNat + 8)).toInt) =
        ((if x.toNat.testBit s then 2 ^ 256 - 2 ^ s + x.toNat % 2 ^ s else x.toNat % 2 ^ s : Nat) :
          Int) := by
      rw [item, hwidth, toNat_signExtend hlt]
    rw [if_pos (hcond.mpr hk), if_pos hk, hresult, hbit]
    simp only [hmask, hset, lnot_mask, toTwos_eq]
    split_ifs
    · have hhigh : item (BitVec.ofInt 256 (-((2 ^ s : Nat) : Int))) = ((2 ^ 256 - 2 ^ s : Nat) : Int) := by
        rw [item, toNat_ofInt_neg (Nat.pow_lt_pow_right (by decide) hlt) (Nat.two_pow_pos s)]
      rw [hhigh, item, lor_natCast, lor_high hlt.le x.isLt]
    · rw [item, land_natCast, Nat.and_two_pow_sub_one_eq_mod]
  · rw [if_neg (fun h => hk (hcond.mp h)), if_neg hk]

/-! ## Shifts -/

theorem land_byte (m : Nat) : (m : Int).land 255 = ((m % 256 : Nat) : Int) :=
  congrArg Nat.cast (and_two_pow_sub_one_eq_mod m 8)

theorem byte_computes (i x : Word) : Computes 0x1a [i, x] (YellowPaper.byte i x) := by
  refine computes_binary rfl ?_
  unfold YellowPaper.byte
  by_cases hfar : i.toNat > 32
  · have hitem : item i > 32 := by
      unfold item
      omega
    rw [if_pos hitem, if_neg (by omega)]
    rfl
  · have hitem : ¬item i > 32 := by
      unfold item
      omega
    rw [if_neg hitem]
    by_cases hin : i.toNat < 32
    · have hshift : (31 - item i) * 8 = ((8 * (31 - i.toNat) : Nat) : Int) := by
        unfold item
        omega
      have hpow : 256 ^ (31 - i.toNat) = 2 ^ (8 * (31 - i.toNat)) := by
        rw [Nat.pow_mul]
      rw [if_pos hin, hshift, item, Int.shiftRight_natCast, land_byte, Nat.shiftRight_eq_div_pow,
        hpow, item_ofNat_of_lt ((Nat.mod_lt _ (by decide)).trans (by decide))]
    · -- the shift goes the other way, and clears the last byte
      have hshift : (31 - item i) * 8 = -((8 : Nat) : Int) := by
        unfold item
        omega
      rw [if_neg hin, hshift, item, Int.shiftRight_neg, Int.shiftLeft_natCast, land_byte,
        Nat.shiftLeft_eq, Nat.mul_mod_left]
      rfl

theorem item_gt_256 (w : Word) : item w > 256 ↔ 256 < w.toNat := by
  unfold item
  omega

theorem shl_computes (a b : Word) : Computes 0x1b [a, b] (YellowPaper.shl a b) := by
  refine computes_binary rfl ?_
  have hresult : item (YellowPaper.shl a b) = ((b.toNat * 2 ^ a.toNat % 2 ^ 256 : Nat) : Int) :=
    item_ofNat _
  rw [hresult]
  by_cases hfar : 256 < a.toNat
  · have hdvd : 2 ^ 256 ∣ b.toNat * 2 ^ a.toNat :=
      Dvd.dvd.mul_left (Nat.pow_dvd_pow 2 hfar.le) _
    rw [if_pos ((item_gt_256 a).mpr hfar), Nat.mod_eq_zero_of_dvd hdvd]
    rfl
  · have hmask : MAX_INTEGER_BIGINT = ((2 ^ 256 - 1 : Nat) : Int) := rfl
    rw [if_neg (fun h => hfar ((item_gt_256 a).mp h)), item, item, Int.shiftLeft_natCast, hmask,
      land_natCast, Nat.and_two_pow_sub_one_eq_mod, Nat.shiftLeft_eq]

theorem shr_computes (a b : Word) : Computes 0x1c [a, b] (YellowPaper.shr a b) := by
  refine computes_binary rfl ?_
  have hresult : item (YellowPaper.shr a b) = ((b.toNat / 2 ^ a.toNat : Nat) : Int) :=
    item_ofNat_of_lt ((Nat.div_le_self _ _).trans_lt b.isLt)
  rw [hresult]
  by_cases hfar : 256 < a.toNat
  · have hlt : b.toNat < 2 ^ a.toNat := b.isLt.trans_le (Nat.pow_le_pow_right (by decide) hfar.le)
    rw [if_pos ((item_gt_256 a).mpr hfar), Nat.div_eq_of_lt hlt]
    rfl
  · rw [if_neg (fun h => hfar ((item_gt_256 a).mp h)), item, item, Int.shiftRight_natCast,
      Nat.shiftRight_eq_div_pow]

/-- Where the sign is set, all bits above the shifted ones are. -/
theorem sar_negative {a x : Nat} (ha : a ≤ 255) (hx : x < 2 ^ 256) (hsign : 2 ^ 255 ≤ x) :
    x / 2 ^ a ||| (2 ^ 256 - 1) / 2 ^ (255 - a) * 2 ^ (255 - a) =
      2 ^ 256 - (2 ^ (256 - a) - x / 2 ^ a) := by
  have hhigh : 2 ^ (255 - a) ≤ x / 2 ^ a := by
    rw [Nat.le_div_iff_mul_le (Nat.two_pow_pos a), ← Nat.pow_add, Nat.sub_add_cancel ha]
    exact hsign
  have hlow : x / 2 ^ a < 2 ^ (256 - a) := by
    rw [Nat.div_lt_iff_lt_mul (Nat.two_pow_pos a), ← Nat.pow_add, Nat.sub_add_cancel (by omega)]
    exact hx
  have hdouble : 2 ^ (256 - a) = 2 ^ (255 - a) + 2 ^ (255 - a) := by
    rw [← Nat.two_mul, ← Nat.pow_succ']
    congr 1
    omega
  have hmod : x / 2 ^ a % 2 ^ (255 - a) = x / 2 ^ a - 2 ^ (255 - a) := by
    rw [mod_eq_sub_mod hhigh, mod_eq_of_lt (by omega)]
  have hle : 2 ^ (256 - a) ≤ 2 ^ 256 := Nat.pow_le_pow_right (by decide) (by omega)
  rw [allOnes_div_mul (by omega), lor_high (by omega) ((Nat.div_le_self _ _).trans_lt hx), hmod]
  omega

theorem sar_computes (a b : Word) : Computes 0x1d [a, b] (YellowPaper.sar a b) := by
  refine computes_binary rfl ?_
  have hx := b.isLt
  have hcond := BitVec.toInt_eq_toNat_cond b
  have hresult : item (YellowPaper.sar a b) =
      ((BitVec.ofInt 256 (b.toInt / ((2 ^ a.toNat : Nat) : Int))).toNat : Int) := by
    rw [item, YellowPaper.sar]
    push_cast
    rfl
  simp only [fromTwos_item, decide_eq_true_eq]
  rw [hresult]
  by_cases hsign : b.toInt < 0
  · have hlarge : 2 ^ 255 ≤ b.toNat := by
      split_ifs at hcond <;> omega
    have hvalue : b.toInt = (b.toNat : Int) - ((2 ^ 256 : Nat) : Int) := by
      split_ifs at hcond with hsmall
      · omega
      · exact hcond
    by_cases hnear : a.toNat ≤ 255
    · have hlow : b.toNat / 2 ^ a.toNat < 2 ^ (256 - a.toNat) := by
        rw [Nat.div_lt_iff_lt_mul (Nat.two_pow_pos _), ← Nat.pow_add, Nat.sub_add_cancel (by omega)]
        exact hx
      have hpos : 0 < b.toNat / 2 ^ a.toNat :=
        Nat.div_pos ((Nat.pow_le_pow_right (by decide) hnear).trans hlarge) (Nat.two_pow_pos _)
      have hle : 2 ^ (256 - a.toNat) ≤ 2 ^ 256 := Nat.pow_le_pow_right (by decide) (by omega)
      have hdiv : b.toInt / ((2 ^ a.toNat : Nat) : Int) =
          -((2 ^ (256 - a.toNat) - b.toNat / 2 ^ a.toNat : Nat) : Int) := by
        have hpow : ((2 ^ 256 : Nat) : Int) =
            ((2 ^ (256 - a.toNat) : Nat) : Int) * ((2 ^ a.toNat : Nat) : Int) := by
          rw [← Nat.cast_mul, ← Nat.pow_add, Nat.sub_add_cancel (by omega)]
        have hne : ((2 ^ a.toNat : Nat) : Int) ≠ 0 := by exact_mod_cast (Nat.two_pow_pos _).ne'
        rw [hvalue, hpow, sub_eq_add_neg, ← neg_mul, Int.add_mul_ediv_right _ _ hne,
          Nat.cast_sub hlow.le, Int.natCast_ediv]
        ring
      have hwidth : 255 - item a = ((255 - a.toNat : Nat) : Int) := by
        unfold item
        omega
      have hmax : MAX_INTEGER_BIGINT = ((2 ^ 256 - 1 : Nat) : Int) := rfl
      rw [hdiv, toNat_ofInt_neg (by omega) (by omega), if_neg (by rw [item_gt_256]; omega),
        if_pos hsign, hwidth, hmax, Int.shiftRight_natCast, Int.shiftLeft_natCast, item, item,
        Int.shiftRight_natCast, lor_natCast, Nat.shiftLeft_eq, Nat.shiftRight_eq_div_pow,
        Nat.shiftRight_eq_div_pow, sar_negative hnear hx hlarge]
    · -- nothing is left but the sign
      have hpow : ((2 ^ 256 : Nat) : Int) ≤ ((2 ^ a.toNat : Nat) : Int) := by
        exact_mod_cast Nat.pow_le_pow_right (by decide) (Nat.lt_of_not_le hnear)
      have hdiv : b.toInt / ((2 ^ a.toNat : Nat) : Int) = -((1 : Nat) : Int) := by
        refine le_antisymm ?_ (Int.le_ediv_of_mul_le (by omega) (by omega))
        exact Int.le_sub_one_of_lt (Int.ediv_neg_of_neg_of_pos hsign (by omega))
      rw [hdiv, toNat_ofInt_neg (by decide) (by decide)]
      by_cases hfar : 256 < a.toNat
      · rw [if_pos ((item_gt_256 a).mpr hfar), if_pos hsign]
        rfl
      · have ha : item a = 256 := by
          unfold item
          omega
        have hzero : item b >>> (256 : Int) = 0 := by
          have hshift : item b >>> ((256 : Nat) : Int) = ((b.toNat >>> 256 : Nat) : Int) :=
            Int.shiftRight_natCast _ _
          rw [Nat.shiftRight_eq_div_pow, Nat.div_eq_of_lt hx] at hshift
          exact hshift
        rw [ha, if_neg (by decide), if_pos hsign, hzero]
        decide
  · have hvalue : b.toInt = b.toNat := by
      split_ifs at hcond with hsmall
      · exact hcond
      · omega
    rw [if_neg hsign, if_neg hsign, hvalue, ← Int.natCast_ediv,
      toNat_ofInt_natCast ((Nat.div_le_self _ _).trans_lt hx)]
    by_cases hfar : 256 < a.toNat
    · have hlt : b.toNat < 2 ^ a.toNat := hx.trans_le (Nat.pow_le_pow_right (by decide) hfar.le)
      rw [if_pos ((item_gt_256 a).mpr hfar), Nat.div_eq_of_lt hlt]
      rfl
    · rw [if_neg (fun h => hfar ((item_gt_256 a).mp h)), item, item, Int.shiftRight_natCast,
        Nat.shiftRight_eq_div_pow]

/-- For all words the opcodes compute the result on words, which is a word again. -/
theorem arithmetic_computes (a b c : Word) :
    Computes 0x05 [a, b] (YellowPaper.sdiv a b) ∧ Computes 0x07 [a, b] (YellowPaper.smod a b) ∧
    Computes 0x08 [a, b, c] (YellowPaper.addmod a b c) ∧
    Computes 0x09 [a, b, c] (YellowPaper.mulmod a b c) ∧
    Computes 0x0a [a, b] (YellowPaper.exp a b) ∧ Computes 0x0b [a, b] (YellowPaper.signextend a b) ∧
    Computes 0x12 [a, b] (YellowPaper.slt a b) ∧ Computes 0x13 [a, b] (YellowPaper.sgt a b) ∧
    Computes 0x1a [a, b] (YellowPaper.byte a b) ∧ Computes 0x1b [a, b] (YellowPaper.shl a b) ∧
    Computes 0x1c [a, b] (YellowPaper.shr a b) ∧ Computes 0x1d [a, b] (YellowPaper.sar a b) ∧
    ∀ result : Word, 0 ≤ item result ∧ item result < 2 ^ 256 :=
  ⟨sdiv_computes a b, smod_computes a b, addmod_computes a b c, mulmod_computes a b c,
    exp_computes a b, signextend_computes a b, slt_computes a b, sgt_computes a b,
    byte_computes a b, shl_computes a b, shr_computes a b, sar_computes a b,
    fun result => ⟨item_nonneg result, item_lt result⟩⟩

end Handlers
