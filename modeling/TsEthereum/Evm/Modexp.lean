-- SUMMARY: The MODEXP precompile: what it returns and what it charges, for every fork and every input.
import TsEthereum.Evm.Types
import TsEthereum.Rlp.Rlp
import Mathlib.Algebra.Order.Ring.Nat
import Mathlib.Data.Nat.ModEq

/-!
# MODEXP

`precompiles/05-modexp.ts`. The numbers that are read from the input are not negative,
and are natural numbers here. A `Number` of such a number is the nearest double.
-/

open List Nat

namespace Modexp

structure PrecompileInput where
  data : Bytes
  gasLimit : Int
  common : GlobalConfig

/-- `bytesToBigInt`. -/
def toBigInt (bytes : Bytes) : Nat := (bytesToBigInt bytes).toNat

def subarray (data : Bytes) (start stop : Nat) : Bytes := (data.drop start).take (stop - start)

def multiplicationComplexity (x : Nat) : Nat :=
  if x ≤ 64 then x ^ 2
  else if x ≤ 1024 then x ^ 2 / 4 + x * 96 - 3072
  else x ^ 2 / 16 + x * 480 - 199680

/-- The loop that counts the bits of a number, with as many rounds at most as it has bits. -/
def countBits : Nat → Nat → Int → Int
  | 0, _, bitLen => bitLen
  | rounds + 1, n, bitLen => if n > 0 then countBits rounds (n >>> 1) (bitLen + 1) else bitLen

def getAdjustedExponentLength (data : Bytes) (common : GlobalConfig) : Nat :=
  let baseLen := toBigInt (subarray data 0 32)
  let expBytesStart := Rlp.toNumber (96 + Rlp.toNumber baseLen)
  let expLen := toBigInt (subarray data 32 64)
  let firstExpBytes := setLengthRight
    (subarray data expBytesStart (Rlp.toNumber (expBytesStart + 32))) 32
  let max32expLen := if expLen < 32 then 32 - expLen else 0
  let firstExpBigInt := toBigInt firstExpBytes >>> (8 * max32expLen)
  let bitLen := countBits 256 firstExpBigInt (-1)
  let adjustedExpLen := (expLen - 32) * (if common.isActivatedEIP 7883 then 16 else 8)
  if bitLen > 0 then adjustedExpLen + bitLen.toNat else adjustedExpLen

/-- The loop of `expMod`; every round halves the power. -/
def expModLoop (modulo : Nat) : Nat → Nat → Nat → Nat → Nat
  | 0, _, _, res => res
  | rounds + 1, a, power, res =>
    if power > 0 then
      expModLoop modulo rounds (a * a % modulo) (power >>> 1)
        (if power % 2 = 1 then res * a % modulo else res)
    else res

def expMod (a power modulo : Nat) : Nat :=
  if power = 0 then 1 % modulo else expModLoop modulo (power.log2 + 1) a power 1

/-- The gas of a fork, and before EIP-2565 with a divisor of its own. -/
def gasUsed (common : GlobalConfig) (adjustedELen maxLen : Nat) : Int :=
  let Gquaddivisor := common.param "modexpGquaddivisorGas"
  if common.isActivatedEIP 2565 then
    let words := (maxLen + 7) / 8
    if common.isActivatedEIP 7883 then
      let gasUsed : Int := (adjustedELen * (if maxLen > 32 then 2 * words * words else 16) : Nat)
      if gasUsed < 500 then 500 else gasUsed
    else
      let gasUsed := ((adjustedELen * words * words : Nat) : Int).tdiv Gquaddivisor
      if gasUsed < 200 then 200 else gasUsed
  else ((adjustedELen * multiplicationComplexity maxLen : Nat) : Int).tdiv Gquaddivisor

/-- A result without an error. -/
def returned (gasUsed : Int) (returnValue : Bytes) : ExecResult where
  executionGasUsed := gasUsed
  exceptionError := none
  returnValue := returnValue
  logs := none
  selfdestruct := none
  createdAddresses := none
  gasRefund := none

def maxInt : Nat := 2 ^ 53 - 1

def maxSize (common : GlobalConfig) : Nat :=
  if common.isActivatedEIP 7823 then 1024 else 2147483647

def precompile05 (opts : PrecompileInput) : ExecResult :=
  let data := if opts.data.length < 96 then setLengthRight opts.data 96 else opts.data
  let adjustedELen := max (getAdjustedExponentLength data opts.common) 1
  let bLen := toBigInt (subarray data 0 32)
  let eLen := toBigInt (subarray data 32 64)
  let mLen := toBigInt (subarray data 64 96)
  let maxLen := max bLen mLen
  let bStart := 96
  let bEnd := bStart + bLen
  let eStart := bEnd
  let eEnd := eStart + eLen
  let mStart := eEnd
  let mEnd := mStart + mLen
  let gasUsed := gasUsed opts.common adjustedELen maxLen
  if opts.gasLimit < gasUsed then OOGResult opts.gasLimit
  else if opts.common.isActivatedEIP 7823 = false ∧ bLen = 0 ∧ mLen = 0 then returned gasUsed []
  else if bLen > maxSize opts.common ∨ eLen > maxSize opts.common ∨
      mLen > maxSize opts.common then
    OOGResult opts.gasLimit
  else if mEnd > maxInt then OOGResult opts.gasLimit
  else
    let B := toBigInt (setLengthRight (subarray data bStart bEnd) bLen)
    let E := toBigInt (setLengthRight (subarray data eStart eEnd) eLen)
    let M := toBigInt (setLengthRight (subarray data mStart mEnd) mLen)
    let R := if M = 0 then []
      else
        let R := expMod B E M
        if R = 0 then [] else bigIntToBytes R
    returned gasUsed (setLengthLeft R mLen)

/-! ## The parameter -/

/-- The rows of `paramsEVM` that have `modexpGquaddivisorGas`. -/
def quaddivisorRow : Nat → Option Int
  | 609 => some 20
  | 2565 => some 3
  | _ => none

/-- What the last active EIP that has the parameter gives. -/
def forkQuaddivisor (hardfork : Hardfork) : Option Int :=
  ((HARDFORK_ORDER.take (hardfork.index + 1)).flatMap Hardfork.eips).foldl
    (fun result eip => (quaddivisorRow eip).or result) none

/-- The configuration of a fork: the parameter is not overridden. -/
def AtFork (common : GlobalConfig) : Prop :=
  forkQuaddivisor common.hardfork = some (common.param "modexpGquaddivisorGas")

/-! ## Specification -/

/-- `len` bytes from `start` on, of the input followed by infinitely many zeros. -/
def readAt (data : Bytes) (start len : Nat) : Bytes :=
  (List.range len).map fun i => data.getD (start + i) 0

/-- Their number. -/
def numberAt (data : Bytes) (start len : Nat) : Nat := toBigInt (readAt data start len)

section Spec

variable (data : Bytes)

def baseLength : Nat := numberAt data 0 32
def exponentLength : Nat := numberAt data 32 32
def modulusLength : Nat := numberAt data 64 32

def base : Nat := numberAt data 96 (baseLength data)

def exponent : Nat := numberAt data (96 + baseLength data) (exponentLength data)

def modulus : Nat :=
  numberAt data (96 + baseLength data + exponentLength data) (modulusLength data)

/-- The leading 32 bytes of the exponent. -/
def exponentHead : Nat := numberAt data (96 + baseLength data) (min 32 (exponentLength data))

/-- The adjusted exponent length: the index of the highest bit of the leading bytes, and
`weight` for every byte behind them; at least 1. -/
def iterationCount (weight : Nat) : Nat :=
  max (weight * (exponentLength data - 32) + (exponentHead data).log2) 1

def maxLength : Nat := max (baseLength data) (modulusLength data)

def words : Nat := (maxLength data + 7) / 8

/-- `mult_complexity` of EIP-198. -/
def complexity198 : Nat :=
  let x := maxLength data
  if x ≤ 64 then x ^ 2
  else if x ≤ 1024 then x ^ 2 / 4 + 96 * x - 3072
  else x ^ 2 / 16 + 480 * x - 199680

def gas198 : Nat := complexity198 data * iterationCount data 8 / 20

def gas2565 : Nat := max 200 (words data ^ 2 * iterationCount data 8 / 3)

def gas7883 : Nat :=
  max 500 ((if maxLength data ≤ 32 then 16 else 2 * words data ^ 2) * iterationCount data 16)

def gas (hardfork : Hardfork) : Nat :=
  if Hardfork.Osaka.index ≤ hardfork.index then gas7883 data
  else if Hardfork.Berlin.index ≤ hardfork.index then gas2565 data
  else gas198 data

/-- EIP-7823 limits the lengths to 1024, and before it they have to fit into 31 bits. -/
def sizeLimit (hardfork : Hardfork) : Nat :=
  if Hardfork.Osaka.index ≤ hardfork.index then 1024 else 2 ^ 31 - 1

end Spec

/-! ## Reading -/

theorem length_readAt (data : Bytes) (start len : Nat) : (readAt data start len).length = len := by
  rw [readAt, length_map, length_range]

theorem readAt_append (data : Bytes) (start n k : Nat) :
    readAt data start (n + k) = readAt data start n ++ readAt data (start + n) k := by
  simp only [readAt, range_add, map_append, map_map]
  refine congrArg _ (map_congr_left fun i _ => ?_)
  simp only [Function.comp_apply, Nat.add_assoc]

/-- Bytes of the input that are missing are read as zeros. -/
theorem setLengthRight_subarray (data : Bytes) (start len : Nat) :
    setLengthRight (subarray data start (start + len)) len = readAt data start len := by
  refine ext_getElem? fun i => ?_
  unfold setLengthRight subarray readAt
  rw [Nat.add_sub_cancel_left]
  grind

/-- The input that is filled up to 96 bytes has the same bytes. -/
theorem readAt_padded (data : Bytes) (start len : Nat) :
    readAt (if data.length < 96 then setLengthRight data 96 else data) start len =
      readAt data start len := by
  split
  · rename_i hshort
    refine map_congr_left fun i _ => ?_
    rw [setLengthRight, if_pos hshort]
    grind
  · rfl

theorem subarray_eq_readAt {data : Bytes} {start len : Nat} (h : start + len ≤ data.length) :
    subarray data start (start + len) = readAt data start len := by
  rw [← setLengthRight_subarray, setLengthRight, if_neg]
  · rw [subarray, Nat.add_sub_cancel_left, take_take, Nat.min_self]
  · rw [subarray, Nat.add_sub_cancel_left, length_take, length_drop]
    omega

theorem cast_toBigInt (bytes : Bytes) : (toBigInt bytes : Int) = bytesToBigInt bytes :=
  Int.toNat_of_nonneg (bytesToBigInt_bounds bytes).1

theorem toBigInt_append (a b : Bytes) :
    toBigInt (a ++ b) = 256 ^ b.length * toBigInt a + toBigInt b := by
  have h := bytesToBigInt_append a b
  rw [← cast_toBigInt, ← cast_toBigInt, ← cast_toBigInt] at h
  exact_mod_cast h

theorem toBigInt_lt (bytes : Bytes) : toBigInt bytes < 256 ^ bytes.length := by
  have h := (bytesToBigInt_bounds bytes).2
  rw [← cast_toBigInt] at h
  exact_mod_cast h

theorem numberAt_lt (data : Bytes) (start len : Nat) : numberAt data start len < 256 ^ len := by
  have h := toBigInt_lt (readAt data start len)
  rwa [length_readAt] at h

/-- A shift by whole bytes leaves the leading ones. -/
theorem numberAt_shiftRight (data : Bytes) (start n k : Nat) :
    numberAt data start (n + k) >>> (8 * k) = numberAt data start n := by
  have hweight : 2 ^ (8 * k) = 256 ^ k := by rw [pow_mul]; rfl
  rw [numberAt, readAt_append, toBigInt_append, length_readAt, shiftRight_eq_div_pow, hweight,
    mul_add_div (by positivity)]
  exact Nat.add_eq_left.mpr (div_eq_of_lt (numberAt_lt data (start + n) k))

/-! ## Loops -/

theorem countBits_eq (rounds : Nat) {n : Nat} (hn : n < 2 ^ rounds) (bitLen : Int) :
    countBits rounds n bitLen = if n = 0 then bitLen else bitLen + 1 + n.log2 := by
  induction rounds generalizing n bitLen with
  | zero =>
    obtain rfl : n = 0 := by omega
    rfl
  | succ rounds ih =>
    rcases Nat.eq_zero_or_pos n with rfl | hpos
    · rfl
    · have hhalf : n / 2 < 2 ^ rounds := by omega
      rw [countBits, if_pos hpos, shiftRight_one, ih hhalf, if_neg hpos.ne', log2_def n]
      split <;> split <;> omega

/-- Square and multiply: what is left to multiply is a power of what is left of the base. -/
theorem expModLoop_eq (modulo : Nat) (rounds : Nat) {power : Nat} (hlt : power < 2 ^ rounds)
    (hpos : 0 < power) (a res : Nat) :
    expModLoop modulo rounds a power res = res * a ^ power % modulo := by
  induction rounds generalizing power a res with
  | zero => omega
  | succ rounds ih =>
    have hsplit : power = power % 2 + 2 * (power / 2) := (mod_add_div power 2).symm
    have hsquare : a * a % modulo ≡ a ^ 2 [MOD modulo] := pow_two a ▸ mod_modEq _ _
    have hres : (if power % 2 = 1 then res * a % modulo else res) ≡ res * a ^ (power % 2)
        [MOD modulo] := by
      rcases mod_two_eq_zero_or_one power with h | h <;> rw [h]
      · simpa using Nat.ModEq.refl res
      · simpa using mod_modEq (res * a) modulo
    rw [expModLoop, if_pos hpos, shiftRight_one]
    rcases Nat.eq_zero_or_pos (power / 2) with hzero | hrest
    · -- the last round
      obtain rfl : power = 1 := by omega
      cases rounds <;> simp [expModLoop]
    · rw [ih (by omega) hrest]
      calc _ ≡ res * a ^ (power % 2) * (a ^ 2) ^ (power / 2) [MOD modulo] :=
            hres.mul (hsquare.pow _)
        _ = res * a ^ power := by rw [← pow_mul, mul_assoc, ← pow_add, ← hsplit]

theorem expMod_eq (a power modulo : Nat) : expMod a power modulo = a ^ power % modulo := by
  unfold expMod
  split
  · rename_i h
    rw [h, pow_zero]
  · rename_i h
    rw [expModLoop_eq modulo _ lt_log2_self (Nat.pos_of_ne_zero h), one_mul]

/-! ## The forks -/

theorem isActivated_2565 (common : GlobalConfig) :
    common.isActivatedEIP 2565 = decide (Hardfork.Berlin.index ≤ common.hardfork.index) := by
  rcases common with ⟨hardfork, _, _, _, _⟩
  cases hardfork <;> rfl

/-- The EIPs of Osaka. -/
theorem isActivated_osaka {eip : Nat} (heip : eip = 7823 ∨ eip = 7883) (common : GlobalConfig) :
    common.isActivatedEIP eip = decide (Hardfork.Osaka.index ≤ common.hardfork.index) := by
  rcases common with ⟨hardfork, _, _, _, _⟩
  rcases heip with rfl | rfl <;> cases hardfork <;> rfl

theorem AtFork.param {common : GlobalConfig} (h : AtFork common)
    (hfork : Hardfork.Byzantium.index ≤ common.hardfork.index) :
    common.param "modexpGquaddivisorGas" =
      if Hardfork.Berlin.index ≤ common.hardfork.index then 3 else 20 := by
  refine Option.some_inj.mp (h.symm.trans ?_)
  generalize common.hardfork = hardfork at hfork ⊢
  cases hardfork <;> first | rfl | exact absurd hfork (by decide)

/-- What a byte behind the leading 32 bytes of the exponent costs. -/
def weight (hardfork : Hardfork) : Nat := if Hardfork.Osaka.index ≤ hardfork.index then 16 else 8

theorem gasUsed_eq {common : GlobalConfig} (h : AtFork common)
    (hfork : Hardfork.Byzantium.index ≤ common.hardfork.index) (data : Bytes) :
    gasUsed common (iterationCount data (weight common.hardfork)) (maxLength data) =
      gas data common.hardfork := by
  unfold gasUsed gas weight
  rw [isActivated_2565, isActivated_osaka (.inr rfl), h.param hfork]
  simp only [decide_eq_true_eq]
  by_cases hosaka : Hardfork.Osaka.index ≤ common.hardfork.index
  · have hberlin : Hardfork.Berlin.index ≤ common.hardfork.index := le_trans (by decide) hosaka
    have hword : (if maxLength data > 32 then 2 * ((maxLength data + 7) / 8) *
        ((maxLength data + 7) / 8) else 16) =
        if maxLength data ≤ 32 then 16 else 2 * words data ^ 2 := by
      rw [words, pow_two, ← mul_assoc]
      split_ifs <;> omega
    simp only [if_pos hosaka, if_pos hberlin, hword, gas7883, Nat.mul_comm _ (iterationCount _ _)]
    split <;> omega
  · simp only [if_neg hosaka]
    by_cases hberlin : Hardfork.Berlin.index ≤ common.hardfork.index
    · simp only [if_pos hberlin, gas2565, words, pow_two, mul_assoc,
        Nat.mul_comm (iterationCount _ _)]
      rw [Int.tdiv_eq_ediv_of_nonneg (Int.natCast_nonneg _)]
      split <;> omega
    · simp only [if_neg hberlin, gas198, complexity198, multiplicationComplexity,
        Nat.mul_comm (iterationCount _ _), Nat.mul_comm (maxLength data)]
      rw [Int.tdiv_eq_ediv_of_nonneg (Int.natCast_nonneg _)]
      exact (Int.natCast_ediv _ _).symm

theorem maxSize_eq (common : GlobalConfig) : maxSize common = sizeLimit common.hardfork := by
  rw [maxSize, sizeLimit, isActivated_osaka (.inl rfl)]
  simp only [decide_eq_true_eq, show 2 ^ 31 - 1 = 2147483647 from rfl]

/-! ## The precompile -/

theorem getAdjustedExponentLength_eq {data : Bytes} (hdata : 96 ≤ data.length)
    (common : GlobalConfig) (hlen : baseLength data ≤ sizeLimit common.hardfork) :
    max (getAdjustedExponentLength data common) 1 =
      iterationCount data (weight common.hardfork) := by
  have hlimit : sizeLimit common.hardfork ≤ 2 ^ 31 - 1 := by
    unfold sizeLimit
    split <;> decide
  have hb : toBigInt (subarray data 0 32) = baseLength data :=
    congrArg toBigInt (@subarray_eq_readAt data 0 32 (by omega))
  have he : toBigInt (subarray data 32 64) = exponentLength data :=
    congrArg toBigInt (@subarray_eq_readAt data 32 32 (by omega))
  have hweight : (if common.isActivatedEIP 7883 = true then 16 else 8) =
      weight common.hardfork := by
    rw [isActivated_osaka (.inr rfl), weight]
    simp only [decide_eq_true_eq]
  have hhead : toBigInt (readAt data (96 + baseLength data) 32) >>>
      (8 * if exponentLength data < 32 then 32 - exponentLength data else 0) =
        exponentHead data := by
    unfold exponentHead
    split
    · rename_i hshort
      rw [min_eq_right hshort.le, ← numberAt_shiftRight data _ _ (32 - exponentLength data),
        Nat.add_sub_cancel' hshort.le]
      rfl
    · rename_i hlong
      rw [min_eq_left (Nat.le_of_not_lt hlong)]
      rfl
  have hbits : exponentHead data < 2 ^ 256 := by
    refine (numberAt_lt data _ _).trans_le ?_
    exact (Nat.pow_le_pow_right (by decide) (min_le_left _ _)).trans (by decide)
  unfold getAdjustedExponentLength
  simp only [hb, he, Rlp.toNumber_of_lt (by omega : baseLength data < 2 ^ 53),
    Rlp.toNumber_of_lt (by omega : 96 + baseLength data < 2 ^ 53),
    Rlp.toNumber_of_lt (by omega : 96 + baseLength data + 32 < 2 ^ 53), setLengthRight_subarray,
    hhead, countBits_eq 256 hbits, hweight]
  rw [iterationCount, Nat.mul_comm]
  rcases Nat.eq_zero_or_pos (exponentHead data) with hzero | hpos
  · simp [hzero, log2_zero]
  · rw [if_neg hpos.ne']
    split <;> omega

/-- The result in as many bytes as the modulus. -/
theorem toBigInt_power (R M len : Nat) (hM : M < 256 ^ len) :
    toBigInt (setLengthLeft (if M = 0 then []
      else if R % M = 0 then [] else bigIntToBytes (R % M : Nat)) len) =
        if M = 0 then 0 else R % M := by
  have hpadded (bytes : Bytes) (h : toBigInt bytes < 256 ^ len) :
      toBigInt (setLengthLeft bytes len) = toBigInt bytes := by
    refine Int.natCast_inj.mp ?_
    rw [cast_toBigInt, bytesToBigInt_setLengthLeft, ← cast_toBigInt]
    exact_mod_cast mod_eq_of_lt h
  have hnone : toBigInt (setLengthLeft [] len) = 0 := hpadded [] (by positivity)
  split
  · exact hnone
  · split
    · rw [hnone, ‹R % M = 0›]
    · have hnumber : toBigInt (bigIntToBytes (R % M : Nat)) = R % M :=
        Int.natCast_inj.mp ((cast_toBigInt _).trans (bytesToBigInt_bigIntToBytes _))
      rw [hpadded _ (hnumber.symm ▸ (mod_lt _ (by omega)).trans hM), hnumber]

/-- MODEXP gives the power that the input asks for, in as many bytes as the modulus has, and
charges what the formula of the fork says. -/
theorem precompile05_eq (opts : PrecompileInput) (hparam : AtFork opts.common)
    (hfork : Hardfork.Byzantium.index ≤ opts.common.hardfork.index)
    (hbase : baseLength opts.data ≤ sizeLimit opts.common.hardfork)
    (hexponent : exponentLength opts.data ≤ sizeLimit opts.common.hardfork)
    (hmodulus : modulusLength opts.data ≤ sizeLimit opts.common.hardfork)
    (hgas : gas opts.data opts.common.hardfork ≤ opts.gasLimit) :
    (precompile05 opts).exceptionError = none ∧
      (precompile05 opts).executionGasUsed = gas opts.data opts.common.hardfork ∧
      (precompile05 opts).returnValue.length = modulusLength opts.data ∧
      toBigInt (precompile05 opts).returnValue =
        if modulus opts.data = 0 then 0
        else base opts.data ^ exponent opts.data % modulus opts.data := by
  obtain ⟨input, gasLimit, common⟩ := opts
  simp only at hparam hfork hbase hexponent hmodulus hgas ⊢
  set data := if input.length < 96 then setLengthRight input 96 else input with hdata
  have hread (start len : Nat) : readAt data start len = readAt input start len :=
    readAt_padded input start len
  have hfilled : 96 ≤ data.length := by
    rw [hdata]
    split
    · rw [setLengthRight, if_pos ‹_›, length_append, length_replicate]
      omega
    · omega
  have hnumber {start len : Nat} (h : start + len ≤ 96) :
      toBigInt (subarray data start (start + len)) = numberAt input start len := by
    rw [subarray_eq_readAt (h.trans hfilled), hread]
    rfl
  have hb : toBigInt (subarray data 0 32) = baseLength input := @hnumber 0 32 (by omega)
  have he : toBigInt (subarray data 32 64) = exponentLength input := @hnumber 32 32 (by omega)
  have hm : toBigInt (subarray data 64 96) = modulusLength input := @hnumber 64 32 (by omega)
  have hoperand (start len : Nat) :
      toBigInt (setLengthRight (subarray data start (start + len)) len) =
        numberAt input start len := by
    rw [setLengthRight_subarray, hread]
    rfl
  have hlimit : sizeLimit common.hardfork ≤ 2 ^ 31 - 1 := by
    unfold sizeLimit
    split <;> decide
  have hcount : max (getAdjustedExponentLength data common) 1 =
      iterationCount input (weight common.hardfork) := by
    have hsame : baseLength data = baseLength input := congrArg toBigInt (hread 0 32)
    rw [getAdjustedExponentLength_eq hfilled common (hsame.le.trans hbase)]
    simp only [iterationCount, exponentHead, exponentLength, numberAt, hread, hsame]
  have hcost : gasUsed common (iterationCount input (weight common.hardfork))
      (max (baseLength input) (modulusLength input)) = gas input common.hardfork :=
    gasUsed_eq hparam hfork input
  have hsize : ¬(baseLength input > sizeLimit common.hardfork ∨
      exponentLength input > sizeLimit common.hardfork ∨
      modulusLength input > sizeLimit common.hardfork) := by omega
  have hend : ¬96 + baseLength input + exponentLength input + modulusLength input > maxInt := by
    unfold maxInt
    omega
  have hB := hoperand 96 (baseLength input)
  have hE := hoperand (96 + baseLength input) (exponentLength input)
  have hM := hoperand (96 + baseLength input + exponentLength input) (modulusLength input)
  rw [← base] at hB
  rw [← exponent] at hE
  rw [← modulus] at hM
  unfold precompile05
  simp only [← hdata, hb, he, hm, hcount, hcost, hB, hE, hM, maxSize_eq, expMod_eq,
    if_neg (not_lt.mpr hgas), if_neg hsize, if_neg hend]
  split
  · -- no base and no modulus
    rename_i hempty
    have hzero : modulus input = 0 := by
      rw [modulus, hempty.2.2]
      rfl
    rw [if_pos hzero, hempty.2.2]
    exact ⟨rfl, rfl, rfl, rfl⟩
  · refine ⟨rfl, rfl, length_setLengthLeft _ _, ?_⟩
    exact toBigInt_power (base input ^ exponent input) (modulus input) _ (numberAt_lt input _ _)

namespace Sample

/-- The lengths are 1, 1 and 2, and the last byte of the modulus 1792 is missing. -/
def opts : PrecompileInput where
  data := List.replicate 31 0 ++ [1] ++ List.replicate 31 0 ++ [1] ++ List.replicate 31 0 ++
    [2, 3, 7, 7]
  gasLimit := 200
  common := ⟨.Berlin, fun _ => 3, true, false, 1⟩

theorem precompile05_opts :
    (precompile05 opts).exceptionError = none ∧ (precompile05 opts).executionGasUsed = 200 ∧
      (precompile05 opts).returnValue.length = 2 ∧
        toBigInt (precompile05 opts).returnValue = 395 := by
  have hparam : AtFork opts.common := show forkQuaddivisor .Berlin = some 3 by decide
  obtain ⟨herror, hgas, hlength, hvalue⟩ := precompile05_eq opts hparam (by decide)
    (by decide +kernel) (by decide +kernel) (by decide +kernel) (by decide +kernel)
  have hcost : gas opts.data opts.common.hardfork = 200 := by decide +kernel
  have hlen : modulusLength opts.data = 2 := by decide +kernel
  have hpower : (if modulus opts.data = 0 then 0
      else base opts.data ^ exponent opts.data % modulus opts.data) = 395 := by decide +kernel
  exact ⟨herror, hgas.trans (congrArg Nat.cast hcost), hlength.trans hlen, hvalue.trans hpower⟩

end Sample

end Modexp
