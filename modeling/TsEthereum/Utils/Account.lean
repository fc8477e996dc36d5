-- SUMMARY: Accounts, and the byte strings that numbers and addresses are spelt by.
import TsEthereum.Utils.Hex
import Mathlib.Data.Nat.Digits.Lemmas
import Mathlib.Tactic.Linarith
import Mathlib.Tactic.Positivity
import Mathlib.Tactic.Ring

/-!
# Accounts

`utils/src/account.ts` and what the EVM takes from `bytes.ts`, `constants.ts` and
`address.ts`. An account has all its fields: partial accounts and the code size
belong to binary trees, which no hardfork activates.
-/

open List Nat Int

def KECCAK256_NULL : Bytes :=
  [0xc5, 0xd2, 0x46, 0x01, 0x86, 0xf7, 0x23, 0x3c, 0x92, 0x7e, 0x7d, 0xb2, 0xdc, 0xc7, 0x03, 0xc0,
    0xe5, 0x00, 0xb6, 0x53, 0xca, 0x82, 0x27, 0x3b, 0x7b, 0xfa, 0xd8, 0x04, 0x5d, 0x85, 0xa4, 0x70]

def KECCAK256_RLP : Bytes :=
  [0x56, 0xe8, 0x1f, 0x17, 0x1b, 0xcc, 0x55, 0xa6, 0xff, 0x83, 0x45, 0xe6, 0x92, 0xc0, 0xf8, 0x6e,
    0x5b, 0x48, 0xe0, 0x1b, 0x99, 0x6c, 0xad, 0xc0, 0x01, 0x62, 0x2f, 0xb5, 0xe3, 0x63, 0xb4, 0x21]

def MAX_INTEGER : Int := 2 ^ 256 - 1
def MAX_UINT64 : Int := 2 ^ 64 - 1

structure Account where
  nonce : Int
  balance : Int
  storageRoot : Bytes
  codeHash : Bytes
  deriving DecidableEq, Repr

namespace Account

/-- `new Account()`. -/
def new : Account := ⟨0, 0, KECCAK256_RLP, KECCAK256_NULL⟩

def isContract (account : Account) : Bool := account.codeHash ≠ KECCAK256_NULL

def isEmpty (account : Account) : Bool :=
  account.balance = 0 && account.nonce = 0 && account.codeHash = KECCAK256_NULL

end Account

/-- `bigIntToBytes` of a number that is not negative. -/
def bigIntToBytes (num : Int) : Bytes :=
  if num ≤ 0 then [0] else (Nat.digits 256 num.toNat).reverse.map UInt8.ofNat

def setLengthLeft (msg : Bytes) (length : Nat) : Bytes :=
  if msg.length < length then List.replicate (length - msg.length) 0 ++ msg
  else msg.drop (msg.length - length)

theorem length_setLengthLeft (msg : Bytes) (length : Nat) :
    (setLengthLeft msg length).length = length := by
  unfold setLengthLeft
  split
  · simp only [length_append, length_replicate]
    omega
  · simp only [length_drop]
    omega

def setLengthRight (msg : Bytes) (length : Nat) : Bytes :=
  if msg.length < length then msg ++ List.replicate (length - msg.length) 0 else msg.take length

def bytesToBigInt (bytes : Bytes) : Int := bytes.foldl (fun n b => 256 * n + b.toNat) 0

/-! ## The number of a byte string -/

theorem foldl_bytesToBigInt (b : Bytes) (n : Int) :
    b.foldl (fun n b => 256 * n + (b.toNat : Int)) n = 256 ^ b.length * n + bytesToBigInt b := by
  unfold bytesToBigInt
  induction b generalizing n with
  | nil => simp
  | cons x b ih =>
    rw [foldl_cons, foldl_cons, ih, ih (256 * 0 + x.toNat), length_cons, pow_succ]
    ring

theorem bytesToBigInt_append (a b : Bytes) :
    bytesToBigInt (a ++ b) = 256 ^ b.length * bytesToBigInt a + bytesToBigInt b :=
  (foldl_append ..).trans (foldl_bytesToBigInt b _)

theorem bytesToBigInt_bounds (b : Bytes) : 0 ≤ bytesToBigInt b ∧ bytesToBigInt b < 256 ^ b.length := by
  induction b with
  | nil => exact ⟨le_refl _, by decide⟩
  | cons x b ih =>
    have hcons : bytesToBigInt (x :: b) = 256 ^ b.length * x.toNat + bytesToBigInt b := by
      rw [show x :: b = [x] ++ b from rfl, bytesToBigInt_append]
      simp [bytesToBigInt]
    have hx : (x.toNat : Int) ≤ 255 := by exact_mod_cast le_of_lt_succ x.toNat_lt
    rw [hcons, length_cons, pow_succ]
    constructor
    · exact add_nonneg (by positivity) ih.1
    · have hmul := mul_le_mul_of_nonneg_left hx (show (0 : Int) ≤ 256 ^ b.length by positivity)
      linarith [ih.2]

/-- Byte strings of one length have different numbers. -/
theorem bytesToBigInt_inj {a b : Bytes} (hlen : a.length = b.length)
    (h : bytesToBigInt a = bytesToBigInt b) : a = b := by
  induction a generalizing b with
  | nil => exact (length_eq_zero_iff.mp hlen.symm).symm
  | cons x a ih =>
    cases b with
    | nil => cases hlen
    | cons y b =>
      have hlen' : a.length = b.length := Nat.succ.inj hlen
      have hcons (z : UInt8) (c : Bytes) :
          bytesToBigInt (z :: c) = 256 ^ c.length * z.toNat + bytesToBigInt c :=
        (bytesToBigInt_append [z] c).trans (by simp [bytesToBigInt])
      obtain ⟨ha, ha'⟩ := bytesToBigInt_bounds a
      obtain ⟨hb, hb'⟩ := bytesToBigInt_bounds b
      rw [hcons, hcons, ← hlen'] at h
      rw [← hlen'] at hb'
      have hpos : (0 : Int) < 256 ^ a.length := by positivity
      -- the first byte is the quotient by the weight of the rest
      have hxy : (x.toNat : Int) = y.toNat := by
        have hdiv := congrArg (· / (256 : Int) ^ a.length) h
        simpa [add_ediv_of_dvd_left, ediv_eq_zero_of_lt, ha, ha', hb, hb', hpos.ne'] using hdiv
      rw [hxy] at h
      have hrest : bytesToBigInt a = bytesToBigInt b := add_left_cancel h
      have hhead : x = y := UInt8.toNat_inj.mp (by exact_mod_cast hxy)
      rw [hhead, ih hlen' hrest]

theorem bytesToBigInt_digits (n : Nat) :
    bytesToBigInt ((Nat.digits 256 n).reverse.map UInt8.ofNat) = n := by
  induction n using Nat.strong_induction_on with
  | _ n ih =>
    rcases Nat.eq_zero_or_pos n with rfl | hpos
    · rfl
    · have hbyte : (UInt8.ofNat (n % 256)).toNat = n % 256 :=
        UInt8.toNat_ofNat_of_lt' (mod_lt _ (by decide))
      have hone : bytesToBigInt [UInt8.ofNat (n % 256)] = (n % 256 : Nat) := by
        simp only [bytesToBigInt, foldl_cons, foldl_nil, hbyte, mul_zero, zero_add]
      rw [digits_def' (by decide) hpos, reverse_cons, map_append, map_cons,
        map_nil, bytesToBigInt_append, ih (n / 256) (Nat.div_lt_self hpos (by decide)), hone,
        length_singleton, pow_one]
      exact_mod_cast div_add_mod n 256

/-- A number is read back from its bytes. -/
theorem bytesToBigInt_bigIntToBytes (n : Nat) : bytesToBigInt (bigIntToBytes n) = n := by
  unfold bigIntToBytes
  split
  · rename_i hle
    obtain rfl : n = 0 := by omega
    rfl
  · exact bytesToBigInt_digits n

theorem length_bigIntToBytes_le {n k : Nat} (hk : 1 ≤ k) (h : n < 256 ^ k) :
    (bigIntToBytes n).length ≤ k := by
  unfold bigIntToBytes
  split
  · exact hk
  · rw [length_map, length_reverse]
    exact (digits_length_le_iff (by decide) n).mpr h

/-- One more byte behind a number that is not zero. -/
theorem bigIntToBytes_concat {n : Nat} (hn : n ≠ 0) (x : UInt8) :
    bigIntToBytes (256 * n + x.toNat : Nat) = bigIntToBytes n ++ [x] := by
  have hpos : ¬((256 * n + x.toNat : Nat) : Int) ≤ 0 := by omega
  have hpos' : ¬(n : Int) ≤ 0 := by omega
  have hdigits := digits_add 256 (by decide) x.toNat n x.toNat_lt (.inr hn)
  unfold bigIntToBytes
  rw [if_neg hpos, if_neg hpos', toNat_natCast, toNat_natCast, Nat.add_comm, hdigits,
    reverse_cons, map_append, map_cons, map_nil, UInt8.ofNat_toNat]

/-- Cutting or padding on the left keeps the number up to a power of 256. -/
theorem bytesToBigInt_setLengthLeft (msg : Bytes) (length : Nat) :
    bytesToBigInt (setLengthLeft msg length) = bytesToBigInt msg % 256 ^ length := by
  unfold setLengthLeft
  split
  · rename_i hshort
    have hzeros (n : Nat) : bytesToBigInt (List.replicate n 0) = 0 := by
      induction n with
      | zero => rfl
      | succ n ih => exact ih
    rw [bytesToBigInt_append, hzeros, mul_zero, zero_add]
    obtain ⟨hnonneg, hlt⟩ := bytesToBigInt_bounds msg
    refine (emod_eq_of_lt hnonneg (hlt.trans_le ?_)).symm
    exact pow_le_pow_right₀ (by decide) (Nat.le_of_lt hshort)
  · rename_i hlong
    have hsplit := congrArg bytesToBigInt (take_append_drop (msg.length - length) msg)
    have hlen : (msg.drop (msg.length - length)).length = length := by
      rw [length_drop]
      omega
    rw [bytesToBigInt_append, hlen] at hsplit
    obtain ⟨hnonneg, hlt⟩ := bytesToBigInt_bounds (msg.drop (msg.length - length))
    rw [hlen] at hlt
    rw [← hsplit, mul_add_emod_self_left, emod_eq_of_lt hnonneg hlt]

namespace Address

/-- `new Address(bytes)`. -/
def new (bytes : Bytes) : Except String Address :=
  if h : bytes.length = 20 then .ok ⟨bytes, h⟩ else .error "Invalid address length"

/-- `createAddressFromStackBigInt`: the last 160 bits of the value. -/
def fromStackBigInt (value : Int) : Address :=
  ⟨setLengthLeft (bigIntToBytes (value % 2 ^ 160)) 20, length_setLengthLeft _ _⟩

def zero : Address := ⟨List.replicate 20 0, by simp⟩

instance : DecidableEq Address := fun a b =>
  decidable_of_iff (a.bytes = b.bytes) ⟨fun h => by cases a; cases b; simpa using h, fun h => h ▸ rfl⟩

instance : Inhabited Address := ⟨zero⟩

theorem bytesToUnprefixedHex_injective : Function.Injective bytesToUnprefixedHex := by
  intro as bs h
  induction as generalizing bs with
  | nil =>
    cases bs with
    | nil => rfl
    | cons b bs => simp [bytesToUnprefixedHex] at h
  | cons a as ih =>
    cases bs with
    | nil => simp [bytesToUnprefixedHex] at h
    | cons b bs =>
      simp only [bytesToUnprefixedHex, flatMap_cons, cons_append, nil_append,
        List.cons.injEq] at h
      have hdigit : ∀ m n : Nat, m < 16 → n < 16 → Nat.digitChar m = Nat.digitChar n → m = n := by
        intro m n hm hn hmn
        have hvalue := hexValue_digitChar m hm
        rw [hmn, hexValue_digitChar n hn] at hvalue
        exact (Option.some.inj hvalue).symm
      have ha := a.toNat_lt
      have hb := b.toNat_lt
      have hhigh := hdigit _ _ (by omega) (by omega) h.1
      have hlow := hdigit _ _ (by omega) (by omega) h.2.1
      have hab : a = b := UInt8.toNat_inj.mp (by omega)
      rw [hab, ih h.2.2]

theorem toString_inj {a b : Address} : a.toString = b.toString ↔ a.bytes = b.bytes := by
  constructor
  · intro h
    have h : bytesToUnprefixedHex a.bytes = bytesToUnprefixedHex b.bytes := by
      simpa [toString, bytesToHex] using h
    exact bytesToUnprefixedHex_injective h
  · intro h
    rw [toString, toString, h]

end Address
