-- SUMMARY: Hex spellings of byte strings, and addresses.
import TsEthereum.Utils.DB
import Mathlib.Data.Nat.Digits.Defs

/-!
# Hex strings

The spellings of `utils/src/bytes.ts` and `internal.ts`. A string is the list of
its characters.
-/

open List

abbrev HexString := List Char

def bytesToUnprefixedHex (bytes : Bytes) : HexString :=
  bytes.flatMap fun b => [Nat.digitChar (b.toNat / 16), Nat.digitChar (b.toNat % 16)]

def bytesToHex (bytes : Bytes) : HexString := '0' :: 'x' :: bytesToUnprefixedHex bytes

def hexValue (c : Char) : Option Nat :=
  if '0' ≤ c ∧ c ≤ '9' then some (c.toNat - '0'.toNat)
  else if 'a' ≤ c ∧ c ≤ 'f' then some (c.toNat - 'a'.toNat + 10)
  else if 'A' ≤ c ∧ c ≤ 'F' then some (c.toNat - 'A'.toNat + 10)
  else none

def isHexString : HexString → Bool
  | '0' :: 'x' :: digits => digits.all fun c => (hexValue c).isSome
  | _ => false

def stripHexPrefix (str : HexString) : HexString := if isHexString str then str.drop 2 else str

def padToEven (value : HexString) : HexString :=
  if value.length % 2 = 1 then '0' :: value else value

/-- The bytes of pairs of digits. -/
def hexPairs : HexString → Except String Bytes
  | [] => .ok []
  | [_] => .error "hex string expected, got unpadded hex"
  | c :: d :: digits =>
    match hexValue c, hexValue d with
    | some high, some low => (hexPairs digits).map (UInt8.ofNat (16 * high + low) :: ·)
    | _, _ => .error "hex string expected, got non-hex character"

def unprefixedHexToBytes (hex : HexString) : Except String Bytes :=
  if ['0', 'x'] <+: hex then .error "input string cannot be 0x prefixed" else hexPairs (padToEven hex)

theorem hexValue_digitChar : ∀ n < 16, hexValue (Nat.digitChar n) = some n := by decide

/-- The two digits of a byte. -/
theorem hexValue_digits (b : UInt8) : hexValue (Nat.digitChar (b.toNat / 16)) = some (b.toNat / 16) ∧
    hexValue (Nat.digitChar (b.toNat % 16)) = some (b.toNat % 16) := by
  have hlt := b.toNat_lt
  exact ⟨hexValue_digitChar _ (by omega), hexValue_digitChar _ (by omega)⟩

theorem length_bytesToUnprefixedHex (bytes : Bytes) :
    (bytesToUnprefixedHex bytes).length = 2 * bytes.length := by
  induction bytes with
  | nil => rfl
  | cons b bytes ih =>
    unfold bytesToUnprefixedHex at ih ⊢
    simp only [flatMap_cons, length_append, length_cons, length_nil, ih]
    omega

theorem isHexString_bytesToHex (bytes : Bytes) : isHexString (bytesToHex bytes) = true := by
  apply all_eq_true.mpr
  intro c hc
  obtain ⟨b, -, hb⟩ := mem_flatMap.mp hc
  obtain ⟨hhigh, hlow⟩ := hexValue_digits b
  rcases mem_cons.mp hb with rfl | hb
  · rw [hhigh]
    rfl
  · obtain rfl := mem_singleton.mp hb
    rw [hlow]
    rfl

/-- Pairs of digits spell the bytes that they were written for. -/
theorem hexPairs_bytesToUnprefixedHex (bytes : Bytes) :
    hexPairs (bytesToUnprefixedHex bytes) = .ok bytes := by
  induction bytes with
  | nil => rfl
  | cons b bytes ih =>
    obtain ⟨hhigh, hlow⟩ := hexValue_digits b
    have hbyte : UInt8.ofNat (16 * (b.toNat / 16) + b.toNat % 16) = b := by
      rw [Nat.div_add_mod, UInt8.ofNat_toNat]
    unfold bytesToUnprefixedHex at ih ⊢
    simp only [flatMap_cons, cons_append, nil_append, hexPairs, hhigh, hlow, ih, hbyte]
    rfl

theorem isHexString_eq_true {str : HexString} (h : isHexString str = true) :
    ∃ digits, str = '0' :: 'x' :: digits ∧ ∀ c ∈ digits, (hexValue c).isSome := by
  unfold isHexString at h
  split at h
  · rename_i digits
    exact ⟨digits, rfl, all_eq_true.mp h⟩
  · cases h

/-- A prefix is stripped once. -/
theorem stripHexPrefix_stripHexPrefix (str : HexString) :
    stripHexPrefix (stripHexPrefix str) = stripHexPrefix str := by
  cases hhex : isHexString str with
  | false => simp only [stripHexPrefix, hhex, Bool.false_eq_true, if_false]
  | true =>
    obtain ⟨digits, rfl, hdigits⟩ := isHexString_eq_true hhex
    -- what follows the prefix has hex digits only, and `x` is none
    have hrest : isHexString digits = false := by
      rw [Bool.eq_false_iff]
      intro hagain
      obtain ⟨rest, rfl, -⟩ := isHexString_eq_true hagain
      exact absurd (hdigits 'x' (by simp)) (by decide)
    simp [stripHexPrefix, hhex, hrest]

structure Address where
  bytes : Bytes
  length_eq : bytes.length = 20

namespace Address

def toString (address : Address) : HexString := bytesToHex address.bytes

end Address
