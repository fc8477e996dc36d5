-- SUMMARY: Nibble sequences: their packing into bytes, comparison, and the hex prefix of node keys.
import TsEthereum.Utils.DB
import Mathlib.Data.Fin.Basic

/-!
# Nibbles
-/

abbrev Nibble := Fin 16

abbrev Nibbles := List Nibble

namespace Nibbles

def high (b : UInt8) : Nibble := ⟨b.toNat / 16, by have := b.toNat_lt; omega⟩

def low (b : UInt8) : Nibble := ⟨b.toNat % 16, by omega⟩

def pack (a b : Nibble) : UInt8 := UInt8.ofNat (a.val * 16 + b.val)

def bytesToNibbles (key : Bytes) : Nibbles := key.flatMap (fun b => [high b, low b])

/-- A nibble left over at the end is dropped. -/
def nibblesTypeToPackedBytes : Nibbles → Bytes
  | a :: b :: arr => pack a b :: nibblesTypeToPackedBytes arr
  | _ => []

/-- `0` for equal sequences, `-1` if `n1` comes first and `1` if `n2` does; a proper prefix
comes before what it begins. -/
def nibblesCompare : Nibbles → Nibbles → Int
  | [], [] => 0
  | [], _ :: _ => -1
  | _ :: _, [] => 1
  | a :: n1, b :: n2 => if a < b then -1 else if a > b then 1 else nibblesCompare n1 n2

def matchingNibbleLength : Nibbles → Nibbles → Nat
  | a :: nib1, b :: nib2 => if a = b then matchingNibbleLength nib1 nib2 + 1 else 0
  | _, _ => 0

/-! ## Packing -/

theorem high_pack (a b : Nibble) : high (pack a b) = a := by
  apply Fin.ext
  simp only [high, pack, UInt8.toNat_ofNat']
  omega

theorem low_pack (a b : Nibble) : low (pack a b) = b := by
  apply Fin.ext
  simp only [low, pack, UInt8.toNat_ofNat']
  omega

theorem pack_high_low (b : UInt8) : pack (high b) (low b) = b := by
  apply UInt8.toNat_inj.mp
  have := b.toNat_lt
  simp only [high, low, pack, UInt8.toNat_ofNat']
  omega

@[simp] theorem bytesToNibbles_cons (b : UInt8) (key : Bytes) :
    bytesToNibbles (b :: key) = high b :: low b :: bytesToNibbles key := rfl

@[simp] theorem length_bytesToNibbles (key : Bytes) :
    (bytesToNibbles key).length = 2 * key.length := by
  induction key with
  | nil => rfl
  | cons b key ih =>
    simp only [bytesToNibbles_cons, List.length_cons, ih]
    omega

/-- Nibbles come back from the bytes they are packed into. -/
theorem bytesToNibbles_packed (arr : Nibbles) (h : arr.length % 2 = 0) :
    bytesToNibbles (nibblesTypeToPackedBytes arr) = arr := by
  match arr with
  | [] => rfl
  | [_] => simp at h
  | a :: b :: arr =>
    have hrest : arr.length % 2 = 0 := by
      simp only [List.length_cons] at h
      omega
    have ih := bytesToNibbles_packed arr hrest
    simp only [nibblesTypeToPackedBytes, bytesToNibbles_cons, high_pack, low_pack, ih]

theorem packed_bytesToNibbles (key : Bytes) :
    nibblesTypeToPackedBytes (bytesToNibbles key) = key := by
  induction key with
  | nil => rfl
  | cons b key ih => simp only [bytesToNibbles_cons, nibblesTypeToPackedBytes, pack_high_low, ih]

theorem bytesToNibbles_injective : Function.Injective bytesToNibbles := by
  intro a b h
  rw [← packed_bytesToNibbles a, h, packed_bytesToNibbles]

theorem length_packed_le (arr : Nibbles) : (nibblesTypeToPackedBytes arr).length ≤ arr.length := by
  match arr with
  | [] => simp [nibblesTypeToPackedBytes]
  | [_] => simp [nibblesTypeToPackedBytes]
  | a :: b :: arr =>
    have ih := length_packed_le arr
    simp only [nibblesTypeToPackedBytes, List.length_cons]
    omega

/-! ## The hex prefix -/

def addHexPrefix (key : Nibbles) (terminator : Bool) : Nibbles :=
  let flag : Nibble := if terminator then 2 else 0
  if key.length % 2 = 1 then (1 + flag) :: key else flag :: 0 :: key

def removeHexPrefix (val : Nibbles) : Nibbles :=
  match val with
  | [] => []
  | x :: _ => if x.val % 2 = 1 then val.drop 1 else val.drop 2

def isTerminator (key : Nibbles) : Bool :=
  match key with
  | [] => false
  | x :: _ => x > 1

variable (key : Nibbles)
include key

theorem removeHexPrefix_addHexPrefix (terminator : Bool) :
    removeHexPrefix (addHexPrefix key terminator) = key := by
  unfold addHexPrefix removeHexPrefix
  cases terminator <;> by_cases hodd : key.length % 2 = 1 <;> simp [hodd]

theorem isTerminator_addHexPrefix (terminator : Bool) :
    isTerminator (addHexPrefix key terminator) = terminator := by
  unfold addHexPrefix isTerminator
  cases terminator <;> by_cases hodd : key.length % 2 = 1 <;> simp [hodd]

theorem length_addHexPrefix_even (terminator : Bool) :
    (addHexPrefix key terminator).length % 2 = 0 := by
  unfold addHexPrefix
  by_cases hodd : key.length % 2 = 1
  · simp only [hodd, if_true, List.length_cons]
    omega
  · simp only [hodd, if_false, List.length_cons]
    omega

theorem length_addHexPrefix_le (terminator : Bool) :
    (addHexPrefix key terminator).length ≤ key.length + 2 := by
  unfold addHexPrefix
  by_cases hodd : key.length % 2 = 1 <;> simp [hodd]

end Nibbles
