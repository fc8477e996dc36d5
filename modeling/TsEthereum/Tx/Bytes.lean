-- SUMMARY: The numbers and byte strings of a transaction, and the forms that they are given in.
import TsEthereum.Base.Fallible
import TsEthereum.Rlp.Canonical
import TsEthereum.Utils.Account
import TsEthereum.Utils.Bytes

/-!
# Field values

A field of the data that a transaction is made of is a number, a hex string or what
the RLP decoder returns, a byte array or an array; `toBytes` turns each of them into
bytes. Numbers are the BigInts that are not negative.
-/

namespace Tx

open Rlp (Item)

/-! ## Numbers -/

def bytesToBigInt (bytes : Bytes) : Nat := bytes.foldl (fun n b => 256 * n + b.toNat) 0

def bigIntToBytes (num : Nat) : Bytes := Rlp.numberToBytes num

def unpadBytes (a : Bytes) : Bytes := a.dropWhile (· == 0)

def bigIntToUnpaddedBytes (value : Nat) : Bytes := unpadBytes (bigIntToBytes value)

/-- No leading zero byte. -/
def Unpadded (b : Bytes) : Prop := b.head? ≠ some 0

instance (b : Bytes) : Decidable (Unpadded b) := inferInstanceAs (Decidable (_ ≠ _))

theorem bytesToBigInt_bigIntToBytes (n : Nat) : bytesToBigInt (bigIntToBytes n) = n :=
  Rlp.foldl_numberBytes (Nat.lt_succ_self n) []

theorem unpadBytes_of_unpadded {b : Bytes} (h : Unpadded b) : unpadBytes b = b := by
  cases b with
  | nil => rfl
  | cons x b =>
    have hx : (x == 0) = false := beq_eq_false_iff_ne.mpr fun hx => h (congrArg some hx)
    exact List.dropWhile_cons_of_neg (by simp [hx])

theorem unpadded_unpadBytes (b : Bytes) : Unpadded (unpadBytes b) := by
  induction b with
  | nil => exact nofun
  | cons x b ih =>
    unfold unpadBytes at ih ⊢
    rw [List.dropWhile_cons]
    split
    · exact ih
    · next hx => exact fun h => hx (beq_iff_eq.mpr (Option.some.inj h))

theorem bytesToBigInt_unpadBytes (b : Bytes) : bytesToBigInt (unpadBytes b) = bytesToBigInt b := by
  induction b with
  | nil => rfl
  | cons x b ih =>
    unfold unpadBytes at ih ⊢
    rw [List.dropWhile_cons]
    split
    · next hx =>
      obtain rfl := beq_iff_eq.mp hx
      exact ih
    · rfl

theorem unpadded_bigIntToUnpaddedBytes (n : Nat) : Unpadded (bigIntToUnpaddedBytes n) :=
  unpadded_unpadBytes _

@[simp] theorem bytesToBigInt_bigIntToUnpaddedBytes (n : Nat) :
    bytesToBigInt (bigIntToUnpaddedBytes n) = n :=
  (bytesToBigInt_unpadBytes _).trans (bytesToBigInt_bigIntToBytes n)

/-- A number is written with the bytes that it was read from, where they have no zero in front. -/
theorem bigIntToUnpaddedBytes_bytesToBigInt {b : Bytes} (h : Unpadded b) :
    bigIntToUnpaddedBytes (bytesToBigInt b) = b := by
  cases b with
  | nil => rfl
  | cons x b =>
    have hwritten : bigIntToBytes (bytesToBigInt (x :: b)) = (x :: b) ++ [] :=
      Rlp.numberBytes_foldl (x :: b) [] (List.cons_ne_nil x b) h (Nat.lt_succ_self _)
    unfold bigIntToUnpaddedBytes
    rw [hwritten, List.append_nil, unpadBytes_of_unpadded h]

theorem bigIntToUnpaddedBytes_eq_nil {n : Nat} : bigIntToUnpaddedBytes n = [] ↔ n = 0 := by
  constructor
  · intro h
    rw [← bytesToBigInt_bigIntToUnpaddedBytes n, h]
    rfl
  · intro h
    rw [h]
    rfl

/-! ## Conversions to bytes -/

/-- The `ToBytesInputTypes`. An `Address` counts as its bytes, and a number that is not an
integer is left out. -/
inductive BytesLike where
  | undefined
  /-- A byte array or an array. -/
  | item (x : Item)
  | hex (v : HexString)
  | number (v : Int)
  | bigint (v : Int)

namespace BytesLike

def ofOption : Option Item → BytesLike
  | none => undefined
  | some x => item x

/-- `Array.isArray(value)`. -/
def isArray : BytesLike → Bool
  | item (.list _) => true
  | _ => false

/-- `value === '' ? '0x' : value`. -/
def emptyTo0x : BytesLike → BytesLike
  | hex [] => hex ['0', 'x']
  | v => v

end BytesLike

def intToBytes (i : Int) : Except String Bytes :=
  if i < 0 ∨ 2 ^ 53 ≤ i then .error ("Received an invalid integer type: " ++ toString i)
  else .ok (Rlp.numberToBytes i.toNat)

def toBytes : BytesLike → Except String Bytes
  | .undefined => .ok []
  | .item x => .ok (toUint8Array x)
  | .hex v =>
    if isHexString v then hexToBytes v
    else .error ("Cannot convert string to Uint8Array. toBytes only supports 0x-prefixed hex " ++
      "strings and this string was given: " ++ String.ofList v)
  | .number v => intToBytes v
  | .bigint v =>
    if v < 0 then .error ("Cannot convert negative bigint to Uint8Array. Given: " ++ toString v)
    else .ok (bigIntToBytes v.toNat)

theorem toBytes_bigint (n : Nat) : toBytes (.bigint n) = .ok (bigIntToBytes n) := by
  simp only [toBytes, Int.not_lt.mpr (Int.natCast_nonneg n), if_false, Int.toNat_natCast]

/-- An array has no number in front. -/
def checkLeadingZero (k : String) : Option Item → Except String Unit
  | some (.bytes (0 :: b)) => .error (k ++ " cannot have leading zeroes, received: " ++
      String.ofList (bytesToHex (0 :: b)))
  | _ => .ok ()

def validateNoLeadingZeroes (values : List (String × Option Item)) : Except String Unit :=
  values.forM fun (k, v) => checkLeadingZero k v

end Tx
