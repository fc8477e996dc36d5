-- SUMMARY: The JSON form of transactions, and what the factory makes of it.
import TsEthereum.Tx.Codec

/-!
# Transactions in JSON

`getBaseJSON` and the `toJSON` of the five classes. `createTx` takes every data for
those of a legacy transaction: what it returns is of that type, whatever the data are.
-/

open List Option Except Nat

namespace Tx

open Rlp (Item)

/-! ## The JSON form -/

def bigIntToHex (num : Nat) : HexString := '0' :: 'x' :: Nat.toDigits 16 num

structure JSONTx where
  type : HexString
  nonce : HexString
  gasLimit : HexString
  «to» : Option HexString
  value : HexString
  data : HexString
  v : Option HexString
  r : Option HexString
  s : Option HexString
  chainId : HexString
  yParity : Option HexString
  gasPrice : Option HexString := none
  maxPriorityFeePerGas : Option HexString := none
  maxFeePerGas : Option HexString := none
  accessList : Option (List (HexString × List HexString)) := none
  authorizationList : Option (List AuthorizationJSON) := none
  maxFeePerBlobGas : Option HexString := none
  blobVersionedHashes : Option (List HexString) := none

def getBaseJSON (type : TransactionType) (tx : TransactionInterface) : JSONTx where
  type := bigIntToHex type.byte.toNat
  nonce := bigIntToHex tx.nonce
  gasLimit := bigIntToHex tx.gasLimit
  «to» := tx.to.map Address.toString
  value := bigIntToHex tx.value
  data := bytesToHex tx.data
  v := tx.v.map bigIntToHex
  r := tx.r.map bigIntToHex
  s := tx.s.map bigIntToHex
  chainId := bigIntToHex tx.common.chainIdBigInt
  yParity := if tx.v = some 0 ∨ tx.v = some 1 then tx.v.map bigIntToHex else none

/-- `bytesToHex(setLengthLeft(…))` of an element of an access list. -/
def wordToJSON (length : Nat) : Item → Except String HexString
  | .bytes b => .ok (bytesToHex (setLengthLeft b length))
  | .list _ => .error "This method only supports Uint8Array"

def accessListItemToJSON : Item → Except String (HexString × List HexString)
  | .list [address, storageSlots] => do
    let address ← wordToJSON 20 address
    match storageSlots with
    | .list slots => do
      let storageKeys ← slots.mapM (wordToJSON 32)
      pure (address, storageKeys)
    | .bytes _ => pure (address, [])
  | _ => .error "undefined is not iterable"

/-- The lists of a transaction have passed `verifyAccessList`. -/
def accessListBytesToJSON : Item → Except String (List (HexString × List HexString))
  | .list items => items.mapM accessListItemToJSON
  | .bytes _ => .ok []

def eoaCode7702AuthorizationListBytesItemToJSON : Item → Except String AuthorizationJSON
  | .list [.bytes chainId, .bytes address, .bytes nonce, .bytes yParity, .bytes r, .bytes s] =>
    .ok ⟨bytesToHex chainId, bytesToHex address, bytesToHex nonce, bytesToHex yParity, bytesToHex r,
      bytesToHex s⟩
  | _ => .error "Uint8Array expected"

def authorizationListToJSON : Item → Except String (List AuthorizationJSON)
  | .list items => items.mapM eoaCode7702AuthorizationListBytesItemToJSON
  | .bytes _ => .ok []

def LegacyTx.toJSON (tx : LegacyTx) : JSONTx :=
  { getBaseJSON .Legacy tx.toTransactionInterface with gasPrice := some (bigIntToHex tx.gasPrice) }

def AccessList2930Tx.toJSON (tx : AccessList2930Tx) : Except String JSONTx := do
  let accessListJSON ← accessListBytesToJSON tx.accessList
  pure { getBaseJSON .AccessListEIP2930 tx.toTransactionInterface with
    chainId := bigIntToHex tx.chainId
    gasPrice := some (bigIntToHex tx.gasPrice)
    accessList := some accessListJSON }

/-- What the classes with a priority fee write. -/
def FeeMarketInterface.toJSON (type : TransactionType) (tx : FeeMarketInterface) :
    Except String JSONTx := do
  let accessListJSON ← accessListBytesToJSON tx.accessList
  pure { getBaseJSON type tx.toTransactionInterface with
    chainId := bigIntToHex tx.chainId
    maxPriorityFeePerGas := some (bigIntToHex tx.maxPriorityFeePerGas)
    maxFeePerGas := some (bigIntToHex tx.maxFeePerGas)
    accessList := some accessListJSON }

def FeeMarket1559Tx.toJSON (tx : FeeMarket1559Tx) : Except String JSONTx :=
  tx.toFeeMarketInterface.toJSON .FeeMarketEIP1559

def Blob4844Tx.toJSON (tx : Blob4844Tx) : Except String JSONTx := do
  let json ← tx.toFeeMarketInterface.toJSON .BlobEIP4844
  pure { json with
    maxFeePerBlobGas := some (bigIntToHex tx.maxFeePerBlobGas)
    blobVersionedHashes := some (tx.blobVersionedHashes.map bytesToHex) }

def EOACode7702Tx.toJSON (tx : EOACode7702Tx) : Except String JSONTx := do
  let json ← tx.toFeeMarketInterface.toJSON .EOACodeEIP7702
  let authorizationList ← authorizationListToJSON tx.authorizationList
  pure { json with authorizationList := some authorizationList }

def Transaction.toJSON : Transaction → Except String JSONTx
  | legacy tx => .ok tx.toJSON
  | accessList2930 tx => tx.toJSON
  | feeMarket1559 tx => tx.toJSON
  | blob4844 tx => tx.toJSON
  | eoaCode7702 tx => tx.toJSON

/-! ## Reading it back -/

/-- A property that may be missing. -/
def BytesLike.ofHex : Option HexString → BytesLike
  | none => undefined
  | some v => hex v

/-- The object as it is passed for the data of a transaction. -/
def JSONTx.toTxData (json : JSONTx) : TxData where
  chainId := .hex json.chainId
  nonce := .hex json.nonce
  gasPrice := .ofHex json.gasPrice
  maxPriorityFeePerGas := .ofHex json.maxPriorityFeePerGas
  maxFeePerGas := .ofHex json.maxFeePerGas
  gasLimit := .hex json.gasLimit
  «to» := .ofHex json.to
  value := .hex json.value
  data := .hex json.data
  accessList := json.accessList.map .json
  authorizationList := json.authorizationList.map .json
  maxFeePerBlobGas := .ofHex json.maxFeePerBlobGas
  blobVersionedHashes := json.blobVersionedHashes.map fun hashes => .array (hashes.map .hex)
  v := .ofHex json.v
  r := .ofHex json.r
  s := .ofHex json.s

/-- The branches for the other types are commented out in the source. -/
def createTx (txData : TxData) (opts : TxOptions) : Except String Transaction :=
  Transaction.legacy <$> createLegacyTx txData opts

namespace Transaction

/-- `createTx(tx.toJSON(), opts)`. -/
def readBack (opts : TxOptions) (tx : Transaction) : Except String Transaction := do
  let json ← tx.toJSON
  createTx json.toTxData opts

/-- The fields that EIP-155 appends to what is signed. -/
def replayProtection (chainId : Nat) : List Item := [numberItem chainId, .bytes [], .bytes []]

/-- The values of a legacy transaction, or the bytes of another one. -/
def getMessageToSign : Transaction → Item
  | legacy tx =>
    let message := tx.raw.take 6
    .list (if tx.eip155ReplayProtection then message ++ replayProtection tx.common.chainIdBigInt
      else message)
  | accessList2930 tx => .bytes (serializeTyped .AccessListEIP2930 (tx.raw.take 8))
  | feeMarket1559 tx => .bytes (serializeTyped .FeeMarketEIP1559 (tx.raw.take 9))
  | blob4844 tx => .bytes (serializeTyped .BlobEIP4844 (tx.raw.take 11))
  | eoaCode7702 tx => .bytes (serializeTyped .EOACodeEIP7702 (tx.raw.take 10))

/-- The type, the fields, the message to sign and the hash of a transaction. -/
structure SameAs (keccak256 : Bytes → Bytes) (tx tx' : Transaction) : Prop where
  type : tx'.type = tx.type
  base : tx'.base = tx.base
  raw : tx'.raw = tx.raw
  message : tx'.getMessageToSign = tx.getMessageToSign
  hash : tx'.hash keccak256 = tx.hash keccak256

/-- The JSON form of a transaction is read back as the same transaction. -/
def RoundTrips (keccak256 : Bytes → Bytes) (opts : TxOptions) (tx : Transaction) : Prop :=
  ∃ tx', tx.readBack opts = .ok tx' ∧ SameAs keccak256 tx tx'

end Transaction

/-! ## Hex numbers -/

/-- The number that hex digits go on to spell. -/
def hexNumber (n : Nat) (digits : HexString) : Nat :=
  digits.foldl (fun n c => 16 * n + (hexValue c).getD 0) n

theorem hexValue_lt {c : Char} {n : Nat} (h : hexValue c = some n) : n < 16 := by
  unfold hexValue at h
  split_ifs at h with hdigit hlower hupper
  · have hle : c.val.toNat ≤ 57 := UInt32.le_iff_toNat_le.mp (Char.le_def.mp hdigit.2)
    obtain rfl := some.inj h
    change c.val.toNat - 48 < 16
    omega
  · have hle : c.val.toNat ≤ 102 := UInt32.le_iff_toNat_le.mp (Char.le_def.mp hlower.2)
    obtain rfl := some.inj h
    change c.val.toNat - 97 + 10 < 16
    omega
  · have hle : c.val.toNat ≤ 70 := UInt32.le_iff_toNat_le.mp (Char.le_def.mp hupper.2)
    obtain rfl := some.inj h
    change c.val.toNat - 65 + 10 < 16
    omega

/-- Pairs of digits are bytes of the same number. -/
theorem hexPairs_hexNumber (digits : HexString) (hlen : digits.length % 2 = 0)
    (hdigits : ∀ c ∈ digits, (hexValue c).isSome) :
    ∃ b, hexPairs digits = .ok b ∧ 2 * b.length = digits.length ∧
      ∀ n, b.foldl (fun n b => 256 * n + b.toNat) n = hexNumber n digits := by
  fun_induction hexPairs digits with
  | case1 => exact ⟨[], rfl, rfl, fun _ => rfl⟩
  | case2 => exact absurd hlen (by simp)
  | case3 c d digits high low hlow hhigh ih =>
    simp only [forall_mem_cons] at hdigits
    obtain ⟨b, hb, hblen, hvalue⟩ := ih (by simp only [length_cons] at hlen; omega) hdigits.2.2
    have hbyte : (UInt8.ofNat (16 * high + low)).toNat = 16 * high + low :=
      UInt8.toNat_ofNat_of_lt' (by
        have := hexValue_lt hhigh
        have := hexValue_lt hlow
        rw [UInt8.size]
        omega)
    refine ⟨UInt8.ofNat (16 * high + low) :: b, by rw [hb]; rfl, by simp [← hblen]; omega, fun n => ?_⟩
    rw [foldl_cons, hvalue, hbyte, hexNumber, hexNumber, foldl_cons, foldl_cons, hhigh,
      hlow]
    congr 1
    simp only [getD_some]
    omega
  | case4 c d digits hnone =>
    simp only [forall_mem_cons, isSome_iff_exists] at hdigits
    obtain ⟨⟨high, hhigh⟩, ⟨low, hlow⟩, -⟩ := hdigits
    exact absurd hlow (hnone high low hhigh)

theorem hexValue_toDigits {n : Nat} : ∀ c ∈ Nat.toDigits 16 n, (hexValue c).isSome := by
  induction n using base_induction 16 (by omega) with
  | single m hm =>
    rw [toDigits_of_lt_base hm, forall_mem_singleton, hexValue_digitChar m hm]
    rfl
  | digit m k hk hm ih =>
    rw [← toDigits_append_toDigits (by omega) hm hk, forall_mem_append,
      toDigits_of_lt_base hk, forall_mem_singleton, hexValue_digitChar k hk]
    exact ⟨ih, rfl⟩

theorem hexNumber_toDigits (n : Nat) : hexNumber 0 (Nat.toDigits 16 n) = n := by
  induction n using base_induction 16 (by omega) with
  | single m hm => simp [hexNumber, toDigits_of_lt_base hm, hexValue_digitChar m hm]
  | digit m k hk hm ih =>
    unfold hexNumber at ih ⊢
    rw [← toDigits_append_toDigits (by omega) hm hk, foldl_append, ih,
      toDigits_of_lt_base hk, foldl_cons, foldl_nil, hexValue_digitChar k hk,
      getD_some]

/-- The hex form of a number is read as bytes of the number. -/
theorem toBytes_bigIntToHex (n : Nat) :
    ∃ b, toBytes (.hex (bigIntToHex n)) = .ok b ∧ b.length > 0 ∧ bytesToBigInt b = n := by
  have hhex : isHexString (bigIntToHex n) = true := all_eq_true.mpr hexValue_toDigits
  have hstrip : stripHexPrefix (bigIntToHex n) = Nat.toDigits 16 n := if_pos hhex
  obtain ⟨b, hb, hlen, hvalue⟩ : ∃ b, hexPairs (padToEven (Nat.toDigits 16 n)) = .ok b ∧
      2 * b.length = (padToEven (Nat.toDigits 16 n)).length ∧ bytesToBigInt b = n := by
    unfold padToEven
    split
    · next hodd =>
      obtain ⟨b, hb, hlen, hvalue⟩ := hexPairs_hexNumber ('0' :: Nat.toDigits 16 n)
        (by rw [length_cons]; omega) (forall_mem_cons.mpr ⟨rfl, hexValue_toDigits⟩)
      exact ⟨b, hb, hlen, (hvalue 0).trans (hexNumber_toDigits n)⟩
    · next heven =>
      obtain ⟨b, hb, hlen, hvalue⟩ := hexPairs_hexNumber (Nat.toDigits 16 n) (by omega)
        hexValue_toDigits
      exact ⟨b, hb, hlen, (hvalue 0).trans (hexNumber_toDigits n)⟩
  refine ⟨b, ?_, ?_, hvalue⟩
  · have hfirst : ['0', 'x'] <+: bigIntToHex n := ⟨Nat.toDigits 16 n, rfl⟩
    simp only [toBytes, hhex, if_true, hexToBytes, hfirst, hstrip, hb]
  · have hpos := @Nat.length_toDigits_pos 16 n
    have hpad : (Nat.toDigits 16 n).length ≤ (padToEven (Nat.toDigits 16 n)).length := by
      unfold padToEven
      split
      · exact le_succ _
      · exact le_rfl
    omega

theorem spells_hex (n : Nat) : Spells (.hex (bigIntToHex n)) n := by
  obtain ⟨b, hb, -, hn⟩ := toBytes_bigIntToHex n
  exact ⟨b, hb, hn⟩

theorem spellsSignature_hex (n : Option Nat) : SpellsSignature (.ofHex (n.map bigIntToHex)) n := by
  cases n with
  | none => exact ⟨[], rfl, rfl⟩
  | some n =>
    obtain ⟨b, hb, hpos, hn⟩ := toBytes_bigIntToHex n
    exact ⟨b, hb, (if_pos hpos).trans (congrArg some hn)⟩

theorem toBytes_bytesToHex (bytes : Bytes) : toBytes (.hex (bytesToHex bytes)) = .ok bytes := by
  simp only [toBytes, isHexString_bytesToHex, if_true, hexToBytes_bytesToHex]

/-! ## Legacy transactions -/

theorem isArray_ofHex (v : Option HexString) : (BytesLike.ofHex v).isArray = false := by
  cases v <;> rfl

/-- The JSON form spells the fields that all transactions have. -/
theorem spellsShared_toTxData (tx : LegacyTx) :
    SpellsShared tx.toJSON.toTxData tx.toTransactionInterface where
  notArray := by
    refine validateNotArray_entries.mpr ⟨rfl, rfl, rfl, rfl, rfl, ?_, rfl, rfl, ?_, ?_, ?_⟩ <;>
      exact isArray_ofHex _
  «to» := by
    change ∃ b, toBytes (BytesLike.ofHex (tx.to.map Address.toString)).emptyTo0x = .ok b ∧ _
    obtain ⟨b, hb, haddress⟩ := spells_addressItem tx.to
    refine ⟨b, ?_, haddress⟩
    cases hto : tx.to with
    | none => rw [← hb, hto]; rfl
    | some address =>
      rw [← hb, hto]
      exact toBytes_bytesToHex address.bytes
  v := spellsSignature_hex tx.v
  r := spellsSignature_hex tx.r
  s := spellsSignature_hex tx.s
  nonce := spells_hex tx.nonce
  gasLimit := spells_hex tx.gasLimit
  value := spells_hex tx.value
  data := toBytes_bytesToHex tx.data

/-- The constructor that has accepted a legacy transaction makes it again of its JSON form. -/
theorem readBack_legacy {opts : TxOptions} {tx : LegacyTx} (h : tx.Accepted opts) :
    (Transaction.legacy tx).readBack opts = .ok (.legacy tx) :=
  Except.map_eq_ok.mpr
    ⟨tx, LegacyTx.new_eq_ok.mpr ⟨⟨spellsShared_toTxData tx, spells_hex tx.gasPrice⟩, h⟩, rfl⟩

namespace Transaction

theorem SameAs.refl (keccak256 : Bytes → Bytes) (tx : Transaction) : SameAs keccak256 tx tx :=
  ⟨rfl, rfl, rfl, rfl, rfl⟩

/-- What `createTx` returns is a legacy transaction. -/
theorem type_of_readBack {opts : TxOptions} {tx tx' : Transaction} (h : tx.readBack opts = .ok tx') :
    tx'.type = .Legacy := by
  obtain ⟨json, -, h⟩ := bind_eq_ok.mp h
  obtain ⟨legacyTx, -, rfl⟩ := Except.map_eq_ok.mp h
  rfl

theorem roundTrips_of_accepted {opts : TxOptions} {tx : Transaction} (h : tx.Accepted opts)
    (keccak256 : Bytes → Bytes) : RoundTrips keccak256 opts tx ↔ tx.type = .Legacy := by
  constructor
  · rintro ⟨tx', hread, hsame⟩
    exact hsame.type.symm.trans (type_of_readBack hread)
  · intro htype
    cases tx with
    | legacy tx => exact ⟨_, readBack_legacy h, .refl keccak256 _⟩
    | _ => exact nomatch htype

end Transaction

/-- A transaction comes back from its JSON form exactly if it is a legacy transaction, and the
transactions of a block come back exactly if they all are. -/
theorem json_roundTrips_iff (keccak256 : Bytes → Bytes) (opts : TxOptions) :
    (∀ type txData tx, Transaction.new type txData opts = .ok tx →
      (tx.RoundTrips keccak256 opts ↔ tx.type = .Legacy)) ∧ ∀ txs : List Transaction,
      (∀ tx ∈ txs, ∃ type txData, Transaction.new type txData opts = .ok tx) →
      ((∃ txs', txs.mapM (Transaction.readBack opts) = .ok txs' ∧
          List.Forall₂ (Transaction.SameAs keccak256) txs txs') ↔
        ∀ tx ∈ txs, tx.type = .Legacy) := by
  constructor
  · intro type txData tx hnew
    exact Transaction.roundTrips_of_accepted (Transaction.accepted_of_new hnew) keccak256
  · intro txs hnew
    have haccepted : ∀ tx ∈ txs, tx.Accepted opts := fun tx htx =>
      let ⟨_, _, hnew⟩ := hnew tx htx
      Transaction.accepted_of_new hnew
    clear hnew
    induction txs with
    | nil => exact ⟨fun _ _ h => (nomatch h), fun _ => ⟨[], rfl, .nil⟩⟩
    | cons tx txs ih =>
      rw [forall_mem_cons] at haccepted ⊢
      have hone := Transaction.roundTrips_of_accepted haccepted.1 keccak256
      refine Iff.trans ?_ (and_congr hone (ih haccepted.2))
      constructor
      · rintro ⟨txs', hread, hsame⟩
        rw [mapM_cons] at hread
        obtain ⟨tx', htx, hread⟩ := bind_eq_ok.mp hread
        obtain ⟨rest, hrest, hread⟩ := bind_eq_ok.mp hread
        obtain rfl := ok.inj hread
        cases hsame with
        | cons hhead htail => exact ⟨⟨tx', htx, hhead⟩, rest, hrest, htail⟩
      · rintro ⟨⟨tx', htx, hhead⟩, rest, hrest, htail⟩
        refine ⟨tx' :: rest, ?_, .cons hhead htail⟩
        rw [mapM_cons, htx, hrest]
        rfl

namespace Sample

/-- A legacy transaction comes back, alone and as the transaction of a block. -/
theorem json_sample : ∃ tx, Transaction.new .Legacy { v := .bigint 27, r := .bigint 1, s := .bigint 1 }
    (options .London) = .ok tx ∧ tx.RoundTrips id (options .London) := by
  obtain ⟨tx, hnew, htype⟩ := exists_ok (x := Transaction.new .Legacy
    { v := .bigint 27, r := .bigint 1, s := .bigint 1 } (options .London))
    (f := Transaction.type) (a := .Legacy) (by decide +kernel)
  exact ⟨tx, hnew, ((json_roundTrips_iff id (options .London)).1 .Legacy _ tx hnew).mpr htype⟩

/-- A fee market transaction is read back as a legacy transaction with the gas price 0. -/
theorem feeMarket_read_back : ∃ tx tx',
    Transaction.new .FeeMarketEIP1559 { maxFeePerGas := .bigint 2 } (options .London) = .ok tx ∧
      tx.readBack (options .London) = .ok tx' ∧ tx'.type = .Legacy ∧
        ¬tx.RoundTrips id (options .London) := by
  obtain ⟨tx, hnew, hfields⟩ := exists_ok
    (x := Transaction.new .FeeMarketEIP1559 { maxFeePerGas := .bigint 2 } (options .London))
    (f := fun tx => (tx.type, (tx.readBack (options .London)).toOption.map Transaction.type))
    (a := (.FeeMarketEIP1559, some .Legacy)) (by decide +kernel)
  obtain ⟨htype, hread⟩ := Prod.mk.inj hfields
  obtain ⟨tx', hread, htype'⟩ := exists_ok hread
  refine ⟨tx, tx', hnew, hread, htype', fun ⟨_, hread', hsame⟩ => ?_⟩
  exact nomatch htype.symm.trans (hsame.type.symm.trans (Transaction.type_of_readBack hread'))

end Sample

end Tx
