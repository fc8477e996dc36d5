-- SUMMARY: Accounts whose fields may be missing, their two RLP forms, and which accounts come back from the partial one.
import TsEthereum.Tx.Bytes

/-!
# Partial accounts

The class of `utils/src/account.ts` with all its fields, of which `null` stands for
what has not been loaded. An array where a byte array is expected is malformed.
-/

open Option Except List Int

open Except (throwWhen)

open Rlp (Item)

structure PartialAccount where
  nonce : Option Int
  balance : Option Int
  storageRoot : Option Bytes
  codeHash : Option Bytes
  codeSize : Option Int
  version : Option Int
  deriving DecidableEq, Repr

/-- The data of an account, where `none` is `null`. -/
structure PartialAccountData where
  nonce : Option Tx.BytesLike
  balance : Option Tx.BytesLike
  storageRoot : Option Tx.BytesLike
  codeHash : Option Tx.BytesLike
  codeSize : Option Tx.BytesLike
  version : Option Tx.BytesLike

namespace PartialAccount

/-! ## Numbers -/

def bytesToInt (bytes : Bytes) : Except String Int := do
  throwWhen (2 ^ 53 ≤ Tx.bytesToBigInt bytes) "Number exceeds 53 bits"
  pure (Tx.bytesToBigInt bytes)

def intToUnpaddedBytes (value : Int) : Except String Bytes := Tx.unpadBytes <$> Tx.intToBytes value

/-- The digits of a negative number have a sign. -/
def bigIntToUnpaddedBytes (value : Int) : Except String Bytes :=
  if value < 0 then .error "hex string expected, got non-hex character"
  else .ok (Tx.bigIntToUnpaddedBytes value.toNat)

/-! ## The class -/

def _validate (account : PartialAccount) : Except String Unit := do
  throwWhen (account.nonce.any (· < 0)) "nonce must be greater than zero"
  throwWhen (account.balance.any (· < 0)) "balance must be greater than zero"
  throwWhen (account.storageRoot.any (·.length ≠ 32)) "storageRoot must have a length of 32"
  throwWhen (account.codeHash.any (·.length ≠ 32)) "codeHash must have a length of 32"
  throwWhen (account.codeSize.any (· < 0)) "codeSize must be greater than zero"

/-- The constructor, after the defaults of the arguments that are `undefined`. -/
def new (nonce balance : Option Int) (storageRoot codeHash : Option Bytes)
    (codeSize version : Option Int) : Except String PartialAccount := do
  let codeSize := if codeSize = none ∧ codeHash = some KECCAK256_NULL then some 0 else codeSize
  let account : PartialAccount := ⟨nonce, balance, storageRoot, codeHash, codeSize, version⟩
  _validate account
  pure account

/-- The getter of a field. -/
def loaded {α : Type} (name : String) : Option α → Except String α
  | none => .error (name ++ "=null not loaded")
  | some value => .ok value

def raw (account : PartialAccount) : Except String (List Item) := do
  let nonce ← loaded "nonce" account.nonce >>= bigIntToUnpaddedBytes
  let balance ← loaded "balance" account.balance >>= bigIntToUnpaddedBytes
  let storageRoot ← loaded "storageRoot" account.storageRoot
  let codeHash ← loaded "codeHash" account.codeHash
  pure [.bytes nonce, .bytes balance, .bytes storageRoot, .bytes codeHash]

def serialize (account : PartialAccount) : Except String Bytes := do
  let raw ← account.raw
  pure (Rlp.encode (.list raw))

/-- `intToUnpaddedBytes(0)` and `intToUnpaddedBytes(1)` say whether a value follows. -/
def partialItem : Option Bytes → Item
  | none => .list [.bytes []]
  | some value => .list [.bytes [1], .bytes value]

def serializeWithPartialInfo (account : PartialAccount) : Except String Bytes := do
  let nonce ← account.nonce.mapM bigIntToUnpaddedBytes
  let balance ← account.balance.mapM bigIntToUnpaddedBytes
  let codeSize ← account.codeSize.mapM intToUnpaddedBytes
  let version ← account.version.mapM intToUnpaddedBytes
  pure (Rlp.encode (.list [partialItem nonce, partialItem balance, partialItem account.storageRoot,
    partialItem account.codeHash, partialItem codeSize, partialItem version]))

/-! ## The constructors from RLP -/

def itemBytes : Item → Except String Bytes
  | .bytes b => .ok b
  | .list _ => .error "malformed"

/-- An element of an array, where `undefined` is no byte array. -/
def elementBytes : Option Item → Except String Bytes
  | none => .error "Cannot read properties of undefined (reading 'length')"
  | some x => itemBytes x

def createAccountFromBytesArray (values : List Item) : Except String PartialAccount := do
  let nonce ← elementBytes values[0]?
  let balance ← elementBytes values[1]?
  let storageRoot ← values[2]?.mapM itemBytes
  let codeHash ← values[3]?.mapM itemBytes
  new (some (Tx.bytesToBigInt nonce)) (some (Tx.bytesToBigInt balance))
    (some (storageRoot.getD KECCAK256_RLP)) (some (codeHash.getD KECCAK256_NULL)) (some 0) (some 0)

/-- The decoded array. -/
def decodeArray (serialized : Bytes) : Except String (List Item) :=
  match Rlp.decode serialized with
  | .ok (.list values) => .ok values
  | .ok (.bytes _) => .error "Invalid serialized account input. Must be array"
  | .error e => .error e.message

def createAccountFromRLP (serialized : Bytes) : Except String PartialAccount := do
  let values ← decodeArray serialized
  createAccountFromBytesArray values

def handleNullIndicator : List Item → Except String (Option Item)
  | [] => .ok none
  | indicator :: values => do
    let bytes ← itemBytes indicator
    let nullIndicator ← bytesToInt bytes
    if nullIndicator = 0 then pure none
    else do
      throwWhen (nullIndicator > 1) ("Invalid isNullIndicator=" ++ toString nullIndicator)
      match values with
      | [] => .error "Invalid values length=1"
      | value :: _ => pure (some value)

/-- `toBytes` of a value that may be `null`. -/
def toBytes : Option Tx.BytesLike → Except String Bytes
  | none => .ok []
  | some value => Tx.toBytes value

def createPartialAccount (data : PartialAccountData) : Except String PartialAccount := do
  throwWhen (data.nonce.isNone ∧ data.balance.isNone ∧ data.storageRoot.isNone ∧ data.codeHash.isNone ∧
    data.codeSize.isNone ∧ data.version.isNone) "All partial fields null"
  let nonce ← toBytes data.nonce
  let balance ← toBytes data.balance
  let storageRoot ← toBytes data.storageRoot
  let codeHash ← toBytes data.codeHash
  let codeSize ← toBytes data.codeSize >>= bytesToInt
  let version ← toBytes data.version >>= bytesToInt
  new (some (Tx.bytesToBigInt nonce)) (some (Tx.bytesToBigInt balance)) (some storageRoot)
    (some codeHash) (some codeSize) (some version)

/-- The elements have been checked to be arrays. -/
def elements : Item → List Item
  | .list l => l
  | .bytes _ => []

/-- `raw === null ? null : bytesToBigInt(raw)`, where the element may be missing. -/
def readBigInt : Option (Option Item) → Except String (Option Tx.BytesLike)
  | some none => .ok none
  | raw => do
    let bytes ← elementBytes (raw.getD none)
    pure (some (.bigint (Tx.bytesToBigInt bytes)))

/-- `raw === null ? null : bytesToInt(raw)`. -/
def readInt : Option (Option Item) → Except String (Option Tx.BytesLike)
  | some none => .ok none
  | raw => do
    let bytes ← elementBytes (raw.getD none)
    let value ← bytesToInt bytes
    pure (some (.number value))

/-- A value that is given on as it is. -/
def readItem : Option (Option Item) → Option Tx.BytesLike
  | none => some .undefined
  | some none => none
  | some (some x) => some (.item x)

def createPartialAccountFromRLP (serialized : Bytes) : Except String PartialAccount := do
  let values ← decodeArray serialized
  values.forM fun value => throwWhen (value matches .bytes _)
    "Invalid partial encoding. Each item must be an array"
  let raws ← values.mapM fun value => handleNullIndicator (elements value)
  let nonce ← readBigInt raws[0]?
  let balance ← readBigInt raws[1]?
  let codeSize ← readInt raws[4]?
  let version ← readInt raws[5]?
  createPartialAccount ⟨nonce, balance, readItem raws[2]?, readItem raws[3]?, codeSize, version⟩

/-! ## Valid accounts -/

/-- The account passes the checks of the class, and its numbers are such. -/
structure Valid (account : PartialAccount) : Prop where
  validated : account._validate = .ok ()
  codeSize : ∀ n ∈ account.codeSize, n < 2 ^ 53
  version : ∀ n ∈ account.version, 0 ≤ n ∧ n < 2 ^ 53

def AllNull (account : PartialAccount) : Prop :=
  account = ⟨none, none, none, none, none, none⟩

/-- The fields that a decoder cannot leave out: it has a number for each of them that is `null`, or
bytes of no length. The size of empty code is known. -/
structure Loaded (account : PartialAccount) : Prop where
  nonce : account.nonce ≠ none
  balance : account.balance ≠ none
  storageRoot : account.storageRoot ≠ none
  codeHash : account.codeHash ≠ none
  codeSize : account.codeSize = none → account.codeHash = some KECCAK256_NULL
  version : account.version ≠ none

/-- The account has the fields, except that the size of empty code may be known. -/
structure SameFields (a b : PartialAccount) : Prop where
  nonce : b.nonce = a.nonce
  balance : b.balance = a.balance
  storageRoot : b.storageRoot = a.storageRoot
  codeHash : b.codeHash = a.codeHash
  codeSize : b.codeSize = a.codeSize ∨
    a.codeSize = none ∧ b.codeSize = some 0 ∧ a.codeHash = some KECCAK256_NULL
  version : b.version = a.version

/-- What is written of the account with null indicators is read back. -/
def RoundTrips (account : PartialAccount) : Prop :=
  ∃ bytes, account.serializeWithPartialInfo = .ok bytes ∧
    ∃ account', createPartialAccountFromRLP bytes = .ok account' ∧ SameFields account account'

/-- Every field that is `null` filled in. -/
def filled (account : PartialAccount) : PartialAccount where
  nonce := some (account.nonce.getD 0)
  balance := some (account.balance.getD 0)
  storageRoot := some (account.storageRoot.getD [])
  codeHash := some (account.codeHash.getD [])
  codeSize := some (account.codeSize.getD 0)
  version := some (account.version.getD 0)

/-! ## What is written -/

/-- The bytes of a number that is not negative. -/
def written (n : Int) : Bytes := Tx.bigIntToUnpaddedBytes n.toNat

variable {n : Int}

theorem bytesToBigInt_written (h : 0 ≤ n) : (Tx.bytesToBigInt (written n) : Int) = n := by
  unfold written
  rw [Tx.bytesToBigInt_bigIntToUnpaddedBytes, toNat_of_nonneg h]

theorem bigIntToUnpaddedBytes_eq (h : 0 ≤ n) : bigIntToUnpaddedBytes n = .ok (written n) :=
  if_neg (Int.not_lt.mpr h)

theorem intToUnpaddedBytes_eq (h : 0 ≤ n) (hmax : n < 2 ^ 53) :
    intToUnpaddedBytes n = .ok (written n) := by
  have hint : Tx.intToBytes n = .ok (Rlp.numberToBytes n.toNat) := if_neg (by omega)
  unfold intToUnpaddedBytes
  rw [hint]
  rfl

theorem bytesToInt_written (h : 0 ≤ n) (hmax : n < 2 ^ 53) : bytesToInt (written n) = .ok n := by
  have hvalue := bytesToBigInt_written h
  refine bind_eq_ok.mpr ⟨(), throwWhen_eq_ok.mpr (by omega), ?_⟩
  rw [hvalue]
  rfl

theorem mapM_eq {α β : Type} {f : α → Except String β} {g : α → β} {o : Option α}
    (h : ∀ a ∈ o, f a = .ok (g a)) : o.mapM f = .ok (o.map g) := by
  cases o with
  | none => rfl
  | some a =>
    change some <$> f a = _
    rw [h a rfl]
    rfl

theorem throwWhen_any {α : Type} {o : Option α} {p : α → Bool} {e : String} :
    throwWhen (o.any p = true) e = .ok () ↔ ∀ a ∈ o, p a = false := by
  rw [throwWhen_eq_ok]
  cases o with
  | none => simp
  | some a => simp

variable {account : PartialAccount}

/-- The checks of the class. -/
theorem validate_eq_ok : account._validate = .ok () ↔
    (∀ n ∈ account.nonce, 0 ≤ n) ∧ (∀ n ∈ account.balance, 0 ≤ n) ∧
      (∀ b ∈ account.storageRoot, b.length = 32) ∧ (∀ b ∈ account.codeHash, b.length = 32) ∧
      ∀ n ∈ account.codeSize, 0 ≤ n := by
  unfold _validate
  simp only [andThen_eq_ok, throwWhen_any, decide_eq_false_iff_not, Int.not_lt, not_not]

/-- The list that stands for an account. -/
def items (account : PartialAccount) : List Item :=
  [partialItem (account.nonce.map written), partialItem (account.balance.map written),
    partialItem account.storageRoot, partialItem account.codeHash,
    partialItem (account.codeSize.map written), partialItem (account.version.map written)]

theorem serializeWithPartialInfo_eq (h : Valid account) :
    account.serializeWithPartialInfo = .ok (Rlp.encode (.list account.items)) := by
  obtain ⟨hnonce, hbalance, -, -, hcodeSize⟩ := validate_eq_ok.mp h.validated
  unfold serializeWithPartialInfo
  rw [mapM_eq fun n hn => bigIntToUnpaddedBytes_eq (hnonce n hn),
    mapM_eq fun n hn => bigIntToUnpaddedBytes_eq (hbalance n hn),
    mapM_eq fun n hn => intToUnpaddedBytes_eq (hcodeSize n hn) (h.codeSize n hn),
    mapM_eq fun n hn => intToUnpaddedBytes_eq (h.version n hn).1 (h.version n hn).2]
  rfl

/-! ## What is read -/

theorem handleNullIndicator_partialItem (value : Option Bytes) :
    handleNullIndicator (elements (partialItem value)) = .ok (value.map .bytes) := by
  cases value <;> rfl

variable {o : Option Int}

section

variable (h : ∀ n ∈ o, 0 ≤ n)
include h

theorem readBigInt_written :
    readBigInt (some ((o.map written).map .bytes)) = .ok (o.map .bigint) := by
  cases o with
  | none => rfl
  | some n =>
    have hvalue := bytesToBigInt_written (h n rfl)
    change Except.ok (some (Tx.BytesLike.bigint (Tx.bytesToBigInt (written n)))) = _
    rw [hvalue]
    rfl

theorem readInt_written (hmax : ∀ n ∈ o, n < 2 ^ 53) :
    readInt (some ((o.map written).map .bytes)) = .ok (o.map .number) := by
  cases o with
  | none => rfl
  | some n =>
    have hvalue := bytesToInt_written (h n rfl) (hmax n rfl)
    exact bind_eq_ok.mpr ⟨written n, rfl, bind_eq_ok.mpr ⟨n, hvalue, rfl⟩⟩

theorem toBytes_bigint :
    ∃ b, toBytes (o.map .bigint) = .ok b ∧ (Tx.bytesToBigInt b : Int) = o.getD 0 := by
  cases o with
  | none => exact ⟨[], rfl, rfl⟩
  | some n =>
    obtain ⟨k, rfl⟩ := eq_ofNat_of_zero_le (h n rfl)
    exact ⟨_, Tx.toBytes_bigint k, congrArg Int.ofNat (Tx.bytesToBigInt_bigIntToBytes k)⟩

theorem toBytes_number (hmax : ∀ n ∈ o, n < 2 ^ 53) :
    (toBytes (o.map .number) >>= bytesToInt) = .ok (o.getD 0) := by
  cases o with
  | none => rfl
  | some n =>
    have hn := h n rfl
    have hlt := hmax n rfl
    have hint : Tx.intToBytes n = .ok (Rlp.numberToBytes n.toNat) := if_neg (by omega)
    have hvalue : (Tx.bytesToBigInt (Rlp.numberToBytes n.toNat) : Int) = n :=
      (congrArg Int.ofNat (Tx.bytesToBigInt_bigIntToBytes n.toNat)).trans (toNat_of_nonneg hn)
    refine bind_eq_ok.mpr ⟨_, hint, bind_eq_ok.mpr
      ⟨(), throwWhen_eq_ok.mpr (by omega), ?_⟩⟩
    rw [hvalue]
    rfl

end

theorem readItem_bytes (value : Option Bytes) :
    toBytes (readItem (some (value.map .bytes))) = .ok (value.getD []) := by
  cases value <;> rfl

theorem isNone_readItem (value : Option Bytes) :
    (readItem (some (value.map .bytes))).isNone = value.isNone := by
  cases value <;> rfl

/-- What is written is read with every missing field filled in. -/
theorem createPartialAccountFromRLP_items (h : Valid account) (hsome : ¬AllNull account)
    (hmax : (Rlp.encode (.list account.items)).length < 2 ^ 53) :
    createPartialAccountFromRLP (Rlp.encode (.list account.items)) =
      (account.filled._validate >>= fun _ => pure account.filled) := by
  obtain ⟨hnonce, hbalance, -, -, hcodeSize⟩ := validate_eq_ok.mp h.validated
  have hversion (n : Int) (hn : n ∈ account.version) : 0 ≤ n := (h.version n hn).1
  have hversion' (n : Int) (hn : n ∈ account.version) : n < 2 ^ 53 := (h.version n hn).2
  have hdecode : decodeArray (Rlp.encode (.list account.items)) = .ok account.items := by
    unfold decodeArray
    rw [Rlp.decode_encode hmax]
  have harrays : (account.items.forM fun value => throwWhen (value matches .bytes _)
      "Invalid partial encoding. Each item must be an array") = .ok () := by
    refine forM_eq_ok.mpr fun x hx => ?_
    have hlist (value : Option Bytes) : ∃ l, partialItem value = .list l := by
      cases value with
      | none => exact ⟨_, rfl⟩
      | some value => exact ⟨_, rfl⟩
    simp only [items, mem_cons, not_mem_nil, or_false] at hx
    rcases hx with rfl | rfl | rfl | rfl | rfl | rfl
    all_goals
      rw [(hlist _).choose_spec]
      rfl
  have hraws : (account.items.mapM fun value => handleNullIndicator (elements value)) =
      .ok [(account.nonce.map written).map .bytes, (account.balance.map written).map .bytes,
        account.storageRoot.map .bytes, account.codeHash.map .bytes,
        (account.codeSize.map written).map .bytes, (account.version.map written).map .bytes] := by
    simp only [items, mapM_cons, mapM_nil, handleNullIndicator_partialItem]
    rfl
  have hfields : ¬(account.nonce.isNone ∧ account.balance.isNone ∧ account.storageRoot.isNone ∧
      account.codeHash.isNone ∧ account.codeSize.isNone ∧ account.version.isNone) := by
    intro hnone
    apply hsome
    simp only [isNone_iff_eq_none] at hnone
    obtain ⟨hnonce, hbalance, hstorageRoot, hcodeHash, hcodeSize, hversion⟩ := hnone
    cases account
    subst hnonce hbalance hstorageRoot hcodeHash hcodeSize hversion
    rfl
  obtain ⟨nonce, hnonceBytes, hnonceValue⟩ := toBytes_bigint hnonce
  obtain ⟨balance, hbalanceBytes, hbalanceValue⟩ := toBytes_bigint hbalance
  have hcreate : createPartialAccount ⟨account.nonce.map .bigint, account.balance.map .bigint,
      readItem (some (account.storageRoot.map .bytes)), readItem (some (account.codeHash.map .bytes)),
      account.codeSize.map .number, account.version.map .number⟩ =
      (account.filled._validate >>= fun _ => pure account.filled) := by
    simp only [createPartialAccount, isNone_map, isNone_readItem, throwWhen, if_neg hfields, ok_bind,
      hnonceBytes, hbalanceBytes, readItem_bytes, toBytes_number hcodeSize h.codeSize,
      toBytes_number hversion hversion', hnonceValue, hbalanceValue]
    rfl
  simp only [createPartialAccountFromRLP, hdecode, harrays, hraws, ok_bind, getElem?_cons_succ,
    getElem?_cons_zero, readBigInt_written hnonce, readBigInt_written hbalance,
    readInt_written hcodeSize h.codeSize, readInt_written hversion hversion', hcreate]

/-! ## Which accounts come back -/

theorem getD_eq_iff {α : Type} {o : Option α} {a : α} : some (o.getD a) = o ↔ o ≠ none := by
  cases o with
  | none => exact ⟨nofun, fun h => absurd rfl h⟩
  | some b => exact ⟨fun _ => some_ne_none b, fun _ => rfl⟩

theorem validate_filled (h : Valid account) (hstorageRoot : account.storageRoot ≠ none)
    (hcodeHash : account.codeHash ≠ none) : account.filled._validate = .ok () := by
  obtain ⟨hnonce, hbalance, hroot, hhash, hcodeSize⟩ := validate_eq_ok.mp h.validated
  have hnonneg {o : Option Int} (ho : ∀ n ∈ o, 0 ≤ n) (n : Int) (hn : n ∈ some (o.getD 0)) : 0 ≤ n := by
    obtain rfl := some.inj hn
    cases o with
    | none => exact Int.le_refl 0
    | some n => exact ho n rfl
  refine validate_eq_ok.mpr ⟨hnonneg hnonce, hnonneg hbalance, ?_, ?_, hnonneg hcodeSize⟩
  · rwa [filled, getD_eq_iff.mpr hstorageRoot]
  · rwa [filled, getD_eq_iff.mpr hcodeHash]

theorem sameFields_filled (h : Loaded account) : SameFields account account.filled where
  nonce := getD_eq_iff.mpr h.nonce
  balance := getD_eq_iff.mpr h.balance
  storageRoot := getD_eq_iff.mpr h.storageRoot
  codeHash := getD_eq_iff.mpr h.codeHash
  codeSize := by
    cases hsize : account.codeSize with
    | none => exact .inr ⟨rfl, by rw [filled, hsize]; rfl, h.codeSize hsize⟩
    | some n => exact .inl (by rw [filled, hsize]; rfl)
  version := getD_eq_iff.mpr h.version

theorem loaded_of_sameFields (h : SameFields account account.filled) : Loaded account where
  nonce := getD_eq_iff.mp h.nonce
  balance := getD_eq_iff.mp h.balance
  storageRoot := getD_eq_iff.mp h.storageRoot
  codeHash := getD_eq_iff.mp h.codeHash
  codeSize hnone := by
    rcases h.codeSize with hsame | ⟨-, -, hempty⟩
    · exact absurd hnone (getD_eq_iff.mp hsame)
    · exact hempty
  version := getD_eq_iff.mp h.version

/-- An account with null indicators comes back where no field but the size of empty code is missing. -/
theorem comesBack_iff (h : Valid account) (hsome : ¬AllNull account)
    (hmax : ∀ bytes, account.serializeWithPartialInfo = .ok bytes → bytes.length < 2 ^ 53) :
    RoundTrips account ↔ Loaded account := by
  have hwritten := serializeWithPartialInfo_eq h
  have hread := createPartialAccountFromRLP_items h hsome (hmax _ hwritten)
  constructor
  · rintro ⟨bytes, hbytes, account', haccount', hsame⟩
    obtain rfl := ok.inj (hwritten.symm.trans hbytes)
    rw [hread] at haccount'
    obtain ⟨-, hfilled⟩ := andThen_eq_ok.mp haccount'
    obtain rfl := ok.inj hfilled
    exact loaded_of_sameFields hsame
  · intro hloaded
    have hvalid := validate_filled h hloaded.storageRoot hloaded.codeHash
    exact ⟨_, hwritten, account.filled, hread.trans (andThen_eq_ok.mpr ⟨hvalid, rfl⟩),
      sameFields_filled hloaded⟩

/-! ## Full accounts -/

/-- The fields of the account trie are there. -/
structure Full (account : PartialAccount) : Prop where
  nonce : account.nonce ≠ none
  balance : account.balance ≠ none
  storageRoot : account.storageRoot ≠ none
  codeHash : account.codeHash ≠ none

/-- What is written of a full account is read back. -/
def FullRoundTrips (account : PartialAccount) : Prop :=
  ∃ bytes, account.serialize = .ok bytes ∧ ∃ account', createAccountFromRLP bytes = .ok account' ∧
    account'.nonce = account.nonce ∧ account'.balance = account.balance ∧
    account'.storageRoot = account.storageRoot ∧ account'.codeHash = account.codeHash

theorem fullRoundTrips (h : Valid account) (hfull : Full account)
    (hmax : ∀ bytes, account.serialize = .ok bytes → bytes.length < 2 ^ 53) :
    FullRoundTrips account := by
  obtain ⟨hnonce, hbalance, hroot, hhash, -⟩ := validate_eq_ok.mp h.validated
  obtain ⟨nonce, en⟩ := Option.ne_none_iff_exists'.mp hfull.nonce
  obtain ⟨balance, eb⟩ := Option.ne_none_iff_exists'.mp hfull.balance
  obtain ⟨storageRoot, er⟩ := Option.ne_none_iff_exists'.mp hfull.storageRoot
  obtain ⟨codeHash, ec⟩ := Option.ne_none_iff_exists'.mp hfull.codeHash
  have hwritten : account.serialize = .ok (Rlp.encode (.list [.bytes (written nonce),
      .bytes (written balance), .bytes storageRoot, .bytes codeHash])) := by
    simp only [serialize, raw, en, eb, er, ec, loaded, ok_bind, bigIntToUnpaddedBytes_eq (hnonce nonce en),
      bigIntToUnpaddedBytes_eq (hbalance balance eb)]
    rfl
  have hdecode : decodeArray (Rlp.encode (.list [.bytes (written nonce), .bytes (written balance),
      .bytes storageRoot, .bytes codeHash])) =
      .ok [.bytes (written nonce), .bytes (written balance), .bytes storageRoot, .bytes codeHash] := by
    unfold decodeArray
    rw [Rlp.decode_encode (hmax _ hwritten)]
  have hvalid : _validate ⟨some nonce, some balance, some storageRoot, some codeHash, some 0, some 0⟩ =
      .ok () := by
    rw [en] at hnonce
    rw [eb] at hbalance
    rw [er] at hroot
    rw [ec] at hhash
    refine validate_eq_ok.mpr ⟨hnonce, hbalance, hroot, hhash, fun n hn => ?_⟩
    exact Int.le_of_eq (some.inj hn)
  have hvalues : createAccountFromBytesArray [.bytes (written nonce), .bytes (written balance),
      .bytes storageRoot, .bytes codeHash] =
      .ok ⟨some nonce, some balance, some storageRoot, some codeHash, some 0, some 0⟩ := by
    have hnonceValue := bytesToBigInt_written (hnonce nonce en)
    have hbalanceValue := bytesToBigInt_written (hbalance balance eb)
    change new (some (Tx.bytesToBigInt (written nonce) : Int)) (some (Tx.bytesToBigInt (written balance) : Int))
      (some storageRoot) (some codeHash) (some 0) (some 0) = _
    rw [hnonceValue, hbalanceValue]
    exact andThen_eq_ok.mpr ⟨hvalid, rfl⟩
  exact ⟨_, hwritten, _, bind_eq_ok.mpr ⟨_, hdecode, hvalues⟩, en.symm, eb.symm, er.symm, ec.symm⟩

/-- A valid account of which something is known comes back from its partial form where it is loaded,
and a full one comes back from its RLP form. -/
theorem partialCodec_iff (account : PartialAccount) (h : Valid account) (hsome : ¬AllNull account)
    (hmax : ∀ bytes, account.serializeWithPartialInfo = .ok bytes → bytes.length < 2 ^ 53)
    (hmax' : ∀ bytes, account.serialize = .ok bytes → bytes.length < 2 ^ 53) :
    (RoundTrips account ∧ (Full account → FullRoundTrips account)) ↔ Loaded account := by
  refine (and_iff_left ?_).trans (comesBack_iff h hsome hmax)
  exact fun hfull => fullRoundTrips h hfull hmax'

namespace Sample

/-- An account of which the nonce is not known. -/
def withoutNonce : PartialAccount :=
  ⟨none, some 5, some KECCAK256_RLP, some KECCAK256_NULL, some 0, some 0⟩

theorem valid_withoutNonce : Valid withoutNonce where
  validated := by decide
  codeSize n hn := by
    obtain rfl := some.inj hn
    decide
  version n hn := by
    obtain rfl := some.inj hn
    decide

theorem length_withoutNonce (bytes : Bytes) (h : withoutNonce.serializeWithPartialInfo = .ok bytes) :
    bytes.length < 2 ^ 53 := by
  obtain rfl := ok.inj ((serializeWithPartialInfo_eq valid_withoutNonce).symm.trans h)
  decide +kernel

end Sample

theorem partialCodec_iff_withoutNonce : (RoundTrips Sample.withoutNonce ∧
    (Full Sample.withoutNonce → FullRoundTrips Sample.withoutNonce)) ↔ Loaded Sample.withoutNonce :=
  partialCodec_iff Sample.withoutNonce Sample.valid_withoutNonce nofun Sample.length_withoutNonce nofun

/-- A missing nonce comes back as zero. -/
theorem nonce_invented : Valid Sample.withoutNonce ∧ ¬AllNull Sample.withoutNonce ∧
    Sample.withoutNonce.nonce = none ∧
    (Sample.withoutNonce.serializeWithPartialInfo >>= createPartialAccountFromRLP) =
      .ok { Sample.withoutNonce with nonce := some 0 } ∧ ¬RoundTrips Sample.withoutNonce := by
  refine ⟨Sample.valid_withoutNonce, nofun, rfl, by decide +kernel, ?_⟩
  have hiff := comesBack_iff Sample.valid_withoutNonce nofun Sample.length_withoutNonce
  exact fun h => (hiff.mp h).nonce rfl

/-- A missing storage root comes back as bytes that the class does not take. -/
example : (serializeWithPartialInfo ⟨none, some 5, none, none, none, none⟩ >>= createPartialAccountFromRLP) =
    .error "storageRoot must have a length of 32" := by
  decide +kernel

end PartialAccount
