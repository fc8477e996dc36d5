-- SUMMARY: Serialized transactions are read back, and which byte strings a decoded transaction is written as again.
import TsEthereum.Tx.Values

/-!
# The transaction codec

A transaction that was decoded is written as the bytes it was read from where the values
that no check covers have the form that transactions write. What a transaction writes
spells its own fields, so reading it gives the transaction again.
-/

open Option Except List Nat

open Except (throwWhen)

namespace Tx

open AccessList2930Tx FeeMarket1559Tx EOACode7702Tx

open Rlp (Item)

/-! ## Reading any transaction -/

/-- The values of a type that no check keeps from being read of more than one form: the chain id,
the priority fee, the fee for blob gas and the versioned hashes. -/
def ExactValues : TransactionType → List Item → Prop
  | .Legacy, _ => True
  | .AccessListEIP2930, values => ∀ x ∈ values[0]?, IsNumber x
  | .FeeMarketEIP1559, values | .EOACodeEIP7702, values =>
    (∀ x ∈ values[0]?, IsNumber x) ∧ ∀ x ∈ values[2]?, IsBytes x
  | .BlobEIP4844, values =>
    (∀ x ∈ values[0]?, IsNumber x) ∧ (∀ x ∈ values[2]?, IsBytes x) ∧ (∀ x ∈ values[9]?, IsBytes x) ∧
      ∀ x ∈ values[10]?, ∀ y ∈ itemsOf x, IsBytes y

namespace Transaction

theorem fromBytesArray_type {type : TransactionType} {values : List Item} {opts : TxOptions}
    {tx : Transaction} (h : fromBytesArray type values opts = .ok tx) : tx.type = type := by
  cases type
  all_goals
    obtain ⟨_, -, rfl⟩ := Except.map_eq_ok.mp h
    rfl

/-- A signed transaction is written with the values it was read from exactly where the values that
are not checked have the form that it writes. -/
theorem fromBytesArray_raw_iff {type : TransactionType} {values : List Item} {opts : TxOptions}
    {tx : Transaction} (h : fromBytesArray type values opts = .ok tx) (hsigned : tx.isSigned = true) :
    tx.raw = values ↔ ExactValues type values := by
  have hno {P : Prop} (hunsigned : tx.isSigned = false) : P := nomatch hsigned.symm.trans hunsigned
  cases type with
  | Legacy =>
    obtain ⟨tx', h', rfl⟩ := Except.map_eq_ok.mp h
    unfold createLegacyTxFromBytesArray at h'
    split at h'
    · obtain ⟨⟨⟩, -, h'⟩ := bind_eq_ok.mp h'
      exact hno (not_isSigned (LegacyTx.new_eq_ok.mp h').1.shared rfl)
    · exact iff_of_true (LegacyTx.raw_of_values h') trivial
    · cases h'
  | AccessListEIP2930 =>
    obtain ⟨tx', h', rfl⟩ := Except.map_eq_ok.mp h
    unfold createAccessList2930TxFromBytesArray at h'
    split at h'
    · obtain ⟨⟨⟩, -, h'⟩ := bind_eq_ok.mp h'
      obtain ⟨⟨⟩, -, h'⟩ := bind_eq_ok.mp h'
      exact hno (not_isSigned (new_eq_ok.mp h').1.shared rfl)
    · refine (raw_eq_iff h').trans ?_
      simp [ExactValues]
    · cases h'
  | FeeMarketEIP1559 =>
    obtain ⟨tx', h', rfl⟩ := Except.map_eq_ok.mp h
    unfold create1559FeeMarketTxFromBytesArray at h'
    split at h'
    · obtain ⟨⟨⟩, -, h'⟩ := bind_eq_ok.mp h'
      obtain ⟨⟨⟩, -, h'⟩ := bind_eq_ok.mp h'
      exact hno (not_isSigned (new_eq_ok.mp h').1.shared rfl)
    · refine (raw_eq_iff h').trans ?_
      simp [ExactValues]
    · cases h'
  | BlobEIP4844 =>
    obtain ⟨tx', h', rfl⟩ := Except.map_eq_ok.mp h
    obtain ⟨_, -, h'⟩ := bind_eq_ok.mp h'
    split at h'
    · obtain ⟨⟨⟩, -, h'⟩ := bind_eq_ok.mp h'
      obtain ⟨⟨⟩, -, h'⟩ := bind_eq_ok.mp h'
      exact hno (not_isSigned (Blob4844Tx.new_eq_ok.mp h').1.feeMarket.shared rfl)
    · refine (Blob4844Tx.raw_eq_iff h').trans ?_
      simp [ExactValues]
    · cases h'
  | EOACodeEIP7702 =>
    obtain ⟨tx', h', rfl⟩ := Except.map_eq_ok.mp h
    unfold createEOACode7702TxFromBytesArray at h'
    split at h'
    · obtain ⟨⟨⟩, -, h'⟩ := bind_eq_ok.mp h'
      obtain ⟨⟨⟩, -, h'⟩ := bind_eq_ok.mp h'
      exact hno (not_isSigned (new_eq_ok.mp h').1.feeMarket.shared rfl)
    · refine (raw_eq_iff h').trans ?_
      simp [ExactValues]
    · cases h'

end Transaction

/-- The type that the first byte stands for; a legacy transaction has no type byte. -/
def typeOf (data : Bytes) : TransactionType :=
  match data.head? with
  | some 1 => .AccessListEIP2930
  | some 2 => .FeeMarketEIP1559
  | some 3 => .BlobEIP4844
  | some 4 => .EOACodeEIP7702
  | _ => .Legacy

/-- The part of a serialized transaction that is RLP. -/
def payloadOf (data : Bytes) : Bytes := if typeOf data = .Legacy then data else data.drop 1

/-- A byte string of which the values that are not checked have the form that transactions write. -/
def Exact (data : Bytes) : Prop :=
  ∀ values, Rlp.decode (payloadOf data) = .ok (.list values) → ExactValues (typeOf data) values

variable {data : Bytes}

theorem typeOf_of_head {type : TransactionType} (h : data.head? = some type.byte) :
    typeOf data = type := by
  unfold typeOf
  rw [h]
  cases type <;> rfl

theorem typeOf_of_empty (h : data.head? = none) : typeOf data = .Legacy := by
  unfold typeOf
  rw [h]

theorem typeOf_of_not_le {first : UInt8} (h : data.head? = some first) (hfirst : ¬first ≤ 0x7f) :
    typeOf data = .Legacy := by
  unfold typeOf
  rw [h]
  split
  all_goals first
    | rfl
    | next heq => exact absurd (by rw [some.inj heq]; decide) hfirst

theorem eq_cons_payloadOf (h : typeOf data ≠ .Legacy) :
    data = (typeOf data).byte :: payloadOf data := by
  unfold payloadOf
  rw [if_neg h]
  cases data with
  | nil => exact absurd rfl h
  | cons first payload =>
    have hbyte : (typeOf (first :: payload)).byte = first := by
      unfold typeOf at h ⊢
      rw [head?_cons] at h ⊢
      split
      all_goals first
        | next heq => exact (some.inj heq).symm
        | next h₁ h₂ h₃ h₄ => split at h <;> contradiction
    rw [hbyte]
    rfl

theorem decode_of_decodeValues {payload : Bytes} {msg : String} {values : List Item}
    (h : decodeValues payload msg = .ok values) : Rlp.decode payload = .ok (.list values) := by
  unfold decodeValues at h
  split at h
  · next hdecode => exact ok.inj h ▸ hdecode
  · cases h
  · cases h

variable {tx : Transaction}

/-- The factory reads the type from the first byte and the values from the rest. -/
theorem createTxFromRLP_eq_ok {opts : TxOptions} (h : createTxFromRLP data opts = .ok tx) :
    ∃ values, Rlp.decode (payloadOf data) = .ok (.list values) ∧
      Transaction.fromBytesArray (typeOf data) values opts = .ok tx := by
  have hlegacy (htype : typeOf data = .Legacy) (h : createLegacyTxFromRLP data opts = .ok tx) :
      ∃ values, Rlp.decode (payloadOf data) = .ok (.list values) ∧
        Transaction.fromBytesArray (typeOf data) values opts = .ok tx := by
    obtain ⟨values, hdecode, h⟩ := bind_eq_ok.mp h
    unfold payloadOf
    rw [htype, if_pos rfl]
    exact ⟨values, decode_of_decodeValues hdecode, h⟩
  have htyped (type : TransactionType) (eip : String) (hne : type ≠ .Legacy) (htype : typeOf data = type)
      (h : createTypedTxFromRLP type eip data opts = .ok tx) :
      ∃ values, Rlp.decode (payloadOf data) = .ok (.list values) ∧
        Transaction.fromBytesArray (typeOf data) values opts = .ok tx := by
    obtain ⟨⟨⟩, -, h⟩ := bind_eq_ok.mp h
    obtain ⟨values, hdecode, h⟩ := bind_eq_ok.mp h
    unfold payloadOf
    rw [htype, if_neg hne]
    exact ⟨values, decode_of_decodeValues hdecode, h⟩
  unfold createTxFromRLP at h
  split at h
  · next hempty => exact hlegacy (typeOf_of_empty hempty) h
  · next first hfirst =>
    split at h
    · split at h
      · exact htyped .AccessListEIP2930 "EIP-2930" nofun (typeOf_of_head hfirst) h
      · exact htyped .FeeMarketEIP1559 "EIP-1559" nofun (typeOf_of_head hfirst) h
      · obtain ⟨kzg, -, h⟩ := bind_eq_ok.mp h
        exact htyped .BlobEIP4844 "EIP-4844" nofun (typeOf_of_head hfirst) h
      · exact htyped .EOACodeEIP7702 "EIP-7702" nofun (typeOf_of_head hfirst) h
      · cases h
    · next hlarge => exact hlegacy (typeOf_of_not_le hfirst hlarge) h

theorem serialize_eq (tx : Transaction) :
    tx.serialize = if tx.type = .Legacy then Rlp.encode (.list tx.raw)
      else tx.type.byte :: Rlp.encode (.list tx.raw) := by
  cases tx <;> rfl

/-- A list is encoded as the bytes that another list was decoded from where the lists are equal. -/
theorem encode_eq_payload_iff {payload : Bytes} {raw values : List Item} (hmax : payload.length < 2 ^ 53)
    (hdecode : Rlp.decode payload = .ok (.list values)) :
    Rlp.encode (.list raw) = payload ↔ raw = values := by
  have hne : payload ≠ [] := by
    rintro rfl
    cases hdecode
  constructor
  · rintro rfl
    have hraw := Rlp.decode_encode hmax
    exact Item.list.inj (ok.inj (hraw.symm.trans hdecode))
  · rintro rfl
    exact Rlp.encode_of_decode hne hmax hdecode

/-- A signed transaction that was decoded is written as the same bytes exactly where the values that
are not checked have the form that transactions write. -/
theorem serialize_eq_iff {opts : TxOptions} (hmax : data.length < 2 ^ 53)
    (h : createTxFromRLP data opts = .ok tx) (hsigned : tx.isSigned = true) :
    tx.serialize = data ↔ Exact data := by
  obtain ⟨values, hdecode, hvalues⟩ := createTxFromRLP_eq_ok h
  have htype := Transaction.fromBytesArray_type hvalues
  have hraw := Transaction.fromBytesArray_raw_iff hvalues hsigned
  have hpayload : (payloadOf data).length < 2 ^ 53 := by
    unfold payloadOf
    split
    · exact hmax
    · exact Nat.lt_of_le_of_lt (drop_suffix 1 data).length_le hmax
  have hexact : Exact data ↔ ExactValues (typeOf data) values := by
    constructor
    · exact fun h => h values hdecode
    · intro h values' hdecode'
      obtain rfl := Item.list.inj (ok.inj (hdecode.symm.trans hdecode'))
      exact h
  rw [hexact, ← hraw, ← encode_eq_payload_iff hpayload hdecode, serialize_eq, htype]
  split
  · next hlegacy => rw [payloadOf, if_pos hlegacy]
  · next htyped =>
    have hdata := eq_cons_payloadOf htyped
    exact ⟨fun h => (List.cons.inj (h.trans hdata)).2,
      fun h => (congrArg (List.cons _) h).trans hdata.symm⟩

/-! ## Reading what was written -/

theorem spells_numberItem (n : Nat) : Spells (.item (numberItem n)) n :=
  ⟨_, rfl, bytesToBigInt_bigIntToUnpaddedBytes n⟩

/-- A part of a signature that is zero is written as if it was missing. -/
theorem spellsSignature_item {n : Option Nat} (h : n ≠ some 0) :
    SpellsSignature (.item (signatureItem n)) n := by
  cases n with
  | none => exact ⟨[], rfl, rfl⟩
  | some n =>
    have hpos : (bigIntToUnpaddedBytes n).length > 0 :=
      List.length_pos_iff.mpr fun hnil => h (congrArg some (bigIntToUnpaddedBytes_eq_nil.mp hnil))
    exact ⟨_, rfl, (if_pos hpos).trans (congrArg some (bytesToBigInt_bigIntToUnpaddedBytes n))⟩

theorem spellsSignature_yParity (n : Nat) :
    SpellsSignature (yParityOf (some (signatureItem (some n)))) (some n) := by
  refine ⟨_, toBytes_bigint _, ?_⟩
  rw [signatureValue_bigIntToBytes]
  exact congrArg some (bytesToBigInt_bigIntToUnpaddedBytes n)

theorem spells_addressItem (address : Option Address) :
    ∃ b, toBytes (BytesLike.item (addressItem address)).emptyTo0x = .ok b ∧
      toAddress b = .ok address := by
  cases address with
  | none => exact ⟨[], rfl, rfl⟩
  | some address =>
    refine ⟨address.bytes, rfl, ?_⟩
    have hpos : address.bytes.length > 0 := Nat.lt_of_lt_of_eq (succ_pos 19) address.length_eq.symm
    unfold toAddress Address.new
    rw [if_pos hpos, dif_pos address.length_eq]
    rfl

theorem checkChainId_numberItem (common : Common) :
    checkChainId (bigIntOf (numberItem common.chainIdBigInt)) common = .ok () := by
  refine bind_eq_ok.mpr ⟨_, toBytes_bigint _, throwWhen_eq_ok.mpr (not_not.mpr ?_)⟩
  rw [bytesToBigInt_bigIntToBytes]
  exact bytesToBigInt_bigIntToUnpaddedBytes _

theorem readVersionedHashes_map (hashes : List Bytes) :
    readVersionedHashes (some (.decoded (.list (hashes.map .bytes)))) = .ok hashes := by
  refine (mapM_toHexBytes _).trans ?_
  rw [List.map_map]
  exact congrArg Except.ok (List.map_id hashes)

theorem readAccessList_of_isAccessListBytes {x : Item} (h : isAccessListBytes x = true) :
    readAccessList (some (.bytes x)) = .ok x := if_pos h

theorem readAuthorizationList_of_isAccessListBytes {x : Item} (h : isAccessListBytes x = true) :
    readAuthorizationList (some (.bytes x)) = .ok x := if_pos h

/-- The values that a transaction writes are no arrays and have no zero in front. -/
theorem validateNoLeadingZeroes_of_isNumber {values : List (String × Option Item)}
    (h : ∀ e ∈ values, ∀ x ∈ e.2, IsNumber x) : validateNoLeadingZeroes values = .ok () :=
  validateNoLeadingZeroes_eq_ok.mpr fun e he x hx => not_hasLeadingZero (h e he x hx)

theorem isArray_numberItem (n : Nat) : (BytesLike.item (numberItem n)).isArray = false := rfl

theorem isArray_signatureItem (n : Option Nat) : (BytesLike.item (signatureItem n)).isArray = false := by
  cases n <;> rfl

theorem isArray_addressItem (address : Option Address) :
    (BytesLike.item (addressItem address)).isArray = false := by
  cases address <;> rfl

/-- The data that the values of a transaction give. -/
theorem spellsShared_values {txData : TxData} {tx : TransactionInterface}
    (harrays : NoArrays txData) (hnonce : txData.nonce = .item (numberItem tx.nonce))
    (hgasLimit : txData.gasLimit = .item (numberItem tx.gasLimit))
    (hto : txData.to = .item (addressItem tx.to)) (hvalue : txData.value = .item (numberItem tx.value))
    (hdata : txData.data = .item (.bytes tx.data)) (hv : SpellsSignature txData.v tx.v)
    (hr : SpellsSignature txData.r tx.r) (hs : SpellsSignature txData.s tx.s) :
    SpellsShared txData tx where
  notArray := validateNotArray_entries.mpr harrays
  «to» := hto ▸ spells_addressItem tx.to
  v := hv
  r := hr
  s := hs
  nonce := hnonce ▸ spells_numberItem tx.nonce
  gasLimit := hgasLimit ▸ spells_numberItem tx.gasLimit
  value := hvalue ▸ spells_numberItem tx.value
  data := by rw [hdata]; rfl

/-- A complete signature that is not zero. -/
structure Signed (tx : TransactionInterface) : Prop where
  isSigned : tx.isSigned = true
  r : tx.r ≠ some 0
  s : tx.s ≠ some 0

theorem Signed.exists_v {tx : TransactionInterface} (h : Signed tx) : ∃ v, tx.v = some v := by
  have hsigned := h.isSigned
  unfold TransactionInterface.isSigned at hsigned
  rw [Bool.and_eq_true, Bool.and_eq_true] at hsigned
  exact isSome_iff_exists.mp hsigned.1.1

section Raw

variable {opts : TxOptions}

/-- The data that the values of a signed transaction with a parity give. -/
theorem spellsShared_signed {txData : TxData} {tx : TransactionInterface} (hsigned : Signed tx)
    (harrays : NoArrays txData) (hnonce : txData.nonce = .item (numberItem tx.nonce))
    (hgasLimit : txData.gasLimit = .item (numberItem tx.gasLimit))
    (hto : txData.to = .item (addressItem tx.to)) (hvalue : txData.value = .item (numberItem tx.value))
    (hdata : txData.data = .item (.bytes tx.data)) (hv : txData.v = yParityOf (some (signatureItem tx.v)))
    (hr : txData.r = .item (signatureItem tx.r)) (hs : txData.s = .item (signatureItem tx.s)) :
    SpellsShared txData tx := by
  obtain ⟨v, hsome⟩ := hsigned.exists_v
  refine spellsShared_values harrays hnonce hgasLimit hto hvalue hdata ?_ ?_ ?_
  · rw [hv, hsome]
    exact spellsSignature_yParity v
  · exact hr ▸ spellsSignature_item hsigned.r
  · exact hs ▸ spellsSignature_item hsigned.s

/-- A legacy `v` is checked against its least values, so it is not zero. -/
theorem LegacyTx.v_ne_zero {tx : LegacyTx} (h : tx.Accepted opts) : tx.v ≠ some 0 := by
  intro hv
  obtain ⟨chainId, hchainId, -⟩ := h.chainId
  rw [hv] at hchainId
  obtain ⟨⟨⟩, hcheck, -⟩ := bind_eq_ok.mp hchainId
  rw [toNumber_of_lt (Nat.two_pow_pos 53), throwWhen_eq_ok] at hcheck
  exact hcheck (by decide)

theorem LegacyTx.fromBytesArray_raw {tx : LegacyTx} (h : tx.Accepted opts)
    (hsigned : Signed tx.toTransactionInterface) : createLegacyTxFromBytesArray tx.raw opts = .ok tx := by
  refine bind_eq_ok.mpr ⟨(), validateNoLeadingZeroes_of_isNumber ?_,
    LegacyTx.new_eq_ok.mpr ⟨⟨spellsShared_values ?_ rfl rfl rfl rfl rfl ?_ ?_ ?_, spells_numberItem _⟩, h⟩⟩
  · simp [isNumber_numberItem, isNumber_signatureItem]
  · exact ⟨rfl, rfl, rfl, rfl, rfl, isArray_addressItem _, rfl, rfl, isArray_signatureItem _,
      isArray_signatureItem _, isArray_signatureItem _⟩
  · exact spellsSignature_item (LegacyTx.v_ne_zero h)
  · exact spellsSignature_item hsigned.r
  · exact spellsSignature_item hsigned.s

theorem validateNotArray_chainId_v (chainId : Nat) (v : Option Nat) :
    validateNotArray [("chainId", .item (numberItem chainId)), ("v", .ofOption (some (signatureItem v)))] =
      .ok () := by
  refine validateNotArray_eq_ok.mpr ?_
  simp [isArray_numberItem, isArray_signatureItem, BytesLike.ofOption]

theorem AccessList2930Tx.fromBytesArray_raw {tx : AccessList2930Tx} (h : tx.Accepted opts)
    (hlist : isAccessListBytes tx.accessList = true) (hsigned : Signed tx.toTransactionInterface) :
    createAccessList2930TxFromBytesArray tx.raw opts = .ok tx := by
  refine bind_eq_ok.mpr ⟨(), validateNotArray_chainId_v _ _, bind_eq_ok.mpr
    ⟨(), validateNoLeadingZeroes_of_isNumber ?_, new_eq_ok.mpr
      ⟨⟨spellsShared_signed hsigned ?_ rfl rfl rfl rfl rfl rfl rfl rfl, ?_, readAccessList_of_isAccessListBytes hlist,
        spells_numberItem _⟩, h⟩⟩⟩
  · simp [isNumber_numberItem, isNumber_signatureItem]
  · exact ⟨rfl, rfl, rfl, rfl, rfl, isArray_addressItem _, rfl, rfl, rfl, isArray_signatureItem _,
      isArray_signatureItem _⟩
  · rw [h.chainId]
    exact checkChainId_numberItem _

/-- The data that the values of a transaction with a priority fee give. -/
theorem spellsFeeMarket_values {txData : TxData} {tx : FeeMarketInterface}
    (haccepts : AcceptsFeeMarket opts tx) (hlist : isAccessListBytes tx.accessList = true)
    (hshared : SpellsShared txData tx.toTransactionInterface)
    (hchainId : txData.chainId = bigIntOf (numberItem tx.chainId))
    (haccessList : txData.accessList = some (.bytes tx.accessList))
    (hfee : txData.maxFeePerGas = .item (numberItem tx.maxFeePerGas))
    (hpriority : txData.maxPriorityFeePerGas = .item (numberItem tx.maxPriorityFeePerGas)) :
    SpellsFeeMarket txData tx where
  shared := hshared
  chainId := by
    rw [hchainId, haccepts.chainId]
    exact checkChainId_numberItem _
  accessList := haccessList ▸ readAccessList_of_isAccessListBytes hlist
  maxFeePerGas := hfee ▸ spells_numberItem _
  maxPriorityFeePerGas := hpriority ▸ spells_numberItem _

theorem FeeMarket1559Tx.fromBytesArray_raw {tx : FeeMarket1559Tx}
    (h : AcceptsFeeMarket opts tx.toFeeMarketInterface) (heip : tx.common.isActivatedEIP 1559 ≠ false)
    (hlist : isAccessListBytes tx.accessList = true) (hsigned : Signed tx.toTransactionInterface) :
    create1559FeeMarketTxFromBytesArray tx.raw opts = .ok tx := by
  refine bind_eq_ok.mpr ⟨(), validateNotArray_chainId_v _ _, bind_eq_ok.mpr
    ⟨(), validateNoLeadingZeroes_of_isNumber ?_, new_eq_ok.mpr
      ⟨spellsFeeMarket_values h hlist (spellsShared_signed hsigned ?_ rfl rfl rfl rfl rfl rfl rfl rfl) rfl rfl rfl rfl,
        h, heip⟩⟩⟩
  · simp [isNumber_numberItem, isNumber_signatureItem]
  · exact ⟨rfl, rfl, rfl, rfl, rfl, isArray_addressItem _, rfl, rfl, rfl, isArray_signatureItem _,
      isArray_signatureItem _⟩

theorem EOACode7702Tx.fromBytesArray_raw {tx : EOACode7702Tx} (h : tx.Accepted opts)
    (hlist : isAccessListBytes tx.accessList = true) (hauth : isAccessListBytes tx.authorizationList = true)
    (hsigned : Signed tx.toTransactionInterface) :
    createEOACode7702TxFromBytesArray tx.raw opts = .ok tx := by
  refine bind_eq_ok.mpr ⟨(), validateNotArray_chainId_v _ _, bind_eq_ok.mpr
    ⟨(), validateNoLeadingZeroes_of_isNumber ?_, new_eq_ok.mpr
      ⟨⟨spellsFeeMarket_values h.feeMarket hlist (spellsShared_signed hsigned ?_ rfl rfl rfl rfl rfl rfl rfl rfl) rfl rfl
        rfl rfl, readAuthorizationList_of_isAccessListBytes hauth⟩, h⟩⟩⟩
  · simp [isNumber_numberItem, isNumber_signatureItem]
  · exact ⟨rfl, rfl, rfl, rfl, rfl, isArray_addressItem _, rfl, rfl, rfl, isArray_signatureItem _,
      isArray_signatureItem _⟩

/-- The transaction in the canonical format. -/
def Blob4844Tx.canonical (tx : Blob4844Tx) : Blob4844Tx := { tx with networkWrapper := .none }

theorem Blob4844Tx.fromBytesArray_raw {tx : Blob4844Tx} (h : tx.Accepted opts)
    (hlist : isAccessListBytes tx.accessList = true) (hkzg : opts.common.kzg.isSome = true)
    (hsigned : Signed tx.toTransactionInterface) :
    createBlob4844TxFromBytesArray tx.raw opts = .ok tx.canonical := by
  obtain ⟨kzg, hkzg⟩ := isSome_iff_exists.mp hkzg
  have hrequire : requireKzg opts = .ok kzg := by
    unfold requireKzg
    rw [hkzg]
  have haccepted : tx.canonical.Accepted opts := ⟨h.1, h.2, h.3, h.4, h.5, h.6⟩
  refine bind_eq_ok.mpr ⟨kzg, hrequire, bind_eq_ok.mpr ⟨(), validateNotArray_chainId_v _ _,
    bind_eq_ok.mpr ⟨(), validateNoLeadingZeroes_of_isNumber ?_, Blob4844Tx.new_eq_ok.mpr
      ⟨⟨spellsFeeMarket_values haccepted.feeMarket hlist
        (spellsShared_signed hsigned ?_ rfl rfl rfl rfl rfl rfl rfl rfl) rfl rfl rfl rfl, spells_numberItem _,
        readVersionedHashes_map _⟩, ⟨none, rfl, rfl, rfl⟩, haccepted⟩⟩⟩⟩
  · simp [isNumber_numberItem, isNumber_signatureItem]
  · exact ⟨rfl, rfl, rfl, rfl, rfl, isArray_addressItem _, rfl, rfl, rfl, isArray_signatureItem _,
      isArray_signatureItem _⟩

end Raw

namespace Transaction

/-- The transaction as it stands in its RLP form: a blob transaction is in the canonical format. -/
def canonical : Transaction → Transaction
  | blob4844 tx => blob4844 tx.canonical
  | tx => tx

/-- The transaction passes the checks of its constructor. -/
def Accepted (opts : TxOptions) : Transaction → Prop
  | legacy tx => tx.Accepted opts
  | accessList2930 tx => tx.Accepted opts ∧ isAccessListBytes tx.accessList = true
  | feeMarket1559 tx => (AcceptsFeeMarket opts tx.toFeeMarketInterface ∧
      tx.common.isActivatedEIP 1559 ≠ false) ∧ isAccessListBytes tx.accessList = true
  | blob4844 tx =>
    tx.Accepted opts ∧ isAccessListBytes tx.accessList = true ∧ opts.common.kzg.isSome = true
  | eoaCode7702 tx => tx.Accepted opts ∧ isAccessListBytes tx.accessList = true ∧
      isAccessListBytes tx.authorizationList = true

theorem accepted_of_new {type : TransactionType} {txData : TxData} {opts : TxOptions} {tx : Transaction}
    (h : new type txData opts = .ok tx) : tx.Accepted opts := by
  cases type with
  | Legacy =>
    obtain ⟨tx', h', rfl⟩ := Except.map_eq_ok.mp h
    exact (LegacyTx.new_eq_ok.mp h').2
  | AccessListEIP2930 =>
    obtain ⟨tx', h', rfl⟩ := Except.map_eq_ok.mp h
    obtain ⟨hspelled, haccepted⟩ := new_eq_ok.mp h'
    exact ⟨haccepted, isAccessListBytes_of_read hspelled.accessList⟩
  | FeeMarketEIP1559 =>
    obtain ⟨tx', h', rfl⟩ := Except.map_eq_ok.mp h
    obtain ⟨hspelled, haccepted⟩ := new_eq_ok.mp h'
    exact ⟨haccepted, isAccessListBytes_of_read hspelled.accessList⟩
  | BlobEIP4844 =>
    obtain ⟨tx', h', rfl⟩ := Except.map_eq_ok.mp h
    obtain ⟨kzg, hkzg, h'⟩ := bind_eq_ok.mp h'
    obtain ⟨⟨⟩, -, h'⟩ := bind_eq_ok.mp h'
    obtain ⟨filled, -, h'⟩ := bind_eq_ok.mp h'
    obtain ⟨hspelled, -, haccepted⟩ := Blob4844Tx.new_eq_ok.mp h'
    refine ⟨haccepted, isAccessListBytes_of_read hspelled.feeMarket.accessList, ?_⟩
    unfold requireKzg at hkzg
    split at hkzg
    · next hsome => exact isSome_iff_exists.mpr ⟨_, hsome⟩
    · cases hkzg
  | EOACodeEIP7702 =>
    obtain ⟨tx', h', rfl⟩ := Except.map_eq_ok.mp h
    obtain ⟨hspelled, haccepted⟩ := new_eq_ok.mp h'
    exact ⟨haccepted, isAccessListBytes_of_read hspelled.feeMarket.accessList,
      isAccessListBytes_of_readAuthorizationList hspelled.authorizationList⟩

/-- The values of a signed transaction give the transaction again. -/
theorem fromBytesArray_raw {opts : TxOptions} {tx : Transaction} (h : tx.Accepted opts)
    (hsigned : Signed tx.base) : fromBytesArray tx.type tx.raw opts = .ok tx.canonical := by
  cases tx with
  | legacy tx => exact Except.map_eq_ok.mpr ⟨tx, LegacyTx.fromBytesArray_raw h hsigned, rfl⟩
  | accessList2930 tx =>
    exact Except.map_eq_ok.mpr ⟨tx, AccessList2930Tx.fromBytesArray_raw h.1 h.2 hsigned, rfl⟩
  | feeMarket1559 tx =>
    exact Except.map_eq_ok.mpr ⟨tx, FeeMarket1559Tx.fromBytesArray_raw h.1.1 h.1.2 h.2 hsigned, rfl⟩
  | blob4844 tx =>
    exact Except.map_eq_ok.mpr
      ⟨tx.canonical, Blob4844Tx.fromBytesArray_raw h.1 h.2.1 h.2.2 hsigned, rfl⟩
  | eoaCode7702 tx =>
    exact Except.map_eq_ok.mpr ⟨tx, EOACode7702Tx.fromBytesArray_raw h.1 h.2.1 h.2.2 hsigned, rfl⟩

/-- The network wrapper is no part of what is serialized. -/
theorem serialize_canonical (tx : Transaction) : tx.canonical.serialize = tx.serialize := by
  cases tx <;> rfl

theorem isSigned_canonical (tx : Transaction) : tx.canonical.isSigned = tx.isSigned := by
  cases tx <;> rfl

theorem hash_canonical (keccak256 : Bytes → Bytes) (tx : Transaction) :
    tx.canonical.hash keccak256 = tx.hash keccak256 := by
  unfold hash
  rw [isSigned_canonical, serialize_canonical]

end Transaction

variable {l : List Item}

/-- The encoding of a list does not start like a type byte. -/
theorem encode_list_first (hmax : (Rlp.encode (.list l)).length < 2 ^ 53) :
    ∃ first tail, Rlp.encode (.list l) = first :: tail ∧ ¬first ≤ 0x7f := by
  have hlarge {k : Nat} (hlow : 192 ≤ k) (hhigh : k < 256) : ¬UInt8.ofNat k ≤ 0x7f := by
    rw [UInt8.le_iff_toNat_le, UInt8.toNat_ofNat', mod_eq_of_lt hhigh]
    exact Nat.not_le_of_lt (Nat.lt_of_lt_of_le (by decide) hlow)
  rw [Rlp.encode] at hmax ⊢
  unfold Rlp.encodeLength
  split
  · next hshort => exact ⟨_, _, rfl, hlarge (by omega) (by omega)⟩
  · refine ⟨_, _, rfl, hlarge (by omega) ?_⟩
    have hlen : (Rlp.encodeAll l).length < 256 ^ (6 + 1) := by
      rw [length_append] at hmax
      omega
    have hbytes := Rlp.length_numberBytes hlen ((Rlp.encodeAll l).length + 1) []
    simp only [Rlp.numberToBytes, length_nil] at hbytes ⊢
    omega

theorem decodeValues_encode (hmax : (Rlp.encode (.list l)).length < 2 ^ 53) (msg : String) :
    decodeValues (Rlp.encode (.list l)) msg = .ok l := by
  unfold decodeValues
  rw [Rlp.decode_encode hmax]

theorem createTypedTxFromRLP_cons {type : TransactionType} (eip : String) {opts : TxOptions}
    (hmax : (Rlp.encode (.list l)).length < 2 ^ 53) :
    createTypedTxFromRLP type eip (type.byte :: Rlp.encode (.list l)) opts =
      Transaction.fromBytesArray type l opts := by
  have hfirst : throwWhen (List.take 1 (type.byte :: Rlp.encode (.list l)) ≠ [type.byte])
      ("Invalid serialized tx input: not an " ++ eip ++ " transaction (wrong tx type, expected: " ++
        toString type.byte ++ ", received: " ++
          String.ofList (bytesToHex (List.take 1 (type.byte :: Rlp.encode (.list l))))) = .ok () :=
    throwWhen_eq_ok.mpr (fun h => h rfl)
  unfold createTypedTxFromRLP
  rw [hfirst]
  change (decodeValues (Rlp.encode (.list l)) _ >>= _) = _
  rw [decodeValues_encode hmax]
  rfl

/-- A signed transaction that its constructor accepts is read back from its serialized form. -/
theorem createTxFromRLP_serialize {opts : TxOptions} (h : tx.Accepted opts)
    (hsigned : Signed tx.base) (hmax : tx.serialize.length < 2 ^ 53) :
    createTxFromRLP tx.serialize opts = .ok tx.canonical := by
  have hraw := Transaction.fromBytesArray_raw h hsigned
  cases tx with
  | legacy tx =>
    obtain ⟨first, tail, hcons, hfirst⟩ := encode_list_first hmax
    have hvalues := decodeValues_encode hmax "Invalid serialized tx input. Must be array"
    change createTxFromRLP (Rlp.encode (.list tx.raw)) opts = _
    unfold createTxFromRLP
    rw [show (Rlp.encode (.list tx.raw)).head? = some first from congrArg List.head? hcons]
    refine (if_neg hfirst).trans ?_
    exact (congrArg (· >>= fun values => Transaction.fromBytesArray .Legacy values opts) hvalues).trans
      hraw
  | accessList2930 tx =>
    exact (createTypedTxFromRLP_cons "EIP-2930" (lt_of_succ_lt hmax)).trans hraw
  | feeMarket1559 tx =>
    exact (createTypedTxFromRLP_cons "EIP-1559" (lt_of_succ_lt hmax)).trans hraw
  | blob4844 tx =>
    obtain ⟨kzg, hkzg⟩ := isSome_iff_exists.mp h.2.2
    have hrequire : requireKzg opts = .ok kzg := by
      unfold requireKzg
      rw [hkzg]
    change createBlob4844TxFromRLP _ opts = _
    unfold createBlob4844TxFromRLP
    rw [hrequire]
    exact (createTypedTxFromRLP_cons "EIP-4844" (lt_of_succ_lt hmax)).trans hraw
  | eoaCode7702 tx =>
    exact (createTypedTxFromRLP_cons "EIP-7702" (lt_of_succ_lt hmax)).trans hraw

/-- A signed transaction is read back from its serialized form, without the network wrapper, and a
signed transaction that was decoded is written as the bytes it was read from exactly where the values
that are not checked have the form that transactions write. -/
theorem codec_iff (opts : TxOptions) :
    (∀ type txData tx, Transaction.new type txData opts = .ok tx → Signed tx.base →
      tx.serialize.length < 2 ^ 53 → createTxFromRLP tx.serialize opts = .ok tx.canonical ∧
        ∀ keccak256, tx.canonical.hash keccak256 = tx.hash keccak256) ∧
    ∀ data tx, data.length < 2 ^ 53 → createTxFromRLP data opts = .ok tx → tx.isSigned = true →
      (tx.serialize = data ↔ Exact data) := by
  constructor
  · intro type txData tx hnew hsigned hmax
    have haccepted := Transaction.accepted_of_new hnew
    exact ⟨createTxFromRLP_serialize haccepted hsigned hmax,
      fun keccak256 => Transaction.hash_canonical keccak256 tx⟩
  · intro data tx hmax hdecode hsigned
    exact serialize_eq_iff hmax hdecode hsigned

namespace Sample

/-- The main chain at a hardfork. -/
def common (hardfork : Hardfork) : Common where
  currentHardfork := hardfork
  param _ := 0
  isProofOfWork := true
  isProofOfAuthority := false
  chainId := 1
  chainId_nonneg := by decide
  kzg := none

def options (hardfork : Hardfork) : TxOptions := ⟨common hardfork, none, false⟩

/-- A fee market transaction to the zero address with the given encoding of its chain id. -/
def feeMarketData (chainId : Bytes) : Bytes :=
  2 :: UInt8.ofNat (0xc0 + chainId.length + 31) :: chainId ++ [0x80, 0x80, 0x80, 0x80, 0x94] ++
    List.replicate 20 0 ++ [0x80, 0x80, 0xc0, 0x80, 1, 1]

theorem exists_ok {α : Type} {f : Transaction → α} {x : Except String Transaction} {a : α}
    (h : x.toOption.map f = some a) : ∃ tx, x = .ok tx ∧ f tx = a := by
  obtain ⟨tx, hx, hf⟩ := map_eq_some_iff.mp h
  cases x with
  | error e => cases hx
  | ok tx' =>
    obtain rfl := some.inj hx
    exact ⟨tx', rfl, hf⟩

theorem codec_sample :
    (∃ tx, Transaction.new .Legacy { v := .bigint 27, r := .bigint 1, s := .hex "0x01".toList }
        (options .Homestead) = .ok tx ∧
      createTxFromRLP tx.serialize (options .Homestead) = .ok tx.canonical) ∧
    ∃ tx, createTxFromRLP (feeMarketData [1]) (options .London) = .ok tx ∧
      (tx.serialize = feeMarketData [1] ↔ Exact (feeMarketData [1])) := by
  constructor
  · obtain ⟨tx, hnew, hfields⟩ := exists_ok (x := Transaction.new .Legacy
      { v := .bigint 27, r := .bigint 1, s := .hex "0x01".toList } (options .Homestead))
      (f := fun tx => (tx.isSigned, tx.base.r, tx.base.s, decide (tx.serialize.length < 2 ^ 53)))
      (a := (true, some 1, some 1, true)) (by decide +kernel)
    obtain ⟨hsigned, hfields⟩ := Prod.mk.inj hfields
    obtain ⟨hr, hfields⟩ := Prod.mk.inj hfields
    obtain ⟨hs, hmax⟩ := Prod.mk.inj hfields
    have hr0 : tx.base.r ≠ some 0 := hr ▸ by decide
    have hs0 : tx.base.s ≠ some 0 := hs ▸ by decide
    exact ⟨tx, hnew, ((codec_iff (options .Homestead)).1 .Legacy _ tx hnew ⟨hsigned, hr0, hs0⟩
      (of_decide_eq_true hmax)).1⟩
  · obtain ⟨tx, hdecode, hsigned⟩ := exists_ok (f := Transaction.isSigned) (a := true)
      (x := createTxFromRLP (feeMarketData [1]) (options .London)) (by decide +kernel)
    exact ⟨tx, hdecode, (codec_iff (options .London)).2 _ tx (by decide) hdecode hsigned⟩

/-- The chain id 1 with a zero in front is accepted and written without it. -/
theorem two_encodings :
    ∃ tx tx', createTxFromRLP (feeMarketData [0x82, 0, 1]) (options .London) = .ok tx ∧
      createTxFromRLP (feeMarketData [1]) (options .London) = .ok tx' ∧ tx.isSigned = true ∧
      tx'.isSigned = true ∧ tx.serialize = tx'.serialize ∧
      tx.serialize ≠ feeMarketData [0x82, 0, 1] := by
  obtain ⟨tx, htx, hfields⟩ := exists_ok (f := fun tx => (tx.isSigned, tx.serialize))
    (x := createTxFromRLP (feeMarketData [0x82, 0, 1]) (options .London))
    (a := (true, feeMarketData [1])) (by decide +kernel)
  obtain ⟨tx', htx', hfields'⟩ := exists_ok (f := fun tx => (tx.isSigned, tx.serialize))
    (x := createTxFromRLP (feeMarketData [1]) (options .London))
    (a := (true, feeMarketData [1])) (by decide +kernel)
  obtain ⟨hsigned, hserialize⟩ := Prod.mk.inj hfields
  obtain ⟨hsigned', hserialize'⟩ := Prod.mk.inj hfields'
  exact ⟨tx, tx', htx, htx', hsigned, hsigned', hserialize.trans hserialize'.symm,
    hserialize.symm ▸ by decide⟩

end Sample

end Tx
