-- SUMMARY: The values that a transaction is read from, and which of them it is written with again.
import TsEthereum.Tx.Acceptance

/-!
# Values of transactions

A number is written as it was read where its bytes had no zero in front. The chain id of
a typed transaction is read without that check, and the priority fee, the fee for blob
gas and the versioned hashes are read without the check for an array.
-/

open List Except

namespace Tx

open Rlp (Item)

/-! ## Checks of the values -/

/-- An item that a number is written as. -/
def IsNumber (x : Item) : Prop := ∃ b, x = .bytes b ∧ Unpadded b

def IsBytes (x : Item) : Prop := ∃ b, x = .bytes b

/-- A byte array with a leading zero byte. -/
def HasLeadingZero (x : Item) : Prop := ∃ b, x = .bytes (0 :: b)

theorem isNumber_numberItem (n : Nat) : IsNumber (numberItem n) :=
  ⟨_, rfl, unpadded_bigIntToUnpaddedBytes n⟩

theorem isNumber_signatureItem (n : Option Nat) : IsNumber (signatureItem n) := by
  cases n with
  | none => exact ⟨[], rfl, nofun⟩
  | some n => exact isNumber_numberItem n

variable {x : Item}

theorem not_hasLeadingZero (h : IsNumber x) : ¬HasLeadingZero x := by
  obtain ⟨b, rfl, hb⟩ := h
  rintro ⟨c, hc⟩
  exact hb (congrArg List.head? (Item.bytes.inj hc))

theorem isNumber_of (harray : (BytesLike.item x).isArray = false) (hzero : ¬HasLeadingZero x) :
    IsNumber x := by
  cases x with
  | list l => cases harray
  | bytes b =>
    refine ⟨b, rfl, fun hb => hzero ?_⟩
    obtain ⟨c, rfl⟩ := List.head?_eq_some_iff.mp hb
    exact ⟨c, rfl⟩

theorem isBytes_of (harray : (BytesLike.item x).isArray = false) : IsBytes x := by
  cases x with
  | list l => cases harray
  | bytes b => exact ⟨b, rfl⟩

theorem checkLeadingZero_eq_ok {k : String} {value : Option Item} :
    checkLeadingZero k value = .ok () ↔ ∀ x ∈ value, ¬HasLeadingZero x := by
  unfold checkLeadingZero
  split
  · next b => exact ⟨nofun, fun h => absurd ⟨b, rfl⟩ (h _ rfl)⟩
  · next hzero =>
    refine ⟨?_, fun _ => rfl⟩
    rintro - x hx ⟨b, rfl⟩
    exact hzero b hx

theorem validateNoLeadingZeroes_eq_ok {values : List (String × Option Item)} :
    validateNoLeadingZeroes values = .ok () ↔ ∀ e ∈ values, ∀ x ∈ e.2, ¬HasLeadingZero x := by
  unfold validateNoLeadingZeroes
  rw [forM_eq_ok]
  exact forall₂_congr fun e _ => checkLeadingZero_eq_ok

theorem validateNotArray_eq_ok {values : List (String × BytesLike)} :
    validateNotArray values = .ok () ↔
      ∀ e ∈ values, txDataKeys.contains e.1 = true → e.2.isArray = false := by
  unfold validateNotArray
  rw [forM_eq_ok]
  refine forall₂_congr fun e _ => ?_
  rw [throwWhen_eq_ok, not_and, Bool.not_eq_true]

/-- The fields that are checked for arrays. -/
structure NoArrays (txData : TxData) : Prop where
  chainId : txData.chainId.isArray = false
  nonce : txData.nonce.isArray = false
  gasPrice : txData.gasPrice.isArray = false
  maxFeePerGas : txData.maxFeePerGas.isArray = false
  gasLimit : txData.gasLimit.isArray = false
  «to» : txData.to.isArray = false
  value : txData.value.isArray = false
  data : txData.data.isArray = false
  v : txData.v.isArray = false
  r : txData.r.isArray = false
  s : txData.s.isArray = false

variable {txData : TxData}

theorem validateNotArray_entries : validateNotArray txData.entries = .ok () ↔ NoArrays txData := by
  simp only [validateNotArray_eq_ok, TxData.entries, forall_mem_cons]
  simp only [txDataKeys, not_mem_nil, implies_true, contains_cons, contains_nil, String.reduceBEq, Bool.or_true,
    Bool.or_false, Bool.false_eq_true, true_imp_iff, false_imp_iff, true_and, and_true]
  exact ⟨fun ⟨h₁, h₂, h₃, h₄, h₅, h₆, h₇, h₈, h₉, h₁₀, h₁₁⟩ => ⟨h₁, h₂, h₃, h₄, h₅, h₆, h₇, h₈, h₉, h₁₀, h₁₁⟩,
    fun ⟨h₁, h₂, h₃, h₄, h₅, h₆, h₇, h₈, h₉, h₁₀, h₁₁⟩ => ⟨h₁, h₂, h₃, h₄, h₅, h₆, h₇, h₈, h₉, h₁₀, h₁₁⟩⟩

/-! ## Writing what was read -/

/-- A number is written as the item it was read from where that is what numbers are written as. -/
theorem numberItem_eq_iff {n : Nat} (h : Spells (.item x) n) : numberItem n = x ↔ IsNumber x := by
  constructor
  · rintro rfl
    exact isNumber_numberItem n
  · rintro ⟨b, rfl, hb⟩
    obtain ⟨c, hc, rfl⟩ := h
    obtain rfl := ok.inj hc
    exact congrArg Item.bytes (bigIntToUnpaddedBytes_bytesToBigInt hb)

theorem signatureItem_of_item {n : Option Nat} (h : SpellsSignature (.item x) n) (hx : IsNumber x) :
    signatureItem n = x := by
  obtain ⟨b, rfl, hb⟩ := hx
  obtain ⟨c, hc, rfl⟩ := h
  obtain rfl := ok.inj hc
  unfold signatureValue
  split
  · exact congrArg Item.bytes (bigIntToUnpaddedBytes_bytesToBigInt hb)
  · next hempty =>
    obtain rfl := eq_nil_of_length_eq_zero (Nat.eq_zero_of_not_pos hempty)
    rfl

theorem length_bigIntToBytes_pos (n : Nat) : 0 < (bigIntToBytes n).length := by
  cases n with
  | zero => exact Nat.zero_lt_one
  | succ n =>
    obtain ⟨b, bytes, hbytes, -⟩ := Rlp.numberBytes_eq_cons (Nat.lt_succ_self (n + 1)) n.succ_pos []
    exact Nat.lt_of_lt_of_eq (Nat.succ_pos _) (congrArg List.length hbytes).symm

/-- The y-parity is read as a number, so that one byte spells 0. -/
theorem signatureValue_bigIntToBytes (n : Nat) : signatureValue (bigIntToBytes n) = some n := by
  unfold signatureValue
  rw [if_pos (length_bigIntToBytes_pos n), bytesToBigInt_bigIntToBytes]

theorem signatureItem_of_yParity {n : Option Nat} (h : SpellsSignature (yParityOf (some x)) n)
    (hx : IsNumber x) : signatureItem n = x := by
  obtain ⟨b, rfl, hb⟩ := hx
  obtain ⟨c, hc, rfl⟩ := h
  obtain rfl := ok.inj ((toBytes_bigint _).symm.trans hc)
  rw [signatureValue_bigIntToBytes]
  exact congrArg Item.bytes (bigIntToUnpaddedBytes_bytesToBigInt hb)

theorem addressItem_of_item {address : Option Address}
    (h : ∃ b, toBytes (BytesLike.item x).emptyTo0x = .ok b ∧ toAddress b = .ok address)
    (hx : IsBytes x) : addressItem address = x := by
  obtain ⟨b, rfl⟩ := hx
  obtain ⟨c, hc, haddress⟩ := h
  obtain rfl := ok.inj hc
  unfold toAddress at haddress
  split at haddress
  · obtain ⟨a, ha, rfl⟩ := Except.map_eq_ok.mp haddress
    unfold Address.new at ha
    split at ha
    · obtain rfl := ok.inj ha
      rfl
    · cases ha
  · next hempty =>
    obtain rfl := ok.inj haddress
    exact congrArg Item.bytes
      (eq_nil_of_length_eq_zero (Nat.eq_zero_of_not_pos hempty)).symm

theorem dataItem_of_item {data : Bytes} (h : toBytes (BytesLike.item x).emptyTo0x = .ok data)
    (hx : IsBytes x) : .bytes data = x := by
  obtain ⟨b, rfl⟩ := hx
  exact congrArg Item.bytes (ok.inj h).symm

/-- The chain id of a typed transaction is the one that the values gave. -/
theorem spells_of_checkChainId {common : Common} (h : checkChainId (bigIntOf x) common = .ok ()) :
    Spells (.item x) common.chainIdBigInt := by
  obtain ⟨b, hb, h⟩ := bind_eq_ok.mp h
  obtain rfl := ok.inj ((toBytes_bigint _).symm.trans hb)
  refine ⟨_, rfl, ?_⟩
  rw [← not_not.mp (throwWhen_eq_ok.mp h), bytesToBigInt_bigIntToBytes]

/-- An access list in the byte format is kept as it is. -/
theorem accessList_of_read {y : Item} (h : readAccessList (some (.bytes x)) = .ok y) : x = y := by
  simp only [readAccessList] at h
  split at h
  · exact ok.inj h
  · cases h

theorem authorizationList_of_read {y : Item} (h : readAuthorizationList (some (.bytes x)) = .ok y) :
    x = y := by
  simp only [readAuthorizationList] at h
  split at h
  · exact ok.inj h
  · cases h

theorem toUint8Array_eq_iff : .bytes (toUint8Array x) = x ↔ IsBytes x := by
  constructor
  · intro h
    exact ⟨_, h.symm⟩
  · rintro ⟨b, rfl⟩
    rfl

theorem mapM_toHexBytes (l : List Item) :
    (l.mapM fun x => toHexBytes (.item x)) = .ok (l.map toUint8Array) :=
  mapM_eq_map fun _ _ => rfl

theorem map_eq_self_iff {α : Type} {f : α → α} {l : List α} : l.map f = l ↔ ∀ a ∈ l, f a = a := by
  have hid := List.map_inj_left (l := l) (f := f) (g := id)
  rwa [List.map_id] at hid

/-- The items of a list. -/
def itemsOf : Item → List Item
  | .bytes _ => []
  | .list l => l

/-- Hashes that pass the checks were read from a list, and they are written as they were read
where they are byte arrays. -/
theorem hashesItem_eq_iff {hashes : List Bytes} {common : Common}
    (h : readVersionedHashes (some (.decoded x)) = .ok hashes)
    (hverify : hashes.forM (verifyVersionedHash common) = .ok ())
    (hcount : checkBlobCount common hashes.length = .ok ()) :
    .list (hashes.map .bytes) = x ↔ ∀ y ∈ itemsOf x, IsBytes y := by
  cases x with
  | bytes b =>
    -- numbers are not of the length of a hash, and one hash at least is asked for
    exfalso
    obtain rfl := ok.inj h
    cases b with
    | nil =>
      simp only [checkBlobCount, bind_eq_ok, throwWhen_eq_ok] at hcount
      obtain ⟨_, _, _, _, _, _, hcount⟩ := hcount
      exact hcount rfl
    | cons first b =>
      have hfirst := forM_eq_ok.mp hverify [first] (mem_map.mpr ⟨first, mem_cons_self, rfl⟩)
      obtain ⟨_, hlen, -⟩ := bind_eq_ok.mp hfirst
      exact throwWhen_eq_ok.mp hlen (fun h => by cases Nat.succ.inj h)
  | list l =>
    obtain rfl := ok.inj ((mapM_toHexBytes l).symm.trans h)
    rw [map_map]
    constructor
    · intro heq y hy
      have hitem := map_eq_self_iff.mp (Item.list.inj heq) y hy
      exact toUint8Array_eq_iff.mp hitem
    · intro hbytes
      refine congrArg Item.list (map_eq_self_iff.mpr fun y hy => ?_)
      exact toUint8Array_eq_iff.mpr (hbytes y hy)

/-! ## Values of accepted transactions -/

/-- The values of the fields that all transactions have. -/
structure Written (tx : TransactionInterface) (nonce gasLimit «to» value data r s : Item) : Prop where
  nonce : numberItem tx.nonce = nonce
  gasLimit : numberItem tx.gasLimit = gasLimit
  «to» : addressItem tx.to = «to»
  value : numberItem tx.value = value
  data : .bytes tx.data = data
  r : signatureItem tx.r = r
  s : signatureItem tx.s = s

theorem written_of_spells {tx : TransactionInterface} {nonce gasLimit «to» value data r s : Item}
    (h : SpellsShared txData tx) (hnonce : txData.nonce = .item nonce)
    (hgasLimit : txData.gasLimit = .item gasLimit) (hto : txData.to = .item «to»)
    (hvalue : txData.value = .item value) (hdata : txData.data = .item data)
    (hr : txData.r = .item r) (hs : txData.s = .item s)
    (hnonce₀ : ¬HasLeadingZero nonce) (hgas₀ : ¬HasLeadingZero gasLimit)
    (hvalue₀ : ¬HasLeadingZero value) (hr₀ : ¬HasLeadingZero r) (hs₀ : ¬HasLeadingZero s) :
    Written tx nonce gasLimit «to» value data r s := by
  have harrays := validateNotArray_entries.mp h.notArray
  constructor
  · exact (numberItem_eq_iff (hnonce ▸ h.nonce)).mpr (isNumber_of (hnonce ▸ harrays.nonce) hnonce₀)
  · exact (numberItem_eq_iff (hgasLimit ▸ h.gasLimit)).mpr
      (isNumber_of (hgasLimit ▸ harrays.gasLimit) hgas₀)
  · exact addressItem_of_item (hto ▸ h.to) (isBytes_of (hto ▸ harrays.to))
  · exact (numberItem_eq_iff (hvalue ▸ h.value)).mpr (isNumber_of (hvalue ▸ harrays.value) hvalue₀)
  · exact dataItem_of_item (hdata ▸ h.data) (isBytes_of (hdata ▸ harrays.data))
  · exact signatureItem_of_item (hr ▸ h.r) (isNumber_of (hr ▸ harrays.r) hr₀)
  · exact signatureItem_of_item (hs ▸ h.s) (isNumber_of (hs ▸ harrays.s) hs₀)

/-- Without a `v` there is no signature. -/
theorem not_isSigned {tx : TransactionInterface} (h : SpellsShared txData tx)
    (hv : txData.v = .undefined) : tx.isSigned = false := by
  obtain ⟨b, hb, hvalue⟩ := h.v
  rw [hv] at hb
  obtain rfl := ok.inj hb
  rw [TransactionInterface.isSigned, ← hvalue]
  rfl

section Values

variable {chainId nonce gasPrice maxPriorityFeePerGas maxFeePerGas gasLimit «to» value data accessList
  authorityList maxFeePerBlobGas hashes v r s : Item} {opts : TxOptions}

theorem LegacyTx.raw_of_values {tx : LegacyTx}
    (h : legacyFromValues nonce gasPrice gasLimit «to» value data (some v) (some r) (some s) opts =
      .ok tx) : tx.raw = [nonce, gasPrice, gasLimit, «to», value, data, v, r, s] := by
  obtain ⟨⟨⟩, hzero, h⟩ := bind_eq_ok.mp h
  obtain ⟨hspelled, -⟩ := LegacyTx.new_eq_ok.mp h
  have harrays := validateNotArray_entries.mp hspelled.shared.notArray
  simp only [validateNoLeadingZeroes_eq_ok, forall_mem_cons, Option.mem_def, Option.some.injEq,
    forall_eq'] at hzero
  obtain ⟨hnonce, hgasPrice, hgasLimit, hvalue, hv, hr, hs, -⟩ := hzero
  have hwritten := written_of_spells hspelled.shared rfl rfl rfl rfl rfl rfl rfl hnonce
    hgasLimit hvalue hr hs
  have egasPrice := (numberItem_eq_iff hspelled.gasPrice).mpr (isNumber_of harrays.gasPrice hgasPrice)
  have ev := signatureItem_of_item hspelled.shared.v (isNumber_of harrays.v hv)
  unfold LegacyTx.raw
  rw [hwritten.nonce, egasPrice, hwritten.gasLimit, hwritten.to, hwritten.value, hwritten.data, ev,
    hwritten.r, hwritten.s]

theorem AccessList2930Tx.raw_eq_iff {tx : AccessList2930Tx}
    (h : accessList2930FromValues chainId nonce gasPrice gasLimit «to» value data accessList (some v)
      (some r) (some s) opts = .ok tx) :
    tx.raw = [chainId, nonce, gasPrice, gasLimit, «to», value, data, accessList, v, r, s] ↔
      IsNumber chainId := by
  obtain ⟨⟨⟩, hnotArray, h⟩ := bind_eq_ok.mp h
  obtain ⟨⟨⟩, hzero, h⟩ := bind_eq_ok.mp h
  obtain ⟨hspelled, haccepted⟩ := AccessList2930Tx.new_eq_ok.mp h
  have harrays := validateNotArray_entries.mp hspelled.shared.notArray
  have hvArray := validateNotArray_eq_ok.mp hnotArray ("v", .item v) (by simp [BytesLike.ofOption]) rfl
  simp only [validateNoLeadingZeroes_eq_ok, forall_mem_cons, Option.mem_def, Option.some.injEq,
    forall_eq'] at hzero
  obtain ⟨hnonce, hgasPrice, hgasLimit, hvalue, hv, hr, hs, -⟩ := hzero
  have hwritten := written_of_spells hspelled.shared rfl rfl rfl rfl rfl rfl rfl hnonce
    hgasLimit hvalue hr hs
  have egasPrice := (numberItem_eq_iff hspelled.gasPrice).mpr (isNumber_of harrays.gasPrice hgasPrice)
  have ev := signatureItem_of_yParity hspelled.shared.v (isNumber_of hvArray hv)
  have elist : accessList = tx.accessList := accessList_of_read hspelled.accessList
  have hchainId := numberItem_eq_iff (spells_of_checkChainId hspelled.chainId)
  unfold AccessList2930Tx.raw
  rw [hwritten.nonce, egasPrice, hwritten.gasLimit, hwritten.to, hwritten.value, hwritten.data, ev,
    hwritten.r, hwritten.s, ← elist, haccepted.chainId, ← hchainId]
  exact ⟨fun heq => (List.cons.inj heq).1, fun heq => heq ▸ rfl⟩

/-- Bytes that were checked for a zero in front are a number. -/
theorem numberItem_eq_iff_isBytes {n : Nat} (h : Spells (.item x) n) (hzero : ¬HasLeadingZero x) :
    numberItem n = x ↔ IsBytes x := by
  rw [numberItem_eq_iff h]
  refine ⟨fun ⟨b, hb, _⟩ => ⟨b, hb⟩, ?_⟩
  rintro ⟨b, rfl⟩
  exact isNumber_of rfl hzero

/-- What the fields of the classes with a priority fee are written as. -/
theorem feeMarket_written {txData : TxData} {tx : FeeMarketInterface}
    (hspells : SpellsFeeMarket txData tx) (haccepts : AcceptsFeeMarket opts tx)
    (hnotArray : validateNotArray [("chainId", .item chainId), ("v", .item v)] = .ok ())
    (hchainId : txData.chainId = bigIntOf chainId)
    (hpriority : txData.maxPriorityFeePerGas = .item maxPriorityFeePerGas)
    (hfee : txData.maxFeePerGas = .item maxFeePerGas)
    (hlist : txData.accessList = some (.bytes accessList)) (hv : txData.v = yParityOf (some v))
    (hpriority₀ : ¬HasLeadingZero maxPriorityFeePerGas) (hfee₀ : ¬HasLeadingZero maxFeePerGas)
    (hv₀ : ¬HasLeadingZero v) :
    (numberItem tx.chainId = chainId ↔ IsNumber chainId) ∧
      (numberItem tx.maxPriorityFeePerGas = maxPriorityFeePerGas ↔ IsBytes maxPriorityFeePerGas) ∧
      numberItem tx.maxFeePerGas = maxFeePerGas ∧ tx.accessList = accessList ∧
      signatureItem tx.v = v := by
  have harrays := validateNotArray_entries.mp hspells.shared.notArray
  have hvArray := validateNotArray_eq_ok.mp hnotArray ("v", .item v) (by simp) rfl
  refine ⟨?_, numberItem_eq_iff_isBytes (hpriority ▸ hspells.maxPriorityFeePerGas) hpriority₀, ?_, ?_, ?_⟩
  · rw [haccepts.chainId]
    exact numberItem_eq_iff (spells_of_checkChainId (hchainId ▸ hspells.chainId))
  · exact (numberItem_eq_iff (hfee ▸ hspells.maxFeePerGas)).mpr
      (isNumber_of (hfee ▸ harrays.maxFeePerGas) hfee₀)
  · exact (accessList_of_read (hlist ▸ hspells.accessList)).symm
  · exact signatureItem_of_yParity (hv ▸ hspells.shared.v) (isNumber_of hvArray hv₀)

theorem FeeMarket1559Tx.raw_eq_iff {tx : FeeMarket1559Tx}
    (h : feeMarket1559FromValues chainId nonce maxPriorityFeePerGas maxFeePerGas gasLimit «to» value data
      accessList (some v) (some r) (some s) opts = .ok tx) :
    tx.raw = [chainId, nonce, maxPriorityFeePerGas, maxFeePerGas, gasLimit, «to», value, data, accessList,
        v, r, s] ↔ IsNumber chainId ∧ IsBytes maxPriorityFeePerGas := by
  obtain ⟨⟨⟩, hnotArray, h⟩ := bind_eq_ok.mp h
  obtain ⟨⟨⟩, hzero, h⟩ := bind_eq_ok.mp h
  obtain ⟨hspelled, haccepted, -⟩ := FeeMarket1559Tx.new_eq_ok.mp h
  simp only [validateNoLeadingZeroes_eq_ok, forall_mem_cons, Option.mem_def, Option.some.injEq,
    forall_eq'] at hzero
  obtain ⟨hnonce, hpriority, hfee, hgasLimit, hvalue, hv, hr, hs, -⟩ := hzero
  have hwritten := written_of_spells hspelled.shared rfl rfl rfl rfl rfl rfl rfl hnonce
    hgasLimit hvalue hr hs
  obtain ⟨hchainId, hpriority', efee, elist, ev⟩ := feeMarket_written hspelled haccepted hnotArray rfl
    rfl rfl rfl rfl hpriority hfee hv
  unfold FeeMarket1559Tx.raw
  rw [hwritten.nonce, hwritten.gasLimit, hwritten.to, hwritten.value, hwritten.data, hwritten.r,
    hwritten.s, efee, elist, ev, ← hchainId, ← hpriority']
  simp only [List.cons.injEq, true_and, and_true]

theorem EOACode7702Tx.raw_eq_iff {tx : EOACode7702Tx}
    (h : eoaCode7702FromValues chainId nonce maxPriorityFeePerGas maxFeePerGas gasLimit «to» value data
      accessList authorityList (some v) (some r) (some s) opts = .ok tx) :
    tx.raw = [chainId, nonce, maxPriorityFeePerGas, maxFeePerGas, gasLimit, «to», value, data, accessList,
        authorityList, v, r, s] ↔ IsNumber chainId ∧ IsBytes maxPriorityFeePerGas := by
  obtain ⟨⟨⟩, hnotArray, h⟩ := bind_eq_ok.mp h
  obtain ⟨⟨⟩, hzero, h⟩ := bind_eq_ok.mp h
  obtain ⟨⟨hspelled, hauth⟩, haccepted⟩ := EOACode7702Tx.new_eq_ok.mp h
  simp only [validateNoLeadingZeroes_eq_ok, forall_mem_cons, Option.mem_def, Option.some.injEq,
    forall_eq'] at hzero
  obtain ⟨hnonce, hpriority, hfee, hgasLimit, hvalue, hv, hr, hs, -⟩ := hzero
  have hwritten := written_of_spells hspelled.shared rfl rfl rfl rfl rfl rfl rfl hnonce
    hgasLimit hvalue hr hs
  obtain ⟨hchainId, hpriority', efee, elist, ev⟩ := feeMarket_written hspelled haccepted.feeMarket
    hnotArray rfl rfl rfl rfl rfl hpriority hfee hv
  have eauth : authorityList = tx.authorizationList := authorizationList_of_read hauth
  unfold EOACode7702Tx.raw
  rw [hwritten.nonce, hwritten.gasLimit, hwritten.to, hwritten.value, hwritten.data, hwritten.r,
    hwritten.s, efee, elist, ev, ← eauth, ← hchainId, ← hpriority']
  simp only [List.cons.injEq, true_and, and_true]

theorem Blob4844Tx.raw_eq_iff {tx : Blob4844Tx}
    (h : blob4844FromValues chainId nonce maxPriorityFeePerGas maxFeePerGas gasLimit «to» value data
      accessList maxFeePerBlobGas hashes (some v) (some r) (some s) opts = .ok tx) :
    tx.raw = [chainId, nonce, maxPriorityFeePerGas, maxFeePerGas, gasLimit, «to», value, data, accessList,
        maxFeePerBlobGas, hashes, v, r, s] ↔
      IsNumber chainId ∧ IsBytes maxPriorityFeePerGas ∧ IsBytes maxFeePerBlobGas ∧
        ∀ y ∈ itemsOf hashes, IsBytes y := by
  obtain ⟨⟨⟩, hnotArray, h⟩ := bind_eq_ok.mp h
  obtain ⟨⟨⟩, hzero, h⟩ := bind_eq_ok.mp h
  obtain ⟨⟨hspelled, hblobFee, hhashes⟩, -, haccepted⟩ := Blob4844Tx.new_eq_ok.mp h
  simp only [validateNoLeadingZeroes_eq_ok, forall_mem_cons, Option.mem_def, Option.some.injEq,
    forall_eq'] at hzero
  obtain ⟨hnonce, hpriority, hfee, hgasLimit, hvalue, hblobFee₀, hv, hr, hs, -⟩ := hzero
  have hwritten := written_of_spells hspelled.shared rfl rfl rfl rfl rfl rfl rfl hnonce
    hgasLimit hvalue hr hs
  obtain ⟨hchainId, hpriority', efee, elist, ev⟩ := feeMarket_written hspelled haccepted.feeMarket
    hnotArray rfl rfl rfl rfl rfl hpriority hfee hv
  have hblobFee' := numberItem_eq_iff_isBytes hblobFee hblobFee₀
  have hhashes' := hashesItem_eq_iff hhashes haccepted.hashes haccepted.count
  unfold Blob4844Tx.raw
  rw [hwritten.nonce, hwritten.gasLimit, hwritten.to, hwritten.value, hwritten.data, hwritten.r,
    hwritten.s, efee, elist, ev, ← hchainId, ← hpriority', ← hblobFee', ← hhashes']
  simp only [List.cons.injEq, true_and, and_true]

end Values

end Tx
