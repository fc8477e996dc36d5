-- SUMMARY: What each constructor reads from the data and what it asks of the transaction.
import TsEthereum.Tx.Transaction

/-!
# Acceptance

A constructor returns a transaction exactly where the data spell its fields and the
transaction passes the checks. The checks do not see the data, so other data that
spell the same fields give the same transaction.
-/

open Except

open Except (throwWhen)

namespace Tx

open Rlp (Item)

variable {txData : TxData} {opts : TxOptions}

/-! ## Legacy transactions -/

namespace LegacyTx

structure Spelled (txData : TxData) (tx : LegacyTx) : Prop where
  shared : SpellsShared txData tx.toTransactionInterface
  gasPrice : Spells txData.gasPrice tx.gasPrice

structure Accepted (opts : TxOptions) (tx : LegacyTx) : Prop where
  shared : AcceptsShared opts tx.toTransactionInterface
  gasPrice : valueOverflowCheck [("gasPrice", some tx.gasPrice)] 256 false = .ok ()
  chainId : ∃ chainId, validateVAndExtractChainID tx.common tx.v = .ok chainId ∧
    ¬(chainId ≠ none ∧ chainId ≠ some tx.common.chainIdBigInt)
  product : ¬MAX_INTEGER < tx.gasPrice * tx.gasLimit
  capability : tx.eip155ReplayProtection = activeCapability tx.toTransactionInterface

theorem new_eq_ok {tx : LegacyTx} :
    LegacyTx.new txData opts = .ok tx ↔ Spelled txData tx ∧ Accepted opts tx := by
  simp only [LegacyTx.new, bind_eq_ok, throwWhen_eq_ok, pure_eq_ok]
  constructor
  · rintro ⟨_, hshared, _, hgasPrice, ⟨⟩, hoverflow, chainId, hchainId, ⟨⟩, hsame, ⟨⟩, hproduct, rfl⟩
    obtain ⟨hspells, haccepts⟩ := sharedConstructor_eq_ok.mp hshared
    exact ⟨⟨hspells, _, hgasPrice, rfl⟩, ⟨haccepts, hoverflow, ⟨chainId, hchainId, hsame⟩, hproduct, rfl⟩⟩
  · rintro ⟨⟨hspells, _, hgasPrice, egasPrice⟩, ⟨haccepts, hoverflow, ⟨chainId, hchainId, hsame⟩, hproduct,
      hcapability⟩⟩
    refine ⟨_, sharedConstructor_eq_ok.mpr ⟨hspells, haccepts⟩, _, hgasPrice, (), ?_⟩
    simp only [egasPrice, ← hcapability]
    exact ⟨hoverflow, chainId, hchainId, (), hsame, (), hproduct, trivial⟩

end LegacyTx

/-! ## Lists -/

/-- Items that are arrays make a list in the byte format. -/
theorem isAccessListBytes_of_mapM {α : Type} {f : α → Except String Item} {l : List α}
    {items : List Item} (hf : ∀ a x, f a = .ok x → ∃ l, x = .list l) (h : l.mapM f = .ok items) :
    isAccessListBytes (.list items) = true := by
  cases l with
  | nil =>
    obtain rfl := ok.inj h
    rfl
  | cons a l =>
    rw [List.mapM_cons, bind_eq_ok] at h
    obtain ⟨first, hfirst, h⟩ := h
    obtain ⟨rest, -, h⟩ := bind_eq_ok.mp h
    obtain rfl := pure_eq_ok.mp h
    obtain ⟨l, rfl⟩ := hf a first hfirst
    rfl

/-- What the classes keep of an access list is in the byte format. -/
theorem isAccessListBytes_of_read {list : Option AccessListLike} {x : Item}
    (h : readAccessList list = .ok x) : isAccessListBytes x = true := by
  unfold readAccessList at h
  split at h
  · obtain rfl := ok.inj h
    rfl
  · split at h
    · next hbytes =>
      obtain rfl := ok.inj h
      exact hbytes
    · cases h
  · obtain ⟨items, hitems, rfl⟩ := Except.map_eq_ok.mp h
    refine isAccessListBytes_of_mapM (fun item x hitem => ?_) hitems
    obtain ⟨address, -, hitem⟩ := bind_eq_ok.mp hitem
    obtain ⟨keys, -, hitem⟩ := bind_eq_ok.mp hitem
    exact ⟨_, (pure_eq_ok.mp hitem).symm⟩

theorem isAccessListBytes_of_readAuthorizationList {list : Option AuthorizationListLike} {x : Item}
    (h : readAuthorizationList list = .ok x) : isAccessListBytes x = true := by
  unfold readAuthorizationList at h
  split at h
  · obtain rfl := ok.inj h
    rfl
  · split at h
    · next hbytes =>
      obtain rfl := ok.inj h
      exact hbytes
    · cases h
  · obtain ⟨items, hitems, rfl⟩ := Except.map_eq_ok.mp h
    refine isAccessListBytes_of_mapM (fun item x hitem => ?_) hitems
    simp only [eoaCode7702AuthorizationListJSONItemToBytes, bind_eq_ok, pure_eq_ok] at hitem
    obtain ⟨_, -, _, -, _, -, _, -, _, -, _, -, hitem⟩ := hitem
    exact ⟨_, hitem.symm⟩

/-! ## Access list transactions -/

namespace AccessList2930Tx

structure Spelled (txData : TxData) (tx : AccessList2930Tx) : Prop where
  shared : SpellsShared txData tx.toTransactionInterface
  chainId : checkChainId txData.chainId tx.common = .ok ()
  accessList : readAccessList txData.accessList = .ok tx.accessList
  gasPrice : Spells txData.gasPrice tx.gasPrice

structure Accepted (opts : TxOptions) (tx : AccessList2930Tx) : Prop where
  shared : AcceptsShared opts tx.toTransactionInterface
  chainId : tx.chainId = tx.common.chainIdBigInt
  eip2930 : tx.common.isActivatedEIP 2930 ≠ false
  accessList : verifyAccessList tx.accessList = .ok ()
  gasPrice : valueOverflowCheck [("gasPrice", some tx.gasPrice)] 256 false = .ok ()
  product : ¬MAX_INTEGER < tx.gasPrice * tx.gasLimit
  yParity : validateYParity tx.toTransactionInterface = .ok ()
  highS : validateHighS tx.toTransactionInterface = .ok ()

theorem new_eq_ok {tx : AccessList2930Tx} :
    AccessList2930Tx.new txData opts = .ok tx ↔ Spelled txData tx ∧ Accepted opts tx := by
  simp only [AccessList2930Tx.new, bind_eq_ok, throwWhen_eq_ok, pure_eq_ok]
  constructor
  · rintro ⟨_, hshared, ⟨⟩, hchainId, ⟨⟩, heip, _, hlist, ⟨⟩, hverify, _, hgasPrice, ⟨⟩, hoverflow, ⟨⟩,
      hproduct, ⟨⟩, hparity, ⟨⟩, hhigh, rfl⟩
    obtain ⟨hspells, haccepts⟩ := sharedConstructor_eq_ok.mp hshared
    exact ⟨⟨hspells, hchainId, hlist, _, hgasPrice, rfl⟩,
      ⟨haccepts, rfl, heip, hverify, hoverflow, hproduct, hparity, hhigh⟩⟩
  · rintro ⟨⟨hspells, hchainId, hlist, _, hgasPrice, egasPrice⟩,
      ⟨haccepts, echainId, heip, hverify, hoverflow, hproduct, hparity, hhigh⟩⟩
    refine ⟨_, sharedConstructor_eq_ok.mpr ⟨hspells, haccepts⟩, (), hchainId, (), heip, _, hlist, (),
      hverify, _, hgasPrice, (), ?_⟩
    simp only [egasPrice, ← echainId]
    exact ⟨hoverflow, (), hproduct, (), hparity, (), hhigh, trivial⟩

end AccessList2930Tx

/-! ## Transactions with a priority fee -/

structure SpellsFeeMarket (txData : TxData) (tx : FeeMarketInterface) : Prop where
  shared : SpellsShared txData tx.toTransactionInterface
  chainId : checkChainId txData.chainId tx.common = .ok ()
  accessList : readAccessList txData.accessList = .ok tx.accessList
  maxFeePerGas : Spells txData.maxFeePerGas tx.maxFeePerGas
  maxPriorityFeePerGas : Spells txData.maxPriorityFeePerGas tx.maxPriorityFeePerGas

structure AcceptsFeeMarket (opts : TxOptions) (tx : FeeMarketInterface) : Prop where
  shared : AcceptsShared opts tx.toTransactionInterface
  chainId : tx.chainId = tx.common.chainIdBigInt
  accessList : verifyAccessList tx.accessList = .ok ()
  overflow : valueOverflowCheck [("maxFeePerGas", some tx.maxFeePerGas),
    ("maxPriorityFeePerGas", some tx.maxPriorityFeePerGas)] 256 false = .ok ()
  fees : checkFees tx = .ok ()
  yParity : validateYParity tx.toTransactionInterface = .ok ()
  highS : validateHighS tx.toTransactionInterface = .ok ()

namespace FeeMarket1559Tx

theorem new_eq_ok {tx : FeeMarket1559Tx} : FeeMarket1559Tx.new txData opts = .ok tx ↔
      SpellsFeeMarket txData tx.toFeeMarketInterface ∧
        AcceptsFeeMarket opts tx.toFeeMarketInterface ∧ tx.common.isActivatedEIP 1559 ≠ false := by
  simp only [FeeMarket1559Tx.new, bind_eq_ok, throwWhen_eq_ok, pure_eq_ok]
  constructor
  · rintro ⟨_, hshared, ⟨⟩, hchainId, ⟨⟩, heip, _, hlist, ⟨⟩, hverify, _, hfee, _, hpriority, ⟨⟩, hoverflow,
      ⟨⟩, hfees, ⟨⟩, hparity, ⟨⟩, hhigh, rfl⟩
    obtain ⟨hspells, haccepts⟩ := sharedConstructor_eq_ok.mp hshared
    exact ⟨⟨hspells, hchainId, hlist, ⟨_, hfee, rfl⟩, _, hpriority, rfl⟩,
      ⟨haccepts, rfl, hverify, hoverflow, hfees, hparity, hhigh⟩, heip⟩
  · rintro ⟨⟨hspells, hchainId, hlist, ⟨_, hfee, efee⟩, _, hpriority, epriority⟩,
      ⟨haccepts, echainId, hverify, hoverflow, hfees, hparity, hhigh⟩, heip⟩
    refine ⟨_, sharedConstructor_eq_ok.mpr ⟨hspells, haccepts⟩, (), hchainId, (), heip, _, hlist, (),
      hverify, _, hfee, _, hpriority, (), ?_⟩
    simp only [efee, epriority, ← echainId]
    exact ⟨hoverflow, (), hfees, (), hparity, (), hhigh, trivial⟩

end FeeMarket1559Tx

namespace EOACode7702Tx

structure Spelled (txData : TxData) (tx : EOACode7702Tx) : Prop where
  feeMarket : SpellsFeeMarket txData tx.toFeeMarketInterface
  authorizationList : readAuthorizationList txData.authorizationList = .ok tx.authorizationList

structure Accepted (opts : TxOptions) (tx : EOACode7702Tx) : Prop where
  feeMarket : AcceptsFeeMarket opts tx.toFeeMarketInterface
  eip7702 : tx.common.isActivatedEIP 7702 ≠ false
  authorizationList : verifyAuthorizationList tx.authorizationList = .ok ()
  «to» : tx.to ≠ none

theorem new_eq_ok {tx : EOACode7702Tx} :
    EOACode7702Tx.new txData opts = .ok tx ↔ Spelled txData tx ∧ Accepted opts tx := by
  simp only [EOACode7702Tx.new, bind_eq_ok, throwWhen_eq_ok, pure_eq_ok]
  constructor
  · rintro ⟨_, hshared, ⟨⟩, hchainId, ⟨⟩, heip, _, hlist, ⟨⟩, hverify, _, hauth, ⟨⟩, hverify', _, hfee, _,
      hpriority, ⟨⟩, hoverflow, ⟨⟩, -, ⟨⟩, hfees, ⟨⟩, hparity, ⟨⟩, hhigh, ⟨⟩, hto, rfl⟩
    obtain ⟨hspells, haccepts⟩ := sharedConstructor_eq_ok.mp hshared
    exact ⟨⟨⟨hspells, hchainId, hlist, ⟨_, hfee, rfl⟩, _, hpriority, rfl⟩, hauth⟩,
      ⟨⟨haccepts, rfl, hverify, hoverflow, hfees, hparity, hhigh⟩, heip, hverify', hto⟩⟩
  · rintro ⟨⟨⟨hspells, hchainId, hlist, ⟨_, hfee, efee⟩, _, hpriority, epriority⟩, hauth⟩,
      ⟨⟨haccepts, echainId, hverify, hoverflow, hfees, hparity, hhigh⟩, heip, hverify', hto⟩⟩
    refine ⟨_, sharedConstructor_eq_ok.mpr ⟨hspells, haccepts⟩, (), hchainId, (), heip, _, hlist, (),
      hverify, _, hauth, (), hverify', _, hfee, _, hpriority, (), ?_⟩
    simp only [efee, epriority, ← echainId]
    exact ⟨hoverflow, (), hspells.notArray, (), hfees, (), hparity, (), hhigh, (), hto, trivial⟩

end EOACode7702Tx

namespace Blob4844Tx

structure Spelled (txData : TxData) (tx : Blob4844Tx) : Prop where
  feeMarket : SpellsFeeMarket txData tx.toFeeMarketInterface
  maxFeePerBlobGas : Spells txData.maxFeePerBlobGas.missingTo0x tx.maxFeePerBlobGas
  blobVersionedHashes : readVersionedHashes txData.blobVersionedHashes = .ok tx.blobVersionedHashes

/-- The data put the transaction into the network wrapper format that it is in. -/
def Wrapped (txData : TxData) (opts : TxOptions) (tx : Blob4844Tx) : Prop :=
  ∃ version, readNetworkWrapperVersion txData.networkWrapperVersion = .ok version ∧
    checkNetworkWrapperVersion opts.common version = .ok () ∧
    readNetworkWrapper txData tx.common version = .ok tx.networkWrapper

structure Accepted (opts : TxOptions) (tx : Blob4844Tx) : Prop where
  feeMarket : AcceptsFeeMarket opts tx.toFeeMarketInterface
  eip1559 : tx.common.isActivatedEIP 1559 ≠ false
  eip4844 : tx.common.isActivatedEIP 4844 ≠ false
  hashes : tx.blobVersionedHashes.forM (verifyVersionedHash tx.common) = .ok ()
  count : checkBlobCount tx.common tx.blobVersionedHashes.length = .ok ()
  «to» : tx.to ≠ none

theorem new_eq_ok {tx : Blob4844Tx} : Blob4844Tx.new txData opts = .ok tx ↔
      Spelled txData tx ∧ Wrapped txData opts tx ∧ Accepted opts tx := by
  simp only [Blob4844Tx.new, bind_eq_ok, throwWhen_eq_ok, pure_eq_ok]
  constructor
  · rintro ⟨version, hversion, ⟨⟩, hcheck, _, hshared, ⟨⟩, hchainId, ⟨⟩, heip, ⟨⟩, heip', _, hlist, ⟨⟩,
      hverify, _, hfee, _, hpriority, ⟨⟩, hoverflow, ⟨⟩, -, ⟨⟩, hfees, _, hblobFee, _, hread, ⟨⟩, hparity,
      ⟨⟩, hhigh, ⟨⟩, hhashes, ⟨⟩, hcount, ⟨⟩, hto, _, hwrapper, rfl⟩
    obtain ⟨hspells, haccepts⟩ := sharedConstructor_eq_ok.mp hshared
    exact ⟨⟨⟨hspells, hchainId, hlist, ⟨_, hfee, rfl⟩, _, hpriority, rfl⟩, ⟨_, hblobFee, rfl⟩, hread⟩,
      ⟨version, hversion, hcheck, hwrapper⟩,
      ⟨⟨haccepts, rfl, hverify, hoverflow, hfees, hparity, hhigh⟩, heip, heip', hhashes, hcount, hto⟩⟩
  · rintro ⟨⟨⟨hspells, hchainId, hlist, ⟨_, hfee, efee⟩, _, hpriority, epriority⟩, ⟨_, hblobFee, eblobFee⟩,
        hread⟩, ⟨version, hversion, hcheck, hwrapper⟩,
      ⟨⟨haccepts, echainId, hverify, hoverflow, hfees, hparity, hhigh⟩, heip, heip', hhashes, hcount, hto⟩⟩
    refine ⟨version, hversion, (), hcheck, _, sharedConstructor_eq_ok.mpr ⟨hspells, haccepts⟩, (), hchainId,
      (), heip, (), heip', _, hlist, (), hverify, _, hfee, _, hpriority, (), ?_⟩
    simp only [efee, epriority, ← echainId]
    refine ⟨hoverflow, (), hspells.notArray, (), hfees, _, hblobFee, _, hread, (), hparity, (), hhigh, (),
      hhashes, (), hcount, (), hto, _, hwrapper, ?_⟩
    simp only [eblobFee]

end Blob4844Tx

end Tx
