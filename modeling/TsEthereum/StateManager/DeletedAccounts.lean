-- SUMMARY: What is left of the storage of an account that is deleted and put anew.
import TsEthereum.StateManager.AccountSlices

/-!
# Deleted accounts

`deleteAccount` clears the caches and takes the account out of the trie. The storage
trie that is held for the address stays, and an account that is put there again finds
it. So nothing comes back just where no storage trie is held, or an empty one.
-/

open Option

namespace MerkleStateManager

open AccountSlice

variable {keccak : Bytes → Bytes}

/-! ## The phases of a flush -/

section Phases

variable (keccak)

def codeWritten (s : MerkleStateManager) : MerkleStateManager :=
  ((flushCode s).1.forM (writeCodeItem keccak) (flushCode s).2).2

def storageWritten (items : List (Address × StorageKey × Option Bytes)) (s : MerkleStateManager) :
    MerkleStateManager :=
  (items.forM (writeStorageItem keccak) (flushStorage s).2).2

def accountsWritten (s : MerkleStateManager) : MerkleStateManager :=
  ((flushAccounts s).1.forM writeAccountItem (flushAccounts s).2).2

theorem getStateRoot_eq (s : MerkleStateManager) : (getStateRoot keccak s).1 =
    match (flushStorage (codeWritten keccak s)).1 with
    | .error e => .error e
    | .ok items => .ok (accountsWritten (storageWritten keccak items (codeWritten keccak s)))._trie := by
  cases hitems : (flushStorage (codeWritten keccak s)).1 with
  | error e =>
    have hflush : (flush keccak s).1 = .error e := by
      unfold flush
      rw [bind_of_result _ rfl, bind_of_result _ rfl]
      exact congrArg Prod.fst (bind_of_result _ hitems)
    exact congrArg Prod.fst (bind_of_result _ hflush)
  | ok items =>
    have hflush : flush keccak s =
        (.ok (), accountsWritten (storageWritten keccak items (codeWritten keccak s))) := by
      unfold flush
      rw [bind_of_result _ rfl, bind_of_result _ rfl]
      exact bind_of_result _ hitems
    unfold getStateRoot
    rw [bind_of_result _ (congrArg Prod.fst hflush), hflush]

end Phases

theorem storage_withAccount (c : AccountSlice) (account : Option Account) :
    (c.withAccount account).storage = c.storage := by
  unfold withAccount
  split <;> rfl

section Congr

variable (address : Address) {s t : MerkleStateManager}
  (hslice : slice keccak s address = slice keccak t address)
include hslice

theorem slice_codeWritten_congr :
    slice keccak (codeWritten keccak s) address = slice keccak (codeWritten keccak t) address := by
  apply LocalTo.forM_congr local_writeCodeItem
  · have hitems : (flushCode s).1.filter (·.1 = address) =
        ((slice keccak s address).code.map (entryItems address)).getD [] := filter_flushCode address s
    rw [hitems, hslice]
    exact (filter_flushCode address t).symm
  · rw [slice_flushCode, slice_flushCode, hslice]

theorem slice_storageWritten_congr (hkeccak : AddressesApart keccak)
    {items items' : List (Address × StorageKey × Option Bytes)}
    (hs : (flushStorage s).1 = .ok items) (ht : (flushStorage t).1 = .ok items') :
    slice keccak (storageWritten keccak items s) address =
      slice keccak (storageWritten keccak items' t) address := by
  apply LocalTo.forM_congr (local_writeStorageItem hkeccak)
  · have hitems : items.filter (·.1 = address) =
        ((slice keccak s address).storage.map (storageItems address)).getD [] :=
      filter_flushStorage address hs
    rw [hitems, hslice]
    exact (filter_flushStorage address ht).symm
  · rw [slice_flushStorage address hs, slice_flushStorage address ht, hslice]

theorem slice_accountsWritten_congr :
    slice keccak (accountsWritten s) address = slice keccak (accountsWritten t) address := by
  apply LocalTo.forM_congr local_writeAccountItem
  · have hitems : (flushAccounts s).1.filter (·.1 = address) =
        ((slice keccak s address).account.map (entryItems address)).getD [] :=
      filter_flushAccounts address s
    rw [hitems, hslice]
    exact (filter_flushAccounts address t).symm
  · rw [slice_flushAccounts, slice_flushAccounts, hslice]

end Congr

/-! ## Accounts that have been put anew -/

/-- `new Account()` with the storage that has been put since. -/
def Account.withStorage (trie : Storage) : Account := { Account.new with storageRoot := trie }

/-- The slice of an account that has been deleted and put anew, with nothing but `trie` as its
storage, apart from what is cached of the storage. -/
structure AnewAccount (trie : Storage) (c : AccountSlice) : Prop where
  account : ∀ e, c.account = some e → e = (some (some (.withStorage trie)), true)
  inTrie : c.account = none → c.trie = some (.withStorage trie)
  held : c.held.getD trie = trie
  code : ∀ e, c.code = some e → e.1 = some none

/-- The storage cache, if there is one, has the slots of `trie`. -/
def CachesStorage (trie : Storage) (c : AccountSlice) : Prop :=
  ∀ e, c.storage = some e → ∃ m, e.1 = some m ∧ ∀ key, (m.get key).getD [] = trie key

structure Anew (trie : Storage) (c : AccountSlice) : Prop where
  account : AnewAccount trie c
  storage : CachesStorage trie c

section Anew

variable {trie : Storage} {c : AccountSlice}

variable (h : AnewAccount trie c)
include h

theorem AnewAccount.currentAccount_eq : c.currentAccount = some (.withStorage trie) := by
  unfold currentAccount
  cases hc : c.account with
  | none => exact h.inTrie hc
  | some e =>
    rw [h.account e hc]
    rfl

theorem AnewAccount.accountRead_eq : c.accountRead = c := by
  unfold accountRead
  cases hc : c.account with
  | none =>
    change { c with account := none } = c
    rw [← hc]
  | some e =>
    rw [h.account e hc]
    rfl

theorem AnewAccount.write (trie' : Storage) :
    AnewAccount trie' ({ c with held := some trie' }.withAccount (some (.withStorage trie'))) := by
  unfold withAccount
  split
  · exact
      { account := fun e he => (some.inj he).symm
        inTrie := fun hnone => nomatch hnone
        held := rfl
        code := h.code }
  · next hcached =>
    have hnone : c.account = none := Option.not_isSome_iff_eq_none.mp hcached
    exact
      { account := fun e he => absurd (hnone.symm.trans he) nofun
        inTrie := fun _ => rfl
        held := rfl
        code := h.code }

end Anew

section Steps

variable {address : Address} {s : MerkleStateManager} {trie : Storage}

/-- Reading the account changes nothing. -/
theorem anew_getAccount (h : AnewAccount trie (slice keccak s address)) :
    (getAccount address s).1 = some (.withStorage trie) ∧
      slice keccak (getAccount address s).2 address = slice keccak s address := by
  obtain ⟨hcurrent, hread⟩ := @slice_getAccount keccak address s
  exact ⟨hcurrent.trans h.currentAccount_eq, hread.trans h.accountRead_eq⟩

theorem anew_writeContractStorage (h : AnewAccount trie (slice keccak s address)) (key : StorageKey)
    (value : Bytes) : AnewAccount (Function.update trie key value) (slice keccak
        (_writeContractStorage keccak address (.withStorage trie) key value s).2 address) ∧
      (slice keccak (_writeContractStorage keccak address (.withStorage trie) key value s).2
        address).storage = (slice keccak s address).storage := by
  have hheld : (slice keccak s address).held.getD (Account.withStorage trie).storageRoot = trie :=
    h.held
  unfold _writeContractStorage
  rw [slice_modifyContractStorage address (.withStorage trie) _ s hheld]
  exact ⟨h.write _, storage_withAccount _ _⟩

theorem anew_putStorage (h : Anew trie (slice keccak s address)) (key : StorageKey) {value : Bytes}
    (hlength : value.length ≤ 32) : Anew (Function.update trie key (Tx.unpadBytes value))
      (slice keccak (putStorage keccak address key value s).2 address) := by
  obtain ⟨hcurrent, hread⟩ := anew_getAccount h.account
  generalize hvalue : Tx.unpadBytes value = v
  -- the state once the slot is cached
  generalize hs₁ : (cacheStorage address key v (getAccount address s).2).2 = s₁
  have hrun : (putStorage keccak address key value s).2 =
      (_writeContractStorage keccak address (.withStorage trie) key v s₁).2 := by
    unfold putStorage
    rw [if_neg (Nat.not_lt.mpr hlength), hvalue, ← hs₁, bind_of_result _ hcurrent]
    rfl
  have hslice : slice keccak s₁ address = { slice keccak s address with
      storage := (slice keccak s address).storage.map fun e =>
        (some ((e.1.getD .empty).set key v), some ((e.2.getD .empty).set key ())) } := by
    rw [← hs₁, slice_cacheStorage, hread]
  have haccount : AnewAccount trie (slice keccak s₁ address) := by
    rw [hslice]
    exact { h.account with }
  obtain ⟨hwritten, hkept⟩ := anew_writeContractStorage haccount key v
  rw [hrun]
  refine ⟨hwritten, ?_⟩
  intro e he
  rw [hkept, hslice] at he
  obtain ⟨e₀, he₀, rfl⟩ := map_eq_some_iff.mp he
  obtain ⟨m, hm, hslots⟩ := h.storage e₀ he₀
  refine ⟨m.set key v, by rw [hm]; rfl, ?_⟩
  intro k
  rw [OrderedMap.get_set, Function.update_apply]
  split
  · rfl
  · exact hslots k

end Steps

section FlushAnew

variable {address : Address} {s : MerkleStateManager} {trie : Storage}

/-- Its code is known not to exist, so there is none to write. -/
theorem anew_codeWritten (h : Anew trie (slice keccak s address)) :
    Anew trie (slice keccak (codeWritten keccak s) address) := by
  apply LocalTo.forM_keeps local_writeCodeItem
  · rintro ⟨a, code⟩ hitem (rfl : a = address) t ht
    have hown : (a, code) ∈ (flushCode s).1.filter (·.1 = a) :=
      List.mem_filter.mpr ⟨hitem, decide_eq_true rfl⟩
    have hitems : (flushCode s).1.filter (·.1 = a) =
        ((slice keccak s a).code.map (entryItems a)).getD [] := filter_flushCode a s
    rw [hitems] at hown
    cases hcode : (slice keccak s a).code with
    | none =>
      rw [hcode] at hown
      cases hown
    | some e =>
      rw [hcode, map_some, getD_some, entryItems, h.account.code e hcode] at hown
      split at hown
      · obtain rfl : code = none := (Prod.mk.inj (List.mem_singleton.mp hown)).2
        exact ht
      · cases hown
  · rw [slice_flushCode]
    refine ⟨{ h.account with code := ?_ }, h.storage⟩
    intro e he
    obtain ⟨e₀, he₀, rfl⟩ := map_eq_some_iff.mp he
    exact h.account.code e₀ he₀

/-- Each changed slot is written with the value that the trie has already. -/
theorem anew_storageWritten (hkeccak : AddressesApart keccak) (h : Anew trie (slice keccak s address))
    {items : List (Address × StorageKey × Option Bytes)} (hitems : (flushStorage s).1 = .ok items) :
    AnewAccount trie (slice keccak (storageWritten keccak items s) address) := by
  apply LocalTo.forM_keeps (local_writeStorageItem hkeccak)
  · rintro ⟨a, key, value⟩ hitem (rfl : a = address) t ht
    have hvalue : value.getD [] = trie key := by
      have hown : (a, key, value) ∈ items.filter (·.1 = a) :=
        List.mem_filter.mpr ⟨hitem, decide_eq_true rfl⟩
      have hfilter : items.filter (·.1 = a) =
          ((slice keccak s a).storage.map (storageItems a)).getD [] := filter_flushStorage a hitems
      rw [hfilter] at hown
      cases hstorage : (slice keccak s a).storage with
      | none =>
        rw [hstorage] at hown
        cases hown
      | some e =>
        obtain ⟨m, hm, hslots⟩ := h.storage e hstorage
        rw [hstorage] at hown
        obtain ⟨k, -, hk⟩ := List.mem_map.mp hown
        obtain ⟨-, rfl, rfl⟩ : a = a ∧ k = key ∧ e.1.bind (·.get k) = value :=
          ⟨rfl, congrArg (·.2.1) hk, congrArg (·.2.2) hk⟩
        rw [hm]
        exact hslots k
    obtain ⟨hcurrent, hread⟩ := anew_getAccount ht
    have hrun : (writeStorageItem keccak (a, key, value) t).2 =
        (_writeContractStorage keccak a (.withStorage trie) key (value.getD [])
          (getAccount a t).2).2 := congrArg Prod.snd (bind_of_result _ hcurrent)
    rw [← hread] at ht
    obtain ⟨hwritten, -⟩ := anew_writeContractStorage ht key (value.getD [])
    rw [hvalue, Function.update_eq_self] at hwritten
    rw [hrun, hvalue]
    exact hwritten
  · rw [slice_flushStorage address hitems]
    exact { h.account with }

theorem trie_accountsWritten (h : AnewAccount trie (slice keccak s address)) :
    (accountsWritten s)._trie address = some (.withStorage trie) := by
  have hitems : (flushAccounts s).1.filter (·.1 = address) =
      ((slice keccak s address).account.map (entryItems address)).getD [] :=
    filter_flushAccounts address s
  have hloop : slice keccak (accountsWritten s) address =
      slice keccak ((((slice keccak s address).account.map (entryItems address)).getD []).forM
        writeAccountItem (flushAccounts s).2).2 address := by
    rw [← hitems]
    exact LocalTo.forM_filter local_writeAccountItem _ rfl
  change (slice keccak (accountsWritten s) address).trie = _
  rw [hloop]
  cases haccount : (slice keccak s address).account with
  | none =>
    change (slice keccak (flushAccounts s).2 address).trie = _
    rw [slice_flushAccounts]
    exact h.inTrie haccount
  | some e =>
    rw [h.account e haccount]
    change (slice keccak (setTrieAccount address _ (flushAccounts s).2).2 address).trie = _
    rw [slice_setTrieAccount]

end FlushAnew

/-- States that differ only in slices of the same new account have the same root. -/
theorem getStateRoot_congr (hkeccak : AddressesApart keccak) {address : Address}
    {s t : MerkleStateManager} {trie : Storage} (hs : Anew trie (slice keccak s address))
    (ht : Anew trie (slice keccak t address))
    (hothers : ∀ b, b ≠ address → slice keccak s b = slice keccak t b) :
    (getStateRoot keccak s).1 = (getStateRoot keccak t).1 := by
  have hcode : ∀ b, b ≠ address →
      slice keccak (codeWritten keccak s) b = slice keccak (codeWritten keccak t) b :=
    fun b hb => slice_codeWritten_congr b (hothers b hb)
  have hs' := anew_codeWritten hs
  have ht' := anew_codeWritten ht
  have hmapped : ∀ {c : AccountSlice}, Anew trie c → ∀ e, c.storage = some e → Mapped e := by
    intro c hc e he _
    obtain ⟨m, hm, -⟩ := hc.storage e he
    rw [hm]
    rfl
  rw [getStateRoot_eq, getStateRoot_eq]
  rcases flushStorage_eq keccak (codeWritten keccak s) with
    ⟨items, hitems, hall⟩ | ⟨herror, b, e, he, hnot⟩ <;>
  rcases flushStorage_eq keccak (codeWritten keccak t) with
    ⟨items', hitems', hall'⟩ | ⟨herror', b', e', he', hnot'⟩
  · rw [hitems, hitems']
    refine congrArg Except.ok (funext fun b => ?_)
    rcases eq_or_ne b address with rfl | hb
    · rw [trie_accountsWritten (anew_storageWritten hkeccak hs' hitems),
        trie_accountsWritten (anew_storageWritten hkeccak ht' hitems')]
    · have hstorage := slice_storageWritten_congr b (hcode b hb) hkeccak hitems hitems'
      exact congrArg AccountSlice.trie (slice_accountsWritten_congr b hstorage)
  · rcases eq_or_ne b' address with rfl | hb
    · exact absurd (hmapped ht' e' he') hnot'
    · exact absurd (hall b' e' ((congrArg storage (hcode b' hb)).trans he')) hnot'
  · rcases eq_or_ne b address with rfl | hb
    · exact absurd (hmapped hs' e he) hnot
    · exact absurd (hall' b e ((congrArg storage (hcode b hb)).symm.trans he)) hnot
  · rw [herror, herror']

/-! ## Deleting and putting anew -/

/-- `deleteAccount` and then `putAccount` with a new account. -/
def recreate (address : Address) : StateM MerkleStateManager Unit := do
  deleteAccount address
  putAccount address (some Account.new)

theorem local_recreate (address : Address) : LocalTo (slice keccak) address (recreate address) :=
  (local_deleteAccount address).bind fun _ => local_putAccount address _

theorem slice_recreate (address : Address) (s : MerkleStateManager) :
    slice keccak (recreate address s).2 address =
      (slice keccak s address).deleteCached.withAccount (some Account.new) := by
  generalize hs₁ : { s with _caches := s._caches.deleteAccount address } = s₁
  have hdeleted : slice keccak s₁ address = (slice keccak s address).deleteCached := by
    rw [← hs₁]
    exact slice_deleteCached address s
  have hrun : (recreate address s).2 = (putAccount address (some Account.new)
      ((if s₁._caches.account.isSome then pure () else setTrieAccount address none) s₁).2).2 := by
    rw [← hs₁]
    rfl
  have hcached : (slice keccak s₁ address).account.isSome = s₁._caches.account.isSome :=
    isSome_map
  rw [hrun, slice_putAccount, ← hdeleted]
  split
  · rfl
  · next hnone =>
    rw [slice_setTrieAccount]
    unfold withAccount
    dsimp only
    rw [hcached, if_neg hnone, if_neg hnone]

theorem withAccount_deleteCached (c : AccountSlice) (account : Option Account) :
    (c.deleteCached.withAccount account).currentAccount = account ∧
      (c.deleteCached.withAccount account).held = c.held ∧
      (c.deleteCached.withAccount account).storage = c.storage.map fun e => (some .empty, e.2) := by
  obtain ⟨trie, held, _ | _, code, storage⟩ := c <;> exact ⟨rfl, rfl, rfl⟩

theorem held_accountRead (c : AccountSlice) : c.accountRead.held = c.held := by
  unfold accountRead
  split <;> rfl

theorem getStorage_fst (address : Address) (key : StorageKey) (s : MerkleStateManager) :
    (getStorage keccak address key s).1 =
      match (cachedStorage address key s).1 with
      | some value => value
      | none =>
        match (getAccount address s).1 with
        | none => []
        | some account => (_getStorageTrie keccak address account (getAccount address s).2).1 key := by
  unfold getStorage
  cases hcached : (cachedStorage address key s).1 with
  | some value =>
    rw [bind_of_result _ hcached]
    rfl
  | none =>
    rw [bind_of_result _ hcached]
    cases haccount : (getAccount address s).1 with
    | none => exact congrArg Prod.fst (bind_of_result _ haccount)
    | some account => exact congrArg Prod.fst (bind_of_result _ haccount)

/-- What a read returns is what the held trie has, if there is one. -/
theorem getStorage_recreate (address : Address) (key : StorageKey) (s : MerkleStateManager) :
    (getStorage keccak address key (recreate address s).2).1 =
      (slice keccak s address).held.getD EMPTY_TRIE_ROOT key := by
  have hslice := @slice_recreate keccak address s
  generalize (recreate address s).2 = t at hslice
  obtain ⟨hcurrent, hheld, hstorage⟩ :=
    withAccount_deleteCached (slice keccak s address) (some Account.new)
  rw [← hslice] at hcurrent hheld hstorage
  have hcached : (cachedStorage address key t).1 = none := by
    have hread : (cachedStorage address key t).1 =
        (slice keccak t address).storage.bind fun e => e.1.bind (·.get key) := by
      unfold cachedStorage slice
      cases t._caches.storage <;> rfl
    rw [hread, hstorage]
    cases (slice keccak s address).storage <;> rfl
  obtain ⟨haccount, hread⟩ := @slice_getAccount keccak address t
  rw [hcurrent] at haccount
  rw [getStorage_fst, hcached, haccount]
  dsimp only
  rw [(slice_getStorageTrie address Account.new (getAccount address t).2).1, hread, held_accountRead,
    hheld]
  rfl

theorem anew_recreate {address : Address} {s : MerkleStateManager}
    (hheld : (slice keccak s address).held.getD EMPTY_TRIE_ROOT = EMPTY_TRIE_ROOT) :
    Anew EMPTY_TRIE_ROOT (slice keccak (recreate address s).2 address) := by
  rw [slice_recreate]
  obtain ⟨-, -, hstorage⟩ := withAccount_deleteCached (slice keccak s address) (some Account.new)
  constructor
  · generalize slice keccak s address = c at hheld
    have hcode : ∀ e, c.deleteCached.code = some e → e.1 = some none := by
      intro e he
      obtain ⟨e₀, -, rfl⟩ := map_eq_some_iff.mp he
      rfl
    obtain ⟨trie, held, _ | e₀, code, storage⟩ := c
    · exact
        { account := fun e he => nomatch he
          inTrie := fun _ => rfl
          held := hheld
          code := hcode }
    · exact
        { account := fun e he => (some.inj he).symm
          inTrie := fun hnone => nomatch hnone
          held := hheld
          code := hcode }
  · intro e he
    rw [hstorage] at he
    obtain ⟨e₀, -, rfl⟩ := map_eq_some_iff.mp he
    exact ⟨.empty, rfl, fun _ => rfl⟩

/-! ## Storage that does not come back -/

/-- Storage that is put after the account. -/
def putAll (keccak : Bytes → Bytes) (address : Address) (puts : List (StorageKey × Bytes)) :
    StateM MerkleStateManager Unit :=
  puts.forM fun p => do
    let _ ← putStorage keccak address p.1 p.2
    pure ()

/-- What a trie holds after puts; values that are too long are refused. -/
def written (trie : Storage) (puts : List (StorageKey × Bytes)) : Storage :=
  puts.foldl (fun trie p =>
    if p.2.length ≤ 32 then Function.update trie p.1 (Tx.unpadBytes p.2) else trie) trie

def Account.withoutStorage (account : Account) : Account :=
  { account with storageRoot := EMPTY_TRIE_ROOT }

/-- The state in which the address has never had storage. -/
def forgetStorage (keccak : Bytes → Bytes) (address : Address) (s : MerkleStateManager) :
    MerkleStateManager where
  _trie := Function.update s._trie address ((s._trie address).map Account.withoutStorage)
  _storageTries := s._storageTries.delete (keccak address.bytes)
  _caches :=
    { account := s._caches.account.map fun c =>
        match c.elements.get address with
        | none => c
        | some elem =>
          { c with elements := c.elements.set address (elem.map Account.withoutStorage) }
      code := s._caches.code
      storage := s._caches.storage.map fun c =>
        ⟨c.elements.delete address, c.changed.delete address⟩ }

/-- After deleting the account and putting it anew, no slot has a value, and whatever is put then,
the state has the root that it would have if the address had never had storage. -/
structure StorageGone (keccak : Bytes → Bytes) (s : MerkleStateManager) (address : Address) : Prop where
  empty : ∀ key, (getStorage keccak address key (recreate address s).2).1 = []
  root : ∀ puts, (getStateRoot keccak (putAll keccak address puts (recreate address s).2).2).1 =
    (getStateRoot keccak (putAll keccak address puts
      (recreate address (forgetStorage keccak address s)).2).2).1

theorem anew_putAll {address : Address} {s : MerkleStateManager} {trie : Storage}
    (h : Anew trie (slice keccak s address)) (puts : List (StorageKey × Bytes)) :
    Anew (written trie puts) (slice keccak (putAll keccak address puts s).2 address) := by
  induction puts generalizing trie s with
  | nil => exact h
  | cons p puts ih =>
    refine ih (s := (putStorage keccak address p.1 p.2 s).2) ?_
    dsimp only
    split
    · next hlength => exact anew_putStorage h p.1 hlength
    · next hlength =>
      unfold putStorage
      rw [if_pos (Nat.not_le.mp hlength)]
      exact h

theorem local_putAll (hkeccak : AddressesApart keccak) (address : Address)
    (puts : List (StorageKey × Bytes)) : LocalTo (slice keccak) address (putAll keccak address puts) := by
  induction puts with
  | nil => exact .pure ()
  | cons p puts ih =>
    exact ((local_putStorage address hkeccak p.1 p.2).bind fun _ => .pure ()).bind fun _ => ih

theorem slice_forgetStorage (hkeccak : AddressesApart keccak) (address : Address)
    (s : MerkleStateManager) {b : Address} (hb : b ≠ address) :
    slice keccak (forgetStorage keccak address s) b = slice keccak s b := by
  have hne : keccak b.bytes ≠ keccak address.bytes := fun h => hb (hkeccak b address h)
  have haccount : ∀ c : ItemCache Account, (match c.elements.get address with
      | none => c
      | some elem =>
        { c with elements := c.elements.set address (elem.map Account.withoutStorage) }).entry b =
      c.entry b := by
    intro c
    cases c.elements.get address with
    | none => rfl
    | some elem => simp [ItemCache.entry, hb]
  unfold slice forgetStorage
  congr 1
  · exact Function.update_of_ne hb _ _
  · simp [hne]
  · rw [map_map]
    exact congrArg (Option.map · s._caches.account) (funext haccount)
  · rw [map_map]
    congr 1
    funext c
    simp [StorageCache.entry, hb]

/-- Nothing comes back exactly where no storage trie is held for the address, or an empty one. -/
theorem storageGone_iff (hkeccak : AddressesApart keccak) (s : MerkleStateManager) (address : Address) :
    StorageGone keccak s address ↔
      ∀ trie, s._storageTries.get (keccak address.bytes) = some trie → trie = EMPTY_TRIE_ROOT := by
  constructor
  · intro h trie htrie
    funext key
    have hread := h.empty key
    rw [getStorage_recreate] at hread
    change (s._storageTries.get (keccak address.bytes)).getD EMPTY_TRIE_ROOT key = [] at hread
    rw [htrie] at hread
    exact hread
  · intro hheld
    have hempty : (slice keccak s address).held.getD EMPTY_TRIE_ROOT = EMPTY_TRIE_ROOT := by
      change (s._storageTries.get (keccak address.bytes)).getD EMPTY_TRIE_ROOT = EMPTY_TRIE_ROOT
      cases htrie : s._storageTries.get (keccak address.bytes) with
      | none => rfl
      | some trie => exact hheld trie htrie
    constructor
    · intro key
      rw [getStorage_recreate, hempty]
      rfl
    · intro puts
      have hforgotten : (slice keccak (forgetStorage keccak address s) address).held.getD
          EMPTY_TRIE_ROOT = EMPTY_TRIE_ROOT := by
        change ((s._storageTries.delete (keccak address.bytes)).get (keccak address.bytes)).getD
          EMPTY_TRIE_ROOT = EMPTY_TRIE_ROOT
        rw [OrderedMap.get_delete, if_pos rfl]
        rfl
      apply getStateRoot_congr hkeccak (anew_putAll (anew_recreate hempty) puts)
        (anew_putAll (anew_recreate hforgotten) puts)
      intro b hb
      have hput := local_putAll hkeccak address puts
      have hrecreate := @local_recreate keccak address
      rw [hput.frame _ b hb, hput.frame _ b hb, hrecreate.frame _ b hb, hrecreate.frame _ b hb]
      exact (slice_forgetStorage hkeccak address s hb).symm

/-! ## A stored slot -/

section Sample

def sampleAddress : Address := ⟨List.replicate 20 1, List.length_replicate⟩

def sampleKey (b : UInt8) : StorageKey := ⟨List.replicate 32 b, List.length_replicate⟩

/-- The hash of the address, and other bytes as they are. -/
def sampleKeccak (b : Bytes) : Bytes :=
  if b = sampleAddress.bytes then
    [0xe9, 0x65, 0x4a, 0x4d, 0x19, 0x43, 0x18, 0xe8, 0xef, 0x7e, 0x64, 0xc6, 0xcb, 0xc3, 0x1c, 0x34,
      0x1c, 0x65, 0x0a, 0x6a, 0x03, 0x9e, 0xa4, 0x48, 0xfa, 0xf8, 0x10, 0x1a, 0xf4, 0x03, 0xda, 0x4d]
  else b

theorem sampleKeccak_apart : AddressesApart sampleKeccak := by
  intro a b h
  have hlength : ∀ {x : Address} {bytes : Bytes}, bytes.length = 32 → bytes ≠ x.bytes := by
    intro x bytes hbytes heq
    rw [heq, x.length_eq] at hbytes
    cases hbytes
  unfold sampleKeccak at h
  have hbytes : a.bytes = b.bytes := by
    split at h <;> split at h
    · next ha hb => exact ha.trans hb.symm
    · exact absurd h (hlength rfl)
    · exact absurd h.symm (hlength rfl)
    · exact h
  obtain ⟨_, _⟩ := a
  obtain ⟨_, _⟩ := b
  cases hbytes
  rfl

/-- An account with a slot that has been put. -/
def sampleStored (cached : Bool) : MerkleStateManager :=
  ((do
    putAccount sampleAddress (some Account.new)
    let _ ← putStorage sampleKeccak sampleAddress (sampleKey 0) [7]
    pure () : StateM MerkleStateManager Unit) (new (fun _ => none) cached cached cached)).2

/-- Once the storage tries have been let go of, as a revert does, the slot is gone with its account. -/
theorem storageGone_reverted : StorageGone sampleKeccak
    { sampleStored false with _storageTries := .empty } sampleAddress :=
  (storageGone_iff sampleKeccak_apart _ _).mpr nofun

/-- The stored slot once it has been flushed. -/
def sampleFlushed (cached : Bool) : MerkleStateManager :=
  (getStateRoot sampleKeccak (sampleStored cached)).2

/-- Otherwise the slot can be read again, with caches and without, and the next slot that is put
brings the root of both. -/
theorem storage_resurrected : (getStorage sampleKeccak sampleAddress (sampleKey 0)
      (recreate sampleAddress (sampleStored false)).2).1 = [7] ∧
    (getStorage sampleKeccak sampleAddress (sampleKey 0)
      (recreate sampleAddress (sampleStored true)).2).1 = [7] ∧
    ∃ accounts account, (getStateRoot sampleKeccak
        (putAll sampleKeccak sampleAddress [(sampleKey 1, [5])]
          (recreate sampleAddress (sampleFlushed true)).2).2).1 = .ok accounts ∧
      accounts sampleAddress = some account ∧ account.storageRoot (sampleKey 0) = [7] ∧
      account.storageRoot (sampleKey 1) = [5] :=
  ⟨by decide +kernel, by decide +kernel, _, _, rfl, rfl, by decide +kernel, by decide +kernel⟩

end Sample

end MerkleStateManager
