-- SUMMARY: The state of a state manager seen from one address, and what each operation looks at and changes of it.
import TsEthereum.Base.Caching
import TsEthereum.Base.Slices
import TsEthereum.StateManager.MerkleStateManager

/-!
# Account slices

Everything that a state manager keeps of an address: its account in the trie, the
storage trie that is held for it, and its entries in the caches and their diffs. An
operation on an address is local to that address, and a flush does to each slice
what the items of its address say.
-/

open List Option Function Except

namespace MerkleStateManager

open OrderedMap StorageCache

/-! ## Slices -/

/-- An element and whether it has been changed. -/
def ItemCache.entry {ν : Type} (c : ItemCache ν) (address : Address) : Option (Option ν) × Bool :=
  (c.elements.get address, c.changed.has address)

/-- The slots that are cached and those that have been changed. -/
def StorageCache.entry (c : StorageCache) (address : Address) :
    Option (OrderedMap StorageKey Bytes) × Option (OrderedMap StorageKey Unit) :=
  (c.elements.get address, c.changed.get address)

/-- What belongs to an address; no entry of a cache that there is not. -/
structure AccountSlice where
  trie : Option Account
  held : Option Storage
  account : Option (Option (Option Account) × Bool)
  code : Option (Option (Option Bytes) × Bool)
  storage : Option (Option (OrderedMap StorageKey Bytes) × Option (OrderedMap StorageKey Unit))

variable (keccak : Bytes → Bytes)

def slice (s : MerkleStateManager) (address : Address) : AccountSlice where
  trie := s._trie address
  held := s._storageTries.get (keccak address.bytes)
  account := s._caches.account.map (·.entry address)
  code := s._caches.code.map (·.entry address)
  storage := s._caches.storage.map (·.entry address)

theorem ItemCache.entry_put {ν : Type} (c : ItemCache ν) (a b : Address) (value : Option ν) :
    (c.put a value).entry b = if b = a then (some value, true) else c.entry b := by
  unfold entry put OrderedMap.has
  rw [get_set, get_set]
  split <;> rfl

theorem StorageCache.entry_put (c : StorageCache) (a b : Address) (key : StorageKey) (value : Bytes) :
    (c.put a key value).entry b =
      if b = a then
        (some (((c.entry a).1.getD .empty).set key value),
          some (((c.entry a).2.getD .empty).set key ()))
      else c.entry b := by
  unfold entry put
  rw [get_set, get_set]
  split <;> rfl

theorem StorageCache.entry_clearStorage (c : StorageCache) (a b : Address) :
    (c.clearStorage a).entry b = if b = a then (some .empty, (c.entry a).2) else c.entry b := by
  unfold entry clearStorage
  rw [get_set]
  split
  · next h => rw [h]
  · rfl

/-! ## Local parts -/

variable {keccak} (address : Address)

theorem local_cachedAccount : LocalTo (slice keccak) address (cachedAccount address) := by
  apply LocalTo.read fun c => c.account.bind (·.1)
  intro s
  unfold slice
  cases s._caches.account <;> rfl

theorem slice_cacheAccount (account : Option Account) (s : MerkleStateManager) :
    slice keccak (cacheAccount address account s).2 address = { slice keccak s address with
        account := (slice keccak s address).account.map fun _ => (some account, true) } := by
  unfold slice cacheAccount
  cases s._caches.account with
  | none => rfl
  | some c => simp [ItemCache.entry_put]

theorem local_cacheAccount (account : Option Account) :
    LocalTo (slice keccak) address (cacheAccount address account) := by
  apply LocalTo.modify fun c => { c with account := c.account.map fun _ => (some account, true) }
  · intro s b hb
    unfold slice
    cases s._caches.account with
    | none => rfl
    | some c => simp [ItemCache.entry_put, hb]
  · exact slice_cacheAccount address account

theorem local_trieAccount : LocalTo (slice keccak) address (trieAccount address) := by
  apply LocalTo.read AccountSlice.trie
  intro s
  rfl

theorem slice_setTrieAccount (account : Option Account) (s : MerkleStateManager) :
    slice keccak (setTrieAccount address account s).2 address =
      { slice keccak s address with trie := account } := by
  unfold slice setTrieAccount
  simp

theorem local_setTrieAccount (account : Option Account) :
    LocalTo (slice keccak) address (setTrieAccount address account) := by
  apply LocalTo.modify fun c => { c with trie := account }
  · intro s b hb
    unfold slice
    simp [hb]
  · exact slice_setTrieAccount address account

theorem local_accountsCached : LocalTo (slice keccak) address accountsCached := by
  apply LocalTo.read fun c => c.account.isSome
  intro s
  unfold slice
  cases s._caches.account <;> rfl

theorem slice_cacheStorage (key : StorageKey) (value : Bytes) (s : MerkleStateManager) :
    slice keccak (cacheStorage address key value s).2 address = { slice keccak s address with
        storage := (slice keccak s address).storage.map fun e =>
          (some ((e.1.getD .empty).set key value), some ((e.2.getD .empty).set key ())) } := by
  unfold slice cacheStorage
  cases s._caches.storage with
  | none => rfl
  | some c => simp [entry_put]

theorem local_cacheStorage (key : StorageKey) (value : Bytes) :
    LocalTo (slice keccak) address (cacheStorage address key value) := by
  apply LocalTo.modify fun c => { c with storage := c.storage.map fun e =>
    (some ((e.1.getD .empty).set key value), some ((e.2.getD .empty).set key ())) }
  · intro s b hb
    unfold slice
    cases s._caches.storage with
    | none => rfl
    | some c => simp [entry_put, hb]
  · exact slice_cacheStorage address key value

/-- No two addresses have the same hash. -/
def AddressesApart (keccak : Bytes → Bytes) : Prop :=
  ∀ a b : Address, keccak a.bytes = keccak b.bytes → a = b

theorem local_heldTrie : LocalTo (slice keccak) address (heldTrie keccak address) := by
  apply LocalTo.read AccountSlice.held
  intro s
  rfl

theorem slice_holdTrie (storageTrie : Storage) (s : MerkleStateManager) :
    slice keccak (holdTrie keccak address storageTrie s).2 address =
      { slice keccak s address with held := some storageTrie } := by
  unfold slice holdTrie
  simp

theorem local_holdTrie (hkeccak : AddressesApart keccak) (storageTrie : Storage) :
    LocalTo (slice keccak) address (holdTrie keccak address storageTrie) := by
  apply LocalTo.modify fun c => { c with held := some storageTrie }
  · intro s b hb
    have hne : keccak b.bytes ≠ keccak address.bytes := fun h => hb (hkeccak b address h)
    unfold slice
    simp [hne]
  · exact slice_holdTrie address storageTrie

/-- The slice after `Caches.deleteAccount`. -/
def AccountSlice.deleteCached (c : AccountSlice) : AccountSlice :=
  { c with
    account := c.account.map fun _ => (some none, true)
    code := c.code.map fun _ => (some none, true)
    storage := c.storage.map fun e => (some .empty, e.2) }

theorem slice_deleteCached (s : MerkleStateManager) :
    slice keccak { s with _caches := s._caches.deleteAccount address } address =
      (slice keccak s address).deleteCached := by
  unfold slice Caches.deleteAccount ItemCache.del AccountSlice.deleteCached
  rcases s with ⟨_, _, ⟨_ | _, _ | _, _ | _⟩⟩ <;>
    simp [ItemCache.entry_put, entry_clearStorage]

theorem local_deleteCached : LocalTo (slice keccak) address
    (modify fun s => { s with _caches := s._caches.deleteAccount address }) := by
  apply LocalTo.modify AccountSlice.deleteCached
  · intro s b hb
    unfold slice Caches.deleteAccount ItemCache.del
    rcases s with ⟨_, _, ⟨_ | _, _ | _, _ | _⟩⟩ <;>
      simp [ItemCache.entry_put, entry_clearStorage, hb]
  · exact slice_deleteCached address

/-! ## Local operations -/

theorem local_getAccount : LocalTo (slice keccak) address (getAccount address) := by
  apply (local_cachedAccount address).bind
  intro elem
  cases elem with
  | some account => exact .pure account
  | none =>
    apply (local_trieAccount address).bind
    intro account
    exact (local_cacheAccount address account).bind fun _ => .pure account

/-- The account that is cached, or else the one of the trie. -/
def AccountSlice.currentAccount (c : AccountSlice) : Option Account :=
  (c.account.bind (·.1)).getD c.trie

/-- The slice once its account is cached. -/
def AccountSlice.accountRead (c : AccountSlice) : AccountSlice :=
  match c.account.bind (·.1) with
  | some _ => c
  | none => { c with account := c.account.map fun _ => (some c.trie, true) }

theorem slice_getAccount (s : MerkleStateManager) :
    (getAccount address s).1 = (slice keccak s address).currentAccount ∧
      slice keccak (getAccount address s).2 address = (slice keccak s address).accountRead := by
  have hcached : (slice keccak s address).account.bind (·.1) = (cachedAccount address s).1 := by
    unfold slice cachedAccount
    cases s._caches.account <;> rfl
  unfold AccountSlice.currentAccount AccountSlice.accountRead
  rw [hcached]
  cases helem : (cachedAccount address s).1 with
  | some elem =>
    have hrun : getAccount address s = (elem, s) := bind_of_result _ helem
    rw [hrun]
    exact ⟨rfl, rfl⟩
  | none =>
    have hrun : getAccount address s =
      (s._trie address, (cacheAccount address (s._trie address) s).2) := bind_of_result _ helem
    rw [hrun]
    exact ⟨rfl, slice_cacheAccount address (s._trie address) s⟩

theorem local_putAccount (account : Option Account) :
    LocalTo (slice keccak) address (putAccount address account) := by
  apply (local_accountsCached address).bind
  intro cached
  cases cached with
  | true => exact local_cacheAccount address account
  | false => exact local_setTrieAccount address account

/-- The slice with another account, in the cache if there is one. -/
def AccountSlice.withAccount (c : AccountSlice) (account : Option Account) : AccountSlice :=
  if c.account.isSome then { c with account := some (some account, true) }
  else { c with trie := account }

theorem slice_putAccount (account : Option Account) (s : MerkleStateManager) :
    slice keccak (putAccount address account s).2 address =
      (slice keccak s address).withAccount account := by
  change slice keccak ((if s._caches.account.isSome then cacheAccount address account
    else setTrieAccount address account) s).2 address = _
  have hcached : (slice keccak s address).account.isSome = s._caches.account.isSome :=
    isSome_map
  unfold AccountSlice.withAccount
  rw [hcached]
  split
  · next h =>
    rw [slice_cacheAccount]
    rw [← hcached] at h
    obtain ⟨e, he⟩ := isSome_iff_exists.mp h
    rw [he]
    rfl
  · exact slice_setTrieAccount address account s

theorem local_setCodeHash (codeHash : Bytes) :
    LocalTo (slice keccak) address (setCodeHash address codeHash) :=
  (local_getAccount address).bind fun _ => local_putAccount address _

theorem local_deleteAccount : LocalTo (slice keccak) address (deleteAccount address) := by
  apply (local_deleteCached address).bind
  intro _
  apply (local_accountsCached address).bind
  intro cached
  cases cached with
  | true => exact .pure ()
  | false => exact local_setTrieAccount address none

variable (hkeccak : AddressesApart keccak)
include hkeccak

theorem local_getStorageTrie (rootAccount : Account) :
    LocalTo (slice keccak) address (_getStorageTrie keccak address rootAccount) := by
  apply (local_heldTrie address).bind
  intro held
  cases held with
  | some storageTrie => exact .pure storageTrie
  | none => exact (local_holdTrie address hkeccak _).bind fun _ => .pure _

theorem local_writeContractStorage (account : Account) (key : StorageKey) (value : Bytes) :
    LocalTo (slice keccak) address (_writeContractStorage keccak address account key value) := by
  apply (local_getStorageTrie address hkeccak account).bind
  intro storageTrie
  exact (local_holdTrie address hkeccak _).bind fun _ => local_putAccount address _

omit hkeccak in
theorem slice_getStorageTrie (account : Account) (s : MerkleStateManager) :
    (_getStorageTrie keccak address account s).1 =
        (slice keccak s address).held.getD account.storageRoot ∧
      slice keccak (_getStorageTrie keccak address account s).2 address =
        { slice keccak s address with
          held := some ((slice keccak s address).held.getD account.storageRoot) } := by
  cases hheld : (slice keccak s address).held with
  | none =>
    have hrun : _getStorageTrie keccak address account s =
      (account.storageRoot, (holdTrie keccak address account.storageRoot s).2) :=
      bind_of_result (p := heldTrie keccak address) _ hheld
    rw [hrun]
    exact ⟨rfl, slice_holdTrie address account.storageRoot s⟩
  | some storageTrie =>
    have hrun : _getStorageTrie keccak address account s = (storageTrie, s) :=
      bind_of_result (p := heldTrie keccak address) _ hheld
    rw [hrun]
    refine ⟨rfl, ?_⟩
    change slice keccak s address = _
    rw [getD_some, ← hheld]

omit hkeccak in
/-- The trie that is held is modified, and the account gets its root. -/
theorem slice_modifyContractStorage (account : Account) (modifyTrie : Storage → Storage)
    (s : MerkleStateManager) {trie : Storage}
    (htrie : (slice keccak s address).held.getD account.storageRoot = trie) :
    slice keccak (_modifyContractStorage keccak address account modifyTrie s).2 address =
      { slice keccak s address with held := some (modifyTrie trie) }.withAccount
        (some { account with storageRoot := modifyTrie trie }) := by
  obtain ⟨hresult, hslice⟩ := slice_getStorageTrie address account s
  rw [htrie] at hresult hslice
  have hrun : _modifyContractStorage keccak address account modifyTrie s =
      putAccount address (some { account with
          storageRoot := modifyTrie (_getStorageTrie keccak address account s).1 })
        (holdTrie keccak address (modifyTrie (_getStorageTrie keccak address account s).1)
          (_getStorageTrie keccak address account s).2).2 := rfl
  rw [hrun, hresult, slice_putAccount, slice_holdTrie, hslice]

theorem local_putStorage (key : StorageKey) (value : Bytes) :
    LocalTo (slice keccak) address (putStorage keccak address key value) := by
  unfold putStorage
  split
  · exact .pure _
  · apply (local_getAccount address).bind
    intro account
    cases account with
    | none => exact .pure _
    | some account =>
      apply (local_cacheStorage address key _).bind
      intro _
      exact (local_writeContractStorage address hkeccak account key _).bind fun _ => .pure _

theorem local_writeStorageItem (item : Address × StorageKey × Option Bytes) :
    LocalTo (slice keccak) item.1 (writeStorageItem keccak item) := by
  apply (local_getAccount item.1).bind
  intro account
  cases account with
  | none => exact .pure ()
  | some account => exact local_writeContractStorage item.1 hkeccak account item.2.1 _

omit hkeccak

theorem local_writeCodeItem (item : Address × Option Bytes) :
    LocalTo (slice keccak) item.1 (writeCodeItem keccak item) := by
  unfold writeCodeItem
  split
  · exact .pure ()
  · apply (local_getAccount item.1).bind
    intro account
    cases account with
    | none => exact (local_putAccount item.1 _).bind fun _ => local_setCodeHash item.1 _
    | some account => exact local_setCodeHash item.1 _

theorem local_writeAccountItem (item : Address × Option Account) :
    LocalTo (slice keccak) item.1 (writeAccountItem item) :=
  local_setTrieAccount item.1 item.2

/-! ## Items of a flush -/

/-- The item of an address, if it has been changed. -/
def entryItems {ν : Type} (address : Address) (e : Option (Option ν) × Bool) : List (Address × Option ν) :=
  if e.2 then (e.1.map (address, ·)).toList else []

theorem filter_filterMap_own {ν : Type} (f : Address → Option ν) {keys : List Address}
    (hnodup : keys.Nodup) :
    ((keys.filterMap fun b => (f b).map (b, ·)).filter (·.1 = address)) =
      if address ∈ keys then ((f address).map (address, ·)).toList else [] := by
  induction keys with
  | nil => rfl
  | cons b keys ih =>
    have hcons := nodup_cons.mp hnodup
    have hrest := ih hcons.2
    rcases eq_or_ne b address with rfl | hb
    · rw [if_neg hcons.1] at hrest
      cases hf : f b with
      | none => simp [hf, hrest]
      | some v => simp [hf, hrest]
    · cases hf : f b with
      | none => simp [hf, hrest, hb.symm]
      | some v => simp [hf, hrest, hb, hb.symm]

theorem ItemCache.filter_items {ν : Type} (c : ItemCache ν) :
    c.items.filter (·.1 = address) = entryItems address (c.entry address) := by
  unfold items entryItems entry
  rw [filter_filterMap_own address c.elements.get c.changed.nodup_keys]
  have hmem : address ∈ c.changed.keys ↔ c.changed.has address = true := by
    rw [OrderedMap.mem_keys]
    exact isSome_iff_exists.symm
  simp only [hmem]

/-- The items of an address in the storage cache. -/
def storageItems (address : Address)
    (e : Option (OrderedMap StorageKey Bytes) × Option (OrderedMap StorageKey Unit)) :
    List (Address × StorageKey × Option Bytes) :=
  ((e.2.map OrderedMap.keys).getD []).map fun key => (address, key, e.1.bind (·.get key))

/-- Changed slots have a map that they are in. -/
def Mapped (e : Option (OrderedMap StorageKey Bytes) × Option (OrderedMap StorageKey Unit)) : Prop :=
  e.2.isSome = true → e.1.isSome = true

theorem filter_map_own {κ ν : Type} (b : Address) (f : κ → ν) (l : List κ) :
    (l.map fun x => (b, f x)).filter (·.1 = address) =
      if b = address then l.map fun x => (b, f x) else [] := by
  rw [List.filter_map]
  split
  · next h => simp [Function.comp_def, h]
  · next h => simp [Function.comp_def, h]

theorem itemsOf_filter {elements : OrderedMap Address (OrderedMap StorageKey Bytes)}
    {diffs : List (Address × OrderedMap StorageKey Unit)} (hnodup : (diffs.map Prod.fst).Nodup)
    {items : List (Address × StorageKey × Option Bytes)}
    (h : itemsOf elements diffs = .ok items) : items.filter (·.1 = address) =
      storageItems address (elements.get address, OrderedMap.find address diffs) := by
  induction diffs generalizing items with
  | nil =>
    obtain rfl := ok.inj h
    rfl
  | cons d diffs ih =>
    obtain ⟨b, keys⟩ := d
    have hcons := nodup_cons.mp hnodup
    unfold itemsOf at h
    split at h
    · cases h
    next storageMap hmap =>
    obtain ⟨rest, hrest, hitems⟩ := bind_eq_ok.mp h
    obtain rfl := ok.inj hitems
    have hfind : OrderedMap.find address ((b, keys) :: diffs) =
        if b = address then some keys else OrderedMap.find address diffs := rfl
    rw [filter_append, ih hcons.2 hrest, hfind, filter_map_own]
    rcases eq_or_ne b address with rfl | hb
    · have hnone : OrderedMap.find b diffs = none := find_eq_none.mpr hcons.1
      rw [if_pos rfl, if_pos rfl, hnone, hmap]
      exact append_nil _
    · rw [if_neg hb, if_neg hb]
      rfl

theorem StorageCache.filter_items {c : StorageCache} {items : List (Address × StorageKey × Option Bytes)}
    (h : c.items = .ok items) : items.filter (·.1 = address) = storageItems address (c.entry address) :=
  itemsOf_filter address c.changed.nodup h

theorem itemsOf_eq (elements : OrderedMap Address (OrderedMap StorageKey Bytes))
    (diffs : List (Address × OrderedMap StorageKey Unit)) :
    (∃ items, itemsOf elements diffs = .ok items ∧
      ∀ d ∈ diffs, (elements.get d.1).isSome = true) ∨ itemsOf elements diffs =
        .error "internal error: storage cache map for account should be defined" ∧
      ∃ d ∈ diffs, elements.get d.1 = none := by
  induction diffs with
  | nil => exact .inl ⟨[], rfl, fun d hd => nomatch hd⟩
  | cons d diffs ih =>
    unfold itemsOf
    cases hmap : elements.get d.1 with
    | none => exact .inr ⟨rfl, d, mem_cons_self, hmap⟩
    | some storageMap =>
      rcases ih with ⟨items, hitems, hall⟩ | ⟨herror, d', hd', hnone⟩
      · rw [hitems]
        refine .inl ⟨_, rfl, ?_⟩
        intro d' hd'
        rcases mem_cons.mp hd' with rfl | hrest
        · rw [hmap]
          rfl
        · exact hall d' hrest
      · rw [herror]
        exact .inr ⟨rfl, d', mem_cons_of_mem d hd', hnone⟩

/-! ## What a flush does to a slice -/

section Flush

variable (s : MerkleStateManager)

theorem slice_flushCode : slice keccak (flushCode s).2 address = { slice keccak s address with
      code := (slice keccak s address).code.map fun e => (e.1, false) } := by
  unfold slice flushCode
  cases s._caches.code <;> rfl

theorem filter_flushCode : (flushCode s).1.filter (·.1 = address) =
    ((slice keccak s address).code.map (entryItems address)).getD [] := by
  unfold slice flushCode
  cases s._caches.code with
  | none => rfl
  | some c => exact c.filter_items address

theorem slice_flushAccounts : slice keccak (flushAccounts s).2 address =
    { slice keccak s address with
      account := (slice keccak s address).account.map fun e => (e.1, false) } := by
  unfold slice flushAccounts
  cases s._caches.account <;> rfl

theorem filter_flushAccounts : (flushAccounts s).1.filter (·.1 = address) =
    ((slice keccak s address).account.map (entryItems address)).getD [] := by
  unfold slice flushAccounts
  cases s._caches.account with
  | none => rfl
  | some c => exact c.filter_items address

variable {s}

theorem flushStorage_fst (s : MerkleStateManager) :
    (flushStorage s).1 = (s._caches.storage.map StorageCache.items).getD (.ok []) := by
  unfold flushStorage
  split <;> next h => exact h.symm

theorem slice_flushStorage {items : List (Address × StorageKey × Option Bytes)}
    (h : (flushStorage s).1 = .ok items) : slice keccak (flushStorage s).2 address =
      { slice keccak s address with
        storage := (slice keccak s address).storage.map fun e => (e.1, none) } := by
  rw [flushStorage_fst] at h
  unfold flushStorage
  rw [h]
  unfold slice
  cases s._caches.storage <;> rfl

theorem filter_flushStorage {items : List (Address × StorageKey × Option Bytes)}
    (h : (flushStorage s).1 = .ok items) : items.filter (·.1 = address) =
      ((slice keccak s address).storage.map (storageItems address)).getD [] := by
  rw [flushStorage_fst] at h
  unfold slice
  cases hcache : s._caches.storage with
  | none =>
    rw [hcache] at h
    obtain rfl := ok.inj h
    rfl
  | some c =>
    rw [hcache] at h
    exact c.filter_items address h

/-- The storage is written where every changed slot has its map. -/
theorem flushStorage_eq (keccak : Bytes → Bytes) (s : MerkleStateManager) :
    (∃ items, (flushStorage s).1 = .ok items ∧
      ∀ b, ∀ e, (slice keccak s b).storage = some e → Mapped e) ∨
    (flushStorage s).1 = .error "internal error: storage cache map for account should be defined" ∧
      ∃ b e, (slice keccak s b).storage = some e ∧ ¬Mapped e := by
  rw [flushStorage_fst]
  unfold slice
  cases s._caches.storage with
  | none => exact .inl ⟨[], rfl, fun _ _ h => nomatch h⟩
  | some c =>
    rcases itemsOf_eq c.elements c.changed.entries with ⟨items, hitems, hall⟩ | ⟨herror, d, hd, hnone⟩
    · refine .inl ⟨items, hitems, ?_⟩
      intro b e he hchanged
      obtain rfl := some.inj he
      obtain ⟨keys, hkeys⟩ := isSome_iff_exists.mp hchanged
      exact hall (b, keys) (mem_of_get hkeys)
    · refine .inr ⟨herror, d.1, _, rfl, ?_⟩
      intro hmapped
      have hget : c.changed.get d.1 = some d.2 := get_of_mem hd
      have hsome : (c.elements.get d.1).isSome = true :=
        hmapped (isSome_iff_exists.mpr ⟨d.2, hget⟩)
      rw [hnone] at hsome
      cases hsome

end Flush

end MerkleStateManager
