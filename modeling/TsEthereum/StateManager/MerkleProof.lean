-- SUMMARY: EIP-1186 proofs of accounts and storage slots: what their verification checks, and what an accepted proof says about the state.
import TsEthereum.MerkleTrie.HistoryIndependence
import TsEthereum.MerkleTrie.Proof
import TsEthereum.Tx.Bytes
import Mathlib.Data.List.TakeWhile

/-!
# Proofs of the state

`proof/merkle.ts`. The account proof and every storage proof is verified in a trie of
its own, with the hash of its first node as the root. The reported account is compared
with the proved one. The roots of the storage proofs are compared with nothing.
-/

open List Option Except Set

open Rlp (Item)
open Tx (unpadBytes)
open Nibbles

/-! ## BigInt of a string -/

/-- White space and line terminators. -/
def isStrWhiteSpace (c : Char) : Bool :=
  c.toNat ∈ [0x9, 0xA, 0xB, 0xC, 0xD, 0x20, 0xA0, 0x1680, 0x2028, 0x2029, 0x202F, 0x205F, 0x3000, 0xFEFF] ||
    (0x2000 ≤ c.toNat && c.toNat ≤ 0x200A)

def trimString (str : HexString) : HexString :=
  ((str.dropWhile isStrWhiteSpace).reverse.dropWhile isStrWhiteSpace).reverse

/-- One or more digits. -/
def digitsValue (radix : Nat) (digits : HexString) : Option Nat :=
  if digits = [] then none
  else digits.foldlM (fun n c => (hexValue c).bind (fun d =>
    if d < radix then some (radix * n + d) else none)) 0

/-- `BigInt(str)`. -/
def bigIntOfString (str : HexString) : Except String Int :=
  let value : Option Int :=
    match trimString str with
    | [] => some 0
    | '0' :: 'x' :: digits | '0' :: 'X' :: digits => (digitsValue 16 digits).map Int.ofNat
    | '0' :: 'o' :: digits | '0' :: 'O' :: digits => (digitsValue 8 digits).map Int.ofNat
    | '0' :: 'b' :: digits | '0' :: 'B' :: digits => (digitsValue 2 digits).map Int.ofNat
    | '+' :: digits => (digitsValue 10 digits).map Int.ofNat
    | '-' :: digits => (digitsValue 10 digits).map (fun n => -Int.ofNat n)
    | digits => (digitsValue 10 digits).map Int.ofNat
  let text := String.ofList str
  match value with
  | some n => .ok n
  | none => .error s!"Cannot convert {text} to a BigInt"

/-! ## Accounts from the trie -/

/-- `RLP.decode` of a value of a trie. An array is refused, unless it is empty. -/
def decodeTrieValue : Item → Except String Item
  | .bytes b => (Rlp.decode b).mapError Rlp.RlpError.message
  | .list [] => .ok (.bytes [])
  | .list _ => .error "toBytes: received unsupported type object"

/-- An account as it is decoded: only the length of a root is checked, so an array can stand
there. -/
structure DecodedAccount where
  nonce : Int
  balance : Int
  storageRoot : Item
  codeHash : Item
  deriving DecidableEq

/-- `bytesToBigInt` of an entry of an array. -/
def entryToBigInt : Option Item → Except String Int
  | some (.bytes b) => .ok (bytesToBigInt b)
  | some (.list _) => .error "Uint8Array expected"
  | none => .error "Uint8Array expected"

def createAccountFromBytesArray (values : List Item) : Except String DecodedAccount := do
  let nonce ← entryToBigInt values[0]?
  let balance ← entryToBigInt values[1]?
  -- the constructor has defaults for the two roots
  let storageRoot := values[2]?.getD (.bytes KECCAK256_RLP)
  let codeHash := values[3]?.getD (.bytes KECCAK256_NULL)
  Except.throwWhen (storageRoot.length ≠ 32) "storageRoot must have a length of 32"
  Except.throwWhen (codeHash.length ≠ 32) "codeHash must have a length of 32"
  return { nonce := nonce, balance := balance, storageRoot := storageRoot, codeHash := codeHash }

def createAccountFromRLP (serialized : Item) : Except String DecodedAccount :=
  match decodeTrieValue serialized with
  | .error e => .error e
  | .ok (.bytes _) => .error "Invalid serialized account input. Must be array"
  | .ok (.list values) => createAccountFromBytesArray values

/-! ## verifyMerkleStateProof -/

structure StorageProof where
  key : HexString
  proof : List HexString
  value : HexString

structure Proof where
  address : HexString
  balance : HexString
  codeHash : HexString
  nonce : HexString
  storageHash : HexString
  accountProof : List HexString
  storageProof : List StorageProof

namespace MerkleStateProof

open MPT

/-- `useKeyHashing: true`. -/
def trieOpts : MPTOpts := ⟨true, false⟩

/-- A reported account that is not in the trie has the values of an empty one. -/
def verifyEmpty (proof : Proof) : Except String Unit := do
  let nonce ← hexToBytes proof.nonce
  Except.throwWhen (unpadBytes nonce ≠ []) "Invalid proof provided: account is not empty (nonce is not zero)"
  let balance ← hexToBytes proof.balance
  Except.throwWhen (unpadBytes balance ≠ [])
    "Invalid proof provided: account is not empty (balance is not zero)"
  let storageHash ← hexToBytes proof.storageHash
  Except.throwWhen (storageHash ≠ KECCAK256_RLP)
    "Invalid proof provided: account is not empty (storageHash does not equal KECCAK256_RLP)"
  let codeHash ← hexToBytes proof.codeHash
  Except.throwWhen (codeHash ≠ KECCAK256_NULL)
    "Invalid proof provided: account is not empty (codeHash does not equal KECCAK256_NULL)"

/-- The reported account is the one of the trie. -/
def verifyReported (proof : Proof) (account : DecodedAccount) : Except String Unit := do
  let nonce ← bigIntOfString proof.nonce
  Except.throwWhen (account.nonce ≠ nonce) "Invalid proof provided: nonce does not match"
  let balance ← bigIntOfString proof.balance
  Except.throwWhen (account.balance ≠ balance) "Invalid proof provided: balance does not match"
  let storageHash ← hexToBytes proof.storageHash
  Except.throwWhen (account.storageRoot ≠ .bytes storageHash)
    "Invalid proof provided: storageHash does not match"
  let codeHash ← hexToBytes proof.codeHash
  Except.throwWhen (account.codeHash ≠ .bytes codeHash) "Invalid proof provided: codeHash does not match"

def verifyAccount (proof : Proof) : Option Item → Except String Unit
  | none => verifyEmpty proof
  | some value => do
    let account ← createAccountFromRLP value
    verifyReported proof account

/-- `setLengthLeft`, which asserts that it is given bytes; the text ends with what it was
given. -/
def setLengthLeftOf (msg : Item) (length : Nat) : Except String Bytes :=
  match msg with
  | .bytes b => .ok (setLengthLeft b length)
  | .list _ => .error "This method only supports Uint8Array but input was: "

variable (hash : Bytes → Bytes) (fuel : Nat)

/-- `verifyMerkleProof` with hashed keys. -/
def verifyKey (key : Bytes) (proof : List Bytes) : Except String (Option Item) :=
  (MPT.verifyMerkleProof hash fuel key proof trieOpts none).mapError MPTError.message

def mismatch (key : HexString) (reportedValue storageValue : Bytes) : String :=
  let key := String.ofList key
  let reported := String.ofList (bytesToHex reportedValue)
  let actual := String.ofList (bytesToHex storageValue)
  s!"Reported trie value does not match storage, key: {key}, reported: {reported}, actual: {actual}"

/-- One round over `storageProof`. -/
def verifyStorage (stProof : StorageProof) : Except String Unit := do
  let storageProof ← stProof.proof.mapM hexToBytes
  let value ← hexToBytes stProof.value
  let storageValue := setLengthLeft value 32
  let storageKey ← hexToBytes stProof.key
  let proofValue ← verifyKey hash fuel storageKey storageProof
  let decoded ← decodeTrieValue (proofValue.getD (.bytes []))
  let reportedValue ← setLengthLeftOf decoded 32
  Except.throwWhen (reportedValue ≠ storageValue) (mismatch stProof.key reportedValue storageValue)

def verifyMerkleStateProof (proof : Proof) : Except String Bool := do
  let key ← hexToBytes proof.address
  let accountProof ← proof.accountProof.mapM hexToBytes
  let value ← verifyKey hash fuel key accountProof
  verifyAccount proof value
  proof.storageProof.forM (verifyStorage hash fuel)
  return true

/-! ## States -/

/-- `putStorage(address, key, value)` on the storage trie, with a value that is not too long. -/
structure StorageWrite where
  key : Bytes
  value : Bytes
  length_key : key.length = 32
  length_value : value.length ≤ 32

theorem length_unpadBytes_le (b : Bytes) : (unpadBytes b).length ≤ b.length :=
  (dropWhile_sublist _).length_le

theorem length_encode_bytes {b : Bytes} (h : b.length ≤ 32) : (Rlp.encode (.bytes b)).length ≤ 34 := by
  have hlt : b.length < 256 ^ (0 + 1) := Nat.lt_of_le_of_lt h (by decide)
  have hle := Rlp.length_encodeBytes_le hlt
  have henc : Rlp.encode (.bytes b) = Rlp.encodeBytes b := rfl
  rw [henc]
  omega

/-- A zero value deletes the slot. -/
def StorageWrite.op (w : StorageWrite) : MPT.Op :=
  have hkey : w.key.length < 2 ^ 51 := by rw [w.length_key]; decide
  if unpadBytes w.value = [] then .del ⟨w.key, hkey⟩
  else
    .put ⟨w.key, hkey⟩ ⟨Rlp.encode (.bytes (unpadBytes w.value)), by
      have hle := length_encode_bytes ((length_unpadBytes_le w.value).trans w.length_value)
      exact Nat.lt_of_le_of_lt hle (by decide)⟩

/-- `getAccount` of a state manager without caches, in its account trie. -/
def getAccount (trie : MPT) (address : Bytes) : Except String (Option DecodedAccount) :=
  match trie.read hash address with
  | .error e => .error e.message
  | .ok none => .ok none
  | .ok (some rlp) => (createAccountFromRLP rlp).map some

/-- `getStorage` of a state manager without caches, in the storage trie. -/
def getStorage (trie : MPT) (key : Bytes) : Except String Item :=
  match trie.read hash key with
  | .error e => .error e.message
  | .ok value => decodeTrieValue (value.getD (.bytes []))

/-! ## What a proof reports -/

/-- The nodes that are spelt out. -/
def ShownNodes (nodes : List HexString) : Set Bytes := {n | ∃ hex ∈ nodes, hexToBytes hex = .ok n}

/-- The root is the hash of the first node. -/
def RootedAt (nodes : List HexString) (root : Bytes) : Prop :=
  ∃ first, nodes.head?.map hexToBytes = some (.ok first) ∧ hash first = root

def ReportsEmpty (proof : Proof) : Prop :=
  (∃ nonce, hexToBytes proof.nonce = .ok nonce ∧ bytesToBigInt nonce = 0) ∧
    (∃ balance, hexToBytes proof.balance = .ok balance ∧ bytesToBigInt balance = 0) ∧
    hexToBytes proof.storageHash = .ok KECCAK256_RLP ∧ hexToBytes proof.codeHash = .ok KECCAK256_NULL

def Reports (proof : Proof) (account : DecodedAccount) : Prop :=
  bigIntOfString proof.nonce = .ok account.nonce ∧ bigIntOfString proof.balance = .ok account.balance ∧
    (∃ storageHash, hexToBytes proof.storageHash = .ok storageHash ∧
      account.storageRoot = .bytes storageHash) ∧
    ∃ codeHash, hexToBytes proof.codeHash = .ok codeHash ∧ account.codeHash = .bytes codeHash

/-- The account in the trie is the reported one, or there is none and the empty one is
reported. -/
def AccountAsReported (trie : MPT) (proof : Proof) : Prop :=
  ∃ address account, hexToBytes proof.address = .ok address ∧
    getAccount hash trie address = .ok account ∧
    match account with
    | none => ReportsEmpty proof
    | some account => Reports proof account

/-- The slot in the trie has the reported value, as numbers. -/
def SlotAsReported (trie : MPT) (stProof : StorageProof) : Prop :=
  ∃ key value slot, hexToBytes stProof.key = .ok key ∧ hexToBytes stProof.value = .ok value ∧
    getStorage hash trie key = .ok (.bytes slot) ∧ bytesToBigInt slot = bytesToBigInt value

/-- The state whose account trie has the proof's root has the reported account. -/
def AccountSound (proof : Proof) : Prop :=
  ∀ (writes : List MPT.Op) (trie : MPT), (∀ op ∈ writes, op.key.val.length = 20) →
    MPT.run hash trieOpts writes = .ok trie → RootedAt hash proof.accountProof trie._root →
    Set.InjOn hash (MPT.occurring hash trieOpts writes ∪ ShownNodes proof.accountProof) →
    AccountAsReported hash trie proof

/-- The storage trie that the account is reported to have has the reported slot. -/
def SlotSound (proof : Proof) (stProof : StorageProof) : Prop :=
  ∀ (writes : List StorageWrite) (trie : MPT),
    MPT.run hash trieOpts (writes.map StorageWrite.op) = .ok trie →
    hexToBytes proof.storageHash = .ok trie._root →
    Set.InjOn hash (MPT.occurring hash trieOpts (writes.map StorageWrite.op) ∪ ShownNodes stProof.proof) →
    SlotAsReported hash trie stProof

/-- The storage proof starts at the reported root. -/
def Linked (proof : Proof) (stProof : StorageProof) : Prop :=
  ∃ root, hexToBytes proof.storageHash = .ok root ∧ RootedAt hash stProof.proof root

/-- The reported value fits into a slot. -/
def Fits (stProof : StorageProof) : Prop :=
  ∃ value, hexToBytes stProof.value = .ok value ∧ bytesToBigInt value < 256 ^ 32

/-! ## Accepted keys -/

section Accepted

variable {hash} {fuel}

/-- Hex strings that are all read spell their bytes in order. -/
theorem mapM_hexToBytes_eq_ok {nodes : List HexString} {proof : List Bytes}
    (h : nodes.mapM hexToBytes = .ok proof) :
    nodes.head?.map hexToBytes = proof.head?.map Except.ok ∧ {n | n ∈ proof} ⊆ ShownNodes nodes := by
  induction nodes generalizing proof with
  | nil =>
    cases h
    exact ⟨rfl, fun n hn => absurd hn not_mem_nil⟩
  | cons hex nodes ih =>
    simp only [mapM_cons, bind_eq_ok, pure_eq_ok] at h
    obtain ⟨n, hn, rest, hrest, rfl⟩ := h
    refine ⟨congrArg some hn, fun m hm => ?_⟩
    rcases mem_cons.mp hm with rfl | hm
    · exact ⟨hex, mem_cons_self, hn⟩
    · obtain ⟨hex', hmem, hread⟩ := (ih hrest).2 hm
      exact ⟨hex', mem_cons_of_mem _ hmem, hread⟩

theorem verifyKey_eq_ok {key : Bytes} {proof : List Bytes} {v : Option Item} :
    verifyKey hash fuel key proof = .ok v ↔
      verifyMerkleProof hash fuel key proof trieOpts none = .ok v :=
  mapError_eq_ok

variable {trie : MPT}

/-- An accepted value is that of every trie with the hash of the first node as its root. -/
theorem read_of_verifyKey (hlen : ∀ m, (hash m).length = 32) {nodes : List HexString}
    {proof : List Bytes} (hnodes : nodes.mapM hexToBytes = .ok proof) {key : Bytes}
    {v : Option Item} (h : verifyKey hash fuel key proof = .ok v) {n : Nat} {ops : List MPT.Op}
    (hkeys : ∀ op ∈ ops, op.key.val.length = n) (hrun : MPT.run hash trieOpts ops = .ok trie)
    (hroot : RootedAt hash nodes trie._root)
    (hinj : Set.InjOn hash (occurring hash trieOpts ops ∪ ShownNodes nodes)) :
    trie.read hash key = .ok v := by
  obtain ⟨hhead, hshown⟩ := mapM_hexToBytes_eq_ok hnodes
  obtain ⟨first, hfirst, hhash⟩ := hroot
  rw [hhead] at hfirst
  obtain ⟨s, hrun', hgood, hopts⟩ := run_good_uniform hlen hkeys (fun hprune => absurd hprune (by decide))
    (hinj.mono subset_union_left)
  obtain rfl := ok.inj (hrun'.symm.trans hrun)
  cases proof with
  | nil => cases hfirst
  | cons m proof =>
    obtain rfl : m = first := ok.inj (some.inj hfirst)
    -- with a first node, verifying without a root is verifying against its hash
    have hverify := verifyKey_eq_ok.mp h
    rw [verifyMerkleProof_unrooted hlen, hhash, ← hopts] at hverify
    refine verify_sound hlen hgood (hinj.mono ?_) hverify
    apply union_subset_union
    · intro w hw
      exact ⟨ops, s, prefix_refl _, hrun', hw⟩
    · exact hshown

variable {proof : Proof}

theorem verifyMerkleStateProof_eq_ok : verifyMerkleStateProof hash fuel proof = .ok true ↔
      ∃ key, hexToBytes proof.address = .ok key ∧ ∃ accountProof,
        proof.accountProof.mapM hexToBytes = .ok accountProof ∧ ∃ value,
        verifyKey hash fuel key accountProof = .ok value ∧ verifyAccount proof value = .ok () ∧
        ∀ stProof ∈ proof.storageProof, verifyStorage hash fuel stProof = .ok () := by
  simp only [verifyMerkleStateProof, bind_eq_ok, pure_eq_ok]
  constructor
  · rintro ⟨key, hkey, nodes, hnodes, value, hvalue, ⟨⟩, haccount, ⟨⟩, hstorage, -⟩
    exact ⟨key, hkey, nodes, hnodes, value, hvalue, haccount, forM_eq_ok.mp hstorage⟩
  · rintro ⟨key, hkey, nodes, hnodes, value, hvalue, haccount, hstorage⟩
    exact ⟨key, hkey, nodes, hnodes, value, hvalue, (), haccount, (), forM_eq_ok.mpr hstorage, trivial⟩

/-! ## The account -/

theorem bytesToBigInt_of_unpadBytes_eq_nil {b : Bytes} (h : unpadBytes b = []) : bytesToBigInt b = 0 := by
  unfold unpadBytes at h
  rw [dropWhile_eq_nil_iff] at h
  unfold bytesToBigInt
  induction b with
  | nil => rfl
  | cons x b ih =>
    obtain rfl : x = 0 := beq_iff_eq.mp (h x mem_cons_self)
    exact ih (fun y hy => h y (mem_cons_of_mem _ hy))

theorem reportsEmpty_of_verifyEmpty (h : verifyEmpty proof = .ok ()) : ReportsEmpty proof := by
  simp only [verifyEmpty, bind_eq_ok, throwWhen_eq_ok, not_not] at h
  obtain ⟨nonce, hnonce, ⟨⟩, hzero, balance, hbalance, ⟨⟩, hzero', _, hroot, ⟨⟩, rfl, _, hcode, rfl⟩ := h
  exact ⟨⟨nonce, hnonce, bytesToBigInt_of_unpadBytes_eq_nil hzero⟩,
    ⟨balance, hbalance, bytesToBigInt_of_unpadBytes_eq_nil hzero'⟩, hroot, hcode⟩

theorem reports_of_verifyReported {account : DecodedAccount}
    (h : verifyReported proof account = .ok ()) : Reports proof account := by
  simp only [verifyReported, bind_eq_ok, throwWhen_eq_ok, not_not] at h
  obtain ⟨_, hnonce, ⟨⟩, rfl, _, hbalance, ⟨⟩, rfl, root, hroot, ⟨⟩, hroot', code, hcode, hcode'⟩ := h
  exact ⟨hnonce, hbalance, ⟨root, hroot, hroot'⟩, ⟨code, hcode, hcode'⟩⟩

/-- An accepted proof reports the account of every state with its root. -/
theorem accountSound (hlen : ∀ m, (hash m).length = 32)
    (h : verifyMerkleStateProof hash fuel proof = .ok true) : AccountSound hash proof := by
  obtain ⟨address, haddress, nodes, hnodes, value, hvalue, haccount, -⟩ := verifyMerkleStateProof_eq_ok.mp h
  intro writes trie hkeys hrun hroot hinj
  have hread := read_of_verifyKey hlen hnodes hvalue hkeys hrun hroot hinj
  cases value with
  | none =>
    refine ⟨address, none, haddress, ?_, reportsEmpty_of_verifyEmpty haccount⟩
    simp only [getAccount, hread]
  | some rlp =>
    obtain ⟨account, hdecoded, hreported⟩ := bind_eq_ok.mp haccount
    refine ⟨address, some account, haddress, ?_, reports_of_verifyReported hreported⟩
    simp only [getAccount, hread, hdecoded]
    rfl

/-! ## The slots -/

variable {stProof : StorageProof}

theorem verifyStorage_eq_ok :
    verifyStorage hash fuel stProof = .ok () ↔ ∃ nodes, stProof.proof.mapM hexToBytes = .ok nodes ∧
      ∃ value, hexToBytes stProof.value = .ok value ∧ ∃ key, hexToBytes stProof.key = .ok key ∧
      ∃ proofValue, verifyKey hash fuel key nodes = .ok proofValue ∧
      ∃ slot, decodeTrieValue (proofValue.getD (.bytes [])) = .ok (.bytes slot) ∧
        setLengthLeft slot 32 = setLengthLeft value 32 := by
  have hset (msg : Item) (b : Bytes) :
      setLengthLeftOf msg 32 = .ok b ↔ ∃ slot, msg = .bytes slot ∧ setLengthLeft slot 32 = b := by
    cases msg with
    | bytes slot => simp [setLengthLeftOf]
    | list l => simp [setLengthLeftOf]
  simp only [verifyStorage, bind_eq_ok, throwWhen_eq_ok, not_not, hset]
  constructor
  · rintro ⟨nodes, hnodes, value, hvalue, key, hkey, pv, hpv, _, hdec, _, ⟨slot, rfl, rfl⟩, heq⟩
    exact ⟨nodes, hnodes, value, hvalue, key, hkey, pv, hpv, slot, hdec, heq⟩
  · rintro ⟨nodes, hnodes, value, hvalue, key, hkey, pv, hpv, slot, hdec, heq⟩
    exact ⟨nodes, hnodes, value, hvalue, key, hkey, pv, hpv, _, hdec, _, ⟨slot, rfl, rfl⟩, heq⟩

theorem StorageWrite.length_key_op (w : StorageWrite) : w.op.key.val.length = 32 := by
  unfold StorageWrite.op
  split
  · exact w.length_key
  · exact w.length_key

/-- What a write leaves is the encoding of a short value. -/
theorem StorageWrite.value_op {w : StorageWrite} {v : Bytes} (h : w.op.value = some v) :
    ∃ b : Bytes, b.length ≤ 32 ∧ v = Rlp.encode (.bytes b) := by
  unfold StorageWrite.op at h
  split at h
  · cases h
  · simp only [MPT.Op.value] at h
    split at h
    · cases h
    · exact ⟨_, (length_unpadBytes_le w.value).trans w.length_value, (some.inj h).symm⟩

/-- A slot that can be read has at most 32 bytes. -/
theorem getStorage_bytes (hlen : ∀ m, (hash m).length = 32) {writes : List StorageWrite}
    (hrun : MPT.run hash trieOpts (writes.map StorageWrite.op) = .ok trie)
    (hinj : Set.InjOn hash (occurring hash trieOpts (writes.map StorageWrite.op))) (key : Bytes) :
     ∃ slot : Bytes, getStorage hash trie key = .ok (.bytes slot) ∧ slot.length ≤ 32 := by
  have hkeys : ∀ op ∈ writes.map StorageWrite.op, op.key.val.length = 32 := by
    intro op hop
    obtain ⟨w, -, rfl⟩ := mem_map.mp hop
    exact w.length_key_op
  obtain ⟨s, hrun', hgood, hopts⟩ := run_good_uniform hlen hkeys
    (fun hprune => absurd hprune (by decide)) hinj
  obtain rfl := ok.inj (hrun'.symm.trans hrun)
  obtain ⟨hroot, hclean⟩ := uniform_steps hlen trieOpts hkeys
  have hread := read_spec hlen hgood key
  cases hlookup : PatriciaTree.lookup (treeOf hash trieOpts (writes.map StorageWrite.op))
      (keyNibbles hash s._opts key) with
  | none =>
    rw [hlookup] at hread
    refine ⟨[], ?_, Nat.zero_le _⟩
    simp only [getStorage, hread]
    rfl
  | some v =>
    rw [hlookup] at hread
    obtain ⟨op, hop, -, hvalue⟩ := written_of_lookup_treeOf hroot hclean hlookup
    obtain ⟨w, -, rfl⟩ := mem_map.mp hop
    obtain ⟨b, hb, rfl⟩ := w.value_op hvalue
    refine ⟨b, ?_, hb⟩
    have hshort : (Rlp.encode (.bytes b)).length < 2 ^ 53 :=
      Nat.lt_of_le_of_lt (length_encode_bytes hb) (by decide)
    simp only [getStorage, hread, map_some, getD_some, decodeTrieValue,
      Rlp.decode_encode hshort]
    rfl

/-- Where an accepted storage proof starts at the root of a storage trie, the slot has the
reported value exactly if that value fits. -/
theorem slotAsReported_iff (hlen : ∀ m, (hash m).length = 32)
    (h : verifyStorage hash fuel stProof = .ok ()) {writes : List StorageWrite}
    (hrun : MPT.run hash trieOpts (writes.map StorageWrite.op) = .ok trie)
    (hroot : RootedAt hash stProof.proof trie._root)
    (hinj : Set.InjOn hash (occurring hash trieOpts (writes.map StorageWrite.op) ∪
      ShownNodes stProof.proof)) : SlotAsReported hash trie stProof ↔ Fits stProof := by
  obtain ⟨nodes, hnodes, value, hvalue, key, hkey, proofValue, hproved, slot, hdecoded, hset⟩ :=
    verifyStorage_eq_ok.mp h
  have hkeys : ∀ op ∈ writes.map StorageWrite.op, op.key.val.length = 32 := by
    intro op hop
    obtain ⟨w, -, rfl⟩ := mem_map.mp hop
    exact w.length_key_op
  have hread := read_of_verifyKey hlen hnodes hproved hkeys hrun hroot hinj
  have hslot : getStorage hash trie key = .ok (.bytes slot) := by
    simp only [getStorage, hread, hdecoded]
  have hshort : slot.length ≤ 32 := by
    obtain ⟨slot', hslot', hle⟩ := getStorage_bytes hlen hrun (hinj.mono subset_union_left) key
    obtain rfl := Item.bytes.inj (ok.inj (hslot'.symm.trans hslot))
    exact hle
  have hbound : bytesToBigInt slot < 256 ^ 32 :=
    (bytesToBigInt_bounds slot).2.trans_le (pow_le_pow_right₀ (by decide) hshort)
  -- both sides were cut to 32 bytes, which the slot has anyway
  have hmod : bytesToBigInt slot = bytesToBigInt value % 256 ^ 32 := by
    have hcut := congrArg bytesToBigInt hset
    rw [bytesToBigInt_setLengthLeft, bytesToBigInt_setLengthLeft,
      Int.emod_eq_of_lt (bytesToBigInt_bounds slot).1 hbound] at hcut
    exact hcut
  constructor
  · rintro ⟨key', value', slot', hkey', hvalue', hslot', heq⟩
    obtain rfl := ok.inj (hkey'.symm.trans hkey)
    obtain rfl := Item.bytes.inj (ok.inj (hslot'.symm.trans hslot))
    exact ⟨value', hvalue', heq ▸ hbound⟩
  · rintro ⟨value', hvalue', hlt⟩
    obtain rfl := ok.inj (hvalue'.symm.trans hvalue)
    rw [Int.emod_eq_of_lt (bytesToBigInt_bounds value').1 hlt] at hmod
    exact ⟨key, value', slot, hkey, hvalue', hslot, hmod⟩

/-! ## Storage proofs that start elsewhere -/

/-- The storage proof from a trie in which only the key is set. -/
def forgedProof (hash : Bytes → Bytes) (key value : Bytes) : StorageProof where
  key := bytesToHex key
  proof := [bytesToHex (MPTNode.leaf (bytesToNibbles (hash key))
    (.bytes (Rlp.encode (.bytes value)))).serialize]
  value := bytesToHex value

theorem verifyStorage_forgedProof (hlen : ∀ m, (hash m).length = 32) (key : Bytes) {value : Bytes}
    (hvalue : value.length ≤ 32) : verifyStorage hash (fuel + 1) (forgedProof hash key value) = .ok () := by
  have hshort := length_encode_bytes hvalue
  have hleaf := verify_leaf hlen fuel key (Rlp.encode (.bytes value))
    (Nat.lt_of_le_of_lt hshort (by decide))
  have hdecode : Rlp.decode (Rlp.encode (.bytes value)) = .ok (.bytes value) :=
    Rlp.decode_encode (Nat.lt_of_le_of_lt hshort (by decide))
  refine verifyStorage_eq_ok.mpr ⟨[_], ?_, value, hexToBytes_bytesToHex _, key,
    hexToBytes_bytesToHex _, _, verifyKey_eq_ok.mpr hleaf, value, ?_, rfl⟩
  · simp only [forgedProof, mapM_cons, mapM_nil, hexToBytes_bytesToHex]
    rfl
  · simp only [getD_some, decodeTrieValue, hdecode]
    rfl

section

variable (h : verifyMerkleStateProof hash fuel proof = .ok true)
include h

/-- A proof is still accepted with one more storage proof that is. -/
theorem verifyMerkleStateProof_append (hst : verifyStorage hash fuel stProof = .ok ()) :
    verifyMerkleStateProof hash fuel { proof with storageProof := proof.storageProof ++ [stProof] } =
      .ok true := by
  obtain ⟨address, haddress, nodes, hnodes, value, hvalue, haccount, hstorage⟩ :=
    verifyMerkleStateProof_eq_ok.mp h
  refine verifyMerkleStateProof_eq_ok.mpr ⟨address, haddress, nodes, hnodes, value, hvalue, ?_, ?_⟩
  · cases value with
    | none => exact haccount
    | some rlp => exact haccount
  · intro st hmem
    rcases mem_append.mp hmem with hmem | hmem
    · exact hstorage st hmem
    · obtain rfl := mem_singleton.mp hmem
      exact hst

theorem fuel_of_accepted : ∃ n, fuel = n + 1 := by
  cases fuel with
  | succ n => exact ⟨n, rfl⟩
  | zero =>
    obtain ⟨address, -, nodes, -, value, hvalue, -⟩ := verifyMerkleStateProof_eq_ok.mp h
    have hverify := verifyKey_eq_ok.mp hvalue
    unfold verifyMerkleProof at hverify
    cases hcreate : createMPTFromProof hash nodes trieOpts none with
    | error e => rw [hcreate] at hverify; cases hverify
    | ok trie => rw [hcreate] at hverify; cases hverify

end

/-- To every accepted proof a value can be added that the storage trie does not have. -/
theorem exists_forged (hlen : ∀ m, (hash m).length = 32)
    (h : verifyMerkleStateProof hash fuel proof = .ok true) (trie : MPT) (key : Bytes) :
    ∃ stProof, hexToBytes stProof.key = .ok key ∧ Fits stProof ∧
      verifyMerkleStateProof hash fuel { proof with storageProof := proof.storageProof ++ [stProof] } =
        .ok true ∧ ¬SlotAsReported hash trie stProof := by
  obtain ⟨n, rfl⟩ := fuel_of_accepted h
  have hforged (value : Bytes) (hvalue : value.length ≤ 32) :
      hexToBytes (forgedProof hash key value).key = .ok key ∧ Fits (forgedProof hash key value) ∧
        verifyMerkleStateProof hash (n + 1)
          { proof with storageProof := proof.storageProof ++ [forgedProof hash key value] } = .ok true := by
    refine ⟨hexToBytes_bytesToHex _, ⟨value, hexToBytes_bytesToHex _, ?_⟩,
      verifyMerkleStateProof_append h (verifyStorage_forgedProof hlen key hvalue)⟩
    exact (bytesToBigInt_bounds value).2.trans_le (pow_le_pow_right₀ (by decide) hvalue)
  -- the slot cannot have both of two values
  by_cases hone : SlotAsReported hash trie (forgedProof hash key [1])
  · obtain ⟨hkey, hfits, haccepted⟩ := hforged [2] (by decide)
    refine ⟨_, hkey, hfits, haccepted, ?_⟩
    rintro ⟨key₂, value₂, slot₂, hkey₂, hvalue₂, hslot₂, heq₂⟩
    obtain ⟨key₁, value₁, slot₁, hkey₁, hvalue₁, hslot₁, heq₁⟩ := hone
    obtain rfl := ok.inj (hkey₁.symm.trans hkey₂)
    obtain rfl := Item.bytes.inj (ok.inj (hslot₁.symm.trans hslot₂))
    have h₁ := ok.inj (hvalue₁.symm.trans (hexToBytes_bytesToHex [1]))
    have h₂ := ok.inj (hvalue₂.symm.trans (hexToBytes_bytesToHex [2]))
    rw [h₁] at heq₁
    rw [h₂, heq₁] at heq₂
    exact absurd heq₂ (by decide)
  · obtain ⟨hkey, hfits, haccepted⟩ := hforged [1] (by decide)
    exact ⟨_, hkey, hfits, haccepted, hone⟩

/-- An accepted proof reports the account of the state. It reports a slot of the storage
trie where the storage proof starts at the reported root and the value fits; without the
first, a wrong value is accepted for any key. -/
theorem verifyMerkleStateProof_sound (hlen : ∀ m, (hash m).length = 32) {proof : Proof}
    (h : verifyMerkleStateProof hash fuel proof = .ok true) : AccountSound hash proof ∧
      (∀ stProof ∈ proof.storageProof, Linked hash proof stProof → Fits stProof →
        SlotSound hash proof stProof) ∧ ∀ (writes : List StorageWrite) (trie : MPT),
        MPT.run hash trieOpts (writes.map StorageWrite.op) = .ok trie →
        hexToBytes proof.storageHash = .ok trie._root →
        (∀ stProof ∈ proof.storageProof, Linked hash proof stProof →
          Set.InjOn hash (MPT.occurring hash trieOpts (writes.map StorageWrite.op) ∪
            ShownNodes stProof.proof) → (SlotAsReported hash trie stProof ↔ Fits stProof)) ∧
        ∀ key, ∃ stProof, hexToBytes stProof.key = .ok key ∧ Fits stProof ∧
          verifyMerkleStateProof hash fuel
            { proof with storageProof := proof.storageProof ++ [stProof] } = .ok true ∧
          ¬SlotAsReported hash trie stProof := by
  have hstorage : ∀ stProof ∈ proof.storageProof, verifyStorage hash fuel stProof = .ok () := by
    obtain ⟨_, -, _, -, _, -, -, hstorage⟩ := verifyMerkleStateProof_eq_ok.mp h
    exact hstorage
  have hlinked {stProof : StorageProof} {trie : MPT} (hl : Linked hash proof stProof)
      (hroot : hexToBytes proof.storageHash = .ok trie._root) :
      RootedAt hash stProof.proof trie._root := by
    obtain ⟨root, hroot', hrooted⟩ := hl
    obtain rfl := ok.inj (hroot'.symm.trans hroot)
    exact hrooted
  refine ⟨accountSound hlen h, ?_, ?_⟩
  · intro stProof hmem hl hfits writes trie hrun hroot hinj
    exact (slotAsReported_iff hlen (hstorage stProof hmem) hrun (hlinked hl hroot) hinj).mpr hfits
  · intro writes trie hrun hroot
    refine ⟨fun stProof hmem hl hinj => ?_, exists_forged hlen h trie⟩
    exact slotAsReported_iff hlen (hstorage stProof hmem) hrun (hlinked hl hroot) hinj

end Accepted

/-! ## A sample -/

section Sample

def sampleAddress : Bytes := List.replicate 20 0x11

def sampleKey : Bytes := List.replicate 32 0

def sampleKeyHash : Bytes := MPT.word 0x290decd9548b62a8d60345a988386fc84ba6bc95484008f6362f93160ef3e563

/-- The leaf of a storage trie with the value `v` under the sample key. -/
def sampleSlotLeaf (v : UInt8) : Bytes :=
  (MPTNode.leaf (bytesToNibbles sampleKeyHash) (.bytes (Rlp.encode (.bytes [v])))).serialize

def sampleStorageRoot : Bytes := MPT.word 0xa81d6253cfe982c46684c6f10f9e860e65959f04914b84358281b6cdef63a02d

/-- The leaf of the account with nonce 1 and balance 2. -/
def sampleAccountLeaf : Bytes :=
  (MPTNode.leaf
    (bytesToNibbles (MPT.word 0xe2c07404b8c1df4c46226425cac68c28d27a766bbddce62309f36724839b22c0))
    (.bytes (Rlp.encode (.list [.bytes [1], .bytes [2], .bytes sampleStorageRoot,
      .bytes KECCAK256_NULL])))).serialize

/-- Keccak-256 on what is hashed below. -/
def sampleTable : Bytes → Bytes := MPT.tableHash [
  ([0x80], 0x56e81f171bcc55a6ff8345e692c0f86e5b48e01b996cadc001622fb5e363b421),
  (sampleAddress, 0xe2c07404b8c1df4c46226425cac68c28d27a766bbddce62309f36724839b22c0),
  (sampleKey, 0x290decd9548b62a8d60345a988386fc84ba6bc95484008f6362f93160ef3e563),
  (sampleSlotLeaf 5, 0xa81d6253cfe982c46684c6f10f9e860e65959f04914b84358281b6cdef63a02d),
  (sampleSlotLeaf 6, 0x46346b3fc25bdbbdb12f0b1ab4d365499e1ec7e71cbd1b51e24aa4aad244bf6d),
  (sampleAccountLeaf, 0xc8abbcd0633122d6320b943bfe5afbe3bdd9b0d04c8922e3e00d1b860309c4c1)]

def sampleSlotProof (v : UInt8) : StorageProof where
  key := bytesToHex sampleKey
  proof := [bytesToHex (sampleSlotLeaf v)]
  value := bytesToHex [v]

/-- The account of the sample with the value `v` in its slot; the state has 5 there. -/
def sampleProof (v : UInt8) : Proof where
  address := bytesToHex sampleAddress
  balance := bytesToHex [2]
  codeHash := bytesToHex KECCAK256_NULL
  nonce := bytesToHex [1]
  storageHash := bytesToHex sampleStorageRoot
  accountProof := [bytesToHex sampleAccountLeaf]
  storageProof := [sampleSlotProof v]

def sampleWrites : List StorageWrite := [⟨sampleKey, [5], by decide, by decide⟩]

theorem verifyMerkleStateProof_sampleProof :
    verifyMerkleStateProof sampleTable 1 (sampleProof 5) = .ok true ∧
      verifyMerkleStateProof sampleTable 1 (sampleProof 6) = .ok true := by decide +kernel

theorem verifyMerkleStateProof_sound_sample : AccountSound sampleTable (sampleProof 5) ∧
    ∀ stProof ∈ (sampleProof 5).storageProof, Linked sampleTable (sampleProof 5) stProof →
      Fits stProof → SlotSound sampleTable (sampleProof 5) stProof := by
  have h := verifyMerkleStateProof_sound (length_tableHash _) verifyMerkleStateProof_sampleProof.1
  exact ⟨h.1, h.2.1⟩

/-- No two of the encodings that occur have one hash. -/
theorem sample_injOn : Set.InjOn sampleTable
    (occurring sampleTable trieOpts (sampleWrites.map StorageWrite.op) ∪
      ShownNodes (sampleSlotProof 6).proof) := by
  have hfree : (∀ journal ∈ journals sampleTable trieOpts (sampleWrites.map StorageWrite.op),
      ∀ op ∈ journal, op.isShort = true) ∧
      ∀ v ∈ sampleSlotLeaf 6 :: (journals sampleTable trieOpts
          (sampleWrites.map StorageWrite.op)).flatMap listEncodings,
        ∀ w ∈ sampleSlotLeaf 6 :: (journals sampleTable trieOpts
          (sampleWrites.map StorageWrite.op)).flatMap listEncodings,
        sampleTable v = sampleTable w → v = w := by decide +kernel
  have hmem {v : Bytes} (hv : v ∈ occurring sampleTable trieOpts (sampleWrites.map StorageWrite.op) ∪
      ShownNodes (sampleSlotProof 6).proof) : v ∈ sampleSlotLeaf 6 :: (journals sampleTable trieOpts
        (sampleWrites.map StorageWrite.op)).flatMap listEncodings := by
    rcases hv with hv | ⟨hex, hhex, hread⟩
    · exact mem_cons_of_mem _ (mem_listEncodings_of_occurring hfree.1 hv)
    · obtain rfl := mem_singleton.mp hhex
      rw [hexToBytes_bytesToHex] at hread
      exact ok.inj hread ▸ mem_cons_self
  intro v hv w hw hsame
  exact hfree.2 v (hmem hv) w (hmem hw) hsame

/-- The slot of the state is 5; the proof that it is 6 is accepted. -/
theorem wrong_slot_accepted : verifyMerkleStateProof sampleTable 1 (sampleProof 6) = .ok true ∧
      ¬∀ stProof ∈ (sampleProof 6).storageProof, SlotSound sampleTable (sampleProof 6) stProof := by
  refine ⟨verifyMerkleStateProof_sampleProof.2, fun hsound => ?_⟩
  have hrun : (MPT.run sampleTable trieOpts (sampleWrites.map StorageWrite.op)).toOption.map
      (fun trie => (trie._root, (getStorage sampleTable trie sampleKey).toOption)) =
        some (sampleStorageRoot, some (.bytes [5])) := by decide +kernel
  cases hok : MPT.run sampleTable trieOpts (sampleWrites.map StorageWrite.op) with
  | error e => rw [hok] at hrun; cases hrun
  | ok trie =>
    rw [hok] at hrun
    obtain ⟨hroot, hslot⟩ := Prod.mk.inj (some.inj hrun)
    have hstorage : getStorage sampleTable trie sampleKey = .ok (.bytes [5]) := by
      cases hget : getStorage sampleTable trie sampleKey with
      | error e => rw [hget] at hslot; cases hslot
      | ok x =>
        rw [hget] at hslot
        exact congrArg Except.ok (some.inj hslot)
    have hstorageHash : hexToBytes (sampleProof 6).storageHash = .ok trie._root := by
      rw [hroot]
      exact hexToBytes_bytesToHex _
    obtain ⟨key, value, slot, hkey, hvalue, hslot', heq⟩ :=
      hsound _ mem_cons_self sampleWrites trie hok hstorageHash sample_injOn
    obtain rfl := ok.inj (hkey.symm.trans (hexToBytes_bytesToHex _))
    obtain rfl := ok.inj (hvalue.symm.trans (hexToBytes_bytesToHex _))
    obtain rfl := Item.bytes.inj (ok.inj (hslot'.symm.trans hstorage))
    exact absurd heq (by decide)

end Sample

end MerkleStateProof
