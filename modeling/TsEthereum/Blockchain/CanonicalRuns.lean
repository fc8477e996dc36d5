-- SUMMARY: Over every run the index is one chain up to the head, and total difficulties add up.
import TsEthereum.Blockchain.CanonicalSteps

/-!
# Runs of the blockchain

A run is a series of calls that complete on a new chain. Next to the state it
keeps what has been put since the last call that may lower the head, and whether
the heads in the database are those in memory.
-/

open List Except

namespace Blockchain

variable {Hash : Type} [DecidableEq Hash] {opts : BlockchainOptions Hash}
  {tree : Set (BlockHeader Hash)} {genesis : BlockHeader Hash}

/-! ## Calls -/

inductive Call (Hash : Type) where
  /-- `putBlock` and `putHeader`. -/
  | put (item : ChainItem Hash)
  | putBlocks (blocks : List (ChainItem Hash))
  | delBlock (blockHash : Hash)
  | resetCanonicalHead (canonicalHead : Nat)
  | setIteratorHead (tag : String) (headHash : Hash)
  /-- `iterator`, where a callback has returned. -/
  | moveIteratorHead (name : String) (headHash : Hash)
  | saveHeads

def Call.run (opts : BlockchainOptions Hash) (s : Blockchain Hash) :
    Call Hash → Except ChainError (Blockchain Hash)
  | .put item => _putBlockOrHeader opts s item
  | .putBlocks blocks => Blockchain.putBlocks opts s blocks
  | .delBlock blockHash => Blockchain.delBlock opts s blockHash
  | .resetCanonicalHead canonicalHead => s.resetCanonicalHead canonicalHead
  | .setIteratorHead tag headHash => .ok (s.setIteratorHead tag headHash)
  | .moveIteratorHead name headHash => .ok { s with _heads := s._heads.set name headHash }
  | .saveHeads => .ok s._saveHeads

/-- The item is a validated block or header of the tree. -/
structure Validated (opts : BlockchainOptions Hash) (tree : Set (BlockHeader Hash))
    (s : Blockchain Hash) (item : ChainItem Hash) : Prop where
  mem : item.header ∈ tree
  valid : validateHeader opts s item.header = .ok ()

/-- Every block is validated when its turn comes. -/
def ValidatedBlocks (opts : BlockchainOptions Hash) (tree : Set (BlockHeader Hash))
    (s : Blockchain Hash) : List (ChainItem Hash) → Prop
  | [] => True
  | item :: blocks => Validated opts tree s item ∧
    ∀ s', _putBlockOrHeader opts s item = .ok s' → ValidatedBlocks opts tree s' blocks

/-- What is put is validated, and the genesis block is not deleted. -/
def Call.Valid (opts : BlockchainOptions Hash) (tree : Set (BlockHeader Hash))
    (genesis : BlockHeader Hash) (s : Blockchain Hash) : Call Hash → Prop
  | .put item => Validated opts tree s item
  | .putBlocks blocks => ValidatedBlocks opts tree s blocks
  | .delBlock blockHash => blockHash ≠ opts.hash genesis
  | _ => True

/-! ## Histories -/

structure History (Hash : Type) where
  /-- The headers put since the last deletion or reset, or from the last proof-of-stake item on. -/
  since : List (BlockHeader Hash)
  /-- No canonical block has been deleted since the heads were saved. -/
  saved : Bool

def History.put (hist : History Hash) (item : ChainItem Hash) : History Hash :=
  if item.header.number = 0 then { hist with since := item.header :: hist.since }
  else ⟨if item.proofOfStake then [item.header] else item.header :: hist.since, true⟩

def Call.record (s : Blockchain Hash) (hist : History Hash) : Call Hash → History Hash
  | .put item => hist.put item
  | .putBlocks blocks => blocks.foldl History.put hist
  | .delBlock blockHash => ⟨[], hist.saved && !s.isCanonical blockHash⟩
  | .resetCanonicalHead _ => ⟨[], true⟩
  | .setIteratorHead _ _ => { hist with saved := true }
  | .moveIteratorHead _ _ => { hist with saved := false }
  | .saveHeads => { hist with saved := true }

/-- The states that completed calls lead to. -/
inductive Run (opts : BlockchainOptions Hash) (tree : Set (BlockHeader Hash))
    (genesisBlock : Block Hash) : History Hash → Blockchain Hash → Prop
  | create : Run opts tree genesisBlock ⟨[], true⟩ (createBlockchain opts genesisBlock)
  | call {hist : History Hash} {s s' : Blockchain Hash} (c : Call Hash)
      (hrun : Run opts tree genesisBlock hist s)
      (hvalid : c.Valid opts tree genesisBlock.header s) (hstep : c.run opts s = .ok s') :
      Run opts tree genesisBlock (c.record s hist) s'

/-! ## What a put does -/

/-- Saved heads are the ones in memory. -/
theorem storedHeads_saved (t : Blockchain Hash) (db : ChainDB Hash) (ops : List (DBOp Hash)) :
    storedHeads opts { t with db := db.batch (ops ++ t._saveHeadOps) } =
      (t._heads, t._headHeaderHash, t._headBlockHash) := by
  rw [storedHeads, ChainDB.batch_append, batch_saveHeadOps]
  rfl

theorem storedHeads_saveHeads (s : Blockchain Hash) :
    storedHeads opts s._saveHeads = (s._heads, s._headHeaderHash, s._headBlockHash) :=
  storedHeads_saved s s.db []

variable {s s' : Blockchain Hash}

theorem storedHeads_reset {canonicalHead : Nat} (h : s.resetCanonicalHead canonicalHead = .ok s') :
    storedHeads opts s' = (s'._heads, s'._headHeaderHash, s'._headBlockHash) := by
  unfold resetCanonicalHead at h
  cases hx : s.db.numberToHash.get canonicalHead with
  | none => simp [hx] at h
  | some hash =>
    cases hheader : s.getHeader hash canonicalHead with
    | error e => simp [hx, hheader, bind, Except.bind] at h
    | ok header =>
      simp only [hx, hheader, bind, Except.bind] at h
      obtain rfl := ok.inj h
      exact storedHeads_saved _ _ _

variable {k : Nat} {header : BlockHeader Hash}

theorem StoredHeader.getTotalDifficulty_eq {x : Hash}
    (h : StoredHeader opts tree genesis s.db k x header) :
    ∃ td, s.getTotalDifficulty x = .ok td ∧ TotalDifficulty opts tree genesis header td := by
  obtain ⟨td, hget, htd⟩ := h.totalDifficulty
  refine ⟨td, ?_, htd⟩
  simp [getTotalDifficulty, Blockchain.hashToNumber, h.hashToNumber, getTotalDifficultyAt, hget, bind,
    Except.bind]

variable {n : Nat}

/-- The header of the head and its total difficulty. -/
theorem Canonical.head_stored (h : Canonical opts tree genesis s n) :
    ∃ top td, StoredHeader opts tree genesis s.db n s._headHeaderHash top ∧
      s.getTotalDifficulty s._headHeaderHash = .ok td ∧
      TotalDifficulty opts tree genesis top td := by
  obtain ⟨top, htop⟩ := h.stored n _ h.chain.top
  have hstored := h.headers n _ top htop
  obtain ⟨td, hget, htd⟩ := hstored.getTotalDifficulty_eq
  exact ⟨top, td, hstored, hget, htd⟩

/-- The item has been stored and the heads have been saved. It has become the head, or is no
heavier than the head. -/
structure Put (opts : BlockchainOptions Hash) (tree : Set (BlockHeader Hash))
    (genesis : BlockHeader Hash) (s s' : Blockchain Hash) (n : Nat) (item : ChainItem Hash)
    (td headTd : Nat) : Prop where
  tdHead : s.getTotalDifficulty s._headHeaderHash = .ok headTd
  tdItem : TotalDifficulty opts tree genesis item.header td
  header : s'.db.header =
    s.db.header.set (item.header.number, opts.hash item.header) item.header
  saved : storedHeads opts s' = (s'._heads, s'._headHeaderHash, s'._headBlockHash)
  outcome : ((td > headTd ∨ item.proofOfStake = true) ∧
      (∃ c, Adopted opts tree genesis s s' item.header c) ∧
      Canonical opts tree genesis s' item.header.number) ∨
    (td ≤ headTd ∧ item.proofOfStake = false ∧ Kept s s' ∧ Canonical opts tree genesis s' n)

variable {item : ChainItem Hash}

theorem Canonical.put (htree : ForkTree opts tree genesis) (h : Canonical opts tree genesis s n)
    (hvalid : Validated opts tree s item) (hpos : item.header.number ≠ 0)
    (hput : _putBlockOrHeader opts s item = .ok s') :
    ∃ td headTd, Put opts tree genesis s s' n item td headTd := by
  obtain ⟨headTd, t, ops, hhead, hs', hcases⟩ := put_cases hpos hput
  have htd := h.totalDifficulty_put hpos hvalid.valid
  have hsaved : storedHeads opts s' = (s'._heads, s'._headHeaderHash, s'._headBlockHash) := by
    rw [hs']
    exact storedHeads_saved t t.db _
  refine ⟨item.header.difficulty + s.getParentTD item.header, headTd, ?_⟩
  rcases hcases with ⟨hheavier, hadopt⟩ | ⟨hlighter, rfl, headBlock, ht⟩
  · obtain ⟨hadopted, hheader, hcanonical⟩ :=
      h.put_adopted htree hvalid.mem hpos hvalid.valid hadopt hs'
    exact ⟨hhead, htd, hheader, hsaved, .inl ⟨hheavier, hadopted, hcanonical⟩⟩
  · obtain ⟨hkept, hheader, hcanonical⟩ := h.put_kept htree hvalid.mem hpos hvalid.valid ht hs'
    obtain ⟨hle, hwork⟩ := not_or.mp hlighter
    exact ⟨hhead, htd, hheader, hsaved,
      .inr ⟨Nat.le_of_not_lt hle, Bool.eq_false_iff.mpr hwork, hkept, hcanonical⟩⟩

/-- The genesis block can be put again. -/
theorem Canonical.put_genesis (htree : ForkTree opts tree genesis)
    (h : Canonical opts tree genesis s n) (hmem : item.header ∈ tree)
    (hzero : item.header.number = 0) (hput : _putBlockOrHeader opts s item = .ok s') :
    s' = s ∧ item.header = genesis := by
  unfold _putBlockOrHeader at hput
  simp only [hzero, if_true, h.genesis] at hput
  split at hput
  · rename_i hhash
    exact ⟨(ok.inj hput).symm, (htree.hash_inj htree.root hmem hhash).symm⟩
  · cases hput

/-! ## The invariant of runs -/

/-- The header is stored and no heavier than the head. -/
def NotAbove (opts : BlockchainOptions Hash) (tree : Set (BlockHeader Hash))
    (genesis : BlockHeader Hash) (s : Blockchain Hash) (header : BlockHeader Hash) : Prop :=
  s.db.header.get (header.number, opts.hash header) = some header ∧
    ∃ td headTd, TotalDifficulty opts tree genesis header td ∧
      s.getTotalDifficulty s._headHeaderHash = .ok headTd ∧ td ≤ headTd

structure RunInvariant (opts : BlockchainOptions Hash) (tree : Set (BlockHeader Hash))
    (genesis : BlockHeader Hash) (hist : History Hash) (s : Blockchain Hash) : Prop where
  canonical : ∃ n, Canonical opts tree genesis s n
  notAbove : ∀ header ∈ hist.since, NotAbove opts tree genesis s header
  saved : hist.saved = true →
    storedHeads opts s = (s._heads, s._headHeaderHash, s._headBlockHash)

/-- The total difficulty of the head is that of its header. -/
theorem Canonical.head_td (htree : ForkTree opts tree genesis) (h : Canonical opts tree genesis s n)
    (hmem : header ∈ tree) (hhead : s._headHeaderHash = opts.hash header) {td : Nat}
    (htd : TotalDifficulty opts tree genesis header td) :
    s.getTotalDifficulty s._headHeaderHash = .ok td := by
  obtain ⟨top, td', hstored, hget, htd'⟩ := h.head_stored
  obtain rfl := htree.hash_inj hstored.mem hmem (hstored.hash.trans hhead)
  rw [hget, htree.totalDifficulty_unique htd' htd]

variable {hist : History Hash}

theorem RunInvariant.put (htree : ForkTree opts tree genesis)
    (h : RunInvariant opts tree genesis hist s) (hvalid : Validated opts tree s item)
    (hput : _putBlockOrHeader opts s item = .ok s') :
    RunInvariant opts tree genesis (hist.put item) s' := by
  obtain ⟨n, hn⟩ := h.canonical
  unfold History.put
  by_cases hzero : item.header.number = 0
  · obtain ⟨rfl, hgenesis⟩ := hn.put_genesis htree hvalid.mem hzero hput
    rw [if_pos hzero]
    refine ⟨h.canonical, ?_, h.saved⟩
    intro header hheader
    rcases mem_cons.mp hheader with rfl | hold
    · -- the genesis block is the lightest of all
      obtain ⟨root, hroot⟩ := hn.stored 0 _ hn.chain.root
      obtain rfl := (hn.headers 0 _ root hroot).root rfl
      obtain ⟨top, headTd, -, hget, htop⟩ := hn.head_stored
      refine ⟨?_, _, headTd, hgenesis ▸ .genesis, hget, hgenesis ▸ difficulty_root_le htop⟩
      rw [hgenesis, htree.number_root]
      exact hroot
    · exact h.notAbove header hold
  · obtain ⟨td, headTd, hspec⟩ := hn.put htree hvalid hzero hput
    rw [if_neg hzero]
    have hself : s'.db.header.get (item.header.number, opts.hash item.header) = some item.header := by
      rw [hspec.header, OrderedMap.get_set, if_pos rfl]
    have hstays {header : BlockHeader Hash} (hold : NotAbove opts tree genesis s header) :
        s'.db.header.get (header.number, opts.hash header) = some header := by
      obtain ⟨hget, -⟩ := hold
      rw [hspec.header, OrderedMap.get_set]
      split
      · rename_i heq
        rw [htree.hash_inj hvalid.mem (hn.headers _ _ _ hget).mem (Prod.mk.inj heq).2.symm]
      · exact hget
    rcases hspec.outcome with ⟨hheavier, ⟨c, hadopted⟩, hcanonical⟩ | ⟨hle, hwork, hkept, hcanonical⟩
    · have hhead := hcanonical.head_td htree hvalid.mem hadopted.head hspec.tdItem
      refine ⟨⟨_, hcanonical⟩, ?_, fun _ => hspec.saved⟩
      intro header hheader
      split at hheader
      · rw [mem_singleton.mp hheader]
        exact ⟨hself, td, td, hspec.tdItem, hhead, Nat.le_refl td⟩
      · rename_i hwork
        rcases mem_cons.mp hheader with rfl | hold
        · exact ⟨hself, td, td, hspec.tdItem, hhead, Nat.le_refl td⟩
        · have hbelow := h.notAbove header hold
          obtain ⟨-, td', headTd', htd', hget, hle⟩ := hbelow
          obtain rfl := ok.inj (hget.symm.trans hspec.tdHead)
          have hgreater := hheavier.resolve_right hwork
          exact ⟨hstays (h.notAbove header hold), td', td, htd', hhead, by omega⟩
    · obtain ⟨top, td', hstored, hget, htop⟩ := hn.head_stored
      obtain rfl := ok.inj (hget.symm.trans hspec.tdHead)
      have hhead := hcanonical.head_td htree hstored.mem (hkept.head.trans hstored.hash.symm) htop
      refine ⟨⟨_, hcanonical⟩, ?_, fun _ => hspec.saved⟩
      intro header hheader
      rw [if_neg (by simp [hwork])] at hheader
      rcases mem_cons.mp hheader with rfl | hold
      · exact ⟨hself, td, td', hspec.tdItem, hhead, hle⟩
      · obtain ⟨-, td₀, headTd₀, htd₀, hget₀, hle₀⟩ := h.notAbove header hold
        have hsame : headTd₀ = td' := ok.inj (hget₀.symm.trans hspec.tdHead)
        exact ⟨hstays (h.notAbove header hold), td₀, td', htd₀, hhead, hsame ▸ hle₀⟩

theorem RunInvariant.putBlocks (htree : ForkTree opts tree genesis) {blocks : List (ChainItem Hash)}
    (h : RunInvariant opts tree genesis hist s) (hvalid : ValidatedBlocks opts tree s blocks)
    (hput : Blockchain.putBlocks opts s blocks = .ok s') :
    RunInvariant opts tree genesis (blocks.foldl History.put hist) s' := by
  induction blocks generalizing hist s with
  | nil =>
    obtain rfl := ok.inj hput
    exact h
  | cons item blocks ih =>
    unfold Blockchain.putBlocks at hput
    rw [foldlM_cons] at hput
    cases hone : _putBlockOrHeader opts s item with
    | error e => simp [hone, bind, Except.bind] at hput
    | ok s₁ =>
      simp only [hone, bind, Except.bind] at hput
      exact ih (h.put htree hvalid.1 hone) (hvalid.2 s₁ hone) hput

/-- Heads of iterators do not matter for the chain. -/
theorem Canonical.congr (h : Canonical opts tree genesis s n)
    (hdb : s'.db = { s.db with
      heads := s'.db.heads
      headHeader := s'.db.headHeader
      headBlock := s'.db.headBlock }) (hgenesis : s'._genesisBlock = s._genesisBlock)
    (hhead : s'._headHeaderHash = s._headHeaderHash) : Canonical opts tree genesis s' n := by
  have hindex : s'.index = s.index := by
    funext k
    rw [index, hdb, index]
  refine ⟨?_, ?_, ?_, ?_⟩
  · rw [hindex, hhead]
    exact h.chain
  · intro k x hk
    rw [hdb]
    exact h.stored k x (hindex ▸ hk)
  · intro k x header hget
    rw [hdb] at hget
    obtain ⟨hmem, hhash, hnumber, hlookup, htd, hroot⟩ := h.headers k x header hget
    rw [hdb]
    exact ⟨hmem, hhash, hnumber, hlookup, htd, hroot⟩
  · rw [hgenesis]
    exact h.genesis

theorem NotAbove.congr (h : NotAbove opts tree genesis s header)
    (hdb : s'.db = { s.db with
      heads := s'.db.heads
      headHeader := s'.db.headHeader
      headBlock := s'.db.headBlock }) (hhead : s'._headHeaderHash = s._headHeaderHash) :
    NotAbove opts tree genesis s' header := by
  obtain ⟨hget, td, headTd, htd, hhead', hle⟩ := h
  refine ⟨by rw [hdb]; exact hget, td, headTd, htd, ?_, hle⟩
  simp only [← hhead', hhead, getTotalDifficulty, Blockchain.hashToNumber, getTotalDifficultyAt]
  rw [hdb]

theorem canonical_create (htree : ForkTree opts tree genesis) {genesisBlock : Block Hash}
    (hgenesis : genesisBlock.header = genesis) :
    Canonical opts tree genesis (createBlockchain opts genesisBlock) 0 := by
  subst hgenesis
  have hindex (k : Nat) : (createBlockchain opts genesisBlock).index k =
      if k = 0 then some (opts.hash genesisBlock.header) else none := by
    simp [index, createBlockchain, ChainDB.batchOp, DBSaveLookups, ChainDB.empty]
  have hheader (e : Nat × Hash) : (createBlockchain opts genesisBlock).db.header.get e =
      if e = (0, opts.hash genesisBlock.header) then some genesisBlock.header else none := by
    simp [createBlockchain, ChainDB.batchOp, DBSaveLookups, ChainDB.empty]
  refine ⟨⟨?_, ?_, ?_, ?_⟩, ?_, ?_, rfl⟩
  · rw [hindex, if_pos rfl]
  · intro k hk
    omega
  · rw [hindex, if_pos rfl]
    rfl
  · intro k hk
    rw [hindex, if_neg (by omega)]
  · intro k x hk
    rw [hindex] at hk
    split at hk
    · rename_i hzero
      obtain rfl := Option.some.inj hk
      exact ⟨_, by rw [hheader, if_pos (by rw [hzero])]⟩
    · cases hk
  · intro k x header hget
    rw [hheader] at hget
    split at hget
    · rename_i heq
      obtain ⟨rfl, rfl⟩ := Prod.mk.inj heq
      obtain rfl := Option.some.inj hget
      refine ⟨htree.root, rfl, htree.number_root, ?_, ⟨_, ?_, .genesis⟩, fun _ => rfl⟩
      · simp [createBlockchain, ChainDB.batchOp, DBSaveLookups, ChainDB.empty]
      · simp [createBlockchain, ChainDB.batchOp, DBSaveLookups, ChainDB.empty]
    · cases hget

/-- Every call keeps the invariant. -/
theorem RunInvariant.call (htree : ForkTree opts tree genesis)
    (h : RunInvariant opts tree genesis hist s) {c : Call Hash}
    (hvalid : c.Valid opts tree genesis s) (hstep : c.run opts s = .ok s') :
    RunInvariant opts tree genesis (c.record s hist) s' := by
  obtain ⟨n, hn⟩ := h.canonical
  cases c with
  | put item => exact h.put htree hvalid hstep
  | putBlocks blocks => exact h.putBlocks htree hvalid hstep
  | delBlock blockHash =>
    refine ⟨?_, fun header hheader => absurd hheader not_mem_nil, ?_⟩
    · rcases hn.del htree hvalid hstep with ⟨-, -, -, -, -, -, hcanonical⟩ | ⟨-, m, -, -, -, hcanonical⟩
      · exact ⟨n, hcanonical⟩
      · exact ⟨m, hcanonical⟩
    · intro hsaved
      obtain ⟨hwas, hbeside⟩ := (Bool.and_eq_true _ _).mp hsaved
      rcases hn.del htree hvalid hstep with ⟨-, ⟨db, rfl⟩, hheads, hheader, hblock, -, -⟩ | ⟨hin, -⟩
      · rw [← h.saved hwas]
        dsimp only at hheads hheader hblock
        simp only [storedHeads, hheads, hheader, hblock]
      · simp [hin] at hbeside
  | resetCanonicalHead canonicalHead =>
    obtain ⟨-, hcanonical⟩ := hn.reset htree hstep
    refine ⟨⟨_, hcanonical⟩, fun header hheader => absurd hheader not_mem_nil, fun _ => ?_⟩
    exact storedHeads_reset hstep
  | setIteratorHead tag headHash =>
    obtain rfl := ok.inj hstep
    exact ⟨⟨n, hn.congr rfl rfl rfl⟩, fun header hheader => (h.notAbove header hheader).congr rfl rfl,
      fun _ => storedHeads_saveHeads _⟩
  | moveIteratorHead name headHash =>
    obtain rfl := ok.inj hstep
    exact ⟨⟨n, hn.congr rfl rfl rfl⟩, fun header hheader => (h.notAbove header hheader).congr rfl rfl,
      fun hsaved => absurd hsaved Bool.false_ne_true⟩
  | saveHeads =>
    obtain rfl := ok.inj hstep
    exact ⟨⟨n, hn.congr rfl rfl rfl⟩, fun header hheader => (h.notAbove header hheader).congr rfl rfl,
      fun _ => storedHeads_saveHeads _⟩

theorem Run.invariant {genesisBlock : Block Hash} (htree : ForkTree opts tree genesisBlock.header)
    (hrun : Run opts tree genesisBlock hist s) :
    RunInvariant opts tree genesisBlock.header hist s := by
  induction hrun with
  | create =>
    exact ⟨⟨0, canonical_create htree rfl⟩, fun header hheader => absurd hheader not_mem_nil,
      fun _ => rfl⟩
  | call c _ hvalid hstep ih => exact ih.call htree hvalid hstep

/-! ## The chain over runs -/

/-- What holds of the chain up to the number `n` after a run with the given history. -/
structure CanonicalChain (opts : BlockchainOptions Hash) (tree : Set (BlockHeader Hash))
    (genesis : BlockHeader Hash) (hist : History Hash) (s : Blockchain Hash) (n : Nat) : Prop where
  defined : ∀ k, (s.db.numberToHash.get k).isSome ↔ k ≤ n
  linked : ∀ k < n, ∃ header, s.getCanonicalHeader (k + 1) = .ok header ∧
    header.number = k + 1 ∧ s.db.numberToHash.get k = some header.parentHash
  head : s.db.numberToHash.get n = some s._headHeaderHash
  totalDifficulty : ∀ k x header, s.getHeader x k = .ok header →
    ∃ td, s.getTotalDifficulty x = .ok td ∧ TotalDifficulty opts tree genesis header td
  /-- A stored block is heavier than its stored parent by its own difficulty. -/
  parentTd : ∀ k x header parent td parentTd, s.getHeader x (k + 1) = .ok header →
    s.getHeader header.parentHash k = .ok parent → s.getTotalDifficulty x = .ok td →
    s.getTotalDifficulty header.parentHash = .ok parentTd → td = parentTd + header.difficulty
  heaviest : ∀ header ∈ hist.since, ∃ td headTd,
    s.getTotalDifficulty (opts.hash header) = .ok td ∧
    s.getTotalDifficulty s._headHeaderHash = .ok headTd ∧ td ≤ headTd
  saved : hist.saved = true →
    storedHeads opts s = (s._heads, s._headHeaderHash, s._headBlockHash)

theorem Canonical.getCanonicalHeader_eq (htree : ForkTree opts tree genesis)
    (h : Canonical opts tree genesis s n) (hk : k < n) :
    ∃ header, s.getCanonicalHeader (k + 1) = .ok header ∧ header.number = k + 1 ∧
      s.db.numberToHash.get k = some header.parentHash := by
  obtain ⟨x, hx⟩ := h.chain.exists_of_le (Nat.succ_le_of_lt hk)
  obtain ⟨header, hget⟩ := h.stored (k + 1) x hx
  have hstored := h.headers (k + 1) x header hget
  have hin : s.db.numberToHash.get (k + 1) = some x := hx
  refine ⟨header, ?_, hstored.number, h.parent_canonical htree hstored.mem (hstored.hash ▸ hx)⟩
  simp [getCanonicalHeader, hin, getHeader, hget]

theorem StoredHeader.td_eq (htree : ForkTree opts tree genesis) {x : Hash}
    {parent : BlockHeader Hash} {td parentTd : Nat}
    (h : StoredHeader opts tree genesis s.db (k + 1) x header)
    (hparent : StoredHeader opts tree genesis s.db k header.parentHash parent)
    (htd : s.getTotalDifficulty x = .ok td)
    (hparentTd : s.getTotalDifficulty header.parentHash = .ok parentTd) :
    td = parentTd + header.difficulty := by
  obtain ⟨td', hget, hsum⟩ := h.getTotalDifficulty_eq
  obtain ⟨parentTd', hget', hsum'⟩ := hparent.getTotalDifficulty_eq
  obtain rfl := ok.inj (htd.symm.trans hget)
  obtain rfl := ok.inj (hparentTd.symm.trans hget')
  cases hsum with
  | genesis =>
    have hzero := htree.number_root
    have hnumber := h.number
    omega
  | @child parent' _ td' hmem' hhash' _ hrest =>
    obtain rfl := htree.hash_inj hmem' hparent.mem (hhash'.symm.trans hparent.hash.symm)
    rw [htree.totalDifficulty_unique hrest hsum']

/-- After every run of completed calls the index of numbers is one chain from the genesis block up
to the head header, the total difficulties of the stored headers add up, and no header that was
put since is heavier than the head. -/
theorem run_canonical {genesisBlock : Block Hash} (htree : ForkTree opts tree genesisBlock.header)
    {hist : History Hash} {s : Blockchain Hash} (hrun : Run opts tree genesisBlock hist s) :
    ∃ n, CanonicalChain opts tree genesisBlock.header hist s n := by
  have hinv := hrun.invariant htree
  obtain ⟨n, h⟩ := hinv.canonical
  refine ⟨n, ?_⟩
  constructor
  case defined => exact h.chain.isSome_iff
  case linked => exact fun k hk => h.getCanonicalHeader_eq htree hk
  case head => exact h.chain.top
  case totalDifficulty =>
    intro k x header hget
    exact (h.headers k x header (getHeader_ok hget)).getTotalDifficulty_eq
  case parentTd =>
    intro k x header parent td parentTd hget hparent
    exact (h.headers _ x header (getHeader_ok hget)).td_eq htree
      (h.headers k _ parent (getHeader_ok hparent))
  case heaviest =>
    intro header hheader
    obtain ⟨hget, td, headTd, htd, hhead, hle⟩ := hinv.notAbove header hheader
    obtain ⟨td', hget', htd'⟩ := (h.headers _ _ header hget).getTotalDifficulty_eq
    obtain rfl := htree.totalDifficulty_unique htd' htd
    exact ⟨td', headTd, hget', hhead, hle⟩
  case saved => exact hinv.saved

/-! ## A small tree -/

section Sample

def sampleOptions : BlockchainOptions Nat where
  hash := fun header => header.extraData
  chainId := 1
  _validateBlocks := true
  checkHeader := fun _ _ => .ok ()
  checkBlock := fun _ _ => .ok ()
  checkConsensus := fun _ _ => .ok ()

/-- A header with its hash as extra data. -/
def sampleHeader (hash parentHash number difficulty : Nat) : BlockHeader Nat where
  parentHash
  number
  difficulty
  timestamp := number
  extraData := hash
  emptyBody := true

def sampleGenesis : Block Nat := ⟨sampleHeader 1 0 0 1, []⟩

/-- Two chains above the genesis block: the longer one is lighter than the other. -/
def sampleHeaders : List (BlockHeader Nat) :=
  [sampleHeader 1 0 0 1, sampleHeader 11 1 1 2, sampleHeader 12 11 2 2, sampleHeader 13 12 3 2,
    sampleHeader 21 1 1 3, sampleHeader 22 21 2 9, sampleHeader 31 1 1 0]

def sampleTree : Set (BlockHeader Nat) := { header | header ∈ sampleHeaders }

theorem sampleTree_forkTree : ForkTree sampleOptions sampleTree sampleGenesis.header where
  root := mem_cons_self
  number_root := rfl
  hash_inj := by
    have hinj : ∀ x ∈ sampleHeaders, ∀ y ∈ sampleHeaders, x.extraData = y.extraData → x = y := by
      decide
    exact fun x hx y hy => hinj x hx y hy

def sampleItem (header : BlockHeader Nat) (proofOfStake : Bool) : ChainItem Nat :=
  ⟨header, some [], 1, proofOfStake⟩

def sampleBlock (hash parentHash number difficulty : Nat) : ChainItem Nat :=
  sampleItem (sampleHeader hash parentHash number difficulty) false

/-- The state after a call that completes. -/
def sampleNext (s : Blockchain Nat) (c : Call Nat) : Blockchain Nat :=
  (c.run sampleOptions s).toOption.getD s

def sampleAfter (calls : List (Call Nat)) : Blockchain Nat :=
  calls.foldl sampleNext (createBlockchain sampleOptions sampleGenesis)

variable {s : Blockchain Nat}

theorem sampleNext_eq {c : Call Nat} (h : (c.run sampleOptions s).toOption.isSome = true) :
    c.run sampleOptions s = .ok (sampleNext s c) := by
  unfold sampleNext
  cases hrun : c.run sampleOptions s with
  | error e => simp [hrun, Except.toOption] at h
  | ok s' => rfl

theorem validateHeader_of_isSome {header : BlockHeader Nat}
    (h : (validateHeader sampleOptions s header).toOption.isSome = true) :
    validateHeader sampleOptions s header = .ok () := by
  cases hvalid : validateHeader sampleOptions s header with
  | error e => simp [hvalid, Except.toOption] at h
  | ok _ => rfl

theorem exists_run_put {hist : History Nat}
    (hrun : Run sampleOptions sampleTree sampleGenesis hist s) (header : BlockHeader Nat)
    (hmem : header ∈ sampleHeaders)
    (hvalid : (validateHeader sampleOptions s header).toOption.isSome = true)
    (hok : ((Call.put (sampleItem header false)).run sampleOptions s).toOption.isSome = true) :
    ∃ hist', Run sampleOptions sampleTree sampleGenesis hist'
      (sampleNext s (.put (sampleItem header false))) := by
  exact ⟨_, .call (.put (sampleItem header false)) hrun ⟨hmem, validateHeader_of_isSome hvalid⟩
    (sampleNext_eq hok)⟩

/-- Two blocks are put above the genesis block, the second one lighter than the first. -/
theorem run_canonical_sample : ∃ s₁ s₂ n,
    Call.run sampleOptions (createBlockchain sampleOptions sampleGenesis)
      (.put (sampleBlock 21 1 1 3)) = .ok s₁ ∧
    Call.run sampleOptions s₁ (.put (sampleBlock 11 1 1 2)) = .ok s₂ ∧
    CanonicalChain sampleOptions sampleTree sampleGenesis.header
      ⟨[sampleHeader 11 1 1 2, sampleHeader 21 1 1 3], true⟩ s₂ n := by
  have h₁ : Run sampleOptions sampleTree sampleGenesis _ _ :=
    .call (.put (sampleBlock 21 1 1 3)) .create
      ⟨(by decide : sampleHeader 21 1 1 3 ∈ sampleHeaders), rfl⟩ rfl
  have h₂ : Run sampleOptions sampleTree sampleGenesis _ _ :=
    .call (.put (sampleBlock 11 1 1 2)) h₁
      ⟨(by decide : sampleHeader 11 1 1 2 ∈ sampleHeaders), rfl⟩ rfl
  obtain ⟨n, hn⟩ := run_canonical sampleTree_forkTree h₂
  exact ⟨_, _, n, rfl, rfl, hn⟩

/-- A deleted canonical block leaves heads in the database that are no longer those in memory; a
proof-of-stake block becomes the head without being heavier; without the genesis block nothing is
canonical. -/
theorem run_canonical_exceptions :
    (∃ s₁ s₂, _putBlockOrHeader sampleOptions (createBlockchain sampleOptions sampleGenesis)
        (sampleBlock 21 1 1 3) = .ok s₁ ∧
      delBlock sampleOptions s₁ 21 = .ok s₂ ∧ s₂._headHeaderHash = 1 ∧
      s₂.db.headHeader = some 21) ∧
    (∃ s₁ s₂, _putBlockOrHeader sampleOptions (createBlockchain sampleOptions sampleGenesis)
        (sampleBlock 21 1 1 3) = .ok s₁ ∧
      validateHeader sampleOptions s₁ (sampleHeader 31 1 1 0) = .ok () ∧
      _putBlockOrHeader sampleOptions s₁ (sampleItem (sampleHeader 31 1 1 0) true) = .ok s₂ ∧
      s₂.getTotalDifficulty 21 = .ok 4 ∧ s₂._headHeaderHash = 31 ∧
      s₂.getTotalDifficulty 31 = .ok 1) ∧
    ∃ s₁, delBlock sampleOptions (createBlockchain sampleOptions sampleGenesis) 1 = .ok s₁ ∧
      s₁.db.numberToHash.get 0 = none :=
  ⟨⟨_, _, rfl, rfl, rfl, rfl⟩, ⟨_, _, rfl, rfl, rfl, rfl, rfl, rfl⟩, ⟨_, rfl, rfl⟩⟩

end Sample

end Blockchain
