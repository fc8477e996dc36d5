-- SUMMARY: Every operation of the blockchain keeps the canonical chain canonical.
import TsEthereum.Blockchain.Canonical

/-!
# Operations on the canonical chain

What putting, resetting and deleting do to the index of canonical hashes and to
the heads. An item that is adopted leaves the old chain at the last block that
both have; everything above is replaced.
-/

open List Option Except Nat

namespace Blockchain

open OrderedMap ChainDB

variable {Hash : Type} [DecidableEq Hash] {opts : BlockchainOptions Hash}
  {tree : Set (BlockHeader Hash)} {genesis : BlockHeader Hash}

/-! ## Reading -/

variable {header : BlockHeader Hash}

theorem getHeader_ok {s : Blockchain Hash} {hash : Hash} {number : Nat}
    (h : s.getHeader hash number = .ok header) : s.db.header.get (number, hash) = some header := by
  unfold getHeader at h
  split at h
  · cases h
  · rename_i hthere
    rw [hthere, ok.inj h]

theorem _getHeader_ok {s : Blockchain Hash} {hash : Hash} (h : s._getHeader hash = .ok header) :
    ∃ number, s.db.hashToNumber.get hash = some number ∧
      s.db.header.get (number, hash) = some header := by
  unfold _getHeader hashToNumber at h
  cases hnumber : s.db.hashToNumber.get hash with
  | none => simp [hnumber, bind, Except.bind] at h
  | some number =>
    simp only [hnumber, bind, Except.bind] at h
    exact ⟨number, rfl, getHeader_ok h⟩

/-- The parent of a validated header is stored, one number below. -/
theorem validateHeader_ok {s : Blockchain Hash} (h : validateHeader opts s header = .ok ())
    (hpos : header.number ≠ 0) :
    ∃ number parent, s.db.header.get (number, header.parentHash) = some parent ∧
      header.number = parent.number + 1 := by
  unfold validateHeader at h
  rw [if_neg hpos] at h
  cases hparent : s._getHeader header.parentHash with
  | error e => simp [hparent, bind, Except.bind] at h
  | ok parent =>
    simp only [hparent, bind, Except.bind] at h
    split at h
    · cases h
    · rename_i hnumber
      obtain ⟨number, -, hthere⟩ := _getHeader_ok hparent
      exact ⟨number, parent, hthere, Classical.not_not.mp hnumber⟩

/-! ## Batches -/

theorem batch_delNumberToHash (db : ChainDB Hash) (refs : List (Nat × Hash)) :
    db.batch (refs.map fun e => .delNumberToHash e.1) =
      { db with numberToHash := (refs.map Prod.fst).foldl delete db.numberToHash } := by
  induction refs generalizing db with
  | nil => rfl
  | cons e refs ih => simp [ih, batchOp]

theorem batch_delOps (db : ChainDB Hash) (refs : List (Nat × Hash)) :
    db.batch (refs.flatMap fun e => delOps e.2 e.1) =
      { db with
        header := refs.foldl delete db.header
        body := refs.foldl delete db.body
        hashToNumber := (refs.map Prod.snd).foldl delete db.hashToNumber
        totalDifficulty := refs.foldl delete db.totalDifficulty } := by
  induction refs generalizing db with
  | nil => rfl
  | cons e refs ih =>
    rw [flatMap_cons, batch_append, ih]
    simp [delOps, batchOp]

/-- The tables that saving the heads leaves alone. -/
theorem batch_saveHeadOps (db : ChainDB Hash) (s : Blockchain Hash) :
    db.batch s._saveHeadOps =
      { db with
        heads := some s._heads
        headHeader := some s._headHeaderHash
        headBlock := some s._headBlockHash } := by
  simp [_saveHeadOps, batchOp]

/-- What is stored of an item first. -/
def storedOps (opts : BlockchainOptions Hash) (item : ChainItem Hash) (td : Nat) :
    List (DBOp Hash) :=
  .setTotalDifficulty item.header.number (opts.hash item.header) td :: DBSetBlockOrHeader opts item

theorem batch_storedOps (db : ChainDB Hash) (item : ChainItem Hash) (td : Nat) :
    ∃ body, db.batch (storedOps opts item td) =
      { db with
        header := db.header.set (item.header.number, opts.hash item.header) item.header
        body
        totalDifficulty :=
          db.totalDifficulty.set (item.header.number, opts.hash item.header) td } := by
  unfold storedOps DBSetBlockOrHeader
  cases item.body with
  | none => exact ⟨db.body, by simp [batchOp]⟩
  | some body => exact ⟨_, by simp [batchOp]; rfl⟩

/-! ## Putting -/

/-- The chain `s'` has left the chain `s` at the number `c` for the one that ends with `header`,
and the heads have followed. -/
structure Adopted (opts : BlockchainOptions Hash) (tree : Set (BlockHeader Hash))
    (genesis : BlockHeader Hash) (s s' : Blockchain Hash) (header : BlockHeader Hash) (c : Nat) :
    Prop where
  le : c ≤ header.number
  head : s'._headHeaderHash = opts.hash header
  chain : ChainIndex (Link opts tree) (opts.hash genesis) s'.index header.number (opts.hash header)
  ancestor : ∃ a, s.index c = some a
  common : ∀ k ≤ c, s'.index k = s.index k
  fork : ∀ k, c < k → k ≤ header.number → s.index k ≠ s'.index k
  headAbove : ∀ name h k, s._heads.get name = some h → header.number < k → s.index k = some h →
    s'._heads.get name = some (opts.hash header)
  headStale : ∀ name h k, s._heads.get name = some h → c < k → k ≤ header.number →
    s.index k = some h → s'._heads.get name = s.index c
  headKept : ∀ name h k, s._heads.get name = some h → k ≤ c → s.index k = some h →
    s'._heads.get name = some h
  headOff : ∀ name h, s._heads.get name = some h → (∀ k, s.index k ≠ some h) →
    s'._heads.get name = some h
  headNone : ∀ name, s._heads.get name = none → s'._heads.get name = none

/-- The item is stored, and the canonical chain is as it was. -/
structure Kept (s s' : Blockchain Hash) : Prop where
  head : s'._headHeaderHash = s._headHeaderHash
  heads : s'._heads = s._heads
  index : s'.index = s.index

/-- What `adopt` has done when it ends with the state `t`: the heads above the item have been moved
(`s₁`), and `r` has rebuilt the chain `w` below it. -/
structure AdoptSpec (opts : BlockchainOptions Hash) (tree : Set (BlockHeader Hash))
    (genesis : BlockHeader Hash) (s : Blockchain Hash) (item : ChainItem Hash)
    (s₁ t : Blockchain Hash) (r : Rebuilt Hash) (c : Nat) (w : Nat → Option Hash) : Prop where
  db₁ : s₁.db = s.db
  heads₁ : s₁._heads = s._heads.mapValues (fun h =>
    if h ∈ (s.referencesFrom (item.header.number + 1)).map Prod.snd then opts.hash item.header
    else h)
  rebuild : RebuildSpec opts tree genesis s₁ item.header.number item.header r c w
  db : t.db = s.db
  genesisBlock : t._genesisBlock = s._genesisBlock
  head : t._headHeaderHash = opts.hash item.header
  heads : t._heads =
    r.staleHeads.foldl (fun heads name => heads.set name r.currentCanonicalHash) s₁._heads

theorem adopt_ok (htree : ForkTree opts tree genesis) {s t : Blockchain Hash} {n : Nat}
    (h : Canonical opts tree genesis s n) {item : ChainItem Hash} (hmem : item.header ∈ tree)
    (hpos : item.header.number ≠ 0) {ops : List (DBOp Hash)}
    (hadopt : adopt opts s item = .ok (t, ops)) :
    ∃ (s₁ : Blockchain Hash) (r : Rebuilt Hash) (c : Nat) (w : Nat → Option Hash),
      AdoptSpec opts tree genesis s item s₁ t r c w ∧
      ops = (s.referencesFrom (item.header.number + 1)).map (fun e => .delNumberToHash e.1) ++
        r.ops := by
  unfold adopt at hadopt
  cases hancestor : findCommonAncestor opts s item.header with
  | error e => simp [hancestor, bind, Except.bind] at hadopt
  | ok ancestor =>
    simp only [hancestor, bind, Except.bind, _deleteCanonicalChainReferences_eq,
      _rebuildCanonical] at hadopt
    split at hadopt
    · cases hadopt
    · rename_i hrebuilt
      split at hrebuilt
      · cases hrebuilt
      · rename_i r hr
        obtain rfl := ok.inj hrebuilt
        obtain ⟨rfl, rfl⟩ := Prod.mk.inj (ok.inj hadopt)
        obtain ⟨s₁, hs₁⟩ : ∃ s₁, s₁ = moveAll (opts.hash item.header)
            ((s.referencesFrom (item.header.number + 1)).map Prod.snd)
            { s with
              _headHeaderHash := opts.hash item.header
              _headBlockHash :=
                if item.body.isSome then opts.hash item.header else s._headBlockHash } := ⟨_, rfl⟩
        have hdb : s₁.db = s.db := by rw [hs₁]; rfl
        have hr₁ : rebuildLoop opts s₁ item.header.number item.header = .ok r := by
          rw [hs₁]
          exact hr
        have hindex : s₁.index = s.index := by funext k; rw [index, hdb, index]
        obtain ⟨c, w, hspec⟩ := rebuildLoop_spec htree (hindex ▸ h.chain)
          (hindex ▸ hdb ▸ h.stored) (hdb ▸ h.headers) hmem rfl (fun hzero => absurd hzero hpos) hr₁
        refine ⟨s₁, r, c, w, ⟨hdb, ?_, hspec, rfl, rfl, ?_, ?_⟩, rfl⟩
        · rw [hs₁]
          rfl
        · simp [moveAll]
        · rw [hs₁]
          rfl

/-- What a put that completes has done. -/
theorem put_cases {s s' : Blockchain Hash} {item : ChainItem Hash} (hpos : item.header.number ≠ 0)
    (hput : _putBlockOrHeader opts s item = .ok s') :
    ∃ (headTd : Nat) (t : Blockchain Hash) (ops : List (DBOp Hash)),
      s.getTotalDifficulty s._headHeaderHash = .ok headTd ∧
      s' = { t with db := t.db.batch (storedOps opts item
        (item.header.difficulty + s.getParentTD item.header) ++ ops ++ t._saveHeadOps) } ∧
      (((item.header.difficulty + s.getParentTD item.header > headTd ∨ item.proofOfStake = true) ∧
          adopt opts s item = .ok (t, ops)) ∨
        (¬(item.header.difficulty + s.getParentTD item.header > headTd ∨ item.proofOfStake = true) ∧
          ops = [.setHashToNumber (opts.hash item.header) item.header.number] ∧
          ∃ headBlock, t = { s with _headBlockHash := headBlock })) := by
  unfold _putBlockOrHeader at hput
  simp only [hpos, if_false, bind, Except.bind] at hput
  split at hput
  · cases hput
  -- the checks before the total difficulties are read
  split at hput
  · cases hput
  split at hput
  · cases hput
  split at hput
  · cases hput
  · rename_i headTd hhead
    split at hput
    · cases hput
    split at hput
    · cases hput
    · rename_i result hresult
      refine ⟨headTd, result.1, result.2, hhead, (ok.inj hput).symm, ?_⟩
      unfold changeHeads at hresult
      split at hresult
      · rename_i hadopt
        exact .inl ⟨hadopt, hresult⟩
      · rename_i hkeep
        obtain rfl := ok.inj hresult
        refine .inr ⟨hkeep, rfl, ?_⟩
        split
        · exact ⟨_, rfl⟩
        · exact ⟨s._headBlockHash, rfl⟩

/-- The total difficulty that a validated header is stored with. -/
theorem Canonical.totalDifficulty_put {s : Blockchain Hash} {n : Nat}
    (h : Canonical opts tree genesis s n) (hpos : header.number ≠ 0)
    (hvalid : validateHeader opts s header = .ok ()) :
    TotalDifficulty opts tree genesis header (header.difficulty + s.getParentTD header) := by
  obtain ⟨m, parent, hparent, hnumber⟩ := validateHeader_ok hvalid hpos
  have hp := h.headers m _ parent hparent
  obtain ⟨td, hget, htd⟩ := hp.totalDifficulty
  have hpred : header.number - 1 = m := by
    rw [hnumber, hp.number]
    rfl
  have hparentTd : s.getParentTD header = td := by
    rw [getParentTD, if_neg hpos, getTotalDifficultyAt, hpred, hget]
    rfl
  rw [hparentTd, Nat.add_comm]
  exact .child hp.mem hp.hash.symm hnumber htd

/-- A header that has just been stored, next to the ones that were there. -/
theorem storedHeader_set {db db' : ChainDB Hash} {td : Nat} (hmem : header ∈ tree)
    (hpos : header.number ≠ 0) (htd : TotalDifficulty opts tree genesis header td)
    (hheaders : ∀ k h header, db.header.get (k, h) = some header →
      StoredHeader opts tree genesis db k h header)
    (hheader : db'.header = db.header.set (header.number, opts.hash header) header)
    (htds : db'.totalDifficulty = db.totalDifficulty.set (header.number, opts.hash header) td)
    (hself : db'.hashToNumber.get (opts.hash header) = some header.number)
    (hothers : ∀ k h header', header' ∈ tree → opts.hash header' = h → header'.number = k →
      db.hashToNumber.get h = some k → db'.hashToNumber.get h = some k) :
    ∀ k h header', db'.header.get (k, h) = some header' →
      StoredHeader opts tree genesis db' k h header' := by
  intro k h header' hget
  rw [hheader, get_set] at hget
  by_cases hnew : (k, h) = (header.number, opts.hash header)
  · rw [if_pos hnew] at hget
    obtain rfl := some.inj hget
    obtain ⟨rfl, rfl⟩ := Prod.mk.inj hnew
    exact ⟨hmem, rfl, rfl, hself, ⟨td, by simp [htds], htd⟩, fun hzero => absurd hzero hpos⟩
  · rw [if_neg hnew] at hget
    have hold := hheaders k h header' hget
    obtain ⟨td', htd', hsum⟩ := hold.totalDifficulty
    refine ⟨hold.mem, hold.hash, hold.number,
      hothers k h header' hold.mem hold.hash hold.number hold.hashToNumber, ⟨td', ?_, hsum⟩, hold.root⟩
    rw [htds, get_set, if_neg hnew, htd']

/-- An item that does not become the head is stored beside the canonical chain. -/
theorem Canonical.put_kept (htree : ForkTree opts tree genesis) {s : Blockchain Hash} {n : Nat}
    (h : Canonical opts tree genesis s n) {item : ChainItem Hash} (hmem : item.header ∈ tree)
    (hpos : item.header.number ≠ 0) (hvalid : validateHeader opts s item.header = .ok ())
    {t s' : Blockchain Hash} {headBlock : Hash} (ht : t = { s with _headBlockHash := headBlock })
    (hs' : s' = { t with db := t.db.batch (storedOps opts item
      (item.header.difficulty + s.getParentTD item.header) ++
        [.setHashToNumber (opts.hash item.header) item.header.number] ++ t._saveHeadOps) }) :
    Kept s s' ∧
      s'.db.header =
        s.db.header.set (item.header.number, opts.hash item.header) item.header ∧
      Canonical opts tree genesis s' n := by
  obtain ⟨body, hstored⟩ := batch_storedOps s.db item
    (item.header.difficulty + s.getParentTD item.header)
  have hdb : s'.db = { s.db with
      heads := some t._heads
      headHeader := some t._headHeaderHash
      headBlock := some t._headBlockHash
      header := s.db.header.set (item.header.number, opts.hash item.header) item.header
      body
      hashToNumber := s.db.hashToNumber.set (opts.hash item.header) item.header.number
      totalDifficulty := s.db.totalDifficulty.set (item.header.number, opts.hash item.header)
        (item.header.difficulty + s.getParentTD item.header) } := by
    rw [hs', ht]
    dsimp only
    rw [batch_append, batch_append, hstored, batch_saveHeadOps]
    rfl
  have hindex : s'.index = s.index := by
    funext k
    rw [index, hdb, index]
  have hkept : Kept s s' := ⟨by rw [hs', ht], by rw [hs', ht], hindex⟩
  refine ⟨hkept, by rw [hdb], ?_, ?_, ?_, ?_⟩
  · rw [hindex, hkept.head]
    exact h.chain
  · intro k x hk
    rw [hindex] at hk
    obtain ⟨header, hheader⟩ := h.stored k x hk
    rw [hdb, get_set]
    split
    · exact ⟨_, rfl⟩
    · exact ⟨header, hheader⟩
  · refine storedHeader_set hmem hpos (h.totalDifficulty_put hpos hvalid) h.headers
      (by rw [hdb]) (by rw [hdb]) (by simp [hdb]) ?_
    intro k x header' hmem' hhash hnumber hget
    rw [hdb, get_set]
    split
    · rename_i heq
      rw [← htree.hash_inj hmem' hmem (hhash.trans heq), hnumber]
    · exact hget
  · rw [hs', ht]
    exact h.genesis

section Adopting

variable {s s₁ t s' : Blockchain Hash} {n c : Nat} {item : ChainItem Hash} {r : Rebuilt Hash}
  {w : Nat → Option Hash}

theorem AdoptSpec.index₁ (ha : AdoptSpec opts tree genesis s item s₁ t r c w) :
    s₁.index = s.index := by
  funext k
  rw [index, ha.db₁, index]

/-- The tables after an item has been adopted, with the lookups of the new chain written last. -/
theorem AdoptSpec.tables (ha : AdoptSpec opts tree genesis s item s₁ t r c w)
    (hs' : s' = { t with db := t.db.batch (storedOps opts item
      (item.header.difficulty + s.getParentTD item.header) ++
        ((s.referencesFrom (item.header.number + 1)).map (fun e => .delNumberToHash e.1) ++ r.ops) ++
        t._saveHeadOps) }) :
    ∃ body, ∃ db : ChainDB Hash, db = { s.db with
        header := s.db.header.set (item.header.number, opts.hash item.header) item.header
        body
        totalDifficulty := s.db.totalDifficulty.set (item.header.number, opts.hash item.header)
          (item.header.difficulty + s.getParentTD item.header)
        numberToHash := ((s.referencesFrom (item.header.number + 1)).map Prod.fst).foldl
          delete s.db.numberToHash } ∧
      s'.db = { db.batch r.ops with
        heads := some t._heads
        headHeader := some t._headHeaderHash
        headBlock := some t._headBlockHash } := by
  obtain ⟨body, hstored⟩ := batch_storedOps s.db item
    (item.header.difficulty + s.getParentTD item.header)
  refine ⟨body, _, rfl, ?_⟩
  rw [hs']
  dsimp only
  rw [ha.db, batch_append, batch_append, batch_append, hstored,
    batch_delNumberToHash, batch_saveHeadOps]

/-- The index is that of the chain that was rebuilt. -/
theorem AdoptSpec.index_eq (h : Canonical opts tree genesis s n)
    (ha : AdoptSpec opts tree genesis s item s₁ t r c w) {db : ChainDB Hash}
    (hbefore : db.numberToHash = ((s.referencesFrom (item.header.number + 1)).map Prod.fst).foldl
      delete s.db.numberToHash)
    (hafter : s'.db.numberToHash = (db.batch r.ops).numberToHash) (k : Nat) : s'.index k = w k := by
  have hle := ha.rebuild.le
  rw [index, hafter, ha.rebuild.numberToHash, hbefore, h.get_deleted]
  by_cases hfork : c < k ∧ k ≤ item.header.number
  · rw [if_pos hfork]
  · rw [if_neg hfork]
    rcases Nat.lt_or_ge item.header.number k with habove | hbelow
    · rw [if_pos (succ_le_of_lt habove), ha.rebuild.chain.above k habove]
    · rw [if_neg (by omega), ha.rebuild.common k (by omega), ha.index₁]

variable {name : String} {x : Hash}

/-- What a head at the number `k` of the old chain has become. -/
theorem AdoptSpec.head_eq (htree : ForkTree opts tree genesis) (h : Canonical opts tree genesis s n)
    (ha : AdoptSpec opts tree genesis s item s₁ t r c w) (hmem : item.header ∈ tree) {k : Nat}
    (hx : s._heads.get name = some x) (hk : s.index k = some x) :
    t._heads.get name =
      if item.header.number < k then some (opts.hash item.header)
      else if c < k then s.index c else some x := by
  have hold : s₁._heads.get name =
      some (if item.header.number < k then opts.hash item.header else x) := by
    rw [ha.heads₁, get_mapValues, hx, map_some]
    simp only [h.mem_hashes htree hk, succ_le_iff]
  have hstale : name ∈ r.staleHeads ↔ c < k ∧ k ≤ item.header.number := by
    rw [ha.rebuild.staleHeads, ha.index₁, hold]
    constructor
    · rintro ⟨j, y, hlt, hle, hj, hy⟩
      obtain rfl := some.inj hy
      by_cases habove : item.header.number < k
      · -- a head that has just been moved is not stale
        rw [if_pos habove] at hj
        have hfork := ha.rebuild.fork j hlt hle
        rw [ha.index₁, hj] at hfork
        have hjn : j = item.header.number := (htree.number_of_chain h.chain hmem hj).symm
        rw [hjn, ha.rebuild.chain.top] at hfork
        exact absurd rfl hfork
      · rw [if_neg habove] at hj
        rw [h.number_unique htree hk hj]
        exact ⟨hlt, hle⟩
    · rintro ⟨hlt, hle⟩
      exact ⟨k, x, hlt, hle, hk, by rw [if_neg (by omega)]⟩
  rw [ha.heads, get_foldl_set, hold, ← ha.rebuild.ancestor, ha.index₁]
  have hle := ha.rebuild.le
  simp only [hstale]
  rcases Nat.lt_or_ge item.header.number k with habove | hbelow
  · rw [if_neg (by omega), if_pos habove, if_pos habove]
  · rw [if_neg (by omega : ¬ item.header.number < k), if_neg (by omega : ¬ item.header.number < k)]
    by_cases hlt : c < k
    · rw [if_pos ⟨hlt, hbelow⟩, if_pos hlt]
    · rw [if_neg (by omega), if_neg hlt]

/-- A head beside the old chain stays where it is. -/
theorem AdoptSpec.head_off (h : Canonical opts tree genesis s n)
    (ha : AdoptSpec opts tree genesis s item s₁ t r c w) (hx : s._heads.get name = some x)
    (hoff : ∀ k, s.index k ≠ some x) :
    t._heads.get name = some x := by
  have hnot : x ∉ (s.referencesFrom (item.header.number + 1)).map Prod.snd := by
    intro hmem
    obtain ⟨⟨k, y⟩, he, rfl⟩ := mem_map.mp hmem
    exact hoff k ((h.mem_referencesFrom _ _).mp he).2
  have hold : s₁._heads.get name = some x := by
    rw [ha.heads₁, get_mapValues, hx, map_some, if_neg hnot]
  have hstale : name ∉ r.staleHeads := by
    rw [ha.rebuild.staleHeads, ha.index₁]
    rintro ⟨k, y, -, -, hk, hy⟩
    obtain rfl := some.inj (hold.symm.trans hy)
    exact hoff k hk
  rw [ha.heads, get_foldl_set, if_neg hstale, hold]

theorem AdoptSpec.head_none (ha : AdoptSpec opts tree genesis s item s₁ t r c w)
    (hx : s._heads.get name = none) : t._heads.get name = none := by
  have hnone : s₁._heads.get name = none := by
    rw [ha.heads₁, get_mapValues, hx]
    rfl
  have hnot : name ∉ r.staleHeads := by
    rw [ha.rebuild.staleHeads]
    rintro ⟨k, y, -, -, -, hy⟩
    rw [hnone] at hy
    cases hy
  rw [ha.heads, get_foldl_set, if_neg hnot, hnone]

/-- The chain and the heads have followed the item. -/
theorem AdoptSpec.adopted (htree : ForkTree opts tree genesis) (h : Canonical opts tree genesis s n)
    (ha : AdoptSpec opts tree genesis s item s₁ t r c w) (hmem : item.header ∈ tree)
    (hindex : ∀ k, s'.index k = w k) (hhead : s'._headHeaderHash = t._headHeaderHash)
    (hheads : s'._heads = t._heads) : Adopted opts tree genesis s s' item.header c where
  le := ha.rebuild.le
  head := hhead.trans ha.head
  chain := ha.rebuild.chain.congr hindex
  ancestor := ⟨_, ha.index₁ ▸ ha.rebuild.ancestor⟩
  common := by
    intro k hk
    rw [hindex, ha.rebuild.common k hk, ha.index₁]
  fork := by
    intro k hlt hle
    rw [hindex, ← ha.index₁]
    exact ha.rebuild.fork k hlt hle
  headAbove := by
    intro name x k hx habove hk
    rw [hheads, ha.head_eq htree h hmem hx hk, if_pos habove]
  headStale := by
    intro name x k hx hlt hle hk
    rw [hheads, ha.head_eq htree h hmem hx hk, if_neg (by omega), if_pos hlt]
  headKept := by
    intro name x k hx hle hk
    have hc := ha.rebuild.le
    rw [hheads, ha.head_eq htree h hmem hx hk, if_neg (by omega), if_neg (by omega)]
  headOff := by
    intro name x hx hoff
    rw [hheads, ha.head_off h hx hoff]
  headNone := by
    intro name hx
    rw [hheads, ha.head_none hx]

omit [DecidableEq Hash] in
/-- A canonical head stays canonical. -/
theorem Adopted.head_canonical {header : BlockHeader Hash}
    (hadopted : Adopted opts tree genesis s s' header c) {k : Nat} (hx : s._heads.get name = some x)
    (hk : s.index k = some x) :
    ∃ y j, s'._heads.get name = some y ∧ s'.index j = some y := by
  rcases Nat.lt_or_ge header.number k with habove | hle
  · exact ⟨_, _, hadopted.headAbove name x k hx habove hk, hadopted.chain.top⟩
  · rcases Nat.lt_or_ge c k with hlt | hkept
    · obtain ⟨a, ha⟩ := hadopted.ancestor
      refine ⟨a, c, ?_, ?_⟩
      · rw [hadopted.headStale name x k hx hlt hle hk, ha]
      · rw [hadopted.common c (Nat.le_refl c), ha]
    · refine ⟨x, k, hadopted.headKept name x k hx hkept hk, ?_⟩
      rw [hadopted.common k hkept, hk]

/-- An item that becomes the head takes the chain with it. -/
theorem Canonical.put_adopted (htree : ForkTree opts tree genesis)
    (h : Canonical opts tree genesis s n) (hmem : item.header ∈ tree)
    (hpos : item.header.number ≠ 0) (hvalid : validateHeader opts s item.header = .ok ())
    {ops : List (DBOp Hash)} (hadopt : adopt opts s item = .ok (t, ops))
    (hs' : s' = { t with db := t.db.batch (storedOps opts item
      (item.header.difficulty + s.getParentTD item.header) ++ ops ++ t._saveHeadOps) }) :
    (∃ c, Adopted opts tree genesis s s' item.header c) ∧
      s'.db.header =
        s.db.header.set (item.header.number, opts.hash item.header) item.header ∧
      Canonical opts tree genesis s' item.header.number := by
  obtain ⟨s₁, r, c, w, ha, rfl⟩ := adopt_ok htree h hmem hpos hadopt
  obtain ⟨body, db, hbefore, hafter⟩ := ha.tables hs'
  have hdeleted : db.numberToHash =
      ((s.referencesFrom (item.header.number + 1)).map Prod.fst).foldl delete
        s.db.numberToHash := by rw [hbefore]
  have hindex (k : Nat) : s'.index k = w k := ha.index_eq h hdeleted (by rw [hafter]) k
  have hadopted : Adopted opts tree genesis s s' item.header c :=
    ha.adopted htree h hmem hindex (by rw [hs']) (by rw [hs'])
  have hheader : s'.db.header =
      s.db.header.set (item.header.number, opts.hash item.header) item.header := by
    rw [hafter, ha.rebuild.others, hbefore]
  have hlookup {k : Nat} {x : Hash} (hx : (db.batch r.ops).hashToNumber.get x = some k) :
      s'.db.hashToNumber.get x = some k := by
    rw [hafter]
    exact hx
  refine ⟨⟨c, hadopted⟩, hheader, ?_, ?_, ?_, ?_⟩
  · rw [hadopted.head]
    exact hadopted.chain
  · intro k x hk
    rw [hindex] at hk
    rw [hheader, get_set]
    rcases Nat.lt_or_eq_of_le (ha.rebuild.chain.le_of_some hk) with hlt | rfl
    · obtain ⟨header, hthere⟩ := ha.rebuild.stored k x hlt hk
      rw [ha.db₁] at hthere
      split
      · exact ⟨_, rfl⟩
      · exact ⟨header, hthere⟩
    · rw [ha.rebuild.chain.top] at hk
      obtain rfl := some.inj hk
      exact ⟨_, if_pos rfl⟩
  · refine storedHeader_set hmem hpos (h.totalDifficulty_put hpos hvalid) h.headers hheader
      (by rw [hafter, ha.rebuild.others, hbefore]) (hlookup ?_) ?_
    · -- the new head has its lookup from the rebuild, or from before
      rcases Nat.lt_or_eq_of_le ha.rebuild.le with hlt | heq
      · exact ha.rebuild.hashToNumber db _ _ hlt (Nat.le_refl _) ha.rebuild.chain.top
      · refine ha.rebuild.hashToNumber_old db _ _ ?_ (fun j hlt hle => by omega)
        have hthere : s.index item.header.number = some (opts.hash item.header) := by
          rw [← ha.index₁, ← ha.rebuild.common _ (by omega), ha.rebuild.chain.top]
        obtain ⟨header, hget⟩ := h.stored _ _ hthere
        rw [hbefore]
        exact (h.headers _ _ header hget).hashToNumber
    · intro k x header hmem' hhash hnumber hget
      refine hlookup
        (ha.rebuild.hashToNumber_old db k x (by rw [hbefore]; exact hget) (fun j _ _ hj => ?_))
      rw [← hnumber]
      exact (htree.number_of_chain ha.rebuild.chain hmem' (hhash ▸ hj)).symm
  · rw [hs', ← h.genesis]
    exact congrArg Block.header ha.genesisBlock

end Adopting

/-! ## Cutting the chain short -/

/-- The index ends at `m`, and the heads above are at the hash of `m`. -/
structure Cut (s s' : Blockchain Hash) (m : Nat) (x : Hash) : Prop where
  top : s.index m = some x
  index : ∀ k, s'.index k = if k ≤ m then s.index k else none
  head : ∀ k, s.index k = some s._headHeaderHash →
    s'._headHeaderHash = if m < k then x else s._headHeaderHash
  heads : ∀ name y k, s._heads.get name = some y → s.index k = some y →
    s'._heads.get name = some (if m < k then x else y)
  headNone : ∀ name, s._heads.get name = none → s'._heads.get name = none

variable {m : Nat} {x : Hash}

omit [DecidableEq Hash] in
theorem Cut.top' {s s' : Blockchain Hash} (h : Cut s s' m x) :
    s'.index m = some x := by
  rw [h.index, if_pos (Nat.le_refl m), h.top]

omit [DecidableEq Hash] in
/-- A canonical head stays canonical. -/
theorem Cut.head_canonical {s s' : Blockchain Hash} {k : Nat} {y : Hash} (h : Cut s s' m x)
    {name : String} (hy : s._heads.get name = some y) (hk : s.index k = some y) :
    ∃ z j, s'._heads.get name = some z ∧ s'.index j = some z := by
  refine ⟨_, if m < k then m else k, h.heads name y k hy hk, ?_⟩
  split
  · exact h.top'
  · rename_i hle
    rw [h.index, if_pos (Nat.le_of_not_lt hle), hk]

theorem Canonical.cut {s s' : Blockchain Hash} {n : Nat} (h : Canonical opts tree genesis s n)
    (hcut : Cut s s' m x)
    (hstored : ∀ k y, k ≤ m → s.index k = some y → s'.db.header.get (k, y) = s.db.header.get (k, y))
    (hheaders : ∀ k y header, s'.db.header.get (k, y) = some header →
      StoredHeader opts tree genesis s'.db k y header)
    (hgenesis : s'._genesisBlock = s._genesisBlock) : Canonical opts tree genesis s' m := by
  refine ⟨?_, ?_, hheaders, ?_⟩
  · have htop : s'._headHeaderHash = x := by
      rw [hcut.head n h.chain.top]
      rcases Nat.lt_or_eq_of_le (h.chain.le_of_some hcut.top) with hlt | rfl
      · rw [if_pos hlt]
      · rw [if_neg (Nat.lt_irrefl m)]
        exact some.inj (h.chain.top.symm.trans hcut.top)
    rw [htop]
    exact (h.chain.truncate hcut.top).congr hcut.index
  · intro k y hk
    rw [hcut.index] at hk
    split at hk
    · rename_i hle
      rw [hstored k y hle hk]
      exact h.stored k y hk
    · cases hk
  · rw [hgenesis]
    exact h.genesis

/-- The chain after a reset ends at the number it was reset to. -/
theorem Canonical.reset (htree : ForkTree opts tree genesis) {s s' : Blockchain Hash} {n : Nat}
    (h : Canonical opts tree genesis s n) (hreset : s.resetCanonicalHead m = .ok s') :
    (∃ x, Cut s s' m x) ∧ Canonical opts tree genesis s' m := by
  unfold resetCanonicalHead at hreset
  cases hx : s.db.numberToHash.get m with
  | none => simp [hx] at hreset
  | some x =>
    obtain ⟨header, hheader⟩ := h.stored m x hx
    simp only [hx, getHeader, hheader, bind, Except.bind, _deleteCanonicalChainReferences_eq] at hreset
    have hs' := (ok.inj hreset).symm
    have hdb : s'.db = { s.db with
        numberToHash :=
          ((s.referencesFrom (m + 1)).map Prod.fst).foldl delete s.db.numberToHash
        heads := some s'._heads
        headHeader := some s'._headHeaderHash
        headBlock := some s'._headBlockHash } := by
      rw [hs']
      dsimp only
      rw [batch_append, batch_saveHeadOps]
      have hmove : (s.moveAll x ((s.referencesFrom (m + 1)).map Prod.snd)).db = s.db := rfl
      rw [hmove, batch_delNumberToHash]
    have hcut : Cut s s' m x := by
      constructor
      case top => exact hx
      case index =>
        intro k
        rw [index, hdb]
        dsimp only
        rw [h.get_deleted]
        by_cases hle : k ≤ m
        · rw [if_neg (by omega), if_pos hle]
        · rw [if_pos (by omega), if_neg hle]
      case head =>
        intro k hk
        rw [hs']
        simp only [moveAll, h.mem_hashes htree hk, succ_le_iff]
      case heads =>
        intro name y k hy hk
        rw [hs']
        simp only [moveAll, get_mapValues, hy, map_some, h.mem_hashes htree hk,
          succ_le_iff]
      case headNone =>
        intro name hnone
        rw [hs']
        simp only [moveAll, get_mapValues, hnone, map_none]
    refine ⟨⟨x, hcut⟩, h.cut hcut ?_ ?_ ?_⟩
    · intro k y _ _
      rw [hdb]
    · intro k y header hget
      rw [hdb] at hget
      have hold := h.headers k y header hget
      rw [hdb]
      exact ⟨hold.mem, hold.hash, hold.number, hold.hashToNumber, hold.totalDifficulty, hold.root⟩
    · rw [hs']
      rfl

/-- Deleting a canonical block deletes the canonical blocks above with it. -/
theorem Canonical.delChild {s₀ : Blockchain Hash} {n : Nat} (h : Canonical opts tree genesis s₀ n)
    (headHash : Hash) {fuel : Nat} {s : Blockchain Hash} {k : Nat} (hdb : s.db = s₀.db)
    (hx : s₀.index k = some x) (hfuel : n + 1 ≤ fuel + k) :
    _delChild opts headHash fuel s x k =
      .ok ({ s with
        _headHeaderHash :=
          if s._headHeaderHash ∈ (references s₀.index fuel k).map Prod.snd then headHash
          else s._headHeaderHash
        _headBlockHash :=
          if s._headBlockHash ∈ (references s₀.index fuel k).map Prod.snd then headHash
          else s._headBlockHash }, (references s₀.index fuel k).flatMap fun e => delOps e.2 e.1) := by
  induction fuel generalizing s k x with
  | zero =>
    have hle := h.chain.le_of_some hx
    omega
  | succ fuel ih =>
    unfold _delChild
    simp only [getCanonicalHeader, hdb, references, hx]
    cases hchild : s₀.db.numberToHash.get (k + 1) with
    | none =>
      have hrest : references s₀.index fuel (k + 1) = [] := by
        cases fuel with
        | zero => rfl
        | succ fuel => simp only [references, index, hchild]
      simp [hrest]
    | some y =>
      obtain ⟨header, hheader⟩ := h.stored (k + 1) y hchild
      have hstored := h.headers _ _ header hheader
      dsimp only
      simp only [getHeader, hheader, hstored.hash, hstored.number, bind, Except.bind]
      rw [ih (s := { s with
        db := s₀.db
        _headHeaderHash := if s._headHeaderHash = x then headHash else s._headHeaderHash
        _headBlockHash := if s._headBlockHash = x then headHash else s._headBlockHash }) rfl hchild
        (by omega)]
      simp only [map_cons, flatMap_cons, move_cons]

/-- Whether `delBlock` finds the block in the canonical chain. -/
def isCanonical (s : Blockchain Hash) (blockHash : Hash) : Bool :=
  match s.db.hashToNumber.get blockHash with
  | none => false
  | some number => s.db.numberToHash.get number = some blockHash

theorem get_headers_deleted (htree : ForkTree opts tree genesis) {db db' : ChainDB Hash}
    {refs : List (Nat × Hash)} (hrefs : ∀ e ∈ refs, ∃ header, db.header.get e = some header)
    (hdb : ∃ body, db' = { db' with
      header := refs.foldl delete db.header
      body
      hashToNumber := (refs.map Prod.snd).foldl delete db.hashToNumber
      totalDifficulty := refs.foldl delete db.totalDifficulty })
    (hheaders : ∀ k h header, db.header.get (k, h) = some header →
      StoredHeader opts tree genesis db k h header) (k : Nat) (y : Hash) (header : BlockHeader Hash)
    (hget : db'.header.get (k, y) = some header) :
    StoredHeader opts tree genesis db' k y header := by
  obtain ⟨body, hdb⟩ := hdb
  rw [hdb] at hget
  dsimp only at hget
  rw [get_foldl_delete] at hget
  split at hget
  · cases hget
  · rename_i hnot
    have hold := hheaders k y header hget
    obtain ⟨td, htd, hsum⟩ := hold.totalDifficulty
    -- its hash is not among those of the deleted headers
    have hhash : y ∉ refs.map Prod.snd := by
      intro hmem
      obtain ⟨⟨j, z⟩, he, hz⟩ := mem_map.mp hmem
      obtain rfl : z = y := hz
      obtain ⟨header', hget'⟩ := hrefs _ he
      have hsame := hheaders j z header' hget'
      obtain rfl := htree.hash_inj hold.mem hsame.mem (hold.hash.trans hsame.hash.symm)
      rw [← hold.number, hsame.number] at hnot
      exact hnot he
    refine ⟨hold.mem, hold.hash, hold.number, ?_, ⟨td, ?_, hsum⟩, hold.root⟩
    · rw [hdb]
      dsimp only
      rw [get_foldl_delete, if_neg hhash, hold.hashToNumber]
    · rw [hdb]
      dsimp only
      rw [get_foldl_delete, if_neg hnot, htd]

/-- The blocks that `delBlock` deletes with the canonical block at `m`, and the heads it moves. -/
theorem Canonical.delChild_referencesFrom {s : Blockchain Hash} {n : Nat}
    (h : Canonical opts tree genesis s n) (headHash : Hash) (hx : s.index m = some x) :
    ∃ s₁ : Blockchain Hash, s₁.db = s.db ∧ s₁._heads = s._heads ∧
      s₁._genesisBlock = s._genesisBlock ∧
      s₁._headHeaderHash = (if s._headHeaderHash ∈ (s.referencesFrom m).map Prod.snd then headHash
        else s._headHeaderHash) ∧
      _delChild opts headHash s.db.numberToHash.keys.length s x m =
        .ok (s₁, (s.referencesFrom m).flatMap fun e => delOps e.2 e.1) := by
  have hdelete := h.delChild headHash (s := s) rfl hx (le_add_right_of_le h.length_keys)
  refine ⟨_, ?_, ?_, ?_, ?_, hdelete⟩
  all_goals rfl

/-- A deleted canonical block cuts the chain below it. -/
theorem Canonical.del_canonical (htree : ForkTree opts tree genesis) {s s' : Blockchain Hash}
    {n : Nat} (h : Canonical opts tree genesis s n) (hx : s.index (m + 1) = some x)
    (hheader : s._getHeader x = .ok header) (hnumber : header.number = m + 1)
    (hp : s.index m = some header.parentHash) (hdel : delBlock opts s x = .ok s') :
    Cut s s' m header.parentHash ∧ Canonical opts tree genesis s' m := by
  obtain ⟨s₁, hdb₁, hheads₁, hgenesis₁, hhead₁, hdelChild⟩ :=
    h.delChild_referencesFrom header.parentHash hx
  obtain ⟨refs, hrefs⟩ : ∃ refs, refs = s.referencesFrom (m + 1) := ⟨_, rfl⟩
  have hthere : ∀ e ∈ refs, ∃ header, s.db.header.get e = some header := by
    intro e he
    rw [hrefs, h.mem_referencesFrom] at he
    exact h.stored _ _ he.2
  have hrefs₁ : s₁.referencesFrom (m + 1) = refs := by
    unfold referencesFrom index
    rw [hdb₁, hrefs]
    rfl
  have hin : s.db.numberToHash.get (m + 1) = some x := hx
  unfold delBlock at hdel
  simp only [hheader, bind, Except.bind, hnumber, hin, if_true, hdelChild,
    _deleteCanonicalChainReferences_eq, hrefs₁] at hdel
  rw [← hrefs] at hdel hhead₁
  have hs' := (ok.inj hdel).symm
  have hmoved {k : Nat} {y : Hash} (hk : s.index k = some y) :
      y ∈ refs.map Prod.snd ↔ m < k := by
    rw [hrefs]
    exact h.mem_hashes htree hk
  have hdb : s'.db = { s.db with
      header := refs.foldl delete s.db.header
      body := refs.foldl delete s.db.body
      hashToNumber := (refs.map Prod.snd).foldl delete s.db.hashToNumber
      totalDifficulty := refs.foldl delete s.db.totalDifficulty
      numberToHash := (refs.map Prod.fst).foldl delete s.db.numberToHash } := by
    have hmove : (s₁.moveAll header.parentHash (refs.map Prod.snd)).db = s.db := hdb₁
    rw [hs']
    dsimp only
    rw [hmove, batch_append, batch_delOps, batch_delNumberToHash]
  have hcut : Cut s s' m header.parentHash := by
    constructor
    case top => exact hp
    case index =>
      intro k
      rw [index, hdb, hrefs]
      dsimp only
      rw [h.get_deleted]
      by_cases hle : k ≤ m
      · rw [if_neg (by omega), if_pos hle]
      · rw [if_pos (by omega), if_neg hle]
    case head =>
      intro k hk
      rw [hs']
      simp only [moveAll, hhead₁, hmoved hk]
      by_cases hlt : m < k
      · simp only [if_pos hlt, ite_self]
      · simp only [if_neg hlt, hmoved hk]
    case heads =>
      intro name y k hy hk
      rw [hs']
      simp only [moveAll, hheads₁, get_mapValues, hy, map_some, hmoved hk]
    case headNone =>
      intro name hnone
      rw [hs']
      simp only [moveAll, hheads₁, get_mapValues, hnone, map_none]
  refine ⟨hcut, h.cut hcut ?_ ?_ ?_⟩
  · intro k y hle _
    have hnot : (k, y) ∉ refs := by
      rw [hrefs, h.mem_referencesFrom]
      omega
    rw [hdb]
    dsimp only
    rw [get_foldl_delete, if_neg hnot]
  · have hdeleted : ∃ body, s'.db = { s'.db with
        header := refs.foldl delete s.db.header
        body
        hashToNumber := (refs.map Prod.snd).foldl delete s.db.hashToNumber
        totalDifficulty := refs.foldl delete s.db.totalDifficulty } :=
      ⟨_, by rw [hdb]⟩
    exact get_headers_deleted htree hthere hdeleted h.headers
  · rw [hs']
    exact hgenesis₁

/-- A block that is deleted beside the canonical chain leaves the chain as it is. -/
theorem Canonical.del_beside (htree : ForkTree opts tree genesis) {s s' : Blockchain Hash}
    {n number : Nat} (h : Canonical opts tree genesis s n) (hx : s.index number ≠ some x)
    (hheader : s._getHeader x = .ok header) (hnumber : header.number = number)
    (hget : s.db.header.get (number, x) = some header) (hdel : delBlock opts s x = .ok s') :
    (∃ db, s' = { s with db }) ∧ s'.db.heads = s.db.heads ∧ s'.db.headHeader = s.db.headHeader ∧
      s'.db.headBlock = s.db.headBlock ∧ s'.index = s.index ∧ Canonical opts tree genesis s' n := by
  have hnot : ¬ s.db.numberToHash.get number = some x := hx
  unfold delBlock at hdel
  simp only [hheader, bind, Except.bind, hnumber, hnot, if_false] at hdel
  have hs' := (ok.inj hdel).symm
  have hone := batch_delOps s.db [(number, x)]
  rw [flatMap_singleton] at hone
  rw [hone] at hs'
  have hindex : s'.index = s.index := by
    funext k
    rw [hs', index, index]
  refine ⟨⟨_, hs'⟩, by rw [hs'], by rw [hs'], by rw [hs'], hindex, ?_, ?_, ?_, ?_⟩
  · rw [hindex, hs']
    exact h.chain
  · intro k y hk
    rw [hindex] at hk
    obtain ⟨header', hheader'⟩ := h.stored k y hk
    have hne : (k, y) ∉ [(number, x)] := by
      intro hmem
      obtain ⟨rfl, rfl⟩ := Prod.mk.inj (mem_singleton.mp hmem)
      exact hx hk
    refine ⟨header', ?_⟩
    rw [hs']
    dsimp only
    rw [get_foldl_delete, if_neg hne, hheader']
  · have hthere : ∀ e ∈ [(number, x)], ∃ header, s.db.header.get e = some header := by
      intro e he
      rw [mem_singleton.mp he]
      exact ⟨header, hget⟩
    exact get_headers_deleted htree hthere ⟨_, by rw [hs']⟩ h.headers
  · rw [hs']
    exact h.genesis

/-- The canonical block above the genesis block has a canonical parent. -/
theorem Canonical.parent_canonical (htree : ForkTree opts tree genesis) {s : Blockchain Hash}
    {n : Nat} (h : Canonical opts tree genesis s n) (hmem : header ∈ tree)
    (hx : s.index (m + 1) = some (opts.hash header)) :
    s.index m = some header.parentHash := by
  obtain ⟨p, hp, header', hmem', hhash', -, rfl⟩ := h.chain.link_of_succ hx
  rw [hp, htree.hash_inj hmem' hmem hhash']

/-- What `delBlock` does to the chain. -/
theorem Canonical.del (htree : ForkTree opts tree genesis) {s s' : Blockchain Hash} {n : Nat}
    (h : Canonical opts tree genesis s n) (hx : x ≠ opts.hash genesis)
    (hdel : delBlock opts s x = .ok s') :
    (s.isCanonical x = false ∧ (∃ db, s' = { s with db }) ∧ s'.db.heads = s.db.heads ∧
      s'.db.headHeader = s.db.headHeader ∧ s'.db.headBlock = s.db.headBlock ∧ s'.index = s.index ∧
      Canonical opts tree genesis s' n) ∨
    (s.isCanonical x = true ∧ ∃ m p, m < n ∧ Cut s s' m p ∧ Canonical opts tree genesis s' m) := by
  cases hheader : s._getHeader x with
  | error e => simp [delBlock, hheader, bind, Except.bind] at hdel
  | ok header =>
    obtain ⟨number, hnumber, hget⟩ := _getHeader_ok hheader
    have hstored := h.headers number x header hget
    by_cases hcanonical : s.index number = some x
    · cases number with
      | zero =>
        rw [h.chain.root] at hcanonical
        exact absurd (some.inj hcanonical).symm hx
      | succ m =>
        have hcut := h.del_canonical htree hcanonical hheader hstored.number
          (h.parent_canonical htree hstored.mem (hstored.hash ▸ hcanonical)) hdel
        have hin : s.db.numberToHash.get (m + 1) = some x := hcanonical
        exact .inr ⟨by simp [isCanonical, hnumber, hin], m, _, h.chain.le_of_some hcanonical, hcut⟩
    · have hout : ¬ s.db.numberToHash.get number = some x := hcanonical
      exact .inl ⟨by simp [isCanonical, hnumber, hout],
        h.del_beside htree hcanonical hheader hstored.number hget hdel⟩

end Blockchain
