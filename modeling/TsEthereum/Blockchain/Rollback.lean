-- SUMMARY: Puts that are rejected, over the caches of the database, and what they leave behind.
import TsEthereum.Blockchain.Heads
import TsEthereum.Blockchain.ChainCaches
import TsEthereum.Base.Fallible
import TsEthereum.Base.Program

/-!
# Rejected puts

`_putBlockOrHeader` moves the heads before it is done and takes them back where it
throws. The tables are written last, the caches before the database, and
`consensus.newBlock` runs after both. So a put that is rejected leaves everything
as it was, unless it is the database or `newBlock` that rejects it. Calls come one
after another here, and a read that fills a cache or an entry that is dropped may
come between any two of them.
-/

/-- A blockchain whose database is read through caches. The tables of `chain` are those that the
database has. -/
structure CachedBlockchain (Hash : Type) where
  chain : Blockchain Hash
  _cache : ChainCaches Hash

/-- What comes to a put from outside. -/
structure PutEnv (Hash : Type) where
  /-- What the caches do before the batch. -/
  events : List (CacheEvent Hash)
  /-- How the write of the database fails. -/
  write : Option ChainError
  /-- What `consensus.newBlock` throws. -/
  newBlock : Option ChainError

/-- Nothing fails once the batch is under way. -/
structure PutEnv.Quiet {Hash : Type} (env : PutEnv Hash) : Prop where
  write : env.write = none
  newBlock : env.newBlock = none

namespace CachedBlockchain

open Program

variable {Hash : Type} [DecidableEq Hash] (opts : BlockchainOptions Hash)

/-! ## Putting -/

def served (s : CachedBlockchain Hash) : ChainDB Hash := s._cache.served s.chain.db

/-- The chain as reads show it. -/
def view (s : CachedBlockchain Hash) : Blockchain Hash := { s.chain with db := s.served }

/-- The heads of another chain. -/
def withHeads (s : CachedBlockchain Hash) (t : Blockchain Hash) : CachedBlockchain Hash :=
  { s with
    chain := { s.chain with
      _heads := t._heads
      _headHeaderHash := t._headHeaderHash
      _headBlockHash := t._headBlockHash } }

def happen (s : CachedBlockchain Hash) (events : List (CacheEvent Hash)) : CachedBlockchain Hash :=
  { s with _cache := events.foldl (ChainCaches.happen s.chain.db) s._cache }

/-- A part of the put that reads the tables and moves the heads. -/
def moving {α : Type} (f : Blockchain Hash → Except ChainError (Blockchain Hash × α)) :
    Program ChainError (CachedBlockchain Hash) α := fun s =>
  match f s.view with
  | .ok (t, a) => (.ok a, s.withHeads t)
  | .error e => (.error e, s)

/-- `DBManager.batch`. -/
def batch (write : Option ChainError) (ops : List (DBOp Hash)) :
    Program ChainError (CachedBlockchain Hash) Unit := do
  modify fun s => { s with _cache := ops.foldl ChainCaches.updateCache s._cache }
  match write with
  | some e => throw e
  | none => modify fun s => { s with chain := { s.chain with db := s.chain.db.batch ops } }

/-- The new head, whose canonical chain is written with it. -/
def adopt (item : ChainItem Hash) : Program ChainError (CachedBlockchain Hash) (List (DBOp Hash)) := do
  let blockHash := opts.hash item.header
  let _ ← ofExcept (Blockchain.findCommonAncestor opts (← get).view item.header)
  modify fun s => s.withHeads { s.chain with
    _headHeaderHash := blockHash
    _headBlockHash := if item.body.isSome then blockHash else s.chain._headBlockHash }
  let deleted ← moving fun s =>
    .ok (s._deleteCanonicalChainReferences (item.header.number + 1) blockHash)
  let rebuilt ← moving fun s => Blockchain._rebuildCanonical opts s item.header
  pure (deleted ++ rebuilt)

def changeHeads (item : ChainItem Hash) (td currentTdHeader currentTdBlock : Nat) :
    Program ChainError (CachedBlockchain Hash) (List (DBOp Hash)) :=
  let blockHash := opts.hash item.header
  if td > currentTdHeader ∨ item.proofOfStake then adopt opts item
  else do
    modify fun s =>
      if td > currentTdBlock ∧ item.body.isSome then
        s.withHeads { s.chain with _headBlockHash := blockHash }
      else s
    pure [.setHashToNumber blockHash item.header.number]

/-- `_putBlockOrHeader` from the validation of the item up to the batch, with its operations. -/
def stage (item : ChainItem Hash) : Program ChainError (CachedBlockchain Hash) (List (DBOp Hash)) := do
  let s := (← get).view
  ofExcept (Blockchain.validateItem opts s item)
  ofExcept (opts.checkConsensus s item)
  let currentTdHeader ← ofExcept (s.getTotalDifficulty s._headHeaderHash)
  let currentTdBlock ← ofExcept (s.getTotalDifficulty s._headBlockHash)
  let td := item.header.difficulty + s.getParentTD item.header
  let stored := .setTotalDifficulty item.header.number (opts.hash item.header) td ::
    Blockchain.DBSetBlockOrHeader opts item
  let ops ← changeHeads opts item td currentTdHeader currentTdBlock
  pure (stored ++ ops)

/-- The `try` block of `_putBlockOrHeader`. -/
def tryPut (item : ChainItem Hash) (env : PutEnv Hash) :
    Program ChainError (CachedBlockchain Hash) Unit := do
  let blockHash := opts.hash item.header
  if item.header.number = 0 then
    if opts.hash (← get).chain._genesisBlock.header = blockHash then pure ()
    else throw (.other "Cannot put a different genesis block than current blockchain genesis: create a new Blockchain")
  else if item.chainId ≠ opts.chainId then
    throw (.other "Chain mismatch while trying to put block or header")
  else do
    modify (·.happen env.events)
    let dbOps ← stage opts item
    batch env.write (dbOps ++ (← get).chain._saveHeadOps)
    match env.newBlock with
    | some e => throw e
    | none => pure ()

/-- What throws gives the heads back. -/
def _putBlockOrHeader (item : ChainItem Hash) (env : PutEnv Hash) :
    Program ChainError (CachedBlockchain Hash) Unit := fun s =>
  match tryPut opts item env s with
  | (.ok _, s') => (.ok (), s')
  | (.error e, s') => (.error e, s'.withHeads s.chain)

/-- `putBlocks`; `putBlock` and `putHeader` are those with one item. -/
def putBlocks : List (ChainItem Hash × PutEnv Hash) → Program ChainError (CachedBlockchain Hash) Unit
  | [] => pure ()
  | (item, env) :: items => do
    _putBlockOrHeader opts item env
    putBlocks items

end CachedBlockchain

/-! ## What moves the heads only -/

namespace Blockchain

variable {Hash : Type} [DecidableEq Hash] {opts : BlockchainOptions Hash}

/-- The same tables and genesis block, with any heads. -/
structure SameTables (s t : Blockchain Hash) : Prop where
  db : t.db = s.db
  genesisBlock : t._genesisBlock = s._genesisBlock

omit [DecidableEq Hash] in
theorem SameTables.refl (s : Blockchain Hash) : SameTables s s := ⟨rfl, rfl⟩

omit [DecidableEq Hash] in
theorem SameTables.trans {s t u : Blockchain Hash} (h : SameTables s t) (h' : SameTables t u) :
    SameTables s u :=
  ⟨h'.db.trans h.db, h'.genesisBlock.trans h.genesisBlock⟩

theorem sameTables_deleteReferences (headHash : Hash) (fuel blockNumber : Nat) (s : Blockchain Hash) :
    SameTables s (deleteReferences headHash fuel blockNumber s).1 := by
  induction fuel generalizing blockNumber s with
  | zero => exact .refl s
  | succ fuel ih =>
    unfold deleteReferences
    split
    · exact .refl s
    · next hash _ =>
      have hmoved : SameTables s (s.moveHeads headHash hash) := ⟨rfl, rfl⟩
      exact hmoved.trans (ih (blockNumber + 1) (s.moveHeads headHash hash))

theorem sameTables_deleteCanonical (s : Blockchain Hash) (blockNumber : Nat) (headHash : Hash) :
    SameTables s (s._deleteCanonicalChainReferences blockNumber headHash).1 :=
  sameTables_deleteReferences headHash s.db.numberToHash.keys.length blockNumber s

theorem sameTables_rebuildCanonical {s t : Blockchain Hash} {header : BlockHeader Hash}
    {ops : List (DBOp Hash)} (h : _rebuildCanonical opts s header = .ok (t, ops)) : SameTables s t := by
  unfold _rebuildCanonical at h
  obtain ⟨r, -, hr⟩ := Except.bind_eq_ok.mp h
  obtain ⟨rfl, -⟩ := Prod.mk.inj (Except.ok.inj hr)
  exact ⟨rfl, rfl⟩

end Blockchain

/-! ## Puts over caches that do not show -/

namespace CachedBlockchain

open Program Blockchain

variable {Hash : Type} [DecidableEq Hash] {opts : BlockchainOptions Hash}

/-- Every cached entry is in the database. -/
def Coherent (s : CachedBlockchain Hash) : Prop := s._cache.Coherent s.chain.db

theorem Coherent.view_eq {s : CachedBlockchain Hash} (h : s.Coherent) : s.view = s.chain := by
  have hserved : s.served = s.chain.db := h.served_eq
  unfold view
  rw [hserved]

theorem Coherent.happen {s : CachedBlockchain Hash} (h : s.Coherent) (events : List (CacheEvent Hash)) :
    (s.happen events).Coherent := h.events events

/-- The database has not been written, and its caches still do not show. -/
structure Kept (s s' : CachedBlockchain Hash) : Prop where
  tables : SameTables s.chain s'.chain
  coherent : s'.Coherent

theorem Coherent.kept {s : CachedBlockchain Hash} (h : s.Coherent) : Kept s s := ⟨.refl s.chain, h⟩

theorem Kept.trans {s s' s'' : CachedBlockchain Hash} (h : Kept s s') (h' : Kept s' s'') : Kept s s'' :=
  ⟨h.tables.trans h'.tables, h'.coherent⟩

theorem Coherent.withHeads {s : CachedBlockchain Hash} (h : s.Coherent) (t : Blockchain Hash) :
    Kept s (s.withHeads t) := ⟨⟨rfl, rfl⟩, h⟩

omit [DecidableEq Hash] in
theorem withHeads_of_sameTables {s : CachedBlockchain Hash} {t : Blockchain Hash}
    (h : SameTables s.chain t) : (s.withHeads t).chain = t := by
  obtain ⟨db, genesisBlock, heads, headHeader, headBlock⟩ := t
  obtain rfl : db = s.chain.db := h.db
  obtain rfl : genesisBlock = s.chain._genesisBlock := h.genesisBlock
  rfl

/-- The program comes to what `x` says, and writes nothing but the heads. -/
def Follows {α : Type} (p : Program ChainError (CachedBlockchain Hash) α)
    (x : Except ChainError (Blockchain Hash × α)) (s : CachedBlockchain Hash) : Prop :=
  p.wp (fun a s' => x = .ok (s'.chain, a) ∧ Kept s s') (fun e s' => x = .error e ∧ Kept s s') s

section Follows

variable {α β : Type} {s : CachedBlockchain Hash}

theorem Follows.pure (hs : s.Coherent) (a : α) :
    Follows (Pure.pure a) (.ok (s.chain, a)) s := ⟨rfl, hs.kept⟩

theorem Follows.andThen {p : Program ChainError (CachedBlockchain Hash) α}
    {f : α → Program ChainError (CachedBlockchain Hash) β}
    {x : Except ChainError (Blockchain Hash × α)}
    {g : Blockchain Hash × α → Except ChainError (Blockchain Hash × β)} (hp : Follows p x s)
    (hf : ∀ a s', x = .ok (s'.chain, a) → Kept s s' → Follows (f a) (g (s'.chain, a)) s') :
    Follows (p >>= f) (x >>= g) s := by
  unfold Follows
  rw [wp_bind]
  apply wp_mono hp
  · rintro a s' ⟨hx, hkept⟩
    have hgx : (x >>= g) = g (s'.chain, a) := by rw [hx]; rfl
    rw [hgx]
    exact wp_mono (hf a s' hx hkept) (fun b s'' h => ⟨h.1, hkept.trans h.2⟩)
      (fun e s'' h => ⟨h.1, hkept.trans h.2⟩)
  · rintro e s' ⟨hx, hkept⟩
    exact ⟨by rw [hx]; rfl, hkept⟩

/-- A value that does not depend on what is moved. -/
theorem Follows.read {x : Except ChainError α} (hs : s.Coherent)
    {f : α → Program ChainError (CachedBlockchain Hash) β}
    {g : α → Except ChainError (Blockchain Hash × β)} (hf : ∀ a, x = .ok a → Follows (f a) (g a) s) :
    Follows (ofExcept x >>= f) (x >>= g) s := by
  cases x with
  | error e => exact ⟨rfl, hs.kept⟩
  | ok a => exact hf a rfl

theorem Follows.modify {h : CachedBlockchain Hash → CachedBlockchain Hash} (hkept : Kept s (h s))
    {f : Unit → Program ChainError (CachedBlockchain Hash) β}
    {x : Except ChainError (Blockchain Hash × β)} (hf : Follows (f ()) x (h s)) :
    Follows (Program.modify h >>= f) x s := by
  unfold Follows
  rw [wp_bind, wp_modify]
  exact wp_mono hf (fun b s' h => ⟨h.1, hkept.trans h.2⟩) (fun e s' h => ⟨h.1, hkept.trans h.2⟩)

theorem Follows.moving (hs : s.Coherent) {f : Blockchain Hash → Except ChainError (Blockchain Hash × α)}
    (hf : ∀ t a, f s.chain = .ok (t, a) → SameTables s.chain t) :
    Follows (moving f) (f s.chain) s := by
  have hrun : CachedBlockchain.moving f s = match f s.chain with
      | .ok (t, a) => (.ok a, s.withHeads t)
      | .error e => (.error e, s) := by
    unfold CachedBlockchain.moving
    rw [hs.view_eq]
  unfold Follows wp
  rw [hrun]
  rcases hf' : f s.chain with e | ⟨t, a⟩
  · exact ⟨rfl, hs.kept⟩
  · have hchain := withHeads_of_sameTables (hf t a hf')
    exact ⟨by rw [hchain], hs.withHeads t⟩

end Follows

theorem follows_adopt {s : CachedBlockchain Hash} (hs : s.Coherent) (item : ChainItem Hash) :
    Follows (adopt opts item) (Blockchain.adopt opts s.chain item) s := by
  unfold adopt Blockchain.adopt
  change Follows (ofExcept (findCommonAncestor opts s.view item.header) >>= _) _ s
  rw [hs.view_eq]
  apply Follows.read hs
  intro ancestor _
  apply Follows.modify (hs.withHeads _)
  -- the state now has the head of the item
  generalize hadopted : s.withHeads _ = s₁
  have hs₁ : s₁.Coherent := by
    rw [← hadopted]
    exact hs
  have hchain : s₁.chain = { s.chain with
      _headHeaderHash := opts.hash item.header
      _headBlockHash := if item.body.isSome then opts.hash item.header else s.chain._headBlockHash } := by
    rw [← hadopted]
    rfl
  rw [← hchain]
  have hdeleted : Follows (moving fun s =>
        .ok (s._deleteCanonicalChainReferences (item.header.number + 1) (opts.hash item.header)))
      (.ok (s₁.chain._deleteCanonicalChainReferences (item.header.number + 1) (opts.hash item.header)))
      s₁ := by
    apply Follows.moving hs₁
    intro t ops h
    have hdeleted := sameTables_deleteCanonical s₁.chain (item.header.number + 1)
      (opts.hash item.header)
    rw [Except.ok.inj h] at hdeleted
    exact hdeleted
  change Follows (_ >>= _) (.ok (s₁.chain._deleteCanonicalChainReferences (item.header.number + 1)
    (opts.hash item.header)) >>= fun r => _rebuildCanonical opts r.1 item.header >>= fun r' =>
      .ok (r'.1, r.2 ++ r'.2)) s₁
  apply hdeleted.andThen
  intro deleted s₂ _ hkept₂
  have hrebuilt : Follows (moving fun s => _rebuildCanonical opts s item.header)
      (_rebuildCanonical opts s₂.chain item.header) s₂ :=
    Follows.moving hkept₂.coherent fun t ops h => sameTables_rebuildCanonical h
  apply hrebuilt.andThen
  intro rebuilt s₃ _ hkept₃
  exact Follows.pure hkept₃.coherent (deleted ++ rebuilt)

theorem follows_changeHeads {s : CachedBlockchain Hash} (hs : s.Coherent) (item : ChainItem Hash)
    (td currentTdHeader currentTdBlock : Nat) :
    Follows (changeHeads opts item td currentTdHeader currentTdBlock)
      (Blockchain.changeHeads opts s.chain item td currentTdHeader currentTdBlock) s := by
  unfold changeHeads Blockchain.changeHeads
  dsimp only
  split
  · exact follows_adopt hs item
  · split
    · have hmoved := hs.withHeads { s.chain with _headBlockHash := opts.hash item.header }
      exact Follows.modify hmoved (Follows.pure hmoved.coherent _)
    · exact Follows.modify hs.kept (Follows.pure hs _)

/-- The part of a put from the validation of the item up to the batch. -/
def staged (opts : BlockchainOptions Hash) (s : Blockchain Hash) (item : ChainItem Hash) :
    Except ChainError (Blockchain Hash × List (DBOp Hash)) := do
  validateItem opts s item
  opts.checkConsensus s item
  let currentTdHeader ← s.getTotalDifficulty s._headHeaderHash
  let currentTdBlock ← s.getTotalDifficulty s._headBlockHash
  let td := item.header.difficulty + s.getParentTD item.header
  let stored := .setTotalDifficulty item.header.number (opts.hash item.header) td ::
    DBSetBlockOrHeader opts item
  let (s, ops) ← Blockchain.changeHeads opts s item td currentTdHeader currentTdBlock
  .ok (s, stored ++ ops)

theorem put_of_staged (opts : BlockchainOptions Hash) (s : Blockchain Hash) {item : ChainItem Hash}
    (hnumber : item.header.number ≠ 0) (hchain : item.chainId = opts.chainId) :
    Blockchain._putBlockOrHeader opts s item = staged opts s item >>= fun r =>
      .ok { r.1 with db := r.1.db.batch (r.2 ++ r.1._saveHeadOps) } := by
  unfold Blockchain._putBlockOrHeader staged
  dsimp only
  rw [if_neg hnumber, if_neg (not_not_intro hchain)]
  simp only [bind_assoc]
  rfl

theorem follows_stage {s : CachedBlockchain Hash} (hs : s.Coherent) (item : ChainItem Hash) :
    Follows (stage opts item) (staged opts s.chain item) s := by
  unfold stage staged
  change Follows (ofExcept (validateItem opts s.view item) >>= _) _ s
  rw [hs.view_eq]
  apply Follows.read hs
  intro _ _
  apply Follows.read hs
  intro _ _
  apply Follows.read hs
  intro currentTdHeader _
  apply Follows.read hs
  intro currentTdBlock _
  apply (follows_changeHeads hs item _ currentTdHeader currentTdBlock).andThen
  intro ops s' _ hkept
  exact Follows.pure hkept.coherent _

/-- A put whose batch is written. -/
theorem tryPut_wp {s : CachedBlockchain Hash} (hs : s.Coherent) (item : ChainItem Hash)
    {env : PutEnv Hash} (hwrite : env.write = none) : (tryPut opts item env).wp
      (fun _ s' => Blockchain._putBlockOrHeader opts s.chain item = .ok s'.chain ∧ s'.Coherent)
      (fun e s' => s'.Coherent ∧ (env.newBlock = some e ∨
        Blockchain._putBlockOrHeader opts s.chain item = .error e ∧ SameTables s.chain s'.chain)) s := by
  unfold tryPut
  dsimp only
  by_cases hnumber : item.header.number = 0
  · rw [if_pos hnumber, wp_bind, wp_get]
    unfold Blockchain._putBlockOrHeader
    dsimp only
    rw [if_pos hnumber]
    split
    · exact ⟨rfl, hs⟩
    · exact ⟨hs, .inr ⟨rfl, .refl s.chain⟩⟩
  rw [if_neg hnumber]
  by_cases hchain : item.chainId = opts.chainId
  · rw [if_neg (not_not_intro hchain), put_of_staged opts s.chain hnumber hchain, wp_bind, wp_modify,
      wp_bind]
    have hevents := hs.happen env.events
    apply wp_mono (follows_stage hevents item)
    · rintro dbOps s₁ ⟨hstaged, hkept⟩
      have hput : (staged opts s.chain item >>= fun r =>
          Except.ok { r.1 with db := r.1.db.batch (r.2 ++ r.1._saveHeadOps) }) =
          .ok { s₁.chain with db := s₁.chain.db.batch (dbOps ++ s₁.chain._saveHeadOps) } := by
        change staged opts s.chain item = _ at hstaged
        rw [hstaged]
        rfl
      have hbatch := hkept.coherent.batch (dbOps ++ s₁.chain._saveHeadOps)
      unfold CachedBlockchain.batch
      rw [hwrite, wp_bind, wp_get, wp_bind, wp_bind, wp_modify, wp_modify]
      split
      · next e he => exact ⟨hbatch, .inl he⟩
      · exact ⟨hput, hbatch⟩
    · rintro e s₁ ⟨hstaged, hkept⟩
      refine ⟨hkept.coherent, .inr ⟨?_, hkept.tables⟩⟩
      change staged opts s.chain item = _ at hstaged
      rw [hstaged]
      rfl
  · rw [if_pos hchain]
    unfold Blockchain._putBlockOrHeader
    dsimp only
    rw [if_neg hnumber, if_pos hchain]
    exact ⟨hs, .inr ⟨rfl, .refl s.chain⟩⟩

/-- A put over caches that do not show, whose batch is written: it does what the chain alone
does, or `newBlock` throws. -/
theorem put_wp {s : CachedBlockchain Hash} (hs : s.Coherent) (item : ChainItem Hash)
    {env : PutEnv Hash} (hwrite : env.write = none) : (_putBlockOrHeader opts item env).wp
      (fun _ s' => Blockchain._putBlockOrHeader opts s.chain item = .ok s'.chain ∧ s'.Coherent)
      (fun e s' => s'.Coherent ∧ (env.newBlock = some e ∨
        Blockchain._putBlockOrHeader opts s.chain item = .error e ∧ s'.chain = s.chain)) s := by
  have htry : (tryPut opts item env).wp _ _ s := tryPut_wp hs item hwrite
  unfold wp _putBlockOrHeader
  unfold wp at htry
  rcases hrun : tryPut opts item env s with ⟨e | _, s₁⟩ <;> rw [hrun] at htry
  · obtain ⟨hcoherent, hthrown | ⟨hput, hsame⟩⟩ := htry
    · exact ⟨hcoherent, .inl hthrown⟩
    · have hback : (s₁.withHeads s.chain).chain = s.chain :=
        withHeads_of_sameTables ⟨hsame.db.symm, hsame.genesisBlock.symm⟩
      exact ⟨hcoherent, .inr ⟨hput, hback⟩⟩
  · exact htry

theorem Coherent.put {s : CachedBlockchain Hash} (hs : s.Coherent) (item : ChainItem Hash)
    {env : PutEnv Hash} (hwrite : env.write = none) :
    (_putBlockOrHeader opts item env s).2.Coherent :=
  outcome_of_wp Coherent
    (wp_mono (put_wp hs item hwrite) (fun _ _ h => h.2) (fun _ _ h => h.1))

/-! ## Runs -/

/-- The states that calls lead to, while the database takes every batch. -/
inductive Run (opts : BlockchainOptions Hash) : CachedBlockchain Hash → Prop
  /-- A new manager has empty caches, whatever its database holds. -/
  | create (chain : Blockchain Hash) : Run opts ⟨chain, .empty⟩
  | put {s : CachedBlockchain Hash} (item : ChainItem Hash) (env : PutEnv Hash)
      (hwrite : env.write = none) (hrun : Run opts s) : Run opts (_putBlockOrHeader opts item env s).2
  /-- Any other call: it moves the heads and writes a batch, which is empty where it throws. -/
  | call {s : CachedBlockchain Hash} (t : Blockchain Hash) (ops : List (DBOp Hash))
      (hbatch : t.db = s.chain.db.batch ops) (hrun : Run opts s) :
      Run opts ⟨t, ops.foldl ChainCaches.updateCache s._cache⟩
  | happen {s : CachedBlockchain Hash} (events : List (CacheEvent Hash)) (hrun : Run opts s) :
      Run opts (s.happen events)

theorem Run.coherent {s : CachedBlockchain Hash} (h : Run opts s) : s.Coherent := by
  induction h with
  | create chain => exact ChainCaches.coherent_empty chain.db
  | put item env hwrite _ ih => exact ih.put item hwrite
  | call t ops hbatch _ ih =>
    unfold Coherent
    rw [hbatch]
    exact ih.batch ops
  | happen events _ ih => exact ih.happen events

/-- What a rejected put leaves, where neither the database nor `newBlock` rejects it. -/
theorem unchanged_of_rejected {s s' : CachedBlockchain Hash} (hs : s.Coherent) {item : ChainItem Hash}
    {env : PutEnv Hash} (hquiet : env.Quiet) {e : ChainError}
    (h : _putBlockOrHeader opts item env s = (.error e, s')) :
    s'.chain = s.chain ∧ s'.served = s.served := by
  obtain ⟨hcoherent, hthrown | ⟨-, hchain⟩⟩ := wp_error h (put_wp hs item hquiet.write)
  · rw [hquiet.newBlock] at hthrown
    cases hthrown
  · have hserved : s'.served = s'.chain.db := hcoherent.served_eq
    rw [hserved, hchain]
    exact ⟨rfl, hs.served_eq.symm⟩

def sampleCached : CachedBlockchain Nat := ⟨createBlockchain sampleOptions sampleGenesis, .empty⟩

def quietEnv : PutEnv Nat := ⟨[], none, none⟩

def sampleBlocks : List (ChainItem Nat × PutEnv Nat) :=
  [(sampleBlock 21 1 1 3, quietEnv), (sampleBlock 22 99 2 9, quietEnv)]

end CachedBlockchain
