-- SUMMARY: An iterator whose callbacks run while blocks are put and deleted.
import TsEthereum.Blockchain.Heads

/-!
# Iterating

`iterator` with `releaseLockOnCallback` hands a block to its callback, lets go of
the lock, and takes it again when the callback returns. What runs under the lock
is one step; between two steps the chain may change in any way. A block that has
been replaced meanwhile is noticed, but the first block of a run, and a block
whose parent has come back, are replaced at the same number without a look at
the head.
-/

open Option List Except Nat

namespace Blockchain

variable {Hash : Type} [DecidableEq Hash] (opts : BlockchainOptions Hash)

/-! ## The loop -/

/-- The head that an iterator continues from. -/
def iteratorHead (s : Blockchain Hash) (name : String) : Hash :=
  (s._heads.get name).getD (opts.hash s._genesisBlock.header)

/-- The local variables of `iterator`. -/
structure IteratorTask (Hash : Type) where
  name : String
  maxBlocks : Option Nat
  nextBlockNumber : Nat
  blocksRanCounter : Nat
  lastBlock : Option (Block Hash)

/-- Where an iterator has come to. -/
inductive Progress (Hash : Type) where
  | onBlock (nextBlock : Block Hash) (reorg : Bool) (task : IteratorTask Hash)
  | returned (blocksRanCounter : Nat)
  | thrown (e : ChainError)

/-- The next block of the loop. Where it is no child of the last one, the counters are reloaded
from the head. -/
def nextBlock (s : Blockchain Hash) (task : IteratorTask Hash) :
    Except ChainError (Block Hash × Bool × IteratorTask Hash) := do
  let nextBlock ← s.getBlockByNumber task.nextBlockNumber
  let reorg := task.lastBlock.any fun lastBlock =>
    decide (opts.hash lastBlock.header ≠ nextBlock.header.parentHash)
  if reorg then
    let headBlockNumber ← s.hashToNumber (iteratorHead opts s task.name)
    let nextBlock ← s.getBlockByNumber (headBlockNumber + 1)
    .ok (nextBlock, reorg, { task with nextBlockNumber := headBlockNumber + 1 })
  else .ok (nextBlock, reorg, task)

/-- The loop, from its condition up to the next callback or its end. -/
def advance (s : Blockchain Hash) (task : IteratorTask Hash) : Progress Hash :=
  if task.maxBlocks = some task.blocksRanCounter then .returned task.blocksRanCounter
  else
    match nextBlock opts s task with
    | .ok (nextBlock, reorg, task) => .onBlock nextBlock reorg task
    | .error (.notFoundInDB _) => .returned task.blocksRanCounter
    | .error e => .thrown e

/-- Whether another block is canonical where the callback's block was. -/
def reorgWhileOnBlock (s : Blockchain Hash) (task : IteratorTask Hash) (nextBlock : Block Hash) :
    Bool :=
  match s.getBlockByNumber task.nextBlockNumber with
  | .ok block => decide (opts.hash block.header ≠ opts.hash nextBlock.header)
  | .error _ => true

/-- What a callback that has returned leaves: where its block is still canonical, the head is moved
to it. -/
def resume (s : Blockchain Hash) (task : IteratorTask Hash) (nextBlock : Block Hash) :
    Blockchain Hash × IteratorTask Hash :=
  if reorgWhileOnBlock opts s task nextBlock then
    (s, { task with blocksRanCounter := task.blocksRanCounter + 1 })
  else
    ({ s with _heads := s._heads.set task.name (opts.hash nextBlock.header) },
      { task with
        lastBlock := some nextBlock
        nextBlockNumber := task.nextBlockNumber + 1
        blocksRanCounter := task.blocksRanCounter + 1 })

/-! ## Interleaving -/

/-- A chain with its iterator. -/
structure World (Hash : Type) where
  chain : Blockchain Hash
  progress : Option (Progress Hash)
  /-- What has been handed to `onBlock`, and the head of the iterator at that moment. -/
  handed : List (Block Hash × Hash)

inductive Event (Hash : Type) where
  | call (c : Call Hash)
  | iterator (name : String) (maxBlocks : Option Nat)
  /-- The callback returns, or throws. -/
  | returned (result : Except ChainError Unit)

/-- The calls that may run while the callback does. -/
def Call.changesChain : Call Hash → Bool
  | .put _ | .putBlocks _ | .delBlock _ | .resetCanonicalHead _ => true
  | _ => false

namespace World

/-- The lock is released for a callback, or for good once the heads are saved. -/
def release (w : World Hash) (s : Blockchain Hash) : Progress Hash → World Hash
  | .onBlock nextBlock reorg task =>
    { chain := s
      progress := some (.onBlock nextBlock reorg task)
      handed := (nextBlock, iteratorHead opts s task.name) :: w.handed }
  | progress => { w with chain := s._saveHeads, progress := some progress }

def iterator (w : World Hash) (name : String) (maxBlocks : Option Nat) : World Hash :=
  match w.chain.hashToNumber (iteratorHead opts w.chain name) with
  | .error e => { w with progress := some (.thrown e) }
  | .ok headBlockNumber =>
    w.release opts w.chain (advance opts w.chain ⟨name, maxBlocks, headBlockNumber + 1, 0, none⟩)

/-- What follows when the callback is over and the lock has been taken. -/
def returned (w : World Hash) (nextBlock : Block Hash) (task : IteratorTask Hash) :
    Except ChainError Unit → World Hash
  | .error (.notFoundInDB _) => w.release opts w.chain (.returned task.blocksRanCounter)
  | .error e => w.release opts w.chain (.thrown e)
  | .ok () =>
    let (s, task) := resume opts w.chain task nextBlock
    w.release opts s (advance opts s task)

/-- The step of an event, where it can take place. -/
def next (w : World Hash) : Event Hash → Option (World Hash)
  | .call c =>
    if c.changesChain then (c.run opts w.chain).toOption.map fun s => { w with chain := s } else none
  | .iterator name maxBlocks =>
    match w.progress with
    | some (.onBlock _ _ _) => none
    | _ => some (w.iterator opts name maxBlocks)
  | .returned result =>
    match w.progress with
    | some (.onBlock nextBlock _ task) => some (w.returned opts nextBlock task result)
    | _ => none

end World

variable {opts}

def Event.Valid (opts : BlockchainOptions Hash) (tree : Set (BlockHeader Hash))
    (genesis : BlockHeader Hash) (w : World Hash) : Event Hash → Prop
  | .call c => c.Valid opts tree genesis w.chain
  | _ => True

/-- What an interleaving leads to, from any state of the chain, when every step meets a condition. -/
inductive WorldRun (opts : BlockchainOptions Hash) (tree : Set (BlockHeader Hash))
    (genesisBlock : Block Hash) (Meets : World Hash → Event Hash → Prop) : World Hash → Prop
  | start {hist : History Hash} {s : Blockchain Hash} (hrun : Run opts tree genesisBlock hist s) :
      WorldRun opts tree genesisBlock Meets ⟨s, none, []⟩
  | step {w w' : World Hash} {e : Event Hash} (hrun : WorldRun opts tree genesisBlock Meets w)
      (hvalid : e.Valid opts tree genesisBlock.header w) (hmeets : Meets w e)
      (hnext : w.next opts e = some w') : WorldRun opts tree genesisBlock Meets w'

variable {tree : Set (BlockHeader Hash)} {genesis : BlockHeader Hash}

/-! ## The head under changes of the chain -/

variable {s s' : Blockchain Hash} {n : Nat} {name : String}

theorem Canonical.iteratorHead_inChain (h' : Canonical opts tree genesis s' n)
    (hnone : s._heads.get name = none → s'._heads.get name = none)
    (hsome : ∀ x k, s._heads.get name = some x → s.index k = some x →
      ∃ y j, s'._heads.get name = some y ∧ s'.index j = some y)
    (hin : s.InChain (iteratorHead opts s name)) : s'.InChain (iteratorHead opts s' name) := by
  unfold iteratorHead at hin ⊢
  cases hx : s._heads.get name with
  | none =>
    rw [hnone hx, h'.genesis]
    exact ⟨0, h'.chain.root⟩
  | some x =>
    rw [hx] at hin
    obtain ⟨k, hk⟩ := hin
    obtain ⟨y, j, hy, hj⟩ := hsome x k hx hk
    rw [hy]
    exact ⟨j, hj⟩

theorem Cut.iteratorHead_inChain {m : Nat} {x : Hash} (hcut : Cut s s' m x)
    (h' : Canonical opts tree genesis s' n) (hin : s.InChain (iteratorHead opts s name)) :
    s'.InChain (iteratorHead opts s' name) :=
  h'.iteratorHead_inChain (hcut.headNone name) (fun _ _ hx hk => hcut.head_canonical hx hk) hin

section

variable (htree : ForkTree opts tree genesis)
include htree

/-- A put keeps the chain, and a head that is canonical. -/
theorem Canonical.put_keeps_head (h : Canonical opts tree genesis s n) {item : ChainItem Hash}
    (hvalid : Validated opts tree s item) (hput : _putBlockOrHeader opts s item = .ok s')
    (name : String) : ∃ m, Canonical opts tree genesis s' m ∧
      (s.InChain (iteratorHead opts s name) → s'.InChain (iteratorHead opts s' name)) := by
  by_cases hzero : item.header.number = 0
  · obtain ⟨rfl, -⟩ := h.put_genesis htree hvalid.mem hzero hput
    exact ⟨n, h, id⟩
  · obtain ⟨td, headTd, hspec⟩ := h.put htree hvalid hzero hput
    rcases hspec.outcome with ⟨-, ⟨c, hadopted⟩, h'⟩ | ⟨-, -, hkept, h'⟩
    · exact ⟨_, h', h'.iteratorHead_inChain (hadopted.headNone name)
        (fun _ _ hx hk => hadopted.head_canonical hx hk)⟩
    · refine ⟨_, h', h'.iteratorHead_inChain ?_ ?_⟩
      · intro hnone
        rw [hkept.heads, hnone]
      · intro x k hx hk
        exact ⟨x, k, by rw [hkept.heads, hx], by rw [hkept.index, hk]⟩

theorem Canonical.putBlocks_keeps_head
    {blocks : List (ChainItem Hash)} (h : Canonical opts tree genesis s n)
    (hvalid : ValidatedBlocks opts tree s blocks)
    (hput : Blockchain.putBlocks opts s blocks = .ok s') (name : String) :
    ∃ m, Canonical opts tree genesis s' m ∧
      (s.InChain (iteratorHead opts s name) → s'.InChain (iteratorHead opts s' name)) := by
  induction blocks generalizing s n with
  | nil =>
    obtain rfl := ok.inj hput
    exact ⟨n, h, id⟩
  | cons item blocks ih =>
    unfold Blockchain.putBlocks at hput
    rw [foldlM_cons] at hput
    cases hone : _putBlockOrHeader opts s item with
    | error e => simp [hone, bind, Except.bind] at hput
    | ok s₁ =>
      simp only [hone, bind, Except.bind] at hput
      obtain ⟨m₁, h₁, hhead₁⟩ := h.put_keeps_head htree hvalid.1 hone name
      obtain ⟨m, h', hhead⟩ := ih h₁ (hvalid.2 s₁ hone) hput
      exact ⟨m, h', fun hin => hhead (hhead₁ hin)⟩

/-- The calls that run beside a callback keep the chain, and a head that is canonical. -/
theorem Canonical.call_keeps_head
    (h : Canonical opts tree genesis s n) {c : Call Hash} (hchain : c.changesChain = true)
    (hvalid : c.Valid opts tree genesis s) (hstep : c.run opts s = .ok s') (name : String) :
    ∃ m, Canonical opts tree genesis s' m ∧
      (s.InChain (iteratorHead opts s name) → s'.InChain (iteratorHead opts s' name)) := by
  cases c with
  | put item => exact h.put_keeps_head htree hvalid hstep name
  | putBlocks blocks => exact h.putBlocks_keeps_head htree hvalid hstep name
  | delBlock blockHash =>
    rcases h.del htree hvalid hstep with ⟨-, ⟨db, rfl⟩, -, -, -, hindex, h'⟩ | ⟨-, m, p, -, hcut, h'⟩
    · refine ⟨n, h', fun ⟨k, hk⟩ => ⟨k, ?_⟩⟩
      rw [hindex]
      exact hk
    · exact ⟨m, h', hcut.iteratorHead_inChain h'⟩
  | resetCanonicalHead canonicalHead =>
    obtain ⟨⟨x, hcut⟩, h'⟩ := h.reset htree hstep
    exact ⟨_, h', hcut.iteratorHead_inChain h'⟩
  | setIteratorHead tag headHash => cases hchain
  | moveIteratorHead name headHash => cases hchain
  | saveHeads => cases hchain

end

/-! ## The next block -/

variable {k : Nat} {block : Block Hash}

theorem getBlockAt_ok {x : Hash} (h : s.getBlockAt x k = .ok block) :
    s.db.header.get (k, x) = some block.header := by
  unfold getBlockAt at h
  cases hheader : s.getHeader x k with
  | error e => simp [hheader, bind, Except.bind] at h
  | ok header =>
    simp only [hheader, bind, Except.bind] at h
    have hblock : block.header = header := by
      split at h
      · exact congrArg Block.header (ok.inj h).symm
      · split at h
        · exact congrArg Block.header (ok.inj h).symm
        · cases h
    exact hblock ▸ getHeader_ok hheader

theorem getBlockByNumber_ok (h : s.getBlockByNumber k = .ok block) :
    ∃ x, s.index k = some x ∧ s.db.header.get (k, x) = some block.header := by
  unfold getBlockByNumber at h
  cases hx : s.db.numberToHash.get k with
  | none => simp [hx] at h
  | some x =>
    simp only [hx] at h
    exact ⟨x, hx, getBlockAt_ok h⟩

/-- A block that is found by its number is canonical, and so is its parent. -/
theorem Canonical.getBlockByNumber_ok (htree : ForkTree opts tree genesis)
    (h : Canonical opts tree genesis s n) (hget : s.getBlockByNumber (k + 1) = .ok block) :
    s.index (k + 1) = some (opts.hash block.header) ∧ s.index k = some block.header.parentHash := by
  obtain ⟨x, hx, hheader⟩ := Blockchain.getBlockByNumber_ok hget
  have hstored := h.headers _ _ _ hheader
  rw [← hstored.hash] at hx
  exact ⟨hx, h.parent_canonical htree hstored.mem hx⟩

variable {task task' : IteratorTask Hash} {reorg : Bool}

/-- How the loop comes to its next block. -/
theorem nextBlock_cases (h : nextBlock opts s task = .ok (block, reorg, task')) :
    (s.getBlockByNumber task.nextBlockNumber = .ok block ∧ task' = task ∧
      ∀ lastBlock, task.lastBlock = some lastBlock →
        opts.hash lastBlock.header = block.header.parentHash) ∨
    ∃ first lastBlock headBlockNumber, s.getBlockByNumber task.nextBlockNumber = .ok first ∧
      task.lastBlock = some lastBlock ∧ opts.hash lastBlock.header ≠ first.header.parentHash ∧
      s.hashToNumber (iteratorHead opts s task.name) = .ok headBlockNumber ∧
      s.getBlockByNumber (headBlockNumber + 1) = .ok block ∧
      task' = { task with nextBlockNumber := headBlockNumber + 1 } := by
  unfold nextBlock at h
  cases hfirst : s.getBlockByNumber task.nextBlockNumber with
  | error e => simp [hfirst, bind, Except.bind] at h
  | ok first =>
    simp only [hfirst, bind, Except.bind] at h
    split at h
    · rename_i hreorg
      obtain ⟨lastBlock, hlast, hne⟩ := (any_eq_true _ _).mp hreorg
      cases hnumber : s.hashToNumber (iteratorHead opts s task.name) with
      | error e => simp [hnumber] at h
      | ok headBlockNumber =>
        simp only [hnumber] at h
        cases hblock : s.getBlockByNumber (headBlockNumber + 1) with
        | error e => simp [hblock] at h
        | ok second =>
          simp only [hblock] at h
          obtain ⟨rfl, -, rfl⟩ : second = block ∧ _ ∧ _ = task' := by
            simpa using h
          exact .inr ⟨first, lastBlock, headBlockNumber, rfl, hlast, of_decide_eq_true hne, rfl,
            hblock, rfl⟩
    · rename_i hsame
      obtain ⟨rfl, -, rfl⟩ : first = block ∧ _ ∧ task = task' := by
        simpa using h
      refine .inl ⟨rfl, rfl, fun lastBlock hlast => ?_⟩
      by_contra hne
      exact hsame (by rw [hlast]; exact decide_eq_true hne)

/-- Whether the next block will be a child of the head, when a callback has returned: its block is
still canonical, or none is at its number; or the head is just below; or the block before it has
been left by the chain, so that the counters are reloaded. -/
def InStep (opts : BlockchainOptions Hash) (s : Blockchain Hash) (task : IteratorTask Hash)
    (nextBlock : Block Hash) : Prop :=
  s.index task.nextBlockNumber = some (opts.hash nextBlock.header) ∨
  s.index task.nextBlockNumber = none ∨
  (∃ k, s.index k = some (iteratorHead opts s task.name) ∧ task.nextBlockNumber = k + 1) ∨
  ∃ lastBlock header, task.lastBlock = some lastBlock ∧
    s.getCanonicalHeader task.nextBlockNumber = .ok header ∧
    opts.hash lastBlock.header ≠ header.parentHash

/-- A block that follows the reloaded head is its child. -/
theorem Canonical.child_of_reload (htree : ForkTree opts tree genesis)
    (h : Canonical opts tree genesis s n) {headBlockNumber : Nat}
    (hin : s.InChain (iteratorHead opts s name))
    (hnumber : s.hashToNumber (iteratorHead opts s name) = .ok headBlockNumber)
    (hget : s.getBlockByNumber (headBlockNumber + 1) = .ok block) :
    block.header.parentHash = iteratorHead opts s name := by
  obtain ⟨k, hk⟩ := hin
  obtain ⟨header, hheader⟩ := h.stored k _ hk
  have hlookup := (h.headers k _ header hheader).hashToNumber
  simp only [hashToNumber, hlookup] at hnumber
  obtain rfl := ok.inj hnumber
  have hparent := (h.getBlockByNumber_ok htree hget).2
  exact some.inj (hparent.symm.trans hk)

/-- The next block is a child of the head if and only if the head is just below it, or the counters
have been reloaded. -/
theorem Canonical.nextBlock_child_iff (htree : ForkTree opts tree genesis)
    (h : Canonical opts tree genesis s n) (hpos : task.nextBlockNumber = k + 1)
    (hin : s.InChain (iteratorHead opts s task.name))
    (hnext : nextBlock opts s task = .ok (block, reorg, task')) :
    block.header.parentHash = iteratorHead opts s task.name ↔
      s.index k = some (iteratorHead opts s task.name) ∨
      ∃ lastBlock header, task.lastBlock = some lastBlock ∧
        s.getCanonicalHeader task.nextBlockNumber = .ok header ∧
        opts.hash lastBlock.header ≠ header.parentHash := by
  have hcanonical {first : Block Hash} (hget : s.getBlockByNumber task.nextBlockNumber = .ok first) :
      s.getCanonicalHeader task.nextBlockNumber = .ok first.header := by
    obtain ⟨x, hx, hheader⟩ := Blockchain.getBlockByNumber_ok hget
    have hx' : s.db.numberToHash.get task.nextBlockNumber = some x := hx
    simp [getCanonicalHeader, hx', getHeader, hheader]
  rcases nextBlock_cases hnext with ⟨hget, rfl, hlast⟩ |
    ⟨first, lastBlock, headBlockNumber, hget, hlast, hne, hnumber, hget', rfl⟩
  · have hparent := (h.getBlockByNumber_ok htree (hpos ▸ hget)).2
    rw [hparent]
    constructor
    · exact fun hchild => .inl (congrArg some hchild)
    · rintro (hhead | ⟨lastBlock, header, hlast', hheader, hne⟩)
      · exact some.inj hhead
      · obtain rfl := ok.inj (hheader.symm.trans (hcanonical hget))
        exact absurd (hlast lastBlock hlast') hne
  · exact iff_of_true (h.child_of_reload htree hin hnumber hget')
      (.inr ⟨lastBlock, first.header, hlast, hcanonical hget, hne⟩)

/-- A task that can go on: its head is canonical. -/
structure Ready (opts : BlockchainOptions Hash) (tree : Set (BlockHeader Hash))
    (genesis : BlockHeader Hash) (s : Blockchain Hash) (task : IteratorTask Hash) : Prop where
  canonical : ∃ n, Canonical opts tree genesis s n
  head : s.InChain (iteratorHead opts s task.name)
  number : 0 < task.nextBlockNumber

/-- A task goes on after a callback, and with a child of its head if and only if it was in step. -/
theorem Ready.resume (htree : ForkTree opts tree genesis) (h : Ready opts tree genesis s task)
    (hresume : resume opts s task block = (s', task')) : Ready opts tree genesis s' task' ∧
      ∀ block' reorg task'', nextBlock opts s' task' = .ok (block', reorg, task'') →
        (block'.header.parentHash = iteratorHead opts s' task'.name ↔
          InStep opts s task block) := by
  obtain ⟨n, hn⟩ := h.canonical
  obtain ⟨k, hk⟩ := exists_eq_succ_of_ne_zero (Nat.ne_of_gt h.number)
  unfold Blockchain.resume at hresume
  split at hresume
  · rename_i hreorg
    obtain ⟨rfl, rfl⟩ := Prod.mk.inj hresume
    refine ⟨⟨h.canonical, h.head, h.number⟩, ?_⟩
    intro block' reorg task'' hnext
    have hcounted : ({ task with blocksRanCounter := task.blocksRanCounter + 1 } :
        IteratorTask Hash).nextBlockNumber = k + 1 := hk
    refine (hn.nextBlock_child_iff htree hcounted h.head hnext).trans ?_
    -- what is canonical at the number is another block
    obtain ⟨first, hget⟩ : ∃ first, s.getBlockByNumber task.nextBlockNumber = .ok first := by
      rcases nextBlock_cases hnext with ⟨hget, -, -⟩ | ⟨first, -, -, hget, -⟩
      · exact ⟨_, hget⟩
      · exact ⟨first, hget⟩
    have hother : opts.hash first.header ≠ opts.hash block.header := by
      simp only [reorgWhileOnBlock, hget] at hreorg
      exact of_decide_eq_true hreorg
    have hthere : s.index task.nextBlockNumber = some (opts.hash first.header) := by
      rw [hk] at hget ⊢
      exact (hn.getBlockByNumber_ok htree hget).1
    constructor
    · rintro (hbelow | hleft)
      · exact .inr (.inr (.inl ⟨k, hbelow, hk⟩))
      · exact .inr (.inr (.inr hleft))
    · rintro (hstill | hnone | ⟨j, hbelow, hj⟩ | hleft)
      · exact absurd (some.inj (hthere.symm.trans hstill)) hother
      · rw [hnone] at hthere
        cases hthere
      · obtain rfl : j = k := Nat.succ.inj (hj.symm.trans hk)
        exact .inl hbelow
      · exact .inr hleft
  · rename_i hsame
    obtain ⟨rfl, rfl⟩ := Prod.mk.inj hresume
    have hhead : iteratorHead opts
        { s with _heads := s._heads.set task.name (opts.hash block.header) } task.name =
          opts.hash block.header := by
      simp [iteratorHead]
    have hthere : s.index task.nextBlockNumber = some (opts.hash block.header) := by
      unfold reorgWhileOnBlock at hsame
      split at hsame
      · rename_i first hget
        have heq := of_decide_eq_false (Bool.eq_false_iff.mpr hsame)
        rw [hk] at hget
        rw [← Classical.not_not.mp heq, hk]
        exact (hn.getBlockByNumber_ok htree hget).1
      · exact absurd rfl hsame
    have hn' : Canonical opts tree genesis
        { s with _heads := s._heads.set task.name (opts.hash block.header) } n := hn.congr rfl rfl rfl
    refine ⟨⟨⟨n, hn'⟩, ?_, succ_pos _⟩, ?_⟩
    · rw [hhead]
      exact ⟨_, hthere⟩
    · intro block' reorg task'' hnext
      refine iff_of_true ?_ (.inl hthere)
      refine (hn'.nextBlock_child_iff htree rfl ?_ hnext).mpr (.inl ?_)
      · rw [hhead]
        exact ⟨_, hthere⟩
      · rw [hhead]
        exact hthere

/-! ## The interleaving -/

/-- The iterator starts from a canonical head, and is in step whenever its callback returns. -/
def Event.InStep (opts : BlockchainOptions Hash) (w : World Hash) : Event Hash → Prop
  | .call _ => True
  | .iterator name _ => w.chain.InChain (iteratorHead opts w.chain name)
  | .returned _ => ∀ nextBlock reorg task, w.progress = some (.onBlock nextBlock reorg task) →
    Blockchain.InStep opts w.chain task nextBlock

structure WorldInvariant (opts : BlockchainOptions Hash) (tree : Set (BlockHeader Hash))
    (genesis : BlockHeader Hash) (w : World Hash) : Prop where
  canonical : ∃ n, Canonical opts tree genesis w.chain n
  ready : ∀ nextBlock reorg task, w.progress = some (.onBlock nextBlock reorg task) →
    Ready opts tree genesis w.chain task
  child : ∀ e ∈ w.handed, e.1.header.parentHash = e.2

theorem advance_onBlock (h : advance opts s task = .onBlock block reorg task') :
    nextBlock opts s task = .ok (block, reorg, task') := by
  unfold advance at h
  split at h
  · cases h
  · split at h
    · rename_i hnext
      rw [hnext]
      obtain ⟨rfl, rfl, rfl⟩ := Progress.onBlock.inj h
      rfl
    · cases h
    · cases h

/-- The task of the next block goes on from the same head. -/
theorem Ready.nextBlock (h : Ready opts tree genesis s task)
    (hnext : nextBlock opts s task = .ok (block, reorg, task')) :
    Ready opts tree genesis s task' ∧ task'.name = task.name := by
  rcases nextBlock_cases hnext with ⟨-, rfl, -⟩ | ⟨first, lastBlock, headBlockNumber, -, -, -, -, -, rfl⟩
  · exact ⟨h, rfl⟩
  · exact ⟨⟨h.canonical, h.head, succ_pos _⟩, rfl⟩

variable {w : World Hash}

/-- The iterator ends, and the heads are saved. -/
theorem WorldInvariant.ended (h : WorldInvariant opts tree genesis w)
    (hn : Canonical opts tree genesis s n) {progress : Progress Hash}
    (hended : ∀ block reorg task, progress ≠ .onBlock block reorg task) :
    WorldInvariant opts tree genesis (w.release opts s progress) := by
  have hsaved : Canonical opts tree genesis s._saveHeads n := hn.congr rfl rfl rfl
  cases progress with
  | onBlock block reorg task => exact absurd rfl (hended block reorg task)
  | returned blocksRanCounter =>
    refine ⟨⟨n, hsaved⟩, ?_, h.child⟩
    intro block reorg task hprogress
    cases hprogress
  | thrown e =>
    refine ⟨⟨n, hsaved⟩, ?_, h.child⟩
    intro block reorg task hprogress
    cases hprogress

/-- The iterator goes on, and hands over a child of its head if it comes to a block. -/
theorem WorldInvariant.advance (h : WorldInvariant opts tree genesis w)
    (hready : Ready opts tree genesis s task)
    (hchild : ∀ block reorg task', nextBlock opts s task = .ok (block, reorg, task') →
      block.header.parentHash = iteratorHead opts s task.name) :
    WorldInvariant opts tree genesis (w.release opts s (Blockchain.advance opts s task)) := by
  obtain ⟨n, hn⟩ := hready.canonical
  cases hadvance : Blockchain.advance opts s task with
  | onBlock block reorg task' =>
    have hnext := advance_onBlock hadvance
    obtain ⟨hready', hname⟩ := hready.nextBlock hnext
    refine ⟨hready.canonical, ?_, ?_⟩
    · intro nextBlock reorg' task'' hprogress
      obtain ⟨rfl, rfl, rfl⟩ := Progress.onBlock.inj (some.inj hprogress)
      exact hready'
    · intro e he
      rcases mem_cons.mp he with rfl | hold
      · rw [hname]
        exact hchild block reorg task' hnext
      · exact h.child e hold
  | returned blocksRanCounter => exact h.ended hn (fun _ _ _ heq => nomatch heq)
  | thrown e => exact h.ended hn (fun _ _ _ heq => nomatch heq)

section

variable (htree : ForkTree opts tree genesis)
include htree

theorem WorldInvariant.returned
    (h : WorldInvariant opts tree genesis w) (hready : Ready opts tree genesis w.chain task)
    (hstep : Blockchain.InStep opts w.chain task block) (result : Except ChainError Unit) :
    WorldInvariant opts tree genesis (w.returned opts block task result) := by
  obtain ⟨n, hn⟩ := h.canonical
  cases result with
  | error e =>
    cases e with
    | notFoundInDB message =>
      show WorldInvariant opts tree genesis (w.release opts w.chain (.returned task.blocksRanCounter))
      exact h.ended hn (fun _ _ _ heq => nomatch heq)
    | notFoundInCanonicalChain number =>
      show WorldInvariant opts tree genesis (w.release opts w.chain (.thrown _))
      exact h.ended hn (fun _ _ _ heq => nomatch heq)
    | other message =>
      show WorldInvariant opts tree genesis (w.release opts w.chain (.thrown _))
      exact h.ended hn (fun _ _ _ heq => nomatch heq)
  | ok _ =>
    obtain ⟨⟨s', task'⟩, hresume⟩ : ∃ r, resume opts w.chain task block = r := ⟨_, rfl⟩
    obtain ⟨hready', hiff⟩ := hready.resume htree hresume
    simp only [World.returned, hresume]
    exact h.advance hready' (fun block' reorg task'' hnext => (hiff block' reorg task'' hnext).mpr hstep)

/-- An iterator starts with a child of its head. -/
theorem WorldInvariant.iterator (h : WorldInvariant opts tree genesis w)
    (hin : w.chain.InChain (iteratorHead opts w.chain name)) (maxBlocks : Option Nat) :
    WorldInvariant opts tree genesis (w.iterator opts name maxBlocks) := by
  obtain ⟨n, hn⟩ := h.canonical
  obtain ⟨k, hk⟩ := hin
  obtain ⟨header, hheader⟩ := hn.stored k _ hk
  have hlookup := (hn.headers k _ header hheader).hashToNumber
  have hnumber : w.chain.hashToNumber (iteratorHead opts w.chain name) = .ok k := by
    simp [hashToNumber, hlookup]
  have hready : Ready opts tree genesis w.chain ⟨name, maxBlocks, k + 1, 0, none⟩ :=
    ⟨h.canonical, ⟨k, hk⟩, succ_pos k⟩
  simp only [World.iterator, hnumber]
  refine h.advance hready (fun block reorg task' hnext => ?_)
  exact (hn.nextBlock_child_iff htree rfl ⟨k, hk⟩ hnext).mpr (.inl hk)

theorem WorldInvariant.call
    (h : WorldInvariant opts tree genesis w) {c : Call Hash} (hchain : c.changesChain = true)
    (hvalid : c.Valid opts tree genesis w.chain) (hstep : c.run opts w.chain = .ok s) :
    WorldInvariant opts tree genesis { w with chain := s } := by
  obtain ⟨n, hn⟩ := h.canonical
  have hkeeps := hn.call_keeps_head htree hchain hvalid hstep
  obtain ⟨m, hm, -⟩ := hkeeps ""
  refine ⟨⟨m, hm⟩, ?_, h.child⟩
  intro block reorg task hprogress
  have hready := h.ready block reorg task hprogress
  obtain ⟨m', hm', hhead⟩ := hkeeps task.name
  exact ⟨⟨m', hm'⟩, hhead hready.head, hready.number⟩

end

theorem WorldInvariant.next (htree : ForkTree opts tree genesis) {w w' : World Hash}
    (h : WorldInvariant opts tree genesis w) {e : Event Hash}
    (hvalid : e.Valid opts tree genesis w) (hstep : e.InStep opts w)
    (hnext : w.next opts e = some w') : WorldInvariant opts tree genesis w' := by
  cases e with
  | call c =>
    unfold World.next at hnext
    cases hchain : c.changesChain with
    | false => simp [hchain] at hnext
    | true =>
      cases hrun : c.run opts w.chain with
      | error e => simp [hchain, hrun, Except.toOption] at hnext
      | ok s =>
        simp only [hchain, if_true, hrun, Except.toOption, map_some] at hnext
        obtain rfl := some.inj hnext
        exact h.call htree hchain hvalid hrun
  | iterator name maxBlocks =>
    unfold World.next at hnext
    dsimp only at hnext
    split at hnext
    · cases hnext
    · obtain rfl := some.inj hnext
      exact h.iterator htree hstep maxBlocks
  | returned result =>
    unfold World.next at hnext
    dsimp only at hnext
    split at hnext
    · rename_i block reorg task hprogress
      obtain rfl := some.inj hnext
      exact h.returned htree (h.ready block reorg task hprogress) (hstep block reorg task hprogress)
        result
    · cases hnext

section Sample

/-- The longer chain up to its second block, with the head `head` where there is one. -/
def sampleStart (head : Option Nat) : World Nat where
  chain := sampleAfter ([.put (sampleBlock 11 1 1 2), .put (sampleBlock 12 11 2 2)] ++
    head.toList.map (.moveIteratorHead "vm"))
  progress := none
  handed := []

def sampleStep (w : World Nat) (e : Event Nat) : World Nat := (w.next sampleOptions e).getD w

variable {w : World Nat}

theorem sampleStep_eq {e : Event Nat} (h : (w.next sampleOptions e).isSome = true) :
    w.next sampleOptions e = some (sampleStep w e) := by
  unfold sampleStep
  cases hnext : w.next sampleOptions e with
  | none => simp [hnext] at h
  | some w' => rfl

theorem exists_worldRun_start (Meets : World Nat → Event Nat → Prop) (head : Option Nat) :
    WorldRun sampleOptions sampleTree sampleGenesis Meets (sampleStart head) := by
  obtain ⟨hist₁, h₁⟩ := exists_run_put .create (sampleHeader 11 1 1 2) (by decide) (by decide +kernel)
    (by decide +kernel)
  obtain ⟨hist₂, h₂⟩ := exists_run_put h₁ (sampleHeader 12 11 2 2) (by decide) (by decide +kernel)
    (by decide +kernel)
  cases head with
  | none => exact .start h₂
  | some head => exact .start (.call (.moveIteratorHead "vm" head) h₂ trivial rfl)

/-- Whether the block of the running callback is canonical. -/
def sampleInStep (w : World Nat) : Bool :=
  match w.progress with
  | some (.onBlock nextBlock _ task) =>
    w.chain.index task.nextBlockNumber = some (sampleOptions.hash nextBlock.header)
  | _ => true

theorem inStep_of_sampleInStep (h : sampleInStep w = true) (result : Except ChainError Unit) :
    (Event.returned result).InStep sampleOptions w := by
  intro nextBlock reorg task hprogress
  simp only [sampleInStep, hprogress] at h
  exact .inl (of_decide_eq_true h)

theorem step_put {Meets : World Nat → Event Nat → Prop}
    (hrun : WorldRun sampleOptions sampleTree sampleGenesis Meets w) (header : BlockHeader Nat)
    (hmem : header ∈ sampleHeaders)
    (hvalid : (validateHeader sampleOptions w.chain header).toOption.isSome = true)
    (hmeets : Meets w (.call (.put (sampleItem header false))))
    (hok : (w.next sampleOptions (.call (.put (sampleItem header false)))).isSome = true) :
    WorldRun sampleOptions sampleTree sampleGenesis Meets
      (sampleStep w (.call (.put (sampleItem header false)))) :=
  .step (e := .call (.put (sampleItem header false))) hrun
    ⟨hmem, validateHeader_of_isSome hvalid⟩ hmeets (sampleStep_eq hok)

/-- A lighter block is put during the first callback. -/
def sampleEvents : List (Event Nat) :=
  [.iterator "vm" none, .call (.put (sampleBlock 21 1 1 3)), .returned (.ok ())]

/-- A heavier chain arrives during the first callback, and goes back to before the head. -/
def sampleReorg : List (Event Nat) :=
  [.iterator "vm" none, .call (.put (sampleBlock 21 1 1 3)), .call (.put (sampleBlock 22 21 2 9)),
    .returned (.ok ())]

end Sample

end Blockchain
