-- SUMMARY: The execution of the canonical chain in batches, and what one pass over a batch comes to.
import TsEthereum.Base.WhileLoops
import TsEthereum.Blockchain.Fetching

/-!
# VM execution

`VMExecution.run` hands the blocks after the `vm` head to `runBlock`, a batch in each
pass of its loop, until the head is the canonical one. No other call changes the
chain meanwhile. Executing a block is a parameter, and so are the state roots.
-/

open List Option Bool

inductive ExecStatus where
  | VALID | INVALID | IGNORE_INVALID
  deriving DecidableEq

structure ChainStatus (Hash : Type) where
  height : Nat
  status : ExecStatus
  hash : Hash
  root : Hash
  deriving DecidableEq

structure VMExecution (Hash : Type) where
  chain : Blockchain Hash
  chainStatus : Option (ChainStatus Hash)
  started : Bool
  running : Bool
  shutdown : Bool
  /-- The blocks that have been handed to `runBlock`, in order. -/
  executed : List (Block Hash)

namespace VMExecution

/-- The options, and what other packages do. -/
structure Options (Hash : Type) where
  blockchain : BlockchainOptions Hash
  execution : Bool
  numBlocksPerIteration : Nat
  stateRoot : BlockHeader Hash → Hash
  hasStateRoot : Hash → Bool
  /-- `runBlock` from the state of the parent, and saving the receipts; the message where this throws. -/
  runBlock : Block Hash → Except String Unit

variable {Hash : Type} [DecidableEq Hash] (opts : Options Hash)

/-! ## Messages -/

/-- `message.includes(text)`. -/
def includes (message text : String) : Bool := decide (text.toList <:+: message.toList)

def missingStateRoot (message : String) : Bool :=
  decide ("does not contain state root".toList <:+: message.toList.map Char.toLower)

/-- The message of the error that a callback throws. -/
def failure (message : String) : String := "Block execution failed: " ++ message

def errorOf (message : String) : ChainError :=
  if includes message "not found in DB" then .notFoundInDB message else .other message

def ofMissingStateRoot : ChainError → Bool
  | .notFoundInDB message | .other message => missingStateRoot message
  | .notFoundInCanonicalChain _ => false

/-! ## One pass -/

/-- What the callbacks of a pass share. -/
structure Pass (Hash : Type) where
  headBlock : Option (Block Hash)
  errorBlock : Option (Block Hash)
  executed : List (Block Hash)

/-- The block that a callback starts from: the first one of a pass, and one after a reorg, look the
parent up. -/
def startingFrom (s : Blockchain Hash) (pass : Pass Hash) (block : Block Hash) (reorg : Bool) :
    Except ChainError (Block Hash) :=
  match pass.headBlock, reorg with
  | some headBlock, false => .ok headBlock
  | _, _ => s.getBlockByHash block.header.parentHash

/-- The callback of the iterator. -/
def onBlock (started : Bool) (s : Blockchain Hash) (block : Block Hash) (reorg : Bool)
    (pass : Pass Hash) : Except ChainError Unit × Pass Hash :=
  match startingFrom s pass block reorg with
  | .error e => (.error e, pass)
  | .ok headBlock =>
    let executed := if started then pass.executed ++ [block] else pass.executed
    match if started then opts.runBlock block else .error "Execution stopped" with
    | .ok _ => (.ok (), { pass with headBlock := some block, executed })
    | .error message =>
      (.error (errorOf (failure message)),
        { headBlock := some headBlock
          errorBlock :=
            if includes message "Invalid executionWitness=null" then pass.errorBlock else some block
          executed })

/-- The rounds of an iterator, with nothing in between. Each of them is counted, so there are no more
than the iterator counts. -/
def rounds (started : Bool) : Nat → Blockchain.World Hash → Pass Hash →
    Blockchain.World Hash × Pass Hash
  | 0, w, pass => (w, pass)
  | fuel + 1, w, pass =>
    match w.progress with
    | some (.onBlock block reorg task) =>
      let (result, pass) := onBlock opts started w.chain block reorg pass
      rounds started fuel (w.returned opts.blockchain block task result) pass
    | _ => (w, pass)

def invalid (block : Block Hash) : ChainStatus Hash where
  height := block.header.number
  status := .INVALID
  hash := opts.blockchain.hash block.header
  root := opts.stateRoot block.header

/-- What the iterator's promise comes to when it is rejected. -/
def caught (vm : VMExecution Hash) (startHeadBlock : Block Hash) (pass : Pass Hash)
    (error : ChainError) : Option Int × VMExecution Hash :=
  match pass.errorBlock with
  | none => (none, vm)
  | some errorBlock =>
    let actualExecuted := (errorBlock.header.number : Int) - startHeadBlock.header.number
    if ofMissingStateRoot error && decide (1 < errorBlock.header.number) then
      -- the head goes back to the parent of the block before, where the state of that is there
      match pass.headBlock with
      | some headBlock =>
        if opts.hasStateRoot (opts.stateRoot headBlock.header) then
          (some actualExecuted,
            { vm with chain := vm.chain.setIteratorHead "vm" headBlock.header.parentHash })
        else (some actualExecuted, vm)
      | none => (some actualExecuted, vm)
    else (some actualExecuted, { vm with chainStatus := some (invalid opts errorBlock) })

/-- A pass of the loop, and the number of blocks that it counts. -/
def pass (vm : VMExecution Hash) (startHeadBlock : Block Hash) : Option Int × VMExecution Hash :=
  let w := Blockchain.World.iterator opts.blockchain ⟨vm.chain, none, []⟩ "vm"
    (some opts.numBlocksPerIteration)
  let (w, pass) := rounds opts vm.started opts.numBlocksPerIteration w ⟨none, none, vm.executed⟩
  let vm := { vm with chain := w.chain, executed := pass.executed }
  match w.progress with
  | some (.returned blocksRanCounter) => (some blocksRanCounter, vm)
  | some (.thrown e) => caught opts vm startHeadBlock pass e
  | _ => (none, vm)

/-! ## The loop -/

def getIteratorHead (s : Blockchain Hash) : Except ChainError (Block Hash) :=
  s.getBlockByHash (Blockchain.iteratorHead opts.blockchain s "vm")

def getCanonicalHeadBlock (s : Blockchain Hash) : Except ChainError (Block Hash) :=
  s.getBlockByHash s._headBlockHash

def checkAndReset (vm : VMExecution Hash) (headBlock : Block Hash) : VMExecution Hash :=
  let passed := vm.chainStatus.any fun status =>
    decide (status.height < headBlock.header.number) ||
      decide (opts.blockchain.hash headBlock.header = status.hash)
  if passed then vm
  else
    { vm with
      chainStatus := some
        { height := headBlock.header.number
          status := .VALID
          hash := opts.blockchain.hash headBlock.header
          root := opts.stateRoot headBlock.header } }

/-- The variables of the loop; `numExecuted` is undefined before the first pass, and may be null. -/
structure Looping (Hash : Type) where
  vm : VMExecution Hash
  startHeadBlock : Block Hash
  canonicalHead : Block Hash
  numExecuted : Option (Option Int)

def goesOn (loop runOnlyBatched : Bool) (l : Looping Hash) : Bool :=
  l.vm.started && !l.vm.shutdown &&
    (!runOnlyBatched || decide ((opts.numBlocksPerIteration : Int) ≤
      (l.canonicalHead.header.number : Int) - l.startHeadBlock.header.number)) &&
    (decide (l.numExecuted = none) ||
      loop && decide (l.numExecuted = some (some (opts.numBlocksPerIteration : Int)))) &&
    decide (opts.blockchain.hash l.startHeadBlock.header ≠ opts.blockchain.hash l.canonicalHead.header)

def step (loop runOnlyBatched : Bool) (l : Looping Hash) :
    Looping Hash ⊕ (Except ChainError Int × VMExecution Hash) :=
  if goesOn opts loop runOnlyBatched l then
    match pass opts l.vm l.startHeadBlock with
    | (none, vm) => .inl { l with vm, numExecuted := some none }
    | (some numExecuted, vm) =>
      match getIteratorHead opts vm.chain, getCanonicalHeadBlock vm.chain with
      | .ok startHeadBlock, .ok canonicalHead =>
        .inl { vm, startHeadBlock, canonicalHead, numExecuted := some (some numExecuted) }
      | .error e, _ => .inr (.error e, vm)
      | .ok _, .error e => .inr (.error e, vm)
  else .inr (.ok (l.numExecuted.join.getD 0), l.vm)

/-- Nothing keeps `run` from its loop. -/
def ready (vm : VMExecution Hash) : Bool :=
  !vm.running && vm.started && opts.execution && !vm.shutdown

def stopped (r : Except ChainError Int × VMExecution Hash) : Except ChainError Int × VMExecution Hash :=
  (r.1, { r.2 with running := false })

/-- `run`, if its loop ends after at most `fuel` steps. -/
def run (fuel : Nat) (loop runOnlyBatched : Bool) (vm : VMExecution Hash) :
    Option (Except ChainError Int × VMExecution Hash) :=
  if ready opts vm then
    match getIteratorHead opts vm.chain with
    | .error e => some (.error e, vm)
    | .ok startHeadBlock =>
      let vm := checkAndReset opts { vm with running := true } startHeadBlock
      match getCanonicalHeadBlock vm.chain with
      | .error e => some (stopped (.error e, vm))
      | .ok canonicalHead =>
        (WhileLoop.run (step opts loop runOnlyBatched) fuel ⟨vm, startHeadBlock, canonicalHead, none⟩).map
          stopped
  else some (.ok 0, vm)

/-! ## The chain of a run -/

/-- The canonical blocks after a number, as many as are asked for. -/
def blocksAfter (s : Blockchain Hash) : Nat → Nat → List (Block Hash)
  | _, 0 => []
  | k, count + 1 => (s.getBlockByNumber (k + 1)).toOption.toList ++ blocksAfter s (k + 1) count

variable {opts}

open Blockchain (Canonical ForkTree iteratorHead IteratorTask World)

/-- Heads of iterators have been moved and saved, and nothing else has changed. -/
def MovesHeads (s s' : Blockchain Hash) : Prop :=
  ∃ _heads heads headHeader headBlock,
    s' = { s with _heads, db := { s.db with heads, headHeader, headBlock } }

omit [DecidableEq Hash] in
theorem MovesHeads.refl (s : Blockchain Hash) : MovesHeads s s :=
  ⟨s._heads, s.db.heads, s.db.headHeader, s.db.headBlock, rfl⟩

omit [DecidableEq Hash] in
theorem MovesHeads.trans {s s' s'' : Blockchain Hash} (h : MovesHeads s s') (h' : MovesHeads s' s'') :
    MovesHeads s s'' := by
  obtain ⟨_, _, _, _, rfl⟩ := h
  obtain ⟨_heads, heads, headHeader, headBlock, rfl⟩ := h'
  exact ⟨_heads, heads, headHeader, headBlock, rfl⟩

omit [DecidableEq Hash] in
theorem MovesHeads.index {s s' : Blockchain Hash} (h : MovesHeads s s') : s'.index = s.index := by
  obtain ⟨_, _, _, _, rfl⟩ := h
  rfl

theorem MovesHeads.getBlockByNumber {s s' : Blockchain Hash} (h : MovesHeads s s') (k : Nat) :
    s'.getBlockByNumber k = s.getBlockByNumber k := by
  obtain ⟨_, _, _, _, rfl⟩ := h
  rfl

theorem MovesHeads.blocksAfter {s s' : Blockchain Hash} (h : MovesHeads s s') (k count : Nat) :
    blocksAfter s' k count = blocksAfter s k count := by
  induction count generalizing k with
  | zero => rfl
  | succ count ih => rw [VMExecution.blocksAfter, h.getBlockByNumber, ih, VMExecution.blocksAfter]

omit [DecidableEq Hash] in
theorem MovesHeads.headBlock {s s' : Blockchain Hash} (h : MovesHeads s s') :
    s'._headBlockHash = s._headBlockHash := by
  obtain ⟨_, _, _, _, rfl⟩ := h
  rfl

theorem movesHeads_saveHeads (s : Blockchain Hash) : MovesHeads s s._saveHeads :=
  ⟨s._heads, some s._heads, some s._headHeaderHash, some s._headBlockHash, rfl⟩

/-- A canonical chain of blocks: none of them is a header without its body. -/
structure Whole (opts : BlockchainOptions Hash) (tree : Set (BlockHeader Hash))
    (genesis : BlockHeader Hash) (s : Blockchain Hash) (n : Nat) : Prop where
  canonical : Canonical opts tree genesis s n
  blocks : ∀ k ≤ n, ∃ block, s.getBlockByNumber k = .ok block
  headBlock : s._headBlockHash = s._headHeaderHash

variable {tree : Set (BlockHeader Hash)} {genesis : BlockHeader Hash} {s s' : Blockchain Hash}
  {n k : Nat}

theorem Whole.moves (h : Whole opts.blockchain tree genesis s n) (hmoves : MovesHeads s s') :
    Whole opts.blockchain tree genesis s' n := by
  obtain ⟨_, _, _, _, rfl⟩ := hmoves
  exact ⟨h.canonical.congr rfl rfl rfl, h.blocks, h.headBlock⟩

theorem Whole.getBlockByHash (h : Whole opts.blockchain tree genesis s n) {x : Hash}
    {block : Block Hash} (hx : s.index k = some x) (hblock : s.getBlockByNumber k = .ok block) :
    s.getBlockByHash x = .ok block := by
  obtain ⟨header, hheader⟩ := h.canonical.stored k x hx
  have hlookup := (h.canonical.headers k x header hheader).hashToNumber
  rw [Blockchain.getBlockByNumber_of_index hx] at hblock
  simpa only [Blockchain.getBlockByHash, Blockchain.hashToNumber, hlookup, bind, Except.bind] using hblock

theorem Whole.index_of_block (h : Whole opts.blockchain tree genesis s n) {block : Block Hash}
    (hblock : s.getBlockByNumber k = .ok block) :
    s.index k = some (opts.blockchain.hash block.header) := by
  obtain ⟨x, hx, hheader⟩ := Blockchain.getBlockByNumber_ok hblock
  rwa [(h.canonical.headers k x _ hheader).hash]

/-! ## Rounds -/

section Rounds

variable {B : Nat} {task : IteratorTask Hash} {block : Block Hash}

/-- An iterator of the `vm` head that goes on from `k`. -/
structure Going (opts : BlockchainOptions Hash) (s : Blockchain Hash) (k B : Nat)
    (task : IteratorTask Hash) : Prop where
  head : s.index k = some (iteratorHead opts s "vm")
  name : task.name = "vm"
  number : task.nextBlockNumber = k + 1
  limit : task.maxBlocks = some B
  last : ∀ lastBlock, task.lastBlock = some lastBlock →
    opts.hash lastBlock.header = iteratorHead opts s "vm"

theorem Going.advance_full (h : Going opts.blockchain s k B task) (hfull : task.blocksRanCounter = B) :
    Blockchain.advance opts.blockchain s task = .returned B := by
  unfold Blockchain.advance
  rw [if_pos (by rw [h.limit, hfull]), hfull]

/-- Above the top there is no block to go on with. -/
theorem Going.advance_top (h : Going opts.blockchain s k B task)
    (hwhole : Whole opts.blockchain tree genesis s k) :
    Blockchain.advance opts.blockchain s task = .returned task.blocksRanCounter := by
  unfold Blockchain.advance
  split
  · rfl
  · obtain ⟨message, hnone⟩ :=
      Blockchain.getBlockByNumber_of_none (hwhole.canonical.chain.above (k + 1) (Nat.lt_succ_self k))
    simp only [Blockchain.nextBlock, h.number, hnone, bind, Except.bind]

theorem Going.advance_block (htree : ForkTree opts.blockchain tree genesis)
    (h : Going opts.blockchain s k B task) (hwhole : Whole opts.blockchain tree genesis s n)
    (hblock : s.getBlockByNumber (k + 1) = .ok block) (hmore : task.blocksRanCounter ≠ B) :
    Blockchain.advance opts.blockchain s task = .onBlock block false task := by
  have hparent := (hwhole.canonical.getBlockByNumber_ok htree hblock).2
  have hsame : block.header.parentHash = iteratorHead opts.blockchain s "vm" :=
    some.inj (hparent.symm.trans h.head)
  have hreorg : (task.lastBlock.any fun lastBlock =>
      decide (opts.blockchain.hash lastBlock.header ≠ block.header.parentHash)) = false := by
    cases hlast : task.lastBlock with
    | none => rfl
    | some lastBlock => exact decide_eq_false (not_not_intro ((h.last lastBlock hlast).trans hsame.symm))
  unfold Blockchain.advance
  rw [if_neg (fun heq => hmore (some.inj (h.limit.symm.trans heq)).symm)]
  simp only [Blockchain.nextBlock, h.number, hblock, bind, Except.bind, hreorg, false_eq_true,
    if_false]

/-- A block that has been executed is the new head. -/
theorem Going.resume (h : Going opts.blockchain s k B task)
    (hwhole : Whole opts.blockchain tree genesis s n)
    (hblock : s.getBlockByNumber (k + 1) = .ok block) :
    ∃ s' task', Blockchain.resume opts.blockchain s task block = (s', task') ∧ MovesHeads s s' ∧
      Going opts.blockchain s' (k + 1) B task' ∧
      task'.blocksRanCounter = task.blocksRanCounter + 1 := by
  have hkept : Blockchain.reorgWhileOnBlock opts.blockchain s task block = false := by
    simp only [Blockchain.reorgWhileOnBlock, h.number, hblock]
    exact decide_eq_false (not_not_intro rfl)
  have hhead : iteratorHead opts.blockchain
      { s with _heads := s._heads.set "vm" (opts.blockchain.hash block.header) } "vm" =
      opts.blockchain.hash block.header := by
    simp [iteratorHead]
  refine ⟨{ s with _heads := s._heads.set "vm" (opts.blockchain.hash block.header) },
    { task with
      lastBlock := some block
      nextBlockNumber := task.nextBlockNumber + 1
      blocksRanCounter := task.blocksRanCounter + 1 },
    ?_, ⟨_, s.db.heads, s.db.headHeader, s.db.headBlock, rfl⟩,
    ⟨?_, h.name, congrArg (· + 1) h.number, h.limit, ?_⟩, rfl⟩
  · simp only [Blockchain.resume, hkept, false_eq_true, if_false, h.name]
  · rw [hhead]
    exact hwhole.index_of_block hblock
  · intro lastBlock hlast
    rw [hhead, some.inj hlast]

/-- A callback finds the parent that it starts from. -/
theorem Going.exists_startingFrom (htree : ForkTree opts.blockchain tree genesis)
    (hwhole : Whole opts.blockchain tree genesis s n)
    (hblock : s.getBlockByNumber (k + 1) = .ok block) (pass : Pass Hash) :
    ∃ headBlock, startingFrom s pass block false = .ok headBlock := by
  obtain ⟨hindex, hparent⟩ := hwhole.canonical.getBlockByNumber_ok htree hblock
  have hle := Nat.le_of_succ_le (hwhole.canonical.chain.le_of_some hindex)
  obtain ⟨parent, hget⟩ := hwhole.blocks k hle
  unfold startingFrom
  split
  · exact ⟨_, rfl⟩
  · exact ⟨parent, hwhole.getBlockByHash hparent hget⟩

end Rounds

/-! ### Callbacks -/

theorem onBlock_ok {block headBlock : Block Hash} {pass : Pass Hash}
    (hstart : startingFrom s pass block false = .ok headBlock) (hrun : opts.runBlock block = .ok ()) :
    onBlock opts true s block false pass =
      (.ok (), { pass with headBlock := some block, executed := pass.executed ++ [block] }) := by
  simp [onBlock, hstart, hrun]

theorem onBlock_error {block headBlock : Block Hash} {pass : Pass Hash} {message : String}
    (hstart : startingFrom s pass block false = .ok headBlock)
    (hrun : opts.runBlock block = .error message) :
    onBlock opts true s block false pass =
      (.error (errorOf (failure message)),
        { headBlock := some headBlock
          errorBlock :=
            if includes message "Invalid executionWitness=null" then pass.errorBlock else some block
          executed := pass.executed ++ [block] }) := by
  simp [onBlock, hstart, hrun]

/-- A text that does not begin within what is put in front. -/
theorem infix_append_iff {text front rest : List Char}
    (h : ∀ part ∈ front.tails, part ≠ [] → ¬part <+: text ∧ ¬text <+: part) :
    text <:+: front ++ rest ↔ text <:+: rest := by
  induction front with
  | nil => rfl
  | cons c front ih =>
    have hrest := ih fun part hmem => h part ((mem_tails _ _).mpr
      (((mem_tails _ _).mp hmem).trans (suffix_cons c front)))
    have hstart : ¬text <+: c :: (front ++ rest) := by
      intro hprefix
      obtain ⟨hnot, hnot'⟩ := h (c :: front) (mem_cons_self) (cons_ne_nil c front)
      exact ( prefix_or_prefix_of_prefix hprefix (prefix_append (c :: front) rest)).elim hnot' hnot
    exact (List.infix_cons_iff.trans (or_iff_right hstart)).trans hrest

theorem includes_failure (message : String) :
    includes (failure message) "not found in DB" = includes message "not found in DB" := by
  unfold includes failure
  rw [String.toList_append]
  exact decide_eq_decide.mpr (infix_append_iff (by decide +kernel))

theorem missingStateRoot_failure (message : String) :
    missingStateRoot (failure message) = missingStateRoot message := by
  unfold missingStateRoot failure
  rw [String.toList_append, map_append]
  exact decide_eq_decide.mpr (infix_append_iff (by decide +kernel))

theorem ofMissingStateRoot_errorOf (message : String) :
    ofMissingStateRoot (errorOf message) = missingStateRoot message := by
  unfold errorOf
  split <;> rfl

/-! ### Rounds of an iterator -/

section

variable {B : Nat} {task : IteratorTask Hash} {block : Block Hash} {w : World Hash} {p : Pass Hash}

/-- Once the iterator has come to its end, no callback is left. -/
theorem rounds_returned (fuel blocksRanCounter : Nat) :
    rounds opts true fuel (w.release opts.blockchain s (.returned blocksRanCounter)) p =
      ({ w with chain := s._saveHeads, progress := some (.returned blocksRanCounter) }, p) := by
  cases fuel <;> rfl

theorem rounds_thrown (fuel : Nat) (e : ChainError) :
    rounds opts true fuel (w.release opts.blockchain s (.thrown e)) p =
      ({ w with chain := s._saveHeads, progress := some (.thrown e) }, p) := by
  cases fuel <;> rfl

/-- What the rounds of `j` blocks have led to. -/
structure Worked (opts : BlockchainOptions Hash) (s s' : Blockchain Hash) (k j B : Nat)
    (task task' : IteratorTask Hash) (p p' : Pass Hash) : Prop where
  moves : MovesHeads s s'
  going : Going opts s' (k + j) B task'
  counted : task'.blocksRanCounter = task.blocksRanCounter + j
  executed : p'.executed = p.executed ++ blocksAfter s k j
  errorBlock : p'.errorBlock = p.errorBlock

/-- Blocks that execute. -/
theorem rounds_succeed (htree : ForkTree opts.blockchain tree genesis) (j : Nat)
    (hwhole : Whole opts.blockchain tree genesis s n) (hgoing : Going opts.blockchain s k B task)
    (hcount : task.blocksRanCounter + j ≤ B)
    (hrun : ∀ i < j, ∃ block, s.getBlockByNumber (k + i + 1) = .ok block ∧
      opts.runBlock block = .ok ()) (fuel : Nat) :
    ∃ (w' : World Hash) (s' : Blockchain Hash) (task' : IteratorTask Hash) (p' : Pass Hash),
      rounds opts true (fuel + j) (w.release opts.blockchain s
          (Blockchain.advance opts.blockchain s task)) p =
        rounds opts true fuel (w'.release opts.blockchain s'
          (Blockchain.advance opts.blockchain s' task')) p' ∧
      Worked opts.blockchain s s' k j B task task' p p' := by
  induction j generalizing s k w task p with
  | zero => exact ⟨w, s, task, p, rfl, .refl s, hgoing, rfl, (append_nil _).symm, rfl⟩
  | succ j ih =>
    obtain ⟨block, hblock, hok⟩ := hrun 0 (Nat.succ_pos j)
    have hmore : task.blocksRanCounter ≠ B := by omega
    obtain ⟨headBlock, hstart⟩ := Going.exists_startingFrom htree hwhole hblock p
    obtain ⟨s₁, task₁, hresume, hmoves, hgoing₁, hcounted⟩ := hgoing.resume hwhole hblock
    have hrun₁ (i : Nat) (hi : i < j) : ∃ block, s₁.getBlockByNumber (k + 1 + i + 1) = .ok block ∧
        opts.runBlock block = .ok () := by
      obtain ⟨next, hnext, hpasses⟩ := hrun (i + 1) (Nat.succ_lt_succ hi)
      rw [hmoves.getBlockByNumber, Nat.add_right_comm k 1 i]
      exact ⟨next, hnext, hpasses⟩
    have hround : rounds opts true (fuel + (j + 1)) (w.release opts.blockchain s
        (.onBlock block false task)) p =
        rounds opts true (fuel + j) (World.returned opts.blockchain (w.release opts.blockchain s
            (.onBlock block false task)) block task (onBlock opts true s block false p).1)
          (onBlock opts true s block false p).2 := rfl
    have hreturned : World.returned opts.blockchain (w.release opts.blockchain s
        (.onBlock block false task)) block task (.ok ()) =
        World.release opts.blockchain (w.release opts.blockchain s (.onBlock block false task)) s₁
          (Blockchain.advance opts.blockchain s₁ task₁) := by
      simp only [World.returned, World.release, hresume]
    obtain ⟨w', s', task', p', hrounds, hworked⟩ :=
      ih (w := w.release opts.blockchain s (.onBlock block false task))
        (p := { p with headBlock := some block, executed := p.executed ++ [block] })
        (hwhole.moves hmoves) hgoing₁ (by omega) hrun₁
    refine ⟨w', s', task', p', ?_, hmoves.trans hworked.moves, ?_, ?_, ?_, hworked.errorBlock⟩
    · rw [hgoing.advance_block htree hwhole hblock hmore, hround, onBlock_ok hstart hok, hreturned]
      exact hrounds
    · rw [← Nat.succ_add_eq_add_succ]
      exact hworked.going
    · rw [hworked.counted, hcounted, Nat.add_right_comm, Nat.add_assoc]
    · have hfirst : s.getBlockByNumber (k + 1) = .ok block := hblock
      rw [hworked.executed, append_assoc, hmoves.blocksAfter]
      simp only [blocksAfter, hfirst, Except.toOption, Option.toList]

/-- A block that fails, and how the iterator ends with it. -/
theorem rounds_failed (htree : ForkTree opts.blockchain tree genesis)
    (hwhole : Whole opts.blockchain tree genesis s n) (hgoing : Going opts.blockchain s k B task)
    (hmore : task.blocksRanCounter ≠ B) (hblock : s.getBlockByNumber (k + 1) = .ok block)
    {message : String} (hfails : opts.runBlock block = .error message) (fuel : Nat) :
    ∃ (w' : World Hash) (headBlock : Block Hash),
      rounds opts true (fuel + 1) (w.release opts.blockchain s
          (Blockchain.advance opts.blockchain s task)) p =
        (w',
          { headBlock := some headBlock
            errorBlock :=
              if includes message "Invalid executionWitness=null" then p.errorBlock else some block
            executed := p.executed ++ [block] }) ∧
      w'.chain = s._saveHeads ∧
      w'.progress = some (if includes message "not found in DB" then .returned task.blocksRanCounter
        else .thrown (errorOf (failure message))) := by
  obtain ⟨headBlock, hstart⟩ := Going.exists_startingFrom htree hwhole hblock p
  have hround : rounds opts true (fuel + 1) (w.release opts.blockchain s
      (.onBlock block false task)) p =
      rounds opts true fuel (World.returned opts.blockchain (w.release opts.blockchain s
          (.onBlock block false task)) block task (onBlock opts true s block false p).1)
        (onBlock opts true s block false p).2 := rfl
  rw [hgoing.advance_block htree hwhole hblock hmore, hround, onBlock_error hstart hfails]
  simp only [errorOf, includes_failure]
  split
  · exact ⟨_, headBlock, rounds_returned fuel _, rfl, rfl⟩
  · exact ⟨_, headBlock, rounds_thrown fuel _, rfl, rfl⟩

end

/-! ## Passes -/

/-- From the head at `k` a pass has executed `j` blocks, and has then tried `more`. -/
structure Passed (opts : Options Hash) (vm vm' : VMExecution Hash) (k j : Nat)
    (more : List (Block Hash)) : Prop where
  moves : MovesHeads vm.chain vm'.chain
  head : vm.chain.index (k + j) = some (iteratorHead opts.blockchain vm'.chain "vm")
  executed : vm'.executed = vm.executed ++ (blocksAfter vm.chain k j ++ more)
  started : vm'.started = vm.started
  shutdown : vm'.shutdown = vm.shutdown

section Passes

variable {vm : VMExecution Hash} {block : Block Hash} {t : Nat}

/-- The blocks after `k` execute, up to the one at `t`. -/
def Runs (opts : Options Hash) (s : Blockchain Hash) (k t : Nat) : Prop :=
  ∀ i, k ≤ i → i < t → ∃ block, s.getBlockByNumber (i + 1) = .ok block ∧ opts.runBlock block = .ok ()

/-- A pass that the loop starts from the head at `k`. -/
structure Starts (opts : Options Hash) (tree : Set (BlockHeader Hash)) (genesis : BlockHeader Hash)
    (vm : VMExecution Hash) (n k : Nat) : Prop where
  whole : Whole opts.blockchain tree genesis vm.chain n
  head : vm.chain.index k = some (iteratorHead opts.blockchain vm.chain "vm")
  started : vm.started = true

theorem Starts.exists_iterator (h : Starts opts tree genesis vm n k) (B : Nat) :
    ∃ task, World.iterator opts.blockchain ⟨vm.chain, none, []⟩ "vm" (some B) =
        World.release opts.blockchain ⟨vm.chain, none, []⟩ vm.chain
          (Blockchain.advance opts.blockchain vm.chain task) ∧
      Going opts.blockchain vm.chain k B task ∧ task.blocksRanCounter = 0 := by
  obtain ⟨header, hheader⟩ := h.whole.canonical.stored k _ h.head
  have hlookup := (h.whole.canonical.headers k _ header hheader).hashToNumber
  refine ⟨⟨"vm", some B, k + 1, 0, none⟩, ?_, ⟨h.head, rfl, rfl, rfl, nofun⟩, rfl⟩
  simp only [World.iterator, Blockchain.hashToNumber, hlookup]

/-- The rounds of the blocks that execute, when a pass has room for them. -/
theorem Starts.rounds_succeed (htree : ForkTree opts.blockchain tree genesis)
    (h : Starts opts tree genesis vm n k) {j fuel : Nat}
    (hfuel : fuel + j = opts.numBlocksPerIteration) (hruns : Runs opts vm.chain k (k + j)) :
    ∃ (w' : World Hash) (s' : Blockchain Hash) (task' : IteratorTask Hash) (p' : Pass Hash),
      rounds opts vm.started opts.numBlocksPerIteration
          (World.iterator opts.blockchain ⟨vm.chain, none, []⟩ "vm" (some opts.numBlocksPerIteration))
          ⟨none, none, vm.executed⟩ = rounds opts true fuel (w'.release opts.blockchain s'
          (Blockchain.advance opts.blockchain s' task')) p' ∧
      MovesHeads vm.chain s' ∧ Going opts.blockchain s' (k + j) opts.numBlocksPerIteration task' ∧
      task'.blocksRanCounter = j ∧ p'.executed = vm.executed ++ blocksAfter vm.chain k j ∧
      p'.errorBlock = none := by
  obtain ⟨task, hiterator, hgoing, hzero⟩ := h.exists_iterator opts.numBlocksPerIteration
  have hrun (i : Nat) (hi : i < j) : ∃ block, vm.chain.getBlockByNumber (k + i + 1) = .ok block ∧
      opts.runBlock block = .ok () :=
    hruns (k + i) (Nat.le_add_right k i) (Nat.add_lt_add_left hi k)
  obtain ⟨w', s', task', p', hrounds, hworked⟩ := VMExecution.rounds_succeed htree j h.whole hgoing
    (by omega) hrun fuel (w := ⟨vm.chain, none, []⟩) (p := ⟨none, none, vm.executed⟩)
  refine ⟨w', s', task', p', ?_, hworked.moves, hworked.going, ?_, hworked.executed, hworked.errorBlock⟩
  · rw [h.started, hiterator, ← hrounds, hfuel]
  · rw [hworked.counted, hzero, Nat.zero_add]

/-- A pass that is full. -/
theorem Starts.pass_full (htree : ForkTree opts.blockchain tree genesis)
    (h : Starts opts tree genesis vm n k) (startHeadBlock : Block Hash)
    (hruns : Runs opts vm.chain k (k + opts.numBlocksPerIteration)) :
    ∃ vm', pass opts vm startHeadBlock = (some (opts.numBlocksPerIteration : Int), vm') ∧
      Passed opts vm vm' k opts.numBlocksPerIteration [] ∧ vm'.chainStatus = vm.chainStatus := by
  obtain ⟨w', s', task', p', hrounds, hmoves, hgoing, hcounted, hexecuted, -⟩ :=
    h.rounds_succeed htree (Nat.zero_add _) hruns
  rw [hgoing.advance_full hcounted, rounds_returned 0] at hrounds
  refine ⟨{ vm with chain := s'._saveHeads, executed := p'.executed }, ?_, ⟨?_, ?_, ?_, rfl, rfl⟩, rfl⟩
  · simp only [pass, hrounds]
  · exact hmoves.trans (movesHeads_saveHeads s')
  · rw [← hmoves.index]
    exact hgoing.head
  · rw [append_nil]
    exact hexecuted

/-- A pass that comes to the top of the chain. -/
theorem Starts.pass_top (htree : ForkTree opts.blockchain tree genesis)
    (h : Starts opts tree genesis vm n k) (startHeadBlock : Block Hash) (hle : k ≤ n)
    (hroom : n < k + opts.numBlocksPerIteration) (hruns : Runs opts vm.chain k n) :
    ∃ vm', pass opts vm startHeadBlock = (some ((n - k : Nat) : Int), vm') ∧
      Passed opts vm vm' k (n - k) [] ∧ vm'.chainStatus = vm.chainStatus := by
  obtain ⟨j, rfl⟩ := Nat.exists_eq_add_of_le hle
  obtain ⟨w', s', task', p', hrounds, hmoves, hgoing, hcounted, hexecuted, -⟩ :=
    h.rounds_succeed htree (Nat.sub_add_cancel (by omega)) hruns
  rw [hgoing.advance_top (h.whole.moves hmoves), rounds_returned] at hrounds
  rw [Nat.add_sub_cancel_left]
  refine ⟨{ vm with chain := s'._saveHeads, executed := p'.executed }, ?_, ⟨?_, ?_, ?_, rfl, rfl⟩, rfl⟩
  · simp only [pass, hrounds, hcounted]
  · exact hmoves.trans (movesHeads_saveHeads s')
  · rw [← hmoves.index]
    exact hgoing.head
  · rw [append_nil]
    exact hexecuted

/-- What a pass comes to with a block that fails. -/
def failedPass (opts : Options Hash) (vm : VMExecution Hash) (startHeadBlock block : Block Hash)
    (message : String) (count : Nat) : Option Int × Option (ChainStatus Hash) :=
  if includes message "not found in DB" then (some (count : Int), vm.chainStatus)
  else if includes message "Invalid executionWitness=null" then (none, vm.chainStatus)
  else
    (some ((block.header.number : Int) - startHeadBlock.header.number), some (invalid opts block))

/-- A pass that comes to a block that fails. -/
theorem Starts.pass_failed (htree : ForkTree opts.blockchain tree genesis)
    (h : Starts opts tree genesis vm n k) (startHeadBlock : Block Hash) (hle : k ≤ t)
    (hroom : t < k + opts.numBlocksPerIteration) (hruns : Runs opts vm.chain k t)
    (hblock : vm.chain.getBlockByNumber (t + 1) = .ok block) {message : String}
    (hfails : opts.runBlock block = .error message) (hstate : missingStateRoot message = false) :
    ∃ vm', pass opts vm startHeadBlock =
        ((failedPass opts vm startHeadBlock block message (t - k)).1, vm') ∧
      Passed opts vm vm' k (t - k) [block] ∧
      vm'.chainStatus = (failedPass opts vm startHeadBlock block message (t - k)).2 := by
  obtain ⟨j, rfl⟩ := Nat.exists_eq_add_of_le hle
  obtain ⟨fuel, hfuel⟩ : ∃ fuel, fuel + 1 + j = opts.numBlocksPerIteration :=
    ⟨opts.numBlocksPerIteration - j - 1, by omega⟩
  obtain ⟨w', s', task', p', hrounds, hmoves, hgoing, hcounted, hexecuted, herrorBlock⟩ :=
    h.rounds_succeed htree hfuel hruns
  obtain ⟨w'', headBlock, hfailed, hchain, hprogress⟩ := rounds_failed (w := w') (p := p') htree
    (h.whole.moves hmoves) hgoing (by omega) ((hmoves.getBlockByNumber _).trans hblock) hfails fuel
  rw [hfailed] at hrounds
  rw [Nat.add_sub_cancel_left]
  have hpassed (status : Option (ChainStatus Hash)) : Passed opts vm
      { vm with chain := w''.chain, executed := p'.executed ++ [block], chainStatus := status } k j
      [block] := by
    refine ⟨?_, ?_, ?_, rfl, rfl⟩
    · rw [hchain]
      exact hmoves.trans (movesHeads_saveHeads s')
    · rw [hchain, ← hmoves.index]
      exact hgoing.head
    · simp only [hexecuted, append_assoc]
  refine ⟨_, ?_, hpassed (failedPass opts vm startHeadBlock block message j).2, rfl⟩
  cases hfound : includes message "not found in DB" with
  | true => simp only [pass, hrounds, hprogress, hfound, failedPass, if_true, hcounted]
  | false =>
    cases hwitness : includes message "Invalid executionWitness=null" with
    | true =>
      simp only [pass, hrounds, hprogress, hfound, hwitness, failedPass, caught, herrorBlock, if_true,
        false_eq_true, if_false]
    | false =>
      simp only [pass, hrounds, hprogress, hfound, hwitness, failedPass, caught,
        ofMissingStateRoot_errorOf, missingStateRoot_failure, hstate, Bool.false_and,
        false_eq_true, if_false]

end Passes

end VMExecution
