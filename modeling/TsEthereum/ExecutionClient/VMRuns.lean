-- SUMMARY: The runs of the execution that end, and end where they should.
import TsEthereum.ExecutionClient.VMExecution

/-!
# Runs of the execution

From pass to pass the head moves up to the last block before one that fails. A full
batch lets the loop go on, and so does a failing block at its end: then the next pass
finds only that block. With batches of one block it does so for ever.
-/

open List Option Nat Bool

namespace VMExecution

open Blockchain (Canonical ForkTree iteratorHead IteratorTask World)

variable {Hash : Type} [DecidableEq Hash] (opts : Options Hash)

/-! ## What a run has to come to -/

def fails (block : Block Hash) : Bool := (opts.runBlock block).toOption.isNone

/-- The first block that fails among those from the head at `k` up to the top at `n`. -/
def firstFailing (s : Blockchain Hash) (k n : Nat) : Option (Block Hash) :=
  (blocksAfter s k (n - k)).find? (fails opts)

structure InvalidAt (vm : VMExecution Hash) (block : Block Hash) : Prop where
  marked : ∃ status, vm.chainStatus = some status ∧ status.status = .INVALID ∧
    status.height = block.header.number ∧ status.hash = opts.blockchain.hash block.header

/-- From the head at `k` of a chain with its top at `n`: the blocks up to the new head have been executed
once and in order, and head and status are those that the first failing block asks for. -/
structure Settled (k n : Nat) (vm vm' : VMExecution Hash) : Prop where
  executed : ∃ m executed,
    vm'.chain.index m = some (iteratorHead opts.blockchain vm'.chain "vm") ∧ k ≤ m ∧
    vm'.executed = vm.executed ++ executed ∧
    executed.filter (fun block => block.header.number ≤ m) = blocksAfter vm.chain k (m - k)
  passes : firstFailing opts vm.chain k n = none →
    iteratorHead opts.blockchain vm'.chain "vm" = vm'.chain._headBlockHash ∧
    ∀ status, vm'.chainStatus = some status → status.status ≠ .INVALID
  failed : ∀ block, firstFailing opts vm.chain k n = some block →
    iteratorHead opts.blockchain vm'.chain "vm" = block.header.parentHash ∧ InvalidAt opts vm' block

/-- A status `INVALID` is left from before, and the head is past it or is its block. -/
def KeepsInvalid (vm : VMExecution Hash) (k : Nat) : Prop :=
  ∃ status, vm.chainStatus = some status ∧ status.status = .INVALID ∧
    (status.height < k ∨ iteratorHead opts.blockchain vm.chain "vm" = status.hash)

variable {opts} {tree : Set (BlockHeader Hash)} {genesis : BlockHeader Hash} {s s' : Blockchain Hash}
  {n k : Nat}

/-! ## What has been executed -/

section Executed

variable {t k₀ j : Nat} {before after more : List (Block Hash)}

theorem blocksAfter_append (s : Blockchain Hash) (k a b : Nat) :
    blocksAfter s k (a + b) = blocksAfter s k a ++ blocksAfter s (k + a) b := by
  induction a generalizing k with
  | zero => rw [Nat.zero_add]; rfl
  | succ a ih =>
    have hrest := ih (k + 1)
    rw [succ_add_eq_add_succ k a] at hrest
    rw [succ_add, blocksAfter, hrest, blocksAfter, append_assoc]

theorem number_of_mem_blocksAfter (h : Canonical opts.blockchain tree genesis s n) {block : Block Hash}
    (hmem : block ∈ blocksAfter s k j) : block.header.number ≤ k + j := by
  induction j generalizing k with
  | zero => cases hmem
  | succ j ih =>
    rcases mem_append.mp hmem with hfirst | hrest
    · cases hget : s.getBlockByNumber (k + 1) with
      | error e =>
        rw [hget] at hfirst
        cases hfirst
      | ok first =>
        rw [hget] at hfirst
        obtain rfl := mem_singleton.mp hfirst
        rw [h.header_number hget]
        exact Nat.add_le_add_left (succ_pos j) k
    · have hle := ih hrest
      rwa [succ_add_eq_add_succ] at hle

/-- What has been executed between `before` and `after`: the blocks from `k₀` to `k`, and others only
above `t`. -/
def Ran (s : Blockchain Hash) (t k₀ k : Nat) (before after : List (Block Hash)) : Prop :=
  ∃ executed, after = before ++ executed ∧
    executed.filter (fun block => block.header.number ≤ t) = blocksAfter s k₀ (k - k₀)

theorem Ran.start : Ran s t k₀ k₀ before before := by
  refine ⟨[], (append_nil before).symm, ?_⟩
  rw [Nat.sub_self]
  rfl

theorem Ran.pass (h : Canonical opts.blockchain tree genesis s n) (hran : Ran s t k₀ k before after)
    (hle : k₀ ≤ k) (ht : k + j ≤ t) (hmore : ∀ block ∈ more, t < block.header.number) :
    Ran s t k₀ (k + j) before (after ++ (blocksAfter s k j ++ more)) := by
  obtain ⟨executed, rfl, hfilter⟩ := hran
  have hin : (blocksAfter s k j).filter (fun block => block.header.number ≤ t) = blocksAfter s k j :=
    List.filter_eq_self.mpr fun block hmem =>
      decide_eq_true ((number_of_mem_blocksAfter h hmem).trans ht)
  have hout : more.filter (fun block => block.header.number ≤ t) = [] :=
    filter_eq_nil_iff.mpr fun block hmem htrue =>
      Nat.not_le_of_lt (hmore block hmem) (of_decide_eq_true htrue)
  have hsplit : k + j - k₀ = (k - k₀) + j := by omega
  refine ⟨executed ++ (blocksAfter s k j ++ more), append_assoc _ _ _, ?_⟩
  rw [filter_append, filter_append, hfilter, hin, hout, append_nil, hsplit,
    blocksAfter_append, Nat.add_sub_cancel' hle]

end Executed

/-! ## The loop from pass to pass -/

section Loop

variable {t k₀ j : Nat} {l : Looping Hash} {vm₀ vm' : VMExecution Hash} {more : List (Block Hash)}

/-- The loop with the head at `k` of a chain with its top at `n`. -/
structure At (opts : Options Hash) (s : Blockchain Hash) (n k : Nat) (l : Looping Hash) : Prop where
  moves : MovesHeads s l.vm.chain
  head : s.index k = some (iteratorHead opts.blockchain l.vm.chain "vm")
  start : s.getBlockByNumber k = .ok l.startHeadBlock
  canonicalHead : s.getBlockByNumber n = .ok l.canonicalHead
  started : l.vm.started = true
  shutdown : l.vm.shutdown = false

theorem At.starts (h : At opts s n k l) (hwhole : Whole opts.blockchain tree genesis s n) :
    Starts opts tree genesis l.vm n k where
  whole := hwhole.moves h.moves
  head := by
    rw [h.moves.index]
    exact h.head
  started := h.started

/-- The loop goes on below the top, before the first pass and after a full one. -/
theorem At.goesOn_iff (htree : ForkTree opts.blockchain tree genesis)
    (hwhole : Whole opts.blockchain tree genesis s n) (h : At opts s n k l) :
    goesOn opts true false l = true ↔
      (l.numExecuted = none ∨ l.numExecuted = some (some (opts.numBlocksPerIteration : Int))) ∧
        k ≠ n := by
  have hstart := hwhole.index_of_block h.start
  have htop := hwhole.index_of_block h.canonicalHead
  have hsame : opts.blockchain.hash l.startHeadBlock.header =
      opts.blockchain.hash l.canonicalHead.header ↔ k = n := by
    constructor
    · intro heq
      exact hwhole.canonical.number_unique htree hstart (heq ▸ htop)
    · rintro rfl
      exact some.inj (hstart.symm.trans htop)
  simp [goesOn, h.started, h.shutdown, hsame]

/-- The heads that the loop reads after a pass. -/
theorem At.step (hwhole : Whole opts.blockchain tree genesis s n) (h : At opts s n k l)
    (hgoes : goesOn opts true false l = true) {count : Int}
    (hpass : pass opts l.vm l.startHeadBlock = (some count, vm'))
    (hpassed : Passed opts l.vm vm' k j more) (hle : k + j ≤ n) :
    ∃ l', step opts true false l = .inl l' ∧ At opts s n (k + j) l' ∧ l'.vm = vm' ∧
      l'.numExecuted = some (some count) := by
  have hmoves := h.moves.trans hpassed.moves
  have hhead : s.index (k + j) = some (iteratorHead opts.blockchain vm'.chain "vm") := by
    rw [← h.moves.index]
    exact hpassed.head
  obtain ⟨block, hblock⟩ := hwhole.blocks (k + j) hle
  have hwhole' := hwhole.moves hmoves
  have hstart : getIteratorHead opts vm'.chain = .ok block :=
    hwhole'.getBlockByHash (hmoves.index ▸ hhead) ((hmoves.getBlockByNumber _).trans hblock)
  have htop : getCanonicalHeadBlock vm'.chain = .ok l.canonicalHead := by
    refine hwhole'.getBlockByHash ?_ ((hmoves.getBlockByNumber n).trans h.canonicalHead)
    rw [hwhole'.headBlock]
    exact hwhole'.canonical.chain.top
  refine ⟨⟨vm', block, l.canonicalHead, some (some count)⟩, ?_,
    ⟨hmoves, hhead, hblock, h.canonicalHead, ?_, ?_⟩, rfl, rfl⟩
  · simp only [VMExecution.step, hgoes, if_true, hpass, hstart, htop]
  · exact hpassed.started.trans h.started
  · exact hpassed.shutdown.trans h.shutdown

theorem step_stops (hstops : goesOn opts true false l = false) :
    step opts true false l = .inr (.ok (l.numExecuted.join.getD 0), l.vm) := by
  simp only [step, hstops, false_eq_true, if_false]

end Loop

/-! ## How runs end -/

section Runs

variable {t k₀ : Nat} {l : Looping Hash} {status final : Option (ChainStatus Hash)}

/-- A run that ends with the head at `t`. -/
structure EndsAt (opts : Options Hash) (s : Blockchain Hash) (t k₀ : Nat) (before : List (Block Hash))
    (final : Option (ChainStatus Hash)) (r : Except ChainError Int × VMExecution Hash) : Prop where
  returned : ∃ numExecuted, r.1 = .ok numExecuted
  moves : MovesHeads s r.2.chain
  head : s.index t = some (iteratorHead opts.blockchain r.2.chain "vm")
  ran : Ran s t k₀ t before r.2.executed
  status : r.2.chainStatus = final

/-- What a pass that has room for more than the blocks up to `t` comes to: it leaves the status
`final`, and counts a full batch only if the next pass has less to do. -/
structure Finishes (opts : Options Hash) (s : Blockchain Hash) (n t : Nat)
    (status final : Option (ChainStatus Hash)) : Prop where
  top : t = n → status = final
  short : ∀ {l : Looping Hash} {k : Nat}, At opts s n k l → k ≤ t →
    t < k + opts.numBlocksPerIteration → Runs opts s k t →
    (l.vm.chainStatus = status ∨ l.vm.chainStatus = final) →
    ∃ (count : Int) (vm' : VMExecution Hash) (more : List (Block Hash)),
      pass opts l.vm l.startHeadBlock = (some count, vm') ∧ Passed opts l.vm vm' k (t - k) more ∧
      (∀ block ∈ more, t < block.header.number) ∧ vm'.chainStatus = final ∧
      (count = opts.numBlocksPerIteration → k < t)

/-- What holds from pass to pass. -/
structure Underway (opts : Options Hash) (s : Blockchain Hash) (n t k₀ : Nat)
    (before : List (Block Hash)) (status final : Option (ChainStatus Hash)) (l : Looping Hash) (k : Nat) :
    Prop where
  at_ : At opts s n k l
  low : k₀ ≤ k
  high : k ≤ t
  ran : Ran s t k₀ k before l.vm.executed
  status : l.vm.chainStatus = status ∨ l.vm.chainStatus = final
  stops : goesOn opts true false l = false → k = t ∧ l.vm.chainStatus = final

/-- The blocks that are left, and the pass that may find none. -/
def passesLeft (opts : Options Hash) (t : Nat) (l : Looping Hash) : Nat :=
  if goesOn opts true false l then t - l.startHeadBlock.header.number + 1 else 0

theorem Runs.congr (hmoves : MovesHeads s s') {k : Nat} (h : Runs opts s k t) : Runs opts s' k t := by
  intro i hk ht
  rw [hmoves.getBlockByNumber]
  exact h i hk ht

theorem Runs.part {a b a' b' : Nat} (h : Runs opts s a b) (ha : a ≤ a') (hb : b' ≤ b) :
    Runs opts s a' b' :=
  fun i hlow hhigh => h i (ha.trans hlow) (Nat.lt_of_lt_of_le hhigh hb)

variable (htree : ForkTree opts.blockchain tree genesis)
include htree

theorem Underway.step
    (hwhole : Whole opts.blockchain tree genesis s n) (hB : 0 < opts.numBlocksPerIteration)
    (ht : t ≤ n) (hruns : Runs opts s k₀ t) (hfinishes : Finishes opts s n t status final)
    {before : List (Block Hash)} {k : Nat} (h : Underway opts s n t k₀ before status final l k)
    (hgoes : goesOn opts true false l = true) : ∃ l', step opts true false l = .inl l' ∧
      (∃ k', Underway opts s n t k₀ before status final l' k') ∧
      passesLeft opts t l' < passesLeft opts t l := by
  have hleft {l : Looping Hash} {k : Nat} (h : At opts s n k l) :
      passesLeft opts t l ≤ t - k + 1 := by
    unfold passesLeft
    rw [hwhole.canonical.header_number h.start]
    split
    · exact Nat.le_refl _
    · exact Nat.zero_le _
  have hnow : passesLeft opts t l = t - k + 1 := by
    rw [passesLeft, if_pos hgoes, hwhole.canonical.header_number h.at_.start]
  rw [hnow]
  rcases Nat.lt_or_ge t (k + opts.numBlocksPerIteration) with hshort | hfull
  · obtain ⟨count, vm', more, hpass, hpassed, hmore, hfinal, hcount⟩ :=
      hfinishes.short h.at_ h.high hshort (hruns.part h.low (Nat.le_refl t)) h.status
    have hreached : k + (t - k) = t := Nat.add_sub_cancel' h.high
    obtain ⟨l', hstep, hat, hvm, hnum⟩ := h.at_.step hwhole hgoes hpass hpassed
      ((Nat.le_of_eq hreached).trans ht)
    have hran := h.ran.pass hwhole.canonical h.low (Nat.le_of_eq hreached) hmore
    rw [hreached] at hat hran
    refine ⟨l', hstep, ⟨t, hat, h.low.trans h.high, Nat.le_refl t, ?_, ?_, fun _ => ⟨rfl, ?_⟩⟩, ?_⟩
    · rw [hvm, hpassed.executed, h.at_.moves.blocksAfter]
      exact hran
    · exact .inr (hvm ▸ hfinal)
    · exact hvm ▸ hfinal
    · -- a pass that counts a full batch has moved the head
      unfold passesLeft
      split
      · rename_i hagain
        rcases ((hat.goesOn_iff htree hwhole).mp hagain).1 with hnone | hsome
        · exact nomatch hnum.symm.trans hnone
        · have hfullCount := some.inj (some.inj (hnum.symm.trans hsome))
          have hlt := hcount hfullCount
          rw [hwhole.canonical.header_number hat.start]
          omega
      · exact succ_pos _
  · obtain ⟨vm', hpass, hpassed, hkept⟩ := (h.at_.starts hwhole).pass_full htree
        l.startHeadBlock ((hruns.part h.low hfull).congr h.at_.moves)
    obtain ⟨l', hstep, hat, hvm, hnum⟩ :=
      h.at_.step hwhole hgoes hpass hpassed (hfull.trans ht)
    have hnone : ∀ block ∈ ([] : List (Block Hash)), t < block.header.number :=
      fun _ hmem => nomatch hmem
    have hran := h.ran.pass hwhole.canonical h.low hfull hnone
    have hstatus : l'.vm.chainStatus = status ∨ l'.vm.chainStatus = final := by
      rw [hvm, hkept]
      exact h.status
    refine ⟨l', hstep, ⟨_, hat, h.low.trans (Nat.le_add_right _ _), hfull, ?_, hstatus, ?_⟩, ?_⟩
    · rw [hvm, hpassed.executed, h.at_.moves.blocksAfter]
      exact hran
    · -- behind a full batch only the top stops the loop
      intro hstops
      have htop : k + opts.numBlocksPerIteration = n := by
        by_contra hne
        exact Bool.false_ne_true
          (hstops.symm.trans ((hat.goesOn_iff htree hwhole).mpr ⟨.inr hnum, hne⟩))
      have hall : t = n := Nat.le_antisymm ht (htop ▸ hfull)
      exact ⟨htop.trans hall.symm, hstatus.elim (fun heq => heq.trans (hfinishes.top hall)) id⟩
    · have hbound := hleft hat
      omega

/-- The run ends, and as it should. -/
theorem exists_ends
    (hwhole : Whole opts.blockchain tree genesis s n) (hB : 0 < opts.numBlocksPerIteration)
    (ht : t ≤ n) (hk : k₀ ≤ t) (hruns : Runs opts s k₀ t)
    (hfinishes : Finishes opts s n t l.vm.chainStatus final) (h : At opts s n k₀ l)
    (hfirst : l.numExecuted = none) :
    ∃ r, WhileLoop.Ends (step opts true false) l r ∧ EndsAt opts s t k₀ l.vm.executed final r := by
  apply WhileLoop.exists_ends
    (I := fun l' => ∃ k, Underway opts s n t k₀ l.vm.executed l.vm.chainStatus final l' k)
    (passesLeft opts t)
  · rintro l' ⟨k, hunderway⟩
    cases hgoes : goesOn opts true false l' with
    | true => exact .inl (hunderway.step htree hwhole hB ht hruns hfinishes hgoes)
    | false =>
      obtain ⟨rfl, hfinal⟩ := hunderway.stops hgoes
      exact .inr ⟨_, step_stops hgoes, ⟨_, rfl⟩, hunderway.at_.moves, hunderway.at_.head,
        hunderway.ran, hfinal⟩
  · refine ⟨k₀, h, Nat.le_refl _, hk, .start, .inl rfl, fun hstops => ?_⟩
    have htop : k₀ = n := by
      by_contra hne
      exact Bool.false_ne_true
        (hstops.symm.trans ((h.goesOn_iff htree hwhole).mpr ⟨.inl hfirst, hne⟩))
    have hall : t = n := Nat.le_antisymm ht (htop ▸ hk)
    exact ⟨htop.trans hall.symm, hfinishes.top hall⟩

end Runs

/-! ### The passes at the end -/

section Ends

variable {t k₀ : Nat} {l : Looping Hash} {status : Option (ChainStatus Hash)} {block : Block Hash}
  {message : String}

theorem finishes_top (htree : ForkTree opts.blockchain tree genesis)
    (hwhole : Whole opts.blockchain tree genesis s n) : Finishes opts s n n status status where
  top _ := rfl
  short {l k} h hle hroom hruns hstatus := by
    obtain ⟨vm', hpass, hpassed, hkept⟩ := (h.starts hwhole).pass_top htree
      l.startHeadBlock hle hroom (hruns.congr h.moves)
    refine ⟨_, vm', [], hpass, hpassed, fun _ hmem => (nomatch hmem), ?_, ?_⟩
    · exact hkept.trans (hstatus.elim id id)
    · intro hcount
      omega

/-- What makes a block's failure one that is not taken for the block's own. -/
def Overlooked (message : String) : Prop :=
  includes message "not found in DB" = true ∨ includes message "Invalid executionWitness=null" = true

variable (htree : ForkTree opts.blockchain tree genesis)
include htree

/-- A pass that comes to a block whose failure is taken for its own. -/
theorem At.pass_failed
    (hwhole : Whole opts.blockchain tree genesis s n) {k : Nat} (h : At opts s n k l) (hle : k ≤ t)
    (hroom : t < k + opts.numBlocksPerIteration) (hruns : Runs opts s k t)
    (hblock : s.getBlockByNumber (t + 1) = .ok block) (hfails : opts.runBlock block = .error message)
    (hstate : missingStateRoot message = false) (hseen : ¬Overlooked message) :
    ∃ vm', pass opts l.vm l.startHeadBlock = (some ((t + 1 : Nat) - k : Int), vm') ∧
      Passed opts l.vm vm' k (t - k) [block] ∧ vm'.chainStatus = some (invalid opts block) := by
  obtain ⟨vm', hpass, hpassed, hstatus⟩ := (h.starts hwhole).pass_failed htree
      l.startHeadBlock hle hroom (hruns.congr h.moves)
    ((h.moves.getBlockByNumber _).trans hblock) hfails hstate
  obtain ⟨hfound, hwitness⟩ := not_or.mp hseen
  simp only [failedPass, if_neg hfound, if_neg hwitness, hwhole.canonical.header_number hblock,
    hwhole.canonical.header_number h.start] at hpass hstatus
  exact ⟨vm', hpass, hpassed, hstatus⟩

theorem finishes_failed
    (hwhole : Whole opts.blockchain tree genesis s n) (hB : 2 ≤ opts.numBlocksPerIteration)
    (ht : t < n) (hblock : s.getBlockByNumber (t + 1) = .ok block)
    (hfails : opts.runBlock block = .error message) (hstate : missingStateRoot message = false)
    (hseen : ¬Overlooked message) : Finishes opts s n t status (some (invalid opts block)) where
  top heq := absurd heq (Nat.ne_of_lt ht)
  short {l k} h hle hroom hruns _ := by
    obtain ⟨vm', hpass, hpassed, hstatus⟩ :=
      h.pass_failed htree hwhole hle hroom hruns hblock hfails hstate hseen
    refine ⟨_, vm', [block], hpass, hpassed, ?_, hstatus, ?_⟩
    · intro other hmem
      rw [mem_singleton.mp hmem, hwhole.canonical.header_number hblock]
      exact lt_succ_self t
    · intro hcount
      omega

/-- With batches of one block, the loop tries a block that fails again and again. -/
theorem not_ends_of_one
    (hwhole : Whole opts.blockchain tree genesis s n) (hB : opts.numBlocksPerIteration = 1)
    (ht : t < n) (hk : k₀ ≤ t) (hruns : Runs opts s k₀ t)
    (hblock : s.getBlockByNumber (t + 1) = .ok block) (hfails : opts.runBlock block = .error message)
    (hstate : missingStateRoot message = false) (hseen : ¬Overlooked message)
    (h : At opts s n k₀ l) (hfirst : l.numExecuted = none)
    (r : Except ChainError Int × VMExecution Hash) :
    ¬WhileLoop.Ends (step opts true false) l r := by
  apply WhileLoop.not_ends
    (I := fun l' => ∃ k, At opts s n k l' ∧ k₀ ≤ k ∧ k ≤ t ∧ goesOn opts true false l' = true)
  · rintro l' ⟨k, hat, hlow, hhigh, hgoes⟩
    rcases Nat.lt_or_eq_of_le hhigh with hlt | rfl
    · obtain ⟨vm', hpass, hpassed, -⟩ := (hat.starts hwhole).pass_full htree
        l'.startHeadBlock
        ((hruns.part hlow (by rw [hB]; exact hlt)).congr hat.moves)
      obtain ⟨l'', hstep, hat', -, hnum⟩ := hat.step hwhole hgoes hpass hpassed (by omega)
      exact ⟨l'', hstep, _, hat', by omega, by omega,
        (hat'.goesOn_iff htree hwhole).mpr ⟨.inr hnum, by omega⟩⟩
    · obtain ⟨vm', hpass, hpassed, -⟩ := hat.pass_failed htree hwhole (Nat.le_refl k) (by omega)
        (hruns.part hlow (Nat.le_refl k)) hblock hfails hstate hseen
      rw [Nat.sub_self] at hpassed
      obtain ⟨l'', hstep, hat', -, hnum⟩ := hat.step hwhole hgoes hpass hpassed ht.le
      -- one is counted for the block, though none has been executed
      have hone : ((k + 1 : Nat) - k : Int) = (opts.numBlocksPerIteration : Int) := by omega
      rw [hone] at hnum
      exact ⟨l'', hstep, k, hat', hlow, Nat.le_refl k,
        (hat'.goesOn_iff htree hwhole).mpr ⟨.inr hnum, Nat.ne_of_lt ht⟩⟩
  · exact ⟨k₀, h, Nat.le_refl k₀, hk,
      (h.goesOn_iff htree hwhole).mpr ⟨.inl hfirst, Nat.ne_of_lt (Nat.lt_of_le_of_lt hk ht)⟩⟩

/-- A failure that is overlooked leaves the status as it was. -/
theorem status_of_overlooked
    (hwhole : Whole opts.blockchain tree genesis s n) (ht : t < n) (hk : k₀ ≤ t)
    (hruns : Runs opts s k₀ t) (hblock : s.getBlockByNumber (t + 1) = .ok block)
    (hfails : opts.runBlock block = .error message) (hstate : missingStateRoot message = false)
    (hoverlooked : Overlooked message) (h : At opts s n k₀ l)
    {r : Except ChainError Int × VMExecution Hash}
    (hends : WhileLoop.Ends (step opts true false) l r) : r.2.chainStatus = l.vm.chainStatus := by
  refine WhileLoop.Ends.result
    (I := fun l' => l'.vm.chainStatus = l.vm.chainStatus ∧
      (l'.numExecuted = some none ∨ ∃ k, At opts s n k l' ∧ k₀ ≤ k ∧ k ≤ t))
    (Q := fun r => r.2.chainStatus = l.vm.chainStatus) ?_ ⟨rfl, .inr ⟨k₀, h, Nat.le_refl k₀, hk⟩⟩ hends
  rintro l' ⟨hkept, hphase⟩
  cases hgoes : goesOn opts true false l' with
  | false =>
    exact .inr ⟨_, step_stops hgoes, hkept⟩
  | true =>
    rcases hphase with hnull | ⟨k, hat, hlow, hhigh⟩
    · simp [goesOn, hnull] at hgoes
    · rcases Nat.lt_or_ge t (k + opts.numBlocksPerIteration) with hshort | hfull
      · obtain ⟨vm', hpass, hpassed, hstatus⟩ := (hat.starts hwhole).pass_failed htree
          l'.startHeadBlock hhigh hshort
          ((hruns.part hlow (Nat.le_refl t)).congr hat.moves)
          ((hat.moves.getBlockByNumber _).trans hblock) hfails hstate
        cases hfound : includes message "not found in DB" with
        | true =>
          simp only [failedPass, hfound, if_true] at hpass hstatus
          have hreached : k + (t - k) = t := Nat.add_sub_cancel' hhigh
          obtain ⟨l'', hstep, hat', hvm, -⟩ :=
            hat.step hwhole hgoes hpass hpassed ((Nat.le_of_eq hreached).trans ht.le)
          exact .inl ⟨l'', hstep, hvm ▸ hstatus.trans hkept, .inr ⟨_, hat',
            hlow.trans (Nat.le_add_right _ _), Nat.le_of_eq hreached⟩⟩
        | false =>
          have hwitness : includes message "Invalid executionWitness=null" = true :=
            hoverlooked.resolve_left (by rw [hfound]; exact Bool.false_ne_true)
          simp only [failedPass, hfound, hwitness, if_true, false_eq_true, if_false] at hpass hstatus
          have hstep : step opts true false l' = .inl { l' with vm := vm', numExecuted := some none } := by
            simp only [step, hgoes, if_true, hpass]
          exact .inl ⟨_, hstep, hstatus.trans hkept, .inl rfl⟩
      · obtain ⟨vm', hpass, hpassed, hstatus⟩ := (hat.starts hwhole).pass_full htree
          l'.startHeadBlock ((hruns.part hlow hfull).congr hat.moves)
        obtain ⟨l'', hstep, hat', hvm, -⟩ := hat.step hwhole hgoes hpass hpassed (hfull.trans ht.le)
        exact .inl ⟨l'', hstep, hvm ▸ hstatus.trans hkept, .inr ⟨_, hat',
          hlow.trans (Nat.le_add_right _ _), hfull⟩⟩

end Ends

/-! ## Runs -/

section Run

variable {vm : VMExecution Hash} {block : Block Hash}

/-- The blocks after the head execute, or there is a first one that does not. -/
theorem runs_or_fails {count : Nat}
    (hblocks : ∀ j ≤ k + count, ∃ block, s.getBlockByNumber j = .ok block) :
    (Runs opts s k (k + count) ∧ (blocksAfter s k count).find? (fails opts) = none) ∨
      ∃ t block message, k ≤ t ∧ t < k + count ∧ Runs opts s k t ∧
        s.getBlockByNumber (t + 1) = .ok block ∧ opts.runBlock block = .error message ∧
        (blocksAfter s k count).find? (fails opts) = some block := by
  induction count generalizing k with
  | zero => exact .inl ⟨fun i hlow hhigh => absurd hhigh (Nat.not_lt_of_le hlow), rfl⟩
  | succ count ih =>
    obtain ⟨first, hfirst⟩ := hblocks (k + 1) (Nat.add_le_add_left (succ_pos count) k)
    have hlist : blocksAfter s k (count + 1) = first :: blocksAfter s (k + 1) count := by
      simp only [blocksAfter, hfirst, Except.toOption, Option.toList, singleton_append]
    rw [hlist, ← succ_add_eq_add_succ]
    cases hrun : opts.runBlock first with
    | error message =>
      refine .inr ⟨k, first, message, Nat.le_refl k, by omega,
        fun i hlow hhigh => absurd hhigh (Nat.not_lt_of_le hlow), hfirst, hrun, ?_⟩
      exact find?_cons_of_pos (by simp [fails, hrun, Except.toOption])
    | ok _ =>
      have hmore {t : Nat} (h : Runs opts s (k + 1) t) : Runs opts s k t := by
        intro i hlow hhigh
        rcases Nat.lt_or_eq_of_le hlow with hlt | rfl
        · exact h i hlt hhigh
        · exact ⟨first, hfirst, hrun⟩
      have hskip : (first :: blocksAfter s (k + 1) count).find? (fails opts) =
          (blocksAfter s (k + 1) count).find? (fails opts) :=
        find?_cons_of_neg (by simp [fails, hrun, Except.toOption])
      rw [hskip]
      rcases ih (k := k + 1) (by rwa [succ_add_eq_add_succ]) with
        ⟨hruns, hnone⟩ | ⟨t, block, message, hlow, hhigh, hruns, hblock, hfails, hsome⟩
      · exact .inl ⟨hmore hruns, hnone⟩
      · exact .inr ⟨t, block, message, le_of_succ_le hlow, hhigh, hmore hruns, hblock, hfails, hsome⟩

theorem firstFailing_cases (hwhole : Whole opts.blockchain tree genesis s n) (hk : k ≤ n) :
    (Runs opts s k n ∧ firstFailing opts s k n = none) ∨
      ∃ t block message, k ≤ t ∧ t < n ∧ Runs opts s k t ∧
        s.getBlockByNumber (t + 1) = .ok block ∧ opts.runBlock block = .error message ∧
        firstFailing opts s k n = some block := by
  obtain ⟨count, rfl⟩ := Nat.exists_eq_add_of_le hk
  unfold firstFailing
  rw [Nat.add_sub_cancel_left]
  exact runs_or_fails hwhole.blocks

/-- A status `INVALID` with which a run starts was there before, and is kept as the head has passed it. -/
theorem invalid_of_checkAndReset {status : ChainStatus Hash}
    (hsome : (checkAndReset opts vm block).chainStatus = some status) (hinvalid : status.status = .INVALID) :
    vm.chainStatus = some status ∧ (status.height < block.header.number ∨
      opts.blockchain.hash block.header = status.hash) := by
  unfold checkAndReset at hsome
  dsimp only at hsome
  split at hsome
  · rename_i hpassed
    rw [hsome, any_some, or_eq_true, decide_eq_true_iff, decide_eq_true_iff] at hpassed
    exact ⟨hsome, hpassed⟩
  · rw [← some.inj hsome] at hinvalid
    cases hinvalid

theorem checkAndReset_of_passed {status : ChainStatus Hash} (hsome : vm.chainStatus = some status)
    (hpassed : status.height < block.header.number ∨
      opts.blockchain.hash block.header = status.hash) : checkAndReset opts vm block = vm := by
  unfold checkAndReset
  dsimp only
  rw [if_pos]
  rwa [hsome, any_some, or_eq_true, decide_eq_true_iff, decide_eq_true_iff]

/-- The loop of a run, as it starts. -/
theorem exists_loop (hwhole : Whole opts.blockchain tree genesis vm.chain n)
    (hhead : vm.chain.index k = some (iteratorHead opts.blockchain vm.chain "vm"))
    (hready : ready opts vm = true) :
    ∃ l startHeadBlock, vm.chain.getBlockByNumber k = .ok startHeadBlock ∧
      At opts vm.chain n k l ∧ l.numExecuted = none ∧ l.vm.executed = vm.executed ∧
      l.vm.chainStatus = (checkAndReset opts { vm with running := true } startHeadBlock).chainStatus ∧
      ∀ r, (∃ fuel, run opts fuel true false vm = some r) ↔
        ∃ r', WhileLoop.Ends (step opts true false) l r' ∧ r = stopped r' := by
  obtain ⟨startHeadBlock, hstart⟩ := hwhole.blocks k (hwhole.canonical.chain.le_of_some hhead)
  obtain ⟨canonicalHead, htop⟩ := hwhole.blocks n (Nat.le_refl n)
  have hiterator : getIteratorHead opts vm.chain = .ok startHeadBlock := hwhole.getBlockByHash hhead hstart
  have hcanonical : getCanonicalHeadBlock vm.chain = .ok canonicalHead := by
    refine hwhole.getBlockByHash ?_ htop
    rw [hwhole.headBlock]
    exact hwhole.canonical.chain.top
  obtain ⟨status, hreset⟩ : ∃ status, checkAndReset opts { vm with running := true } startHeadBlock =
      { vm with running := true, chainStatus := status } := by
    unfold checkAndReset
    dsimp only
    split
    · exact ⟨vm.chainStatus, rfl⟩
    · exact ⟨_, rfl⟩
  obtain ⟨⟨⟨-, hstarted⟩, -⟩, hshutdown⟩ : ((vm.running = false ∧ vm.started = true) ∧
      opts.execution = true) ∧ vm.shutdown = false := by
    simpa [ready] using hready
  refine ⟨⟨checkAndReset opts { vm with running := true } startHeadBlock, startHeadBlock, canonicalHead,
    none⟩, startHeadBlock, hstart, ⟨?_, ?_, hstart, htop, ?_, ?_⟩, rfl, ?_, rfl, ?_⟩
  · rw [hreset]
    exact .refl _
  · rw [hreset]
    exact hhead
  · rw [hreset]
    exact hstarted
  · rw [hreset]
    exact hshutdown
  · rw [hreset]
  · intro r
    have hrun (fuel : Nat) : run opts fuel true false vm =
        (WhileLoop.run (step opts true false) fuel
          ⟨checkAndReset opts { vm with running := true } startHeadBlock, startHeadBlock, canonicalHead,
            none⟩).map stopped := by
      have hcanonical' : getCanonicalHeadBlock
          (checkAndReset opts { vm with running := true } startHeadBlock).chain = .ok canonicalHead := by
        rw [hreset]
        exact hcanonical
      simp only [run, hready, if_true, hiterator, hcanonical']
    constructor
    · rintro ⟨fuel, hsome⟩
      rw [hrun] at hsome
      obtain ⟨r', hloop, hr⟩ := map_eq_some_iff.mp hsome
      exact ⟨r', WhileLoop.exists_run_iff.mp ⟨fuel, hloop⟩, hr.symm⟩
    · rintro ⟨r', hends, rfl⟩
      obtain ⟨fuel, hloop⟩ := WhileLoop.exists_run_iff.mpr hends
      exact ⟨fuel, by rw [hrun, hloop]; rfl⟩

/-- A run that ends with the head at the first failing block's parent, or at the top. -/
theorem EndsAt.settled (htree : ForkTree opts.blockchain tree genesis)
    (hwhole : Whole opts.blockchain tree genesis vm.chain n) {t : Nat}
    {final : Option (ChainStatus Hash)} {r : Except ChainError Int × VMExecution Hash}
    (h : EndsAt opts vm.chain t k vm.executed final r) (hk : k ≤ t)
    (hpasses : firstFailing opts vm.chain k n = none →
      t = n ∧ ∀ status, final = some status → status.status ≠ .INVALID)
    (hfailed : ∀ block, firstFailing opts vm.chain k n = some block →
      vm.chain.getBlockByNumber (t + 1) = .ok block ∧ final = some (invalid opts block)) :
    Settled opts k n vm (stopped r).2 := by
  obtain ⟨executed, hexecuted, hfilter⟩ := h.ran
  refine ⟨⟨t, executed, h.moves.index ▸ h.head, hk, hexecuted, hfilter⟩, ?_, ?_⟩
  · intro hnone
    obtain ⟨rfl, hvalid⟩ := hpasses hnone
    refine ⟨?_, fun status hsome => hvalid status (h.status.symm.trans hsome)⟩
    show iteratorHead opts.blockchain r.2.chain "vm" = r.2.chain._headBlockHash
    rw [h.moves.headBlock, hwhole.headBlock]
    exact some.inj (h.head.symm.trans hwhole.canonical.chain.top)
  · intro block hsome
    obtain ⟨hblock, hinvalid⟩ := hfailed block hsome
    have hparent := (hwhole.canonical.getBlockByNumber_ok htree hblock).2
    exact ⟨some.inj (h.head.symm.trans hparent),
      ⟨⟨_, h.status.trans hinvalid, rfl, rfl, rfl⟩⟩⟩

end Run

section Sample

open Blockchain (sampleGenesis sampleTree sampleTree_forkTree sampleStart)

/-- Batches of `B` blocks, in which one block fails. -/
def sampleOptions (B : Nat) : Options Nat where
  blockchain := Blockchain.sampleOptions
  execution := true
  numBlocksPerIteration := B
  stateRoot header := header.extraData
  hasStateRoot _ := true
  runBlock block := if block.header.extraData = 12 then .error "invalid gasUsed" else .ok ()

/-- Two blocks above the genesis block, none of them executed yet. -/
def sampleExecution : VMExecution Nat where
  chain := (sampleStart none).chain
  chainStatus := none
  started := true
  running := false
  shutdown := false
  executed := []

theorem sampleExecution_whole :
    Whole Blockchain.sampleOptions sampleTree sampleGenesis.header sampleExecution.chain 2 := by
  obtain ⟨hist₁, h₁⟩ := Blockchain.exists_run_put .create (Blockchain.sampleHeader 11 1 1 2)
    (by decide) (by decide +kernel) (by decide +kernel)
  obtain ⟨hist₂, h₂⟩ := Blockchain.exists_run_put h₁ (Blockchain.sampleHeader 12 11 2 2)
    (by decide) (by decide +kernel) (by decide +kernel)
  obtain ⟨n, hn⟩ := (h₂.invariant sampleTree_forkTree).canonical
  have htwo : 2 ≤ n := (hn.chain.isSome_iff 2).mp (by decide +kernel)
  have hthree : ¬3 ≤ n := fun hle => absurd ((hn.chain.isSome_iff 3).mpr hle) (by decide +kernel)
  obtain rfl : n = 2 := by omega
  refine ⟨hn, fun j hj => ?_, by decide +kernel⟩
  match j, hj with
  | 0, _ => exact ⟨_, rfl⟩
  | 1, _ => exact ⟨_, rfl⟩
  | 2, _ => exact ⟨_, rfl⟩

theorem sampleExecution_state (B : Nat) (block : Block Nat) (message : String)
    (hfails : (sampleOptions B).runBlock block = .error message) :
    missingStateRoot message = false := by
  unfold sampleOptions at hfails
  dsimp only at hfails
  split at hfails
  · obtain rfl := Except.error.inj hfails
    decide +kernel
  · cases hfails

end Sample

end VMExecution
