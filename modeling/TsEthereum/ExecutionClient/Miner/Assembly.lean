-- SUMMARY: The miner's `assembleBlock`: its runs between their awaits, the flag `assembling`, the chain events and the timers.
import Mathlib.Algebra.Order.BigOperators.Group.List
import TsEthereum.ExecutionClient.Ordering

/-!
# Assembling blocks

A run of `assembleBlock` is suspended at one of its awaits. A step resumes it with what the
await came to, emits an event, lets a timer fire or calls the miner; everything else of
`assembleBlock` happens within a step. Stopping a proof of work makes `iterate` return
nothing, which may happen at any time here. Logging, receipts and the index of transactions
are left out, and so are the contents of blocks: the outcomes of awaits are arbitrary.
-/

namespace Miner

/-- What a run waits for. -/
inductive Await where
  | shallowCopy | setStateRoot | buildBlock | txsByPriceAndNonce | addTransaction | build | iterate
  | saveReceipts | handleNewBlock | demoteUnexecutables | promoteExecutables
  deriving DecidableEq, Repr

/-- What an await comes to. -/
inductive Outcome where
  | resolved
  | txSet (txSet : TransactionsByPriceAndNonce)
  /-- The transaction is in the block, which uses `gasUsed` then. -/
  | added (gasUsed : Nat)
  | solution (found : Bool)
  | rejected (message : String)
  /-- The await resolves, and what follows it throws. -/
  | thrown

structure Config where
  mine : Bool
  saveReceipts : Bool
  minerGasCeil : Option Nat

/-- A call of `assembleBlock` that has set `assembling`. -/
structure Run where
  /-- `none` after it has returned or thrown. -/
  await : Option Await
  interrupt : Bool
  /-- Its interrupt handler is registered. -/
  listening : Bool
  /-- `timeoutInterrupt` is pending. -/
  timeoutInterrupt : Bool
  targetGasLimit : Nat
  gasUsed : Nat
  txSet : TransactionsByPriceAndNonce
  blockFull : Bool

/-- The next assembly is queued where `nextAssembly` is set. -/
structure State where
  running : Bool
  assembling : Bool
  nextAssembly : Bool
  runs : List Run

def new : State := ⟨false, false, false, []⟩

variable (getGasPrice : TypedTransaction → Int) (config : Config)

/-! ## A run -/

namespace Run

def start (gasLimit : Nat) : Run where
  await := some .shallowCopy
  interrupt := false
  listening := true
  timeoutInterrupt := true
  targetGasLimit := match config.minerGasCeil with
    | none => gasLimit
    | some minerGasCeil => if minerGasCeil < gasLimit then minerGasCeil else gasLimit
  gasUsed := 0
  txSet := ⟨.empty, Heap.empty⟩
  blockFull := false

/-- Returns or throws. -/
def settle (r : Run) : Run := { r with await := none }

def waitFor (r : Run) (await : Await) : Run := { r with await := some await }

def setInterrupt (r : Run) : Run :=
  { r with interrupt := true, listening := false, timeoutInterrupt := false }

/-- Behind the loop over the transactions. -/
def endSelection (r : Run) : Run := if r.interrupt then r.settle else r.waitFor .build

/-- The loop up to its next await; each round takes a transaction out of the set. -/
def select : Nat → Run → Run
  | 0, r => r.endSelection
  | rounds + 1, r =>
    if r.blockFull || r.interrupt then r.endSelection
    else
      match r.txSet.peek with
      | none => r.endSelection
      | some (tx, _) =>
        let remainingGas := (r.targetGasLimit : Int) - r.gasUsed
        if remainingGas < tx.gasLimit then
          select rounds { r with txSet := r.txSet.shift getGasPrice, blockFull := remainingGas < 21000 }
        else r.waitFor .addTransaction

/-- The number of transactions in a set. -/
def remaining (txSet : TransactionsByPriceAndNonce) : Nat :=
  txSet.heads.length + (txSet.txs.entries.map (fun e => e.2.length)).sum

def selectNext (r : Run) : Run := r.select getGasPrice (remaining r.txSet)

/-- What the loop does with a transaction that is not added. -/
def skip (r : Run) (message : String) : Run :=
  if message = "tx has a higher gas limit than the remaining gas in the block" then
    { r with
      blockFull := r.blockFull || decide ((r.gasUsed : Int) > (r.targetGasLimit : Int) - 21000)
      txSet := r.txSet.shift getGasPrice }
  else if message.contains "nonce too low" || message.contains "nonce too high" then
    { r with txSet := r.txSet.shift getGasPrice }
  else if message.contains "insufficient balance" || message.contains "invalid" then
    { r with txSet := r.txSet.pop }
  else { r with txSet := r.txSet.shift getGasPrice }

/-- The run after its await has come to `outcome`, and whether it has set `assembling` to
false. -/
def resume (r : Run) (outcome : Outcome) : Option (Run × Bool) :=
  match r.await, outcome with
  | none, _ => none
  -- both errors are caught where they are awaited
  | some .setStateRoot, .rejected _ => some (r.settle, true)
  | some .addTransaction, .rejected message => some ((r.skip getGasPrice message).selectNext getGasPrice, false)
  | some _, .rejected _ => some (r.settle, false)
  | some _, .thrown => some (r.settle, false)
  | some .shallowCopy, .resolved => some (r.waitFor .setStateRoot, false)
  | some .setStateRoot, .resolved => some (r.waitFor .buildBlock, false)
  | some .buildBlock, .resolved => some (r.waitFor .txsByPriceAndNonce, false)
  | some .txsByPriceAndNonce, .txSet txSet =>
    some ({ r with txSet := txSet }.selectNext getGasPrice, false)
  | some .addTransaction, .added gasUsed =>
    some ({ r with gasUsed := gasUsed, txSet := r.txSet.shift getGasPrice }.selectNext getGasPrice, false)
  | some .build, .resolved => some (if r.interrupt then r.settle else r.waitFor .iterate, false)
  | some .iterate, .solution false => some (r.settle, true)
  | some .iterate, .solution true =>
    if r.interrupt then some (r.settle, false)
    else if config.saveReceipts then some (r.waitFor .saveReceipts, false)
    else some (r.waitFor .handleNewBlock, true)
  | some .saveReceipts, .resolved =>
    some (if r.interrupt then r.settle else r.waitFor .handleNewBlock, true)
  | some .handleNewBlock, .resolved => some (r.waitFor .demoteUnexecutables, false)
  | some .demoteUnexecutables, .resolved => some (r.waitFor .promoteExecutables, false)
  | some .promoteExecutables, .resolved =>
    some ({ r.settle with listening := false, timeoutInterrupt := false }, false)
  | some _, _ => none

/-- It is in progress and has not been interrupted. -/
def live (r : Run) : Bool := r.await.isSome && !r.interrupt

/-- It has sealed its block and reset `assembling`, and is adding the block to the chain. -/
def sealed (r : Run) : Bool :=
  r.await = some .handleNewBlock || r.await = some .demoteUnexecutables ||
    r.await = some .promoteExecutables

end Run

/-! ## The miner -/

inductive Step where
  | start
  | stop
  /-- A call from outside, with the gas limit of the latest block if there is one. -/
  | assembleBlock (gasLimit : Option Nat)
  /-- The queued assembly. -/
  | nextAssembly (gasLimit : Option Nat)
  | chainUpdated
  | buildTimeout (id : Nat)
  | resume (id : Nat) (outcome : Outcome)

/-- Without a latest block the call throws, its handlers being registered. -/
def assembleBlock (m : State) (gasLimit : Option Nat) : State :=
  if m.assembling then m
  else
    let r := match gasLimit with
      | none => (Run.start config 0).settle
      | some gasLimit => Run.start config gasLimit
    { m with assembling := true, runs := m.runs ++ [r] }

def step (m : State) : Step → Option State
  | .start =>
    if !config.mine || m.running then some m
    else some { m with running := true, nextAssembly := true }
  | .stop => some (if m.running then { m with running := false, nextAssembly := false } else m)
  | .assembleBlock gasLimit => some (assembleBlock config m gasLimit)
  | .nextAssembly gasLimit =>
    if m.nextAssembly then some (assembleBlock config { m with nextAssembly := false } gasLimit)
    else none
  -- the handler of the miner queues the next assembly, those of the runs interrupt them
  | .chainUpdated => some { m with
      nextAssembly := m.nextAssembly || m.running
      assembling := m.assembling && !m.runs.any Run.listening
      runs := m.runs.map (fun r => if r.listening then r.setInterrupt else r) }
  | .buildTimeout id =>
    match m.runs[id]? with
    | none => none
    | some r =>
      if r.timeoutInterrupt then
        some { m with assembling := false, runs := m.runs.set id r.setInterrupt }
      else none
  | .resume id outcome =>
    match m.runs[id]? with
    | none => none
    | some r =>
      match r.resume getGasPrice config outcome with
      | none => none
      | some (r', resets) =>
        some { m with assembling := m.assembling && !resets, runs := m.runs.set id r' }

def runSteps (m : State) : List Step → Option State
  | [] => some m
  | s :: steps => (step getGasPrice config m s).bind (fun m => runSteps m steps)

end Miner
