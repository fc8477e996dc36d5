-- SUMMARY: The invariant of a running frame, and the operations of the interpreter that keep it.
import TsEthereum.Evm.StateEffects

/-!
# Frames

While a frame runs, its copy of the contract's account is the account in the
state, what is under the last checkpoint stays as it was, and no ether appears.
A static frame changes nothing. What the frame relies on about the messages that
it sends is `MessageSpec`, which the messages are later shown to meet.
-/

open Program EvmState

/-! ## What a message does to the state -/

section Effects

variable (evm : EVM)

/-- Writes to transient storage can be taken back, and without EIP-1153 there are none. -/
structure Grows (t t' : TransientStorage) : Prop where
  inactive : evm.common.isActivatedEIP 1153 = false → t' = t
  recorded : t.Extends t'

/-- No value is different. -/
structure Unchanged (s s' : EvmState) : Prop where
  values : s.stateManager.SameValues s'.stateManager
  transient : s'.transientStorage.value = s.transientStorage.value

/-- The state as it was, but for warm and touched addresses. -/
structure Restored (s s' : EvmState) : Prop where
  stateManager : s'.stateManager = s.stateManager
  transientStorage : s.transientStorage.Agrees s'.transientStorage
  height : s'.journal.journalHeight = s.journal.journalHeight
  tx : s'.tx = s.tx

/-- Ether moves, and is lost at most where an account destructs itself. -/
structure Conserves (destructed : OrderedSet HexString) (s s' : EvmState) : Prop where
  solvent : s'.stateManager.Solvent
  total_le : s'.stateManager.totalBalance ≤ s.stateManager.totalBalance
  total_eq : destructed.keys = [] → s'.stateManager.totalBalance = s.stateManager.totalBalance

def Money (destructed : OrderedSet HexString) (s s' : EvmState) : Prop :=
  s.stateManager.Solvent → Conserves destructed s s'

end Effects

section

variable {evm : EVM} {s s' s'' : EvmState} {destructed destructed' : OrderedSet HexString}

theorem Grows.refl (t : TransientStorage) : Grows evm t t := ⟨fun _ => rfl, .refl t⟩

theorem Grows.trans {t t' t'' : TransientStorage} (h : Grows evm t t') (h' : Grows evm t' t'') :
    Grows evm t t'' :=
  ⟨fun hoff => (h'.inactive hoff).trans (h.inactive hoff), h.recorded.trans h'.recorded⟩

theorem Unchanged.refl (s : EvmState) : Unchanged s s := ⟨.refl _, rfl⟩

theorem Unchanged.trans (h : Unchanged s s') (h' : Unchanged s' s'') : Unchanged s s'' :=
  ⟨h.values.trans h'.values, h'.transient.trans h.transient⟩

theorem Restored.unchanged (h : Restored s s') : Unchanged s s' :=
  ⟨h.stateManager ▸ .refl _, h.transientStorage.value⟩

theorem Money.refl (s : EvmState) : Money destructed s s := fun h => ⟨h, le_rfl, fun _ => rfl⟩

/-- The destructed accounts are those of both parts. -/
theorem Money.trans (h : Money destructed s s') (h' : Money destructed' s' s'')
    (hset : destructed'.keys = [] → destructed.keys = []) : Money destructed' s s'' := by
  intro hs
  have h := h hs
  have h' := h' h.solvent
  exact ⟨h'.solvent, h'.total_le.trans h.total_le,
    fun hnone => (h'.total_eq hnone).trans (h.total_eq (hset hnone))⟩

theorem Money.mono (h : Money destructed s s')
    (hset : destructed'.keys = [] → destructed.keys = []) : Money destructed' s s' :=
  h.trans (.refl s') hset

/-- The same balances, the same ether. -/
theorem Money.of_balances
    (h : ∀ k, (s'.stateManager.accountAt k).balance = (s.stateManager.accountAt k).balance) :
    Money destructed s s' := by
  have htotal := SimpleStateManager.totalBalance_congr h
  refine fun hs => ⟨fun k => ?_, htotal.le, fun _ => htotal⟩
  rw [h k]
  exact hs k

theorem Money.of_accounts (h : ∀ k, s'.stateManager.accountAt k = s.stateManager.accountAt k) :
    Money destructed s s' :=
  .of_balances fun k => by rw [h k]

theorem Unchanged.of_quiet (h : Quiet s s') : Unchanged s s' :=
  ⟨h.stateManager ▸ .refl _, by rw [h.transientStorage]⟩

theorem Grows.of_quiet (h : Quiet s s') : Grows evm s.transientStorage s'.transientStorage :=
  h.transientStorage ▸ .refl _

theorem Grows.of_becomes {sm : SimpleStateManager} (h : Becomes s sm s') :
    Grows evm s.transientStorage s'.transientStorage :=
  h.transientStorage ▸ .refl _

theorem Money.of_quiet (h : Quiet s s') : Money destructed s s' :=
  .of_accounts fun k => by rw [h.stateManager]

end

/-! ## Messages -/

/-- The value stays where it is. -/
def Message.Harmless (msg : Message) : Prop :=
  msg.delegatecall = true ∨ msg.value = 0 ∨ msg.to = some msg.caller

/-- What a message below depth 0 does where it does not throw. -/
structure Outcome (evm : EVM) (msg : Message) (s : EvmState) (res : EVMResult) (msg' : Message)
    (s' : EvmState) : Prop where
  keeps : Keeps s s'
  grows : Grows evm s.transientStorage s'.transientStorage
  restored : ∀ e, res.execResult.exceptionError = some e → e ≠ .CODESTORE_OUT_OF_GAS →
    Restored s s'
  codestore : res.execResult.exceptionError = some .CODESTORE_OUT_OF_GAS → msg.to = none
  money : Money (msg'.selfdestruct.getD .empty) s s'
  static : msg.isStatic = true → msg.to ≠ none → msg.Harmless →
    Unchanged s s' ∧ res.execResult.logs.getD [] = []

/-- What a sender has to provide: a create has to be paid for. -/
structure Sendable (msg : Message) (s : EvmState) : Prop where
  depth : msg.depth ≠ 0
  value : 0 ≤ msg.value
  ready : s.stateManager.Ready
  selfdestruct : msg.selfdestruct.isSome = true
  funds : msg.to = none → msg.value ≤ (s.stateManager.account msg.caller).balance

def MessageSpec (evm : EVM) (runCall : RunMessage) : Prop :=
  ∀ msg s, Sendable msg s →
    (runCall msg).wp (fun r s' => Outcome evm msg s r.1 r.2 s') (fun e _ => Foreign e) s

namespace Interpreter

/-! ## The invariant -/

/-- What holds of a frame while it runs, and where it ends without an error. -/
structure FrameKept (evm : EVM) (isStatic : Bool) (s : EvmState) (i : Interpreter) : Prop where
  keeps : Keeps s i.evm
  grows : Grows evm s.transientStorage i.evm.transientStorage
  money : Money i.result.selfdestruct s i.evm
  env : i.env.isStatic = isStatic
  static : isStatic = true → Unchanged s i.evm ∧ i.result.logs = []

/-- What holds of a frame before every step. -/
structure FrameInv (evm : EVM) (isStatic : Bool) (s : EvmState) (i : Interpreter) : Prop extends
    FrameKept evm isStatic s i where
  coherent : i.env.contract = i.evm.stateManager.account i.env.address

/-- What holds where a step throws: a frame that fails is reverted, one that stops is not. -/
structure FrameThrown (evm : EVM) (isStatic : Bool) (s : EvmState) (e : Throw) (i : Interpreter) : Prop where
  codestore : e ≠ .evmError .CODESTORE_OUT_OF_GAS
  keeps : ¬Foreign e → Keeps s i.evm ∧ Grows evm s.transientStorage i.evm.transientStorage
  stop : e = .evmError .STOP → FrameKept evm isStatic s i

theorem FrameThrown.foreign {evm : EVM} {isStatic : Bool} {s : EvmState} {e : Throw} {i : Interpreter}
    (h : Foreign e) : FrameThrown evm isStatic s e i :=
  ⟨h _, fun hnot => absurd h hnot, fun hstop => absurd hstop (h _)⟩

theorem FrameThrown.of_kept {evm : EVM} {isStatic : Bool} {s : EvmState} {e : Throw} {i : Interpreter}
    (he : e ≠ .evmError .CODESTORE_OUT_OF_GAS) (h : FrameKept evm isStatic s i) :
    FrameThrown evm isStatic s e i :=
  ⟨he, fun _ => ⟨h.keeps, h.grows⟩, fun _ => h⟩

/-! ## Operations that leave the frame alone -/

/-- Only the run state, the return value and the warm addresses differ. -/
structure SameFrame (i i' : Interpreter) : Prop where
  evm : Quiet i.evm i'.evm
  env : i'.env = i.env
  logs : i'.result.logs = i.result.logs
  selfdestruct : i'.result.selfdestruct = i.result.selfdestruct

theorem SameFrame.refl (i : Interpreter) : SameFrame i i := ⟨.refl _, rfl, rfl, rfl⟩

theorem SameFrame.trans {i i' i'' : Interpreter} (h : SameFrame i i') (h' : SameFrame i' i'') :
    SameFrame i i'' :=
  ⟨h.evm.trans h'.evm, h'.env.trans h.env, h'.logs.trans h.logs,
    h'.selfdestruct.trans h.selfdestruct⟩

variable {evm : EVM} {isStatic : Bool} {s : EvmState} {i i' : Interpreter} {α β : Type}

theorem FrameKept.same (h : FrameKept evm isStatic s i) (hsame : SameFrame i i') :
    FrameKept evm isStatic s i' where
  keeps := h.keeps.trans hsame.evm.keeps
  grows := h.grows.trans (.of_quiet hsame.evm)
  money := by
    rw [hsame.selfdestruct]
    exact h.money.trans (.of_quiet hsame.evm) id
  env := by rw [hsame.env, h.env]
  static := by
    intro hstatic
    rw [hsame.logs]
    exact ⟨(h.static hstatic).1.trans (.of_quiet hsame.evm), (h.static hstatic).2⟩

theorem FrameInv.same (h : FrameInv evm isStatic s i) (hsame : SameFrame i i') :
    FrameInv evm isStatic s i' where
  toFrameKept := h.toFrameKept.same hsame
  coherent := by
    rw [hsame.env, hsame.evm.stateManager]
    exact h.coherent

/-- The operation leaves the frame alone, also where it throws. -/
def Quietly (p : Run α) : Prop :=
  ∀ i, p.wp (fun _ i' => SameFrame i i')
    (fun e i' => SameFrame i i' ∧ e ≠ .evmError .CODESTORE_OUT_OF_GAS) i

namespace Quietly

theorem pure (a : α) : Quietly (pure a : Run α) := fun i => .refl i

theorem bind {p : Run α} {f : α → Run β} (hp : Quietly p) (hf : ∀ a, Quietly (f a)) :
    Quietly (p >>= f) := by
  intro i
  rw [wp_bind]
  refine wp_mono (hp i) (fun a i' hsame => ?_) (fun e i' h => h)
  exact wp_mono (hf a i') (fun b i'' h => hsame.trans h) (fun e i'' h => ⟨hsame.trans h.1, h.2⟩)

theorem get : Quietly (Program.get : Run Interpreter) := fun i => .refl i

theorem ite {c : Prop} [Decidable c] {p q : Run α} (hp : Quietly p) (hq : Quietly q) :
    Quietly (if c then p else q) := by
  split
  · exact hp
  · exact hq

theorem when {c : Prop} [Decidable c] {p : Run Unit} (hp : Quietly p) :
    Quietly (Program.when c p) :=
  .ite hp (.pure ())

theorem trap {e : EVMErrorMessage} (he : e ≠ .CODESTORE_OUT_OF_GAS) :
    Quietly (Interpreter.trap e : Run α) :=
  fun i => ⟨.refl i, fun h => he (Throw.evmError.inj h)⟩

theorem throw (message : String) : Quietly (.throw (.error message) : Run α) :=
  fun i => ⟨.refl i, fun h => by cases h⟩

theorem onRunState (f : RunState → RunState) : Quietly (Interpreter.onRunState f) :=
  fun _ => ⟨.refl _, rfl, rfl, rfl⟩

/-- A part of the frame that is quiet, and a state that the invariant holds of. -/
theorem inv {p : Run α} (hp : Quietly p) (h : FrameInv evm isStatic s i) :
    p.wp (fun _ i' => FrameInv evm isStatic s i' ∧ SameFrame i i') (FrameThrown evm isStatic s) i :=
  wp_mono (hp i) (fun _ _ hsame => ⟨h.same hsame, hsame⟩)
    (fun _ _ hthrown => .of_kept hthrown.2 (h.toFrameKept.same hthrown.1))

theorem useGas (amount : Int) : Quietly (Interpreter.useGas amount) :=
  (onRunState _).bind fun _ => get.bind fun _ =>
    .when ((onRunState _).bind fun _ => .trap (by decide))

theorem push (value : Int) : Quietly (Interpreter.push value) :=
  get.bind fun _ => .ite (.trap (by decide)) (onRunState _)

theorem peek (num : Nat) : Quietly (Interpreter.peek num) :=
  get.bind fun _ => .ite (.trap (by decide)) (.pure _)

theorem popN (num : Nat) : Quietly (Interpreter.popN num) :=
  (peek num).bind fun _ => (onRunState _).bind fun _ => .pure _

theorem readMemory (offset length : Int) : Quietly (Interpreter.readMemory offset length) :=
  get.bind fun _ => .pure _

theorem takeGasLimit : Quietly Interpreter.takeGasLimit :=
  get.bind fun _ => (onRunState _).bind fun _ => .pure _

theorem addCallStipend (evm : EVM) (value gasLimit : Int) :
    Quietly (Interpreter.addCallStipend evm value gasLimit) := by
  unfold Interpreter.addCallStipend
  exact .ite ((onRunState _).bind fun _ => .pure _) (.pure _)

theorem finish (returnData : Bytes) : Quietly (Interpreter.finish returnData) :=
  bind (fun _ => ⟨.refl _, rfl, rfl, rfl⟩) fun _ => .trap (by decide)

theorem revert (returnData : Bytes) : Quietly (Interpreter.revert returnData) :=
  bind (fun _ => ⟨.refl _, rfl, rfl, rfl⟩) fun _ => .trap (by decide)

theorem ofLocal (r : Except LocalThrow α) : Quietly (Interpreter.ofLocal r) := by
  cases r with
  | ok a => exact .pure a
  | error e =>
    cases e with
    | trap e => exact .trap e.2
    | error message => exact .throw message

theorem warm (w : Warm) : Quietly (Interpreter.warm w) := by
  intro i
  cases w with
  | address address => exact ⟨addWarmedAddress_quiet i.evm address, rfl, rfl, rfl⟩
  | slot address key =>
    simp only [Interpreter.warm, liftEvm, wp_onPart]
    refine wp_mono (addWarmedStorage_spec i.evm address key) ?_ ?_
    · exact fun _ _ h => ⟨h, rfl, rfl, rfl⟩
    · exact fun _ _ h => ⟨⟨h.2, rfl, rfl, rfl⟩, h.1 _⟩

theorem warmAll (ws : List Warm) : Quietly (Interpreter.warmAll ws) := by
  induction ws with
  | nil => exact .pure ()
  | cons w ws ih => exact (warm w).bind fun _ => ih

theorem charge (evm : EVM) (op : Nat) (gas : Int) : Quietly (Interpreter.charge evm op gas) :=
  get.bind fun _ => (onRunState _).bind fun _ => (warmAll _).bind fun _ => ofLocal _

theorem localOp (evm : EVM) (op : Nat) : Quietly (Interpreter.localOp evm op) :=
  get.bind fun _ => (onRunState _).bind fun _ => ofLocal _

end Quietly

end Interpreter
