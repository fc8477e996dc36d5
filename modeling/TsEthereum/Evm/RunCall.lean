-- SUMMARY: What a call leaves behind: a failed or static one its caller's nonce at most, and all the ether.
import TsEthereum.Evm.Calls

/-!
# Calls from outside

`runCall` gets options or a finished message. Before its checkpoint it can raise
the caller's balance to the value (`skipBalance`) and bumps its nonce at depth 0.
-/

open Program EvmState

namespace EVM

open SimpleStateManager

variable {evm : EVM} {s s' : EvmState}

/-- The message of a call. -/
def callMessage : Message ⊕ RunCallOpts → Message
  | .inl message => message
  | .inr opts => opts.message

/-- The caller's account with the balance that `skipBalance` gives it. -/
def raised : Message ⊕ RunCallOpts → Account → Account
  | .inl _, account => account
  | .inr opts, account =>
    if opts.skipBalance = true ∧ account.balance < opts.value.getD 0 then
      { account with balance := opts.value.getD 0 }
    else account

/-- The caller's account when the checkpoint is opened, from the one that it was. -/
def entryAccount (call : Message ⊕ RunCallOpts) (account : Account) : Account :=
  if (callMessage call).depth = 0 then bumped (raised call account) else raised call account

/-- The state differs from the one before the call at most in the caller's account. -/
structure OnlyEntered (call : Message ⊕ RunCallOpts) (s s' : EvmState) : Prop where
  accounts : ∀ k, s'.stateManager.accountAt k =
    if k = (callMessage call).caller.toString then
      entryAccount call (s.stateManager.account (callMessage call).caller)
    else s.stateManager.accountAt k
  codes : s'.stateManager.codeStack.head? = s.stateManager.codeStack.head?
  slots : s'.stateManager.storageStack.head? = s.stateManager.storageStack.head?

theorem OnlyEntered.values {call : Message ⊕ RunCallOpts} {s'' : EvmState}
    (h : OnlyEntered call s s') (hvalues : s'.stateManager.SameValues s''.stateManager) :
    OnlyEntered call s s'' :=
  ⟨fun k => (hvalues.accounts k).trans (h.accounts k), hvalues.codes.trans h.codes,
    hvalues.slots.trans h.slots⟩

/-- What `skipBalance` leaves. -/
structure Raised (opts : RunCallOpts) (s : EvmState) (callerAccount : Option Account)
    (s' : EvmState) : Prop where
  keeps : Keeps s { s' with tx := s.tx }
  accounts : ∀ k, s'.stateManager.accountAt k =
    if k = (opts.caller.getD .zero).toString then raised (.inr opts) (s.stateManager.accountAt k)
    else s.stateManager.accountAt k
  codes : s'.stateManager.codeStack = s.stateManager.codeStack
  slots : s'.stateManager.storageStack = s.stateManager.storageStack
  transientStorage : s'.transientStorage = s.transientStorage
  callerAccount : ∀ account, callerAccount = some account →
    account = s'.stateManager.account (opts.caller.getD .zero)

theorem skipBalance_spec (hs : s.stateManager.Ready) (opts : RunCallOpts) :
    (skipBalance opts).wp (Raised opts s) (fun e _ => Foreign e) s := by
  refine wp_ite (fun hskip => ?_) (fun hskip => ?_)
  · simp only [wp_bind]
    refine wp_mono (getAccount_spec hs _) ?_ (fun _ _ h => h.1)
    intro account s₀ hs₀
    rw [hs₀.1, hs₀.2]
    refine wp_ite (fun hlow => ?_) (fun hhigh => ?_)
    · simp only [wp_bind]
      refine wp_mono (putAccount_spec hs _ _) ?_ (fun _ _ h => h.1)
      intro _ s' hbecomes
      refine ⟨?_, fun k => ?_, ?_, ?_, hbecomes.transientStorage, ?_⟩
      · have htx : Becomes s _ { s' with tx := s.tx } :=
          ⟨hbecomes.stateManager, hbecomes.transientStorage, hbecomes.height, rfl⟩
        exact htx.keeps (sameBelow_setAccount _ _ _)
      · rw [hbecomes.stateManager, accountAt_setAccount hs.accounts]
        by_cases hk : k = (opts.caller.getD .zero).toString
        · subst hk
          rw [if_pos rfl, if_pos rfl]
          exact (if_pos ⟨hskip, hlow⟩).symm
        · rw [if_neg hk, if_neg hk]
      · rw [hbecomes.stateManager]
        rfl
      · rw [hbecomes.stateManager]
        rfl
      · intro account' h
        rw [hbecomes.stateManager, account_setAccount hs.accounts,
          ← Option.some.inj h]
        rfl
    · refine ⟨.refl s, fun k => ?_, rfl, rfl, rfl, ?_⟩
      · split
        · subst k
          exact (if_neg fun h => hhigh h.2).symm
        · rfl
      · exact fun account' h => (Option.some.inj h).symm
  · refine ⟨.refl s, fun k => ?_, rfl, rfl, rfl, by rintro _ ⟨⟩⟩
    split
    · exact (if_neg fun h => hskip h.1).symm
    · rfl

/-- The accounts after the nonce is bumped. -/
theorem Entered.accountAt {callerAccount : Option Account} {msg : Message}
    (h : Entered callerAccount msg s s') (hs : s.stateManager.Ready)
    (hcaller : ∀ account, callerAccount = some account → account = s.stateManager.account msg.caller)
    (k : HexString) : s'.stateManager.accountAt k =
      if k = msg.caller.toString ∧ msg.depth = 0 then bumped (s.stateManager.account msg.caller)
      else s.stateManager.accountAt k := by
  have haccount : callerAccount.getD (s.stateManager.account msg.caller) =
      s.stateManager.account msg.caller := by
    cases callerAccount with
    | none => rfl
    | some account => exact hcaller account rfl
  by_cases hdepth : msg.depth = 0
  · rw [(h.bump hdepth).stateManager, accountAt_setAccount hs.accounts, haccount]
    simp [hdepth]
  · rw [(h.deeper hdepth).stateManager]
    simp [hdepth]

theorem Entered.stacks {callerAccount : Option Account} {msg : Message}
    (h : Entered callerAccount msg s s') : s'.stateManager.codeStack = s.stateManager.codeStack ∧
      s'.stateManager.storageStack = s.stateManager.storageStack ∧
      s'.transientStorage = s.transientStorage := by
  by_cases hdepth : msg.depth = 0
  · rw [(h.bump hdepth).stateManager]
    exact ⟨rfl, rfl, (h.bump hdepth).transientStorage⟩
  · rw [(h.deeper hdepth).stateManager]
    exact ⟨rfl, rfl, (h.deeper hdepth).transientStorage⟩

/-- The nonce comes on top of the balance. -/
theorem onlyEntered_of_entered {call : Message ⊕ RunCallOpts} {callerAccount : Option Account}
    {s₁ : EvmState} (hs₁ : s₁.stateManager.Ready)
    (haccounts : ∀ k, s₁.stateManager.accountAt k =
      if k = (callMessage call).caller.toString then raised call (s.stateManager.accountAt k)
      else s.stateManager.accountAt k)
    (hcodes : s₁.stateManager.codeStack = s.stateManager.codeStack)
    (hslots : s₁.stateManager.storageStack = s.stateManager.storageStack)
    (hcaller : ∀ account, callerAccount = some account →
      account = s₁.stateManager.account (callMessage call).caller)
    (h : Entered callerAccount (callMessage call) s₁ s') : OnlyEntered call s s' := by
  refine ⟨fun k => ?_, by rw [h.stacks.1, hcodes], by rw [h.stacks.2.1, hslots]⟩
  rw [h.accountAt hs₁ hcaller, account, haccounts, haccounts, if_pos rfl]
  by_cases hk : k = (callMessage call).caller.toString
  · subst hk
    simp only [true_and, if_true]
    rfl
  · simp only [hk, false_and, if_false]

/-- A call enters, and what happens then is closed. -/
theorem runCall_spec (fuel : Nat) (call : Message ⊕ RunCallOpts) (hs : s.stateManager.Ready)
    (hvalue : 0 ≤ (callMessage call).value) : (runCall evm fuel call).wp
      (fun r s' => ∃ s₀, OnlyEntered call s s₀ ∧ s₀.transientStorage = s.transientStorage ∧
        Closed evm (callMessage call) s₀ r.1 r.2 s') (fun _ _ => True) s := by
  cases call with
  | inl message =>
    refine wp_mono (runCallWith_spec (runMessage_spec fuel) hs hvalue none) ?_ (fun _ _ _ => trivial)
    rintro ⟨res, msg'⟩ s' ⟨s₀, hentered, hclosed⟩
    refine ⟨s₀, ?_, hentered.stacks.2.2, hclosed⟩
    exact onlyEntered_of_entered hs (fun k => by simp [raised]) rfl rfl (by simp) hentered
  | inr opts =>
    simp only [runCall, wp_bind, wp_modify]
    have htx : ∀ tx, ({ s with tx } : EvmState).stateManager.Ready := fun _ => hs
    refine wp_mono (skipBalance_spec (htx _) opts) ?_ (fun _ _ _ => trivial)
    intro callerAccount s₁ hraised
    refine wp_ite (fun hneg => trivial) (fun _ => ?_)
    have hs₁ : s₁.stateManager.Ready := hraised.keeps.below.ready hs
    refine wp_mono (runCallWith_spec (runMessage_spec fuel) hs₁ hvalue callerAccount) ?_
      (fun _ _ _ => trivial)
    rintro ⟨res, msg'⟩ s' ⟨s₀, hentered, hclosed⟩
    refine ⟨s₀, ?_, hentered.stacks.2.2.trans hraised.transientStorage, hclosed⟩
    exact onlyEntered_of_entered hs₁ hraised.accounts hraised.codes hraised.slots
      hraised.callerAccount hentered

/-- A call that fails leaves its caller's nonce, its warm addresses and no result but its error. -/
theorem runCall_failed (fuel : Nat) (call : Message ⊕ RunCallOpts) (hs : s.stateManager.Ready)
    (hvalue : 0 ≤ (callMessage call).value) {res : EVMResult} {msg' : Message}
    (hrun : runCall evm fuel call s = (.ok (res, msg'), s')) {e : EVMErrorMessage}
    (he : res.execResult.exceptionError = some e)
    (hcase : ¬(evm.common.hardfork = .Chainstart ∧ e = .CODESTORE_OUT_OF_GAS)) :
    OnlyEntered call s s' ∧
      Settled evm (callMessage call).depth s.transientStorage s.transientStorage.value
        s'.transientStorage ∧ NoEffects res.execResult := by
  obtain ⟨s₀, hentered, htransient, hclosed⟩ := wp_ok hrun (runCall_spec fuel call hs hvalue)
  have hcode : e ≠ .CODESTORE_OUT_OF_GAS := by
    rintro rfl
    exact hcase ⟨(hclosed.codestore he).2, rfl⟩
  obtain ⟨hreverted, heffects⟩ := hclosed.failed e he hcode
  refine ⟨hentered.values (hreverted.stateManager ▸ .refl _), ?_, heffects⟩
  rw [← htransient]
  exact hreverted.transient

/-! A call at depth 0 that fails, on a state with one slot of transient storage. -/

/-- An EVM without precompiles, with opcodes that cost nothing. -/
def bare (hardfork : Hardfork) : EVM where
  common := ⟨hardfork, fun _ => 1024, false, false, 1⟩
  keccak256 := fun _ => KECCAK256_NULL
  allowUnlimitedContractSize := false
  allowUnlimitedInitCodeSize := false
  missingCliqueSigner := false
  precompiles := fun _ => none
  feeBigInt := fun _ => 0
  handlers := fun _ r _ _ => (⟨r.programCounter, r.stack, r.memory⟩, .ok ())
  dynamicGas := fun _ r _ _ gas =>
    (⟨r.memoryWordCount, r.highestMemCost, r.gasRefund, r.messageGasLimit⟩, [], .ok gas)

def withSlot : EvmState where
  journal := .new SimpleStateManager.new
  transientStorage := (TransientStorage.new.put .zero TransientStorage.zeros [1]).2
  tx := none

def codeOpts (code : Bytes) (isStatic : Bool) : RunCallOpts where
  caller := none
  gasPrice := none
  origin := none
  value := none
  skipBalance := false
  gasLimit := none
  «to» := some .zero
  data := none
  code := some code
  depth := none
  isCompiled := false
  isStatic
  salt := none
  selfdestruct := none
  createdAddresses := none
  delegatecall := false
  blobVersionedHashes := []

theorem ready_withSlot : withSlot.stateManager.Ready := ⟨by decide, by decide, by decide⟩

/-- What a run that succeeds gives. -/
theorem eq_ok {p : Call (EVMResult × Message)} {error : Option EVMErrorMessage}
    (h : (p s).1.toOption.map (fun r => r.1.execResult.exceptionError) = some error) :
    ∃ res msg', p s = (.ok (res, msg'), (p s).2) ∧ res.execResult.exceptionError = error := by
  rcases hrun : p s with ⟨e | ⟨res, msg'⟩, s'⟩ <;> rw [hrun] at h
  · cases h
  · exact ⟨res, msg', rfl, Option.some.inj h⟩

theorem runCall_failed_invalid : OnlyEntered (.inr (codeOpts [0xfe] false)) withSlot
      (runCall (bare .Cancun) 2 (.inr (codeOpts [0xfe] false)) withSlot).2 := by
  have herror : ((runCall (bare .Cancun) 2 (.inr (codeOpts [0xfe] false)) withSlot).1.toOption.map
      fun r => r.1.execResult.exceptionError) = some (some .INVALID_OPCODE) := by decide +kernel
  obtain ⟨res, msg', hrun, he⟩ := eq_ok herror
  exact (runCall_failed 2 _ ready_withSlot (by decide) hrun he (by decide)).1

/-- The transient storage is not what it was: depth 0 clears it, also where the code fails. -/
theorem runCall_failed_clears :
    ¬∀ (evm : EVM) (fuel : Nat) (call : Message ⊕ RunCallOpts) (s s' : EvmState) (res : EVMResult)
      (msg' : Message) (e : EVMErrorMessage), s.stateManager.Ready →
      runCall evm fuel call s = (.ok (res, msg'), s') → res.execResult.exceptionError = some e →
      ¬(evm.common.hardfork = .Chainstart ∧ e = .CODESTORE_OUT_OF_GAS) →
      s'.transientStorage.value = s.transientStorage.value := by
  intro hclaim
  have herror : ((runCall (bare .Cancun) 2 (.inr (codeOpts [0xfe] false)) withSlot).1.toOption.map
      fun r => r.1.execResult.exceptionError) = some (some .INVALID_OPCODE) := by decide +kernel
  obtain ⟨res, msg', hrun, he⟩ := eq_ok herror
  have hsame := hclaim _ _ _ _ _ _ _ _ ready_withSlot hrun he (by decide)
  have hslot := congrFun (congrFun hsame Address.zero.toString) (bytesToHex TransientStorage.zeros)
  revert hslot
  decide +kernel

/-- A static call that moves no value leaves its caller's nonce, its warm addresses and no logs. -/
theorem runCall_static (fuel : Nat) (call : Message ⊕ RunCallOpts) (hs : s.stateManager.Ready)
    (hvalue : 0 ≤ (callMessage call).value) {res : EVMResult} {msg' : Message}
    (hrun : runCall evm fuel call s = (.ok (res, msg'), s'))
    (hstatic : (callMessage call).isStatic = true) (hto : (callMessage call).to ≠ none)
    (hharmless : (callMessage call).Harmless) : OnlyEntered call s s' ∧
      Settled evm (callMessage call).depth s.transientStorage s.transientStorage.value
        s'.transientStorage ∧ res.execResult.logs.getD [] = [] := by
  obtain ⟨s₀, hentered, htransient, hclosed⟩ := wp_ok hrun (runCall_spec fuel call hs hvalue)
  obtain ⟨hvalues, hsettled, hlogs⟩ := hclosed.static hstatic hto hharmless
  rw [htransient] at hsettled
  exact ⟨hentered.values hvalues, hsettled, hlogs⟩

/-- Code that only stops, run as a static call. -/
theorem runCall_static_stop : OnlyEntered (.inr (codeOpts [0x00] true)) withSlot
      (runCall (bare .Cancun) 2 (.inr (codeOpts [0x00] true)) withSlot).2 := by
  have herror : ((runCall (bare .Cancun) 2 (.inr (codeOpts [0x00] true)) withSlot).1.toOption.map
      fun r => r.1.execResult.exceptionError) = some none := by decide +kernel
  obtain ⟨res, msg', hrun, -⟩ := eq_ok herror
  exact (runCall_static 2 _ ready_withSlot (by decide) hrun rfl (by decide) (.inr (.inl rfl))).1

/-- A nonce is not what it was: depth 0 bumps that of the caller, also in a static call. -/
theorem runCall_static_bumps :
    ¬∀ (evm : EVM) (fuel : Nat) (call : Message ⊕ RunCallOpts) (s s' : EvmState) (res : EVMResult)
      (msg' : Message), s.stateManager.Ready → (callMessage call).isStatic = true →
      runCall evm fuel call s = (.ok (res, msg'), s') →
      ∀ address, (s'.stateManager.account address).nonce = (s.stateManager.account address).nonce := by
  intro hclaim
  have herror : ((runCall (bare .Cancun) 2 (.inr (codeOpts [0x00] true)) withSlot).1.toOption.map
      fun r => r.1.execResult.exceptionError) = some none := by decide +kernel
  obtain ⟨res, msg', hrun, -⟩ := eq_ok herror
  have hnonce := hclaim _ _ _ _ _ _ _ ready_withSlot rfl hrun .zero
  revert hnonce
  decide +kernel

/-! ## Calls that return -/

/-- A call that returns leaves no checkpoint open and none that it did not open closed. -/
theorem runCall_balanced (fuel : Nat) (call : Message ⊕ RunCallOpts) (hs : s.stateManager.Ready)
    (hvalue : 0 ≤ (callMessage call).value) {r : EVMResult × Message}
    (hrun : runCall evm fuel call s = (.ok r, s')) : Keeps { s with tx := s'.tx } s' := by
  have hclose {s₁ : EvmState} (hraised : Keeps { s with tx := s₁.tx } s₁)
      (account : Option Account) :
      (runCallWith evm (runMessage evm fuel) fuel account (callMessage call)).wp
        (fun _ s' => Keeps { s with tx := s'.tx } s') (fun _ _ => True) s₁ := by
    refine wp_mono (runCallWith_spec (runMessage_spec fuel) (hraised.below.ready hs) hvalue account)
      ?_ (fun _ _ _ => trivial)
    rintro r s' ⟨s₀, hentered, hclosed⟩
    have hkeeps := (hraised.trans hentered.keeps).trans hclosed.keeps
    exact ⟨hkeeps.below, hkeeps.height, hkeeps.indices, rfl⟩
  have hspec : (runCall evm fuel call).wp (fun _ s' => Keeps { s with tx := s'.tx } s')
      (fun _ _ => True) s := by
    cases call with
    | inl message => exact hclose (.refl s) none
    | inr opts =>
      simp only [runCall, wp_bind, wp_modify]
      refine wp_mono (skipBalance_spec (by exact hs) opts) ?_ (fun _ _ _ => trivial)
      intro account s₁ hraised
      have hkeeps : Keeps { s with tx := s₁.tx } s₁ :=
        ⟨hraised.keeps.below, hraised.keeps.height, hraised.keeps.indices, rfl⟩
      exact wp_ite (fun _ => trivial) (fun _ => hclose hkeeps account)
  have hkeeps := wp_ok hrun hspec
  exact hkeeps

/-- Code that only stops, and a caller with no balance but what `skipBalance` gives it. -/
def paidRun : Except Throw (EVMResult × Message) × EvmState :=
  runCall (bare .Cancun) 2 (.inr { codeOpts [0x00] false with value := some 5, skipBalance := true })
    withSlot

theorem paidRun_ok : ∃ res msg', paidRun = (.ok (res, msg'), paidRun.2) := by
  have herror : (paidRun.1.toOption.map fun r => r.1.execResult.exceptionError) = some none := by
    decide +kernel
  obtain ⟨res, msg', hrun, -⟩ := eq_ok herror
  exact ⟨res, msg', hrun⟩

theorem runCall_balanced_paidRun : Keeps { withSlot with tx := paidRun.2.tx } paidRun.2 := by
  obtain ⟨_, _, hrun⟩ := paidRun_ok
  exact runCall_balanced 2 _ ready_withSlot (by decide) hrun

/-- A call creates no ether but what `skipBalance` gives its caller, and loses none unless an
account destructs itself. -/
theorem runCall_conserves (fuel : Nat) (call : Message ⊕ RunCallOpts) (hs : s.stateManager.Ready)
    (hvalue : 0 ≤ (callMessage call).value) (hset : (callMessage call).selfdestruct.isSome = true)
    (hsolvent : s.stateManager.Solvent) {res : EVMResult} {msg' : Message}
    (hrun : runCall evm fuel call s = (.ok (res, msg'), s')) :
    let account := s.stateManager.account (callMessage call).caller
    let total := s.stateManager.totalBalance + (raised call account).balance - account.balance
    s'.stateManager.Solvent ∧ s'.stateManager.totalBalance ≤ total ∧
      ((msg'.selfdestruct.getD .empty).keys = [] → s'.stateManager.totalBalance = total) := by
  intro account total
  obtain ⟨s₀, hentered, -, hclosed⟩ := wp_ok hrun (runCall_spec fuel call hs hvalue)
  have hbalance (k : HexString) : (s₀.stateManager.accountAt k).balance =
      ((s.stateManager.setAccount (callMessage call).caller
        (some (raised call account))).accountAt k).balance := by
    rw [hentered.accounts, accountAt_setAccount hs.accounts, entryAccount]
    split_ifs <;> rfl
  have hraised : 0 ≤ ((some (raised call account)).getD .new).balance := by
    cases call with
    | inl message => exact hsolvent _
    | inr opts =>
      dsimp only [raised]
      split_ifs
      · exact hvalue
      · exact hsolvent _
  have htotal : s₀.stateManager.totalBalance = total :=
    (totalBalance_congr hbalance).trans (totalBalance_setAccount hs.accounts _ _)
  have hsolvent₀ : s₀.stateManager.Solvent := by
    intro k
    rw [hbalance]
    exact solvent_setAccount hs.accounts hsolvent hraised k
  rw [← htotal]
  have hmoney := hclosed.money hset hsolvent₀
  exact ⟨hmoney.solvent, hmoney.total_le, hmoney.total_eq⟩

theorem runCall_conserves_paidRun : paidRun.2.stateManager.totalBalance ≤ 5 := by
  obtain ⟨_, _, hrun⟩ := paidRun_ok
  have hsolvent : withSlot.stateManager.Solvent := fun _ => le_refl 0
  exact (runCall_conserves 2 _ ready_withSlot (by decide) rfl hsolvent hrun).2.1

end EVM
