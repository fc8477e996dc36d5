-- SUMMARY: What a message does to the state: failed messages leave no trace, static ones change nothing, and ether is kept.
import TsEthereum.Evm.Transfers

/-!
# Messages

The body of a message runs between a checkpoint and its end. `Ran` says what the
body does, and `Closed` what is left of it once the checkpoint is closed. The
messages that the body sends are covered by `MessageSpec`, which the induction on
the fuel establishes.
-/

open Option

open Program EvmState

namespace EVM

open SimpleStateManager

variable {evm : EVM} {s s' s'' : EvmState} {msg msg' : Message} {runCall : RunMessage} {fuel : Nat}

/-! ## Code -/

/-- Only the code of the message is filled in. -/
def Loaded (msg msg' : Message) : Prop :=
  ∃ code isCompiled, msg' = { msg with code, isCompiled }

theorem addAlwaysWarmAddress_quiet (s : EvmState) (address : HexString) :
    (addAlwaysWarmAddress address).wp (fun _ s' => Quiet s s') (fun _ _ => False) s :=
  (wp_modify _).mpr ⟨rfl, rfl, rfl, rfl⟩

theorem Loaded.refl (msg : Message) : Loaded msg msg := ⟨msg.code, msg.isCompiled, rfl⟩

theorem loadCode_spec (msg : Message) (s : EvmState) :
    (loadCode evm msg).wp (fun msg' s' => Loaded msg msg' ∧ Quiet s s') (fun e _ => Foreign e) s := by
  unfold loadCode
  cases hcode : msg.code with
  | some code => exact ⟨.refl msg, .refl s⟩
  | none =>
    dsimp only
    cases msg.ownCodeAddress.orElse fun _ => msg.to with
    | none => exact foreign_error _
    | some codeAddress =>
      refine wp_ite (fun _ => ⟨⟨_, _, rfl⟩, .refl s⟩) (fun _ => ?_)
      simp only [wp_bind]
      refine wp_mono (getCode_spec s codeAddress) ?_ (fun _ _ h => h.1)
      intro code s₁ hs₁
      rw [hs₁]
      refine wp_ite (fun _ => ?_) (fun _ => ⟨⟨_, _, rfl⟩, .refl s⟩)
      -- the code of another account runs
      cases Address.new ((code.drop 3).take 21) with
      | error e => exact foreign_error e
      | ok address =>
        simp only [wp_bind]
        refine wp_mono (getCode_spec s address) ?_ (fun _ _ h => h.1)
        intro code' s₂ hs₂
        rw [hs₂]
        refine wp_when (fun _ => ?_) (fun _ => ⟨⟨_, _, rfl⟩, .refl s⟩)
        exact wp_mono (addAlwaysWarmAddress_quiet s _) (fun _ _ h => ⟨⟨_, _, rfl⟩, h⟩)
          (fun _ _ h => h.elim)

/-- What the code of a message does to the state. -/
structure Interpreted (evm : EVM) (msg : Message) (s : EvmState) (result : ExecResult)
    (msg' : Message) (s' : EvmState) : Prop where
  keeps : Keeps s s'
  grows : Grows evm s.transientStorage s'.transientStorage
  codestore : result.exceptionError ≠ some .CODESTORE_OUT_OF_GAS
  money : msg.selfdestruct.isSome = true → result.exceptionError = none →
    Money (msg'.selfdestruct.getD .empty) s s'
  static : msg.isStatic = true → result.exceptionError = none →
    Unchanged s s' ∧ result.logs.getD [] = []
  depth : msg'.depth = msg.depth

theorem frameInv_enter (message : Message) (code : Bytes) (isCreate : Bool) (contract : Account)
    (tx : TxContext) (gasLimit : Int)
    (hcontract : contract = s.stateManager.account (message.to.getD .zero)) :
    Interpreter.FrameInv evm message.isStatic s
      (enter message code isCreate contract tx gasLimit s) where
  keeps := .refl s
  grows := .refl _
  money := .refl s
  env := rfl
  static := fun _ => ⟨.refl s, rfl⟩
  coherent := hcontract

theorem runInterpreter_spec (hspec : MessageSpec evm runCall) (hs : s.stateManager.Ready)
    (message : Message) (code : Bytes) (isCreate : Bool) (gasLimit : Int) :
    (runInterpreter evm runCall fuel message code isCreate gasLimit).wp
      (fun r s' => Interpreted evm message s r.1 r.2 s') (fun e _ => Foreign e) s := by
  simp only [runInterpreter, wp_bind]
  refine wp_mono (getAccount_spec hs _) ?_ (fun _ _ h => h.1)
  intro contract s₀ hs₀
  rw [hs₀.1, wp_get]
  cases s.tx with
  | none => exact foreign_error _
  | some tx =>
    refine wp_ite (fun _ => foreign_error _) (fun _ => ?_)
    simp only [wp_bind, wp_within]
    have hloop := Interpreter.loop_spec hspec hs fuel
      (frameInv_enter message code isCreate _ tx gasLimit hs₀.2)
    refine wp_mono hloop ?_ (fun _ _ h => h)
    intro error i hend
    refine ⟨hend.keeps, hend.grows, hend.codestore, ?_, ?_, rfl⟩
    · intro hsome hnone
      obtain ⟨set, hset⟩ := isSome_iff_exists.mp hsome
      simpa [leaveSets, hset] using (hend.kept hnone).money
    · intro hstatic hnone
      obtain ⟨hunchanged, hlogs⟩ := (hend.kept hnone).static hstatic
      exact ⟨hunchanged, by simp [frameResult, hlogs]⟩

theorem runPrecompile_spec (message : Message) (address : HexString) (s : EvmState) :
    (runPrecompile evm address message.data message.gasLimit message.gasRefund).wp
      (fun result s' => Interpreted evm message s result message s') (fun e _ => Foreign e) s := by
  unfold runPrecompile
  cases evm.precompiles address with
  | none => exact foreign_error _
  | some code =>
    dsimp only
    cases code message.data message.gasLimit with
    | error e => exact foreign_error e
    | ok result =>
      refine ⟨.refl s, .refl _, ?_, fun _ _ => .refl s, fun _ _ => ⟨.refl s, rfl⟩, rfl⟩
      cases hresult : result.exceptionError with
      | none => simp
      | some e => simpa using e.2

theorem runCode_spec (hspec : MessageSpec evm runCall) (hs : s.stateManager.Ready)
    (message : Message) :
    (runCode evm runCall fuel message).wp (fun r s' => Interpreted evm message s r.1 r.2 s')
      (fun e _ => Foreign e) s := by
  unfold runCode
  split
  · simp only [wp_bind]
    exact wp_mono (runPrecompile_spec message _ s) (fun _ _ h => h) (fun _ _ h => h)
  · exact runInterpreter_spec hspec hs message _ _ _
  · exact foreign_error _

/-! ## The body of a message -/

/-- What the body of a message does to the state. -/
structure Ran (evm : EVM) (msg : Message) (s : EvmState) (result : ExecResult) (msg' : Message)
    (s' : EvmState) : Prop where
  keeps : Keeps s s'
  grows : Grows evm s.transientStorage s'.transientStorage
  codestore : result.exceptionError = some .CODESTORE_OUT_OF_GAS →
    msg.to = none ∧ evm.common.hardfork = .Chainstart
  money : msg.selfdestruct.isSome = true →
    (result.exceptionError = none ∨ result.exceptionError = some .CODESTORE_OUT_OF_GAS) →
    Money (msg'.selfdestruct.getD .empty) s s'
  static : msg.isStatic = true → msg.to ≠ none → msg.Harmless → result.exceptionError = none →
    Unchanged s s' ∧ result.logs.getD [] = []

/-- The frame at depth 0 clears the transient storage. -/
def MaybeCleared (evm : EVM) (depth : Nat) (t t' : TransientStorage) : Prop :=
  t' = t ∨ (depth = 0 ∧ evm.common.isActivatedEIP 1153 = true ∧ t' = t.clear)

structure Cleaned (evm : EVM) (depth : Nat) (s s' : EvmState) : Prop where
  journal : s'.journal = s.journal
  tx : s'.tx = s.tx
  transientStorage : MaybeCleared evm depth s.transientStorage s'.transientStorage

theorem Cleaned.refl (depth : Nat) (s : EvmState) : Cleaned evm depth s s := ⟨rfl, rfl, .inl rfl⟩

theorem postMessageCleanup_spec (depth : Nat) (s : EvmState) :
    (Program.when (depth = 0) (postMessageCleanup evm)).wp (fun _ s' => Cleaned evm depth s s')
      (fun _ _ => False) s := by
  refine wp_when (fun hdepth => (wp_modify _).mpr ?_) (fun _ => .refl depth s)
  by_cases hactive : evm.common.isActivatedEIP 1153 = true
  · rw [if_pos hactive]
    exact ⟨rfl, rfl, .inr ⟨hdepth, hactive, rfl⟩⟩
  · rw [if_neg hactive]
    exact .refl depth s

/-- What is left before the checkpoint is closed. -/
def Executed (evm : EVM) (msg : Message) (s : EvmState) (result : ExecResult) (msg' : Message)
    (s' : EvmState) : Prop :=
  ∃ s₁, Ran evm msg s result msg' s₁ ∧ Cleaned evm msg.depth s₁ s'

/-! ### Calls -/

theorem ran_exitEarly {error : Option Throw} {s₁ s₂ : EvmState} (ht : Transferred msg s error s₁)
    (hquiet : Quiet s₁ s₂) : Ran evm msg s (exitEarly msg' (error.map caughtError)) msg' s₂ where
  keeps := ht.keeps.trans hquiet.keeps
  grows := by
    rw [hquiet.transientStorage, ht.transientStorage]
    exact .refl _
  codestore := by
    intro hcode
    obtain ⟨e, he, hcaught⟩ := map_eq_some_iff.mp hcode
    exact absurd hcaught (ht.ordinary e he).caughtError
  money := by
    intro _ hkept
    have hnone : error = none := by
      cases error with
      | none => rfl
      | some e =>
        rcases hkept with hkept | hkept
        · cases hkept
        · exact absurd (some.inj hkept) (ht.ordinary e rfl).caughtError
    exact (ht.money _ hnone).trans (.of_quiet hquiet) id
  static := by
    intro _ _ hharmless hnone
    have hnone : error = none := map_eq_none_iff.mp hnone
    exact ⟨(ht.unchanged hnone hharmless).trans (.of_quiet hquiet), rfl⟩

theorem ran_call {s₁ s₂ : EvmState} {msg₁ : Message} {result : ExecResult}
    (ht : Transferred msg s none s₁) (hload : Loaded msg msg₁) (hquiet : Quiet s₁ s₂)
    (h : Interpreted evm msg₁ s₂ result msg' s') : Ran evm msg s result msg' s' := by
  obtain ⟨code, isCompiled, rfl⟩ := hload
  refine ⟨ht.keeps.trans (hquiet.keeps.trans h.keeps), ?_, fun hcode => absurd hcode h.codestore,
    fun hsome hkept => ?_, fun hstatic _ hharmless hnone => ?_⟩
  · have hgrows := h.grows
    rw [hquiet.transientStorage, ht.transientStorage] at hgrows
    exact hgrows
  · have hnone := hkept.resolve_right h.codestore
    exact ((ht.money _ rfl).trans (.of_quiet hquiet) id).trans (h.money hsome hnone) id
  · obtain ⟨hunchanged, hlogs⟩ := h.static hstatic hnone
    exact ⟨((ht.unchanged rfl hharmless).trans (.of_quiet hquiet)).trans hunchanged, hlogs⟩

theorem executeCall_spec (hspec : MessageSpec evm runCall) (hs : s.stateManager.Ready)
    (hvalue : 0 ≤ msg.value) {toAddress : Address} (hto : msg.to = some toAddress) :
    (executeCall evm runCall fuel msg toAddress).wp
      (fun r s' => Executed evm msg s r.1.execResult r.2 s') (fun e _ => Foreign e) s := by
  simp only [executeCall, wp_bind]
  refine wp_mono (transfer_spec hs hvalue hto) ?_ (fun _ _ h => h)
  intro error s₁ ht
  refine wp_mono (loadCode_spec msg s₁) ?_ (fun _ _ h => h)
  rintro msg₁ s₂ ⟨hload, hquiet⟩
  refine wp_ite (fun _ => ⟨s₂, ran_exitEarly ht hquiet, .refl _ _⟩) (fun hexit => ?_)
  have hnone : error = none := by
    cases error with
    | none => rfl
    | some e => exact absurd (.inl rfl) hexit
  subst hnone
  have hs₂ := (ht.keeps.trans hquiet.keeps).below.ready hs
  simp only [wp_bind]
  refine wp_mono (runCode_spec hspec hs₂ msg₁) ?_ (fun _ _ h => h)
  rintro ⟨result, msg'⟩ s₃ hran
  have hdepth : msg'.depth = msg.depth := by
    obtain ⟨code, isCompiled, rfl⟩ := hload
    exact hran.depth
  refine wp_mono (postMessageCleanup_spec msg'.depth s₃) ?_ (fun _ _ h => h.elim)
  intro _ s' hcleaned
  exact ⟨s₃, ran_call ht hload hquiet hran, hdepth ▸ hcleaned⟩

/-! ### Creates -/

theorem addressHash_spec (hs : s.stateManager.Ready) (msg : Message) :
    (addressHash evm msg).wp (fun _ s' => s' = s) (fun e _ => Foreign e) s := by
  unfold addressHash
  cases msg.salt with
  | some salt => exact rfl
  | none =>
    simp only [wp_bind]
    refine wp_mono (getAccount_spec hs msg.caller) ?_ (fun _ _ h => h.1)
    intro account s₁ hs₁
    rw [hs₁.1]
    exact wp_ite (fun _ => foreign_error _) (fun _ => rfl)

theorem generateAddress_spec (hs : s.stateManager.Ready) (msg : Message) :
    (generateAddress evm msg).wp (fun _ s' => s' = s) (fun e _ => Foreign e) s := by
  simp only [generateAddress, wp_bind]
  refine wp_mono (addressHash_spec hs msg) ?_ (fun _ _ h => h)
  intro hash s₁ hs₁
  rw [hs₁]
  cases Address.new (hash.drop (hash.length - 20)) with
  | error e => exact foreign_error e
  | ok address => exact rfl

/-- The account at the new address, and the error where the value does not fit into it. -/
theorem createAccount_spec (hvalue : 0 ≤ msg.value)
    {s₁ : EvmState} (hs₁ : s₁.stateManager.Ready) (howes : Owes msg.value s s₁)
    {toAddress : Address} {toAccount : Account}
    (htoAccount : toAccount = s₁.stateManager.account toAddress) :
    (createAccount evm msg toAddress toAccount).wp
      (fun error s' => Keeps s₁ s' ∧ s'.transientStorage = s₁.transientStorage ∧
        (∀ e, error = some e → Ordinary e) ∧ (error = none → ∀ destructed, Money destructed s s'))
      (fun e _ => Foreign e) s₁ := by
  simp only [createAccount, wp_bind]
  refine wp_mono (putAccount_spec hs₁ toAddress toAccount) ?_ (fun _ _ h => h.1)
  intro _ s₂ hput
  have hkeeps : Keeps s₁ s₂ := hput.keeps (sameBelow_setAccount _ _ _)
  have hs₂ := hkeeps.below.ready hs₁
  have haccounts : ∀ k, s₂.stateManager.accountAt k = s₁.stateManager.accountAt k := by
    rw [hput.stateManager]
    exact (sameValues_setAccount hs₁.accounts
      (show (some toAccount).getD .new = _ from htoAccount)).accounts
  refine wp_mono (getAccount_spec hs₂ toAddress) ?_ (fun _ _ h => h.1)
  intro account s₃ hs₃
  rw [hs₃.1]
  refine wp_mono (caught_wp (addToBalance_spec hs₂ _ toAddress msg)
    (R := fun error s' => Keeps s₂ s' ∧ s'.transientStorage = s₂.transientStorage ∧
      (∀ e, error = some e → Ordinary e) ∧ (error = none → ∀ destructed, Money destructed s s'))
    ?_ ?_) ?_ (fun _ _ h => h.elim)
  · intro s' hbecomes
    refine ⟨hbecomes.keeps (sameBelow_setAccount _ _ _),
      hbecomes.transientStorage, by rintro _ ⟨⟩, fun _ destructed => ?_⟩
    refine money_of_received hs₂ (howes.of_accounts haccounts) ⟨hbecomes, ?_⟩ hvalue
    rw [hs₃.2]
    split <;> rfl
  · rintro e s' ⟨hordinary, hquiet⟩
    exact ⟨hquiet.keeps, hquiet.transientStorage, fun _ he => some.inj he ▸ hordinary,
      by rintro ⟨⟩⟩
  · rintro error s' ⟨hkeeps', htransient, hordinary, hmoney⟩
    exact ⟨hkeeps.trans hkeeps', htransient.trans hput.transientStorage, hordinary, hmoney⟩

/-- The result of a create without an error comes from code without an error. -/
theorem depositResult_error {message : Message} {result : ExecResult}
    (hcode : result.exceptionError ≠ some .CODESTORE_OUT_OF_GAS) :
    ((depositResult evm message result).exceptionError = none → result.exceptionError = none) ∧
      ((depositResult evm message result).exceptionError = some .CODESTORE_OUT_OF_GAS →
        result.exceptionError = none ∧ evm.common.hardfork = .Chainstart) := by
  have hchain := GlobalConfig.hardfork_of_not_homestead (c := evm.common)
  unfold depositResult
  dsimp only
  split_ifs <;> simp_all [ExecResult.overwrite, INVALID_BYTECODE_RESULT, CodesizeExceedsMaximumError,
    OOGResult, COOGResult, ExecResult.failed]
  -- code that failed pays no fee, so the gas that it used is over the limit
  omega

theorem saveCode_spec (hs : s.stateManager.Ready) (toAddress : Address) (codestoreOOG : Bool)
    (result : ExecResult) : (saveCode evm toAddress codestoreOOG result).wp
      (fun _ s' => Keeps s s' ∧ s'.transientStorage = s.transientStorage ∧
        ∀ destructed, Money destructed s s') (fun e _ => Foreign e) s := by
  unfold saveCode
  refine wp_ite (fun _ => ?_) fun _ => wp_ite (fun _ => ?_) fun _ => ?_
  · obtain ⟨sm, hput, hbelow, haccounts⟩ :=
      putCode_eq hs evm.keccak256 toAddress result.returnValue
    refine wp_mono (onStateManager_spec _ s) ?_ (fun _ _ h => h.1)
    rintro _ s' ⟨sm', hrun, hbecomes⟩
    rw [hput, Prod.mk.injEq] at hrun
    rw [← hrun.2] at hbecomes
    refine ⟨hbecomes.keeps hbelow, hbecomes.transientStorage, fun _ => .of_balances fun k => ?_⟩
    rw [hbecomes.stateManager, haccounts k]
    split
    · subst k
      rfl
    · rfl
  · simp only [wp_bind]
    refine wp_mono (getAccount_spec hs toAddress) ?_ (fun _ _ h => h.1)
    intro account s₁ hs₁
    rw [hs₁.1]
    refine wp_mono (putAccount_spec hs toAddress _) ?_ (fun _ _ h => h.1)
    intro _ s' hbecomes
    refine ⟨hbecomes.keeps (sameBelow_setAccount _ _ _),
      hbecomes.transientStorage, fun _ => .of_accounts ?_⟩
    rw [hbecomes.stateManager]
    exact (sameValues_setAccount hs.accounts
      (show (some (account.getD .new)).getD .new = _ from hs₁.2)).accounts
  · exact ⟨.refl s, rfl, fun _ => .refl s⟩

/-- What running the code of a create does, after its account is there. -/
structure Created (evm : EVM) (msg : Message) (s : EvmState) (result : ExecResult) (msg' : Message)
    (s' : EvmState) : Prop where
  keeps : Keeps s s'
  grows : Grows evm s.transientStorage s'.transientStorage
  codestore : result.exceptionError = some .CODESTORE_OUT_OF_GAS →
    evm.common.hardfork = .Chainstart
  money : msg.selfdestruct.isSome = true →
    (result.exceptionError = none ∨ result.exceptionError = some .CODESTORE_OUT_OF_GAS) →
    Money (msg'.selfdestruct.getD .empty) s s'

theorem runInitCode_spec (hspec : MessageSpec evm runCall) (hs : s.stateManager.Ready)
    (message : Message) (code : Bytes) (toAddress : Address) :
    (runInitCode evm runCall fuel message code toAddress).wp
      (fun r s' => ∃ s₁, Created evm message s r.1.execResult r.2 s₁ ∧
        Cleaned evm message.depth s₁ s') (fun e _ => Foreign e) s := by
  simp only [runInitCode, wp_bind]
  refine wp_mono (runInterpreter_spec hspec hs message code true message.gasLimit) ?_
    (fun _ _ h => h)
  rintro ⟨result, message'⟩ s₁ hran
  have herror := @depositResult_error evm message' result hran.codestore
  refine wp_mono (saveCode_spec (hran.keeps.below.ready hs) toAddress _ _) ?_ (fun _ _ h => h)
  rintro _ s₂ ⟨hkeeps, htransient, hmoney⟩
  refine wp_mono (postMessageCleanup_spec message'.depth s₂) ?_ (fun _ _ h => h.elim)
  intro _ s' hcleaned
  have hcreated : Created evm message s (depositResult evm message' result) message' s₂ :=
    { keeps := hran.keeps.trans hkeeps
      grows := htransient ▸ hran.grows
      codestore := fun hcode => (herror.2 hcode).2
      money := fun hsome hkept => by
        have hnone : result.exceptionError = none :=
          hkept.elim herror.1 fun hcode => (herror.2 hcode).1
        exact (hran.money hsome hnone).trans (hmoney _) id }
  exact ⟨s₂, hcreated, hran.depth ▸ hcleaned⟩

/-- A create that fails before its code runs. -/
theorem ran_failed {e : EVMErrorMessage} (he : e ≠ .CODESTORE_OUT_OF_GAS) (gasUsed : Int)
    (hkeeps : Keeps s s') (htransient : s'.transientStorage = s.transientStorage) :
    Ran evm msg s (.failed e gasUsed) msg' s' where
  keeps := hkeeps
  grows := htransient ▸ .refl _
  codestore := fun hcode => absurd (some.inj hcode) he
  money := fun _ hkept => by
    rcases hkept with hkept | hkept
    · cases hkept
    · exact absurd (some.inj hkept) he
  static := fun _ _ _ hnone => nomatch hnone

theorem executeCreate_spec (hspec : MessageSpec evm runCall) (hs : s.stateManager.Ready)
    (hvalue : 0 ≤ msg.value) (hto : msg.to = none) : (executeCreate evm runCall fuel msg).wp
      (fun r s' => Executed evm msg s r.1.execResult r.2 s')
      (fun e _ => msg.value ≤ (s.stateManager.account msg.caller).balance → Foreign e) s := by
  simp only [executeCreate, wp_bind]
  refine wp_mono (getAccount_spec hs msg.caller) ?_ (fun _ _ h _ => h.1)
  intro account s₀ hs₀
  rw [hs₀.1, hs₀.2]
  refine wp_mono (reduceSenderBalance_spec hs _ msg) ?_ (fun _ _ h => h.1)
  intro _ s₁ hreduced
  have hpaid : Paid msg s s₁ := ⟨hreduced.2, hreduced.1⟩
  have hs₁ := hpaid.ready hs
  have htransient₁ := hpaid.becomes.transientStorage
  refine wp_ite (fun _ => ?_) (fun _ => ?_)
  · exact ⟨s₁, ran_failed (by decide) _ hpaid.keeps htransient₁, .refl _ _⟩
  simp only [wp_bind]
  refine wp_mono (generateAddress_spec hs₁ _) ?_ (fun _ _ h _ => h)
  intro toAddress s₂ hs₂
  rw [hs₂]
  refine wp_ite (fun _ _ => foreign_error _) (fun _ => ?_)
  simp only [wp_bind]
  refine wp_mono (getAccount_spec hs₁ toAddress) ?_ (fun _ _ h _ => h.1)
  intro toAccount s₃ hs₃
  rw [hs₃.1, hs₃.2]
  refine wp_ite (fun _ => ?_) (fun _ => ?_)
  · exact ⟨s₁, ran_failed (by decide) _ hpaid.keeps htransient₁, .refl _ _⟩
  simp only [wp_bind]
  have haccount := @createAccount_spec evm s
    (atAddress evm { msg with code := some (.bytes msg.data), data := [] } toAddress) hvalue s₁ hs₁
    (hpaid.owes hs) toAddress _ rfl
  refine wp_mono haccount ?_ (fun _ _ h _ => h)
  rintro error s₄ ⟨hkeeps₄, htransient₄, hordinary, hmoney⟩
  have hkeeps : Keeps s s₄ := hpaid.keeps.trans hkeeps₄
  have htransient : s₄.transientStorage = s.transientStorage := htransient₄.trans htransient₁
  refine wp_ite (fun _ => ?_) (fun hrun => ?_)
  · -- there is no code to run
    refine ⟨s₄, ?_, .refl _ _⟩
    cases error with
    | some e =>
      have he := (hordinary e rfl).caughtError
      refine ⟨hkeeps, htransient ▸ .refl _, fun hcode => absurd (some.inj hcode) he,
        fun _ hkept => ?_, by rintro _ _ _ ⟨⟩⟩
      rcases hkept with hkept | hkept
      · cases hkept
      · exact absurd (some.inj hkept) he
    | none =>
      exact ⟨hkeeps, htransient ▸ .refl _, by rintro ⟨⟩,
        fun _ _ => hmoney rfl _, fun _ hnot => absurd hto hnot⟩
  · have hnone : error = none := by
      cases error with
      | none => rfl
      | some e => exact absurd (.inr rfl) hrun
    refine wp_mono (runInitCode_spec hspec (hkeeps.below.ready hs) _ msg.data toAddress) ?_
      (fun _ _ h _ => h)
    rintro ⟨res, msg'⟩ s' ⟨s₅, hcreated, hcleaned⟩
    refine ⟨s₅, ⟨hkeeps.trans hcreated.keeps, ?_, fun hcode => ⟨hto, hcreated.codestore hcode⟩,
      fun hsome hkept => (hmoney hnone _).trans (hcreated.money hsome hkept) id,
      fun _ hnot => absurd hto hnot⟩, hcleaned⟩
    have hgrows := hcreated.grows
    rw [htransient] at hgrows
    exact hgrows

theorem executeMessage_spec (hspec : MessageSpec evm runCall) (hs : s.stateManager.Ready)
    (hvalue : 0 ≤ msg.value) : (executeMessage evm runCall fuel msg).wp
      (fun r s' => Executed evm msg s r.1.execResult r.2 s')
      (fun e _ => (msg.to = none → msg.value ≤ (s.stateManager.account msg.caller).balance) →
        Foreign e) s := by
  unfold executeMessage
  cases hto : msg.to with
  | some toAddress =>
    exact wp_mono (executeCall_spec hspec hs hvalue hto) (fun _ _ h => h) (fun _ _ h _ => h)
  | none =>
    exact wp_mono (executeCreate_spec hspec hs hvalue hto) (fun _ _ h => h)
      (fun _ _ h hfunds => h (hfunds rfl))

end EVM
