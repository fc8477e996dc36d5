-- SUMMARY: The checkpoint around a message, what is left of the message once it is closed, and whole calls.
import TsEthereum.Evm.Messages

/-!
# Calls

A message that fails is reverted, one that succeeds is committed. The induction on
the fuel ties the knot: the messages that a frame sends keep what the frame relies
on.
-/

open Program EvmState

namespace EVM

open TransientStorage SimpleStateManager

variable {evm : EVM} {s s' s₁ s₂ : EvmState} {msg msg' : Message} {runCall : RunMessage}
  {fuel depth : Nat} {res : EVMResult}

/-! ## Checkpoints -/

/-- The state after a checkpoint. -/
structure Opened (evm : EVM) (s s' : EvmState) : Prop where
  stateManager : s'.stateManager = s.stateManager.checkpoint
  transientStorage : s'.transientStorage =
    if evm.common.isActivatedEIP 1153 = true then s.transientStorage.checkpoint
    else s.transientStorage
  height : s'.journal.journalHeight = s.journal.journalHeight + 1
  tx : s'.tx = s.tx

theorem checkpoint_spec (s : EvmState) :
    (checkpoint evm).wp (fun _ s' => Opened evm s s') (fun _ _ => False) s := by
  obtain ⟨s₁, hrun, hsm, htransient, hheight, htx⟩ := checkpoint_run s
  simp only [checkpoint, wp_bind]
  simp only [wp, hrun]
  refine wp_when (fun hactive => (wp_modify _).mpr ⟨hsm, ?_, hheight, htx⟩)
    (fun hactive => ⟨hsm, ?_, hheight, htx⟩)
  · rw [if_pos hactive, htransient]
  · rw [if_neg hactive, htransient]

/-- The checkpoint is closed and the values are given, unless the frame at depth 0 cleared them. -/
structure Settled (evm : EVM) (depth : Nat) (t : TransientStorage)
    (value : HexString → HexString → Bytes) (t' : TransientStorage) : Prop where
  inactive : evm.common.isActivatedEIP 1153 = false → t' = t
  indices : t'.indices = t.indices
  value : t'.value = value ∨
    (depth = 0 ∧ evm.common.isActivatedEIP 1153 = true ∧ t'.value = TransientStorage.new.value)

/-- Only the transient storage differs. -/
structure OnlyTransient (s s' : EvmState) : Prop where
  journal : s'.journal = s.journal
  tx : s'.tx = s.tx

section Transient

variable {s₀ : EvmState} (ho : Opened evm s s₀) (hg : Grows evm s₀.transientStorage s₁.transientStorage)
  (hc : MaybeCleared evm depth s₁.transientStorage s₂.transientStorage)

include ho hg hc

theorem cleaned_inactive (hoff : ¬evm.common.isActivatedEIP 1153 = true) :
    s₂.transientStorage = s.transientStorage := by
  have hopened := ho.transientStorage
  rw [if_neg hoff] at hopened
  rcases hc with hsame | ⟨-, hactive, -⟩
  · rw [hsame, hg.inactive (by simpa using hoff), hopened]
  · exact absurd hactive hoff

theorem revertTransient_spec :
    (Program.when (evm.common.isActivatedEIP 1153 = true) (onTransientStorage (·.revert))).wp
      (fun _ s' => OnlyTransient s₂ s' ∧
        Settled evm depth s.transientStorage s.transientStorage.value s'.transientStorage ∧
        (depth ≠ 0 → s.transientStorage.Agrees s'.transientStorage))
      (fun _ _ => False) s₂ := by
  refine wp_when (fun hactive => ?_) (fun hoff => ?_)
  · have hopened := ho.transientStorage
    rw [if_pos hactive] at hopened
    have hextends : s.transientStorage.checkpoint.Extends s₁.transientStorage := hopened ▸ hg.recorded
    have hnever : ∀ {P : Prop}, evm.common.isActivatedEIP 1153 = false → P :=
      fun hoff => absurd (hactive.symm.trans hoff) (by decide)
    rcases hc with hsame | ⟨hdepth, -, hclear⟩
    · have hrevert := revert_checkpoint hextends
      rw [← hsame] at hrevert
      obtain ⟨r, t', hrun⟩ : ∃ r t', s₂.transientStorage.revert = (r, t') := ⟨_, _, rfl⟩
      simp only [hrun] at hrevert
      obtain ⟨rfl, hagrees⟩ := hrevert
      simp only [wp, onTransientStorage, hrun]
      exact ⟨⟨rfl, rfl⟩, ⟨hnever, hagrees.indices, .inl hagrees.value⟩, fun _ => hagrees⟩
    · have hrun := revert_clear s.transientStorage s₁.transientStorage hextends.indices
      rw [← hclear] at hrun
      simp only [wp, onTransientStorage, hrun]
      exact ⟨⟨rfl, rfl⟩, ⟨hnever, rfl, .inr ⟨hdepth, hactive, rfl⟩⟩, fun hne => absurd hdepth hne⟩
  · have hsame := cleaned_inactive ho hg hc hoff
    exact ⟨⟨rfl, rfl⟩, ⟨fun _ => hsame, by rw [hsame], .inl (by rw [hsame])⟩,
      fun _ => hsame ▸ .refl _⟩

theorem commitTransient_spec :
    (Program.when (evm.common.isActivatedEIP 1153 = true) (onTransientStorage (·.commit))).wp
      (fun _ s' => OnlyTransient s₂ s' ∧
        Settled evm depth s.transientStorage s₁.transientStorage.value s'.transientStorage ∧
        (depth ≠ 0 → Grows evm s.transientStorage s'.transientStorage))
      (fun _ _ => False) s₂ := by
  refine wp_when (fun hactive => ?_) (fun hoff => ?_)
  · have hopened := ho.transientStorage
    rw [if_pos hactive] at hopened
    have hextends : s.transientStorage.checkpoint.Extends s₁.transientStorage := hopened ▸ hg.recorded
    have hnever : ∀ {P : Prop}, evm.common.isActivatedEIP 1153 = false → P :=
      fun hoff => absurd (hactive.symm.trans hoff) (by decide)
    rcases hc with hsame | ⟨hdepth, -, hclear⟩
    · have hcommit := commit_checkpoint hextends
      have hvalue := value_commit s₁.transientStorage
      rw [← hsame] at hcommit hvalue
      obtain ⟨r, t', hrun⟩ : ∃ r t', s₂.transientStorage.commit = (r, t') := ⟨_, _, rfl⟩
      simp only [hrun] at hcommit hvalue
      obtain ⟨rfl, hextends'⟩ := hcommit
      simp only [wp, onTransientStorage, hrun]
      refine ⟨⟨rfl, rfl⟩, ⟨hnever, hextends'.indices, .inl (hvalue.trans (by rw [hsame]))⟩,
        fun _ => ⟨hnever, hextends'⟩⟩
    · have hrun := commit_clear s.transientStorage s₁.transientStorage hextends.indices
      rw [← hclear] at hrun
      simp only [wp, onTransientStorage, hrun]
      exact ⟨⟨rfl, rfl⟩, ⟨hnever, rfl, .inr ⟨hdepth, hactive, rfl⟩⟩, fun hne => absurd hdepth hne⟩
  · have hsame := cleaned_inactive ho hg hc hoff
    refine ⟨⟨rfl, rfl⟩, ⟨fun _ => hsame, by rw [hsame], .inl ?_⟩, fun _ => hsame ▸ .refl _⟩
    rcases hc with heq | ⟨-, hactive, -⟩
    · rw [heq]
    · exact absurd hactive hoff

end Transient

/-! ## Closing a message -/

/-- Nothing of the message is left, but for warm and touched addresses. -/
structure Reverted (evm : EVM) (depth : Nat) (s s' : EvmState) : Prop where
  stateManager : s'.stateManager = s.stateManager
  height : s'.journal.journalHeight = s.journal.journalHeight
  tx : s'.tx = s.tx
  transient : Settled evm depth s.transientStorage s.transientStorage.value s'.transientStorage
  agrees : depth ≠ 0 → s.transientStorage.Agrees s'.transientStorage

theorem Reverted.keeps (h : Reverted evm depth s s') : Keeps s s' :=
  ⟨h.stateManager ▸ .refl _, h.height, h.transient.indices, h.tx⟩

theorem Reverted.restored (h : Reverted evm depth s s') (hdepth : depth ≠ 0) : Restored s s' :=
  ⟨h.stateManager, h.agrees hdepth, h.height, h.tx⟩

/-- The result gives nothing to the frame that sent the message. -/
structure NoEffects (result : ExecResult) : Prop where
  logs : result.logs = some []
  selfdestruct : result.selfdestruct = some .empty
  createdAddresses : result.createdAddresses = some .empty
  gasRefund : result.gasRefund = some 0

/-- What is left of a message. -/
structure Closed (evm : EVM) (msg : Message) (s : EvmState) (res : EVMResult) (msg' : Message)
    (s' : EvmState) : Prop where
  keeps : Keeps s s'
  failed : ∀ e, res.execResult.exceptionError = some e → e ≠ .CODESTORE_OUT_OF_GAS →
    Reverted evm msg.depth s s' ∧ NoEffects res.execResult
  codestore : res.execResult.exceptionError = some .CODESTORE_OUT_OF_GAS →
    msg.to = none ∧ evm.common.hardfork = .Chainstart
  grows : msg.depth ≠ 0 → Grows evm s.transientStorage s'.transientStorage
  money : msg.selfdestruct.isSome = true → Money (msg'.selfdestruct.getD .empty) s s'
  static : msg.isStatic = true → msg.to ≠ none → msg.Harmless →
    s.stateManager.SameValues s'.stateManager ∧
      Settled evm msg.depth s.transientStorage s.transientStorage.value s'.transientStorage ∧
      res.execResult.logs.getD [] = []

theorem Reverted.grows (h : Reverted evm depth s s') (hdepth : depth ≠ 0) :
    Grows evm s.transientStorage s'.transientStorage :=
  ⟨h.transient.inactive, (h.agrees hdepth).extends⟩

@[simp] theorem forfeit_exceptionError (result : ExecResult) :
    (forfeit result).exceptionError = result.exceptionError := by
  unfold forfeit
  cases h : result.exceptionError with
  | none => simp [h]
  | some e => by_cases he : e = .CODESTORE_OUT_OF_GAS <;> simp [he, h]

theorem noEffects_forfeit {result : ExecResult} {e : EVMErrorMessage}
    (h : result.exceptionError = some e) (he : e ≠ .CODESTORE_OUT_OF_GAS) :
    NoEffects { forfeit result with logs := some [] } := by
  simp only [forfeit, h, if_neg he]
  exact ⟨rfl, rfl, rfl, rfl⟩

section Close

variable {s₀ : EvmState} {result : ExecResult} (ho : Opened evm s s₀)
  (hran : Ran evm msg s₀ res.execResult msg' s₁) (hc : Cleaned evm msg.depth s₁ s₂)

include ho hran hc

theorem revert_spec :
    (do
      EvmState.revert
      .when (evm.common.isActivatedEIP 1153 = true) (EvmState.onTransientStorage (·.revert))
      pure { res with execResult := result } : Call EVMResult).wp
      (fun res' s' => res' = { res with execResult := result } ∧ Reverted evm msg.depth s s')
      (fun _ _ => False) s₂ := by
  obtain ⟨s₃, hrun, hsm, htransient, hheight, htx⟩ := revert_run s₂
  simp only [wp_bind]
  simp only [wp, hrun]
  have hclear : MaybeCleared evm msg.depth s₁.transientStorage s₃.transientStorage := by
    rw [htransient]
    exact hc.transientStorage
  refine wp_mono (revertTransient_spec ho hran.grows hclear) ?_ (fun _ _ h => h)
  rintro _ s' ⟨honly, hsettled, hagrees⟩
  refine ⟨rfl, ?_, ?_, ?_, hsettled, hagrees⟩
  · have hbelow := hran.keeps.below
    rw [ho.stateManager] at hbelow
    calc s'.stateManager = s₃.stateManager := congrArg Journal.stateManager honly.journal
      _ = s₂.stateManager.revert := hsm
      _ = s₁.stateManager.revert := by rw [EvmState.stateManager, hc.journal, ← EvmState.stateManager]
      _ = s.stateManager := revert_checkpoint hbelow
  · rw [honly.journal, hheight, hc.journal, hran.keeps.height, ho.height]
    ring
  · rw [honly.tx, htx, hc.tx, hran.keeps.tx, ho.tx]

/-- What a commit leaves. -/
structure Committed (evm : EVM) (depth : Nat) (s s₁ s' : EvmState) : Prop where
  keeps : Keeps s s'
  values : s₁.stateManager.SameValues s'.stateManager
  transient : Settled evm depth s.transientStorage s₁.transientStorage.value s'.transientStorage
  grows : depth ≠ 0 → Grows evm s.transientStorage s'.transientStorage

theorem commit_spec (hs : s.stateManager.Ready) :
    (do
      EvmState.commit
      .when (evm.common.isActivatedEIP 1153 = true) (EvmState.onTransientStorage (·.commit))
      pure { res with execResult := result } : Call EVMResult).wp
      (fun res' s' => res' = { res with execResult := result } ∧ Committed evm msg.depth s s₁ s')
      (fun _ _ => False) s₂ := by
  obtain ⟨s₃, hrun, hsm, htransient, hheight, htx⟩ := commit_run s₂
  simp only [wp_bind]
  simp only [wp, hrun]
  have hclear : MaybeCleared evm msg.depth s₁.transientStorage s₃.transientStorage := by
    rw [htransient]
    exact hc.transientStorage
  refine wp_mono (commitTransient_spec ho hran.grows hclear) ?_ (fun _ _ h => h)
  rintro _ s' ⟨honly, hsettled, hgrows⟩
  have hbelow := hran.keeps.below
  rw [ho.stateManager] at hbelow
  obtain ⟨hsame, hvalues⟩ := commit_checkpoint hs hbelow
  have hcommit : s'.stateManager = s₁.stateManager.commit := by
    calc s'.stateManager = s₃.stateManager := congrArg Journal.stateManager honly.journal
      _ = s₂.stateManager.commit := hsm
      _ = s₁.stateManager.commit := by rw [EvmState.stateManager, hc.journal, ← EvmState.stateManager]
  have hheight' : s'.journal.journalHeight = s.journal.journalHeight := by
    rw [honly.journal, hheight, hc.journal, hran.keeps.height, ho.height]
    ring
  have htx' : s'.tx = s.tx := by rw [honly.tx, htx, hc.tx, hran.keeps.tx, ho.tx]
  exact ⟨rfl, ⟨hcommit ▸ hsame, hheight', hsettled.indices, htx'⟩, hcommit ▸ hvalues, hsettled, hgrows⟩

end Close

/-- A checkpoint has the values of the state. -/
theorem Opened.values {s₀ : EvmState} (ho : Opened evm s s₀) (hs : s.stateManager.Ready) :
    s.stateManager.SameValues s₀.stateManager := by
  rw [ho.stateManager]
  exact sameValues_checkpoint hs

theorem Opened.transient {s₀ : EvmState} (ho : Opened evm s s₀) :
    s₀.transientStorage.value = s.transientStorage.value := by
  rw [ho.transientStorage]
  split <;> rfl

theorem closeMessage_spec {s₀ : EvmState} (hs : s.stateManager.Ready) (ho : Opened evm s s₀)
    (h : Executed evm msg s₀ res.execResult msg' s₂) :
    (closeMessage evm res).wp (fun res' s' => Closed evm msg s res' msg' s') (fun _ _ => False)
      s₂ := by
  obtain ⟨s₁, hran, hc⟩ := h
  have hvalues := ho.values hs
  refine wp_ite (fun hfailed => ?_) (fun hkept => ?_)
  · simp only [forfeit_exceptionError] at hfailed
    obtain ⟨e, he⟩ := Option.isSome_iff_exists.mp hfailed.1
    have hcode : e ≠ .CODESTORE_OUT_OF_GAS := by
      rintro rfl
      exact hfailed.2 ⟨(hran.codestore he).2, he⟩
    refine wp_mono (revert_spec ho hran hc) ?_ (fun _ _ h => h)
    rintro res' s' ⟨rfl, hreverted⟩
    refine ⟨hreverted.keeps, fun _ _ _ => ⟨hreverted, noEffects_forfeit he hcode⟩, fun hcoog => ?_,
      hreverted.grows, fun _ => .of_accounts fun k => by rw [hreverted.stateManager],
      fun _ _ _ => ⟨hreverted.stateManager ▸ .refl _, hreverted.transient, rfl⟩⟩
    simp only [forfeit_exceptionError, he] at hcoog
    exact absurd (Option.some.inj hcoog) hcode
  · simp only [forfeit_exceptionError] at hkept
    refine wp_mono (commit_spec ho hran hc hs) ?_ (fun _ _ h => h)
    rintro res' s' ⟨rfl, hcommitted⟩
    have hnone : ∀ e, res.execResult.exceptionError = some e → e = .CODESTORE_OUT_OF_GAS := by
      intro e he
      have hdismissed := Classical.not_not.mp fun hnot => hkept ⟨by rw [he]; rfl, hnot⟩
      exact Option.some.inj (he.symm.trans hdismissed.2)
    refine ⟨hcommitted.keeps, fun e he hne => ?_, fun hcode => ?_, hcommitted.grows,
      fun hsome => ?_, fun hstatic hto hharmless => ?_⟩
    · simp only [forfeit_exceptionError] at he
      exact absurd (hnone e he) hne
    · simp only [forfeit_exceptionError] at hcode
      exact hran.codestore hcode
    · have hmoney := hran.money hsome (by
        cases he : res.execResult.exceptionError with
        | none => exact .inl rfl
        | some e => exact .inr (congrArg some (hnone e he)))
      have hopen : Money (msg'.selfdestruct.getD .empty) s s₀ := .of_accounts hvalues.accounts
      exact (hopen.trans hmoney id).trans (.of_accounts hcommitted.values.accounts) id
    · have herror : res.execResult.exceptionError = none := by
        cases he : res.execResult.exceptionError with
        | none => rfl
        | some e => exact absurd (hran.codestore (by rw [he, hnone e he])).1 hto
      obtain ⟨hunchanged, hlogs⟩ := hran.static hstatic hto hharmless herror
      have hsettled := hcommitted.transient
      rw [hunchanged.transient, ho.transient] at hsettled
      refine ⟨(hvalues.trans hunchanged.values).trans hcommitted.values, hsettled, ?_⟩
      simpa [forfeit, herror] using hlogs

/-! ## Whole calls -/

/-- What `runCall` does to the state before its checkpoint: at depth 0 the nonce of the caller is bumped. -/
structure Entered (callerAccount : Option Account) (msg : Message) (s s' : EvmState) : Prop where
  bump : msg.depth = 0 → Becomes s (s.stateManager.setAccount msg.caller (some (bumped
    (callerAccount.getD (s.stateManager.account msg.caller))))) s'
  deeper : msg.depth ≠ 0 → Quiet s s'

theorem Entered.keeps {callerAccount : Option Account} (h : Entered callerAccount msg s s') :
    Keeps s s' := by
  by_cases hdepth : msg.depth = 0
  · exact (h.bump hdepth).keeps (sameBelow_setAccount _ _ _)
  · exact (h.deeper hdepth).keeps

theorem Entered.quiet {callerAccount : Option Account} {s'' : EvmState}
    (h : Entered callerAccount msg s s') (hquiet : Quiet s' s'') : Entered callerAccount msg s s'' where
  bump := fun hdepth => (h.bump hdepth).trans_quiet hquiet
  deeper := fun hdepth => (h.deeper hdepth).trans hquiet

theorem bumpNonce_spec (hs : s.stateManager.Ready) (callerAccount : Option Account) (msg : Message) :
    (bumpNonce callerAccount msg).wp
      (fun _ s' => Becomes s (s.stateManager.setAccount msg.caller (some (bumped
        (callerAccount.getD (s.stateManager.account msg.caller))))) s')
      (fun e _ => Foreign e) s := by
  simp only [bumpNonce, wp_bind]
  cases callerAccount with
  | some account =>
    simp only [readCaller, wp_pure]
    exact wp_mono (putAccount_spec hs _ _) (fun _ _ h => h) (fun _ _ h => h.1)
  | none =>
    simp only [readCaller, wp_bind]
    refine wp_mono (getAccount_spec hs msg.caller) ?_ (fun _ _ h => h.1)
    intro account s₀ hs₀
    rw [hs₀.1, wp_pure, hs₀.2]
    exact wp_mono (putAccount_spec hs _ _) (fun _ _ h => h) (fun _ _ h => h.1)

theorem openMessage_spec (hs : s.stateManager.Ready) (callerAccount : Option Account)
    (msg : Message) :
    (openMessage evm callerAccount msg).wp
      (fun msg' s' => (∃ code, msg' = { msg with code }) ∧ Entered callerAccount msg s s')
      (fun e _ => Foreign e) s := by
  simp only [openMessage, wp_bind]
  have hbump : (Program.when (msg.depth = 0) (bumpNonce callerAccount msg)).wp
      (fun _ s' => Entered callerAccount msg s s') (fun e _ => Foreign e) s := by
    refine wp_when (fun hdepth => ?_)
      (fun hdepth => ⟨fun hzero => absurd hzero hdepth, fun _ => .refl s⟩)
    exact wp_mono (bumpNonce_spec hs callerAccount msg)
      (fun _ _ h => ⟨fun _ => h, fun hne => absurd hdepth hne⟩) (fun _ _ h => h)
  refine wp_mono hbump ?_ (fun _ _ h => h)
  intro _ s₁ hentered
  refine wp_ite (fun _ => ?_) (fun _ => ⟨⟨msg.code, rfl⟩, hentered⟩)
  simp only [wp_bind]
  refine wp_mono (generateAddress_spec (hentered.keeps.below.ready hs) _) ?_ (fun _ _ h => h)
  intro address s₂ hs₂
  rw [hs₂]
  exact ⟨⟨_, rfl⟩, hentered.quiet (addWarmedAddress_quiet s₁ address.bytes)⟩

/-- A call enters, and what happens then is closed. -/
structure Called (evm : EVM) (callerAccount : Option Account) (msg : Message) (s : EvmState)
    (res : EVMResult) (msg' : Message) (s' : EvmState) : Prop where
  states : ∃ s₀, Entered callerAccount msg s s₀ ∧ Closed evm msg s₀ res msg' s'

theorem runCallWith_spec (hspec : MessageSpec evm runCall) (hs : s.stateManager.Ready)
    (hvalue : 0 ≤ msg.value) (callerAccount : Option Account) :
    (runCallWith evm runCall fuel callerAccount msg).wp
      (fun r s' => Called evm callerAccount msg s r.1 r.2 s')
      (fun e _ => msg.depth ≠ 0 →
        (msg.to = none → msg.value ≤ (s.stateManager.account msg.caller).balance) → Foreign e) s := by
  simp only [runCallWith, wp_bind]
  refine wp_mono (openMessage_spec hs callerAccount msg) ?_ (fun _ _ h _ _ => h)
  rintro msg₁ s₀ ⟨⟨code, rfl⟩, hentered⟩
  have hs₀ := hentered.keeps.below.ready hs
  refine wp_mono (checkpoint_spec s₀) ?_ (fun _ _ h => h.elim)
  intro _ s₁ hopened
  have hs₁ : s₁.stateManager.Ready := by
    rw [hopened.stateManager]
    exact ready_checkpoint _
  have hexecute := @executeMessage_spec evm s₁ { msg with code } runCall fuel hspec hs₁ hvalue
  refine wp_mono hexecute ?_ ?_
  · rintro ⟨res, msg'⟩ s₂ hexecuted
    refine wp_mono (closeMessage_spec hs₀ hopened hexecuted) ?_ (fun _ _ h => h.elim)
    intro res' s' hclosed
    exact ⟨s₀, hentered, ⟨hclosed.keeps, hclosed.failed, hclosed.codestore, hclosed.grows,
      hclosed.money, hclosed.static⟩⟩
  · intro e _ h hdepth hfunds
    refine h fun hto => ?_
    rw [hopened.stateManager]
    change msg.value ≤ (s₀.stateManager.account msg.caller).balance
    rw [(hentered.deeper hdepth).stateManager]
    exact hfunds hto

/-- The messages that frames send keep what the frames rely on. -/
theorem runMessage_spec (fuel : Nat) : MessageSpec evm (runMessage evm fuel) := by
  induction fuel with
  | zero => exact fun _ _ _ m hm => by cases hm
  | succ fuel ih =>
    intro msg s hsend
    refine wp_mono (runCallWith_spec ih hsend.ready hsend.value none) ?_
      (fun _ _ h => h hsend.depth hsend.funds)
    rintro ⟨res, msg'⟩ s' ⟨s₀, hentered, hclosed⟩
    have hquiet := hentered.deeper hsend.depth
    refine ⟨hquiet.keeps.trans hclosed.keeps, (Grows.of_quiet hquiet).trans (hclosed.grows hsend.depth),
      fun e he hcode => ?_, fun hcode => (hclosed.codestore hcode).1,
      (Money.of_quiet hquiet).trans (hclosed.money hsend.selfdestruct) id,
      fun hstatic hto hharmless => ?_⟩
    · have hrestored := (hclosed.failed e he hcode).1.restored hsend.depth
      refine ⟨hrestored.stateManager.trans hquiet.stateManager, ?_,
        hrestored.height.trans hquiet.height, hrestored.tx.trans hquiet.tx⟩
      have hagrees := hrestored.transientStorage
      rw [hquiet.transientStorage] at hagrees
      exact hagrees
    · obtain ⟨hvalues, hsettled, hlogs⟩ := hclosed.static hstatic hto hharmless
      refine ⟨(Unchanged.of_quiet hquiet).trans ⟨hvalues, ?_⟩, hlogs⟩
      exact hsettled.value.resolve_right fun h => hsend.depth h.1

end EVM
