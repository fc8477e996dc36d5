-- SUMMARY: What the operations on accounts, codes, slots and checkpoints do to the state of the EVM.
import TsEthereum.Evm.Evm

/-!
# Effects on the state

One specification for each operation that a message uses. `Keeps` is what every
one of them leaves alone: what is under the last checkpoint.
-/

namespace EvmState

open Program SimpleStateManager Journal

/-- Not an error of the EVM: the interpreter throws it on. -/
def Foreign (e : Throw) : Prop := ∀ m, e ≠ .evmError m

theorem foreign_error (message : String) : Foreign (.error message) := fun _ h => by cases h

/-- Nothing but warm and touched addresses differs. -/
structure Quiet (s s' : EvmState) : Prop where
  stateManager : s'.stateManager = s.stateManager
  transientStorage : s'.transientStorage = s.transientStorage
  height : s'.journal.journalHeight = s.journal.journalHeight
  tx : s'.tx = s.tx

theorem Quiet.refl (s : EvmState) : Quiet s s := ⟨rfl, rfl, rfl, rfl⟩

variable {s s' s'' : EvmState}

theorem Quiet.trans (h : Quiet s s') (h' : Quiet s' s'') : Quiet s s'' :=
  ⟨h'.stateManager.trans h.stateManager, h'.transientStorage.trans h.transientStorage,
    h'.height.trans h.height, h'.tx.trans h.tx⟩

/-- Only the state manager differs, but for warm and touched addresses. -/
structure Becomes (s : EvmState) (stateManager : SimpleStateManager) (s' : EvmState) : Prop where
  stateManager : s'.stateManager = stateManager
  transientStorage : s'.transientStorage = s.transientStorage
  height : s'.journal.journalHeight = s.journal.journalHeight
  tx : s'.tx = s.tx

theorem Quiet.becomes (h : Quiet s s') : Becomes s s.stateManager s' :=
  ⟨h.stateManager, h.transientStorage, h.height, h.tx⟩

variable {sm : SimpleStateManager}

theorem Becomes.trans_quiet (h : Becomes s sm s') (h' : Quiet s' s'') : Becomes s sm s'' :=
  ⟨h'.stateManager.trans h.stateManager, h'.transientStorage.trans h.transientStorage,
    h'.height.trans h.height, h'.tx.trans h.tx⟩

/-- What is under the last checkpoint is the same, and there are as many of them. -/
structure Keeps (s s' : EvmState) : Prop where
  below : s.stateManager.SameBelow s'.stateManager
  height : s'.journal.journalHeight = s.journal.journalHeight
  indices : s'.transientStorage.indices = s.transientStorage.indices
  tx : s'.tx = s.tx

theorem Keeps.refl (s : EvmState) : Keeps s s := ⟨.refl _, rfl, rfl, rfl⟩

theorem Keeps.trans (h : Keeps s s') (h' : Keeps s' s'') : Keeps s s'' :=
  ⟨h.below.trans h'.below, h'.height.trans h.height, h'.indices.trans h.indices, h'.tx.trans h.tx⟩

theorem Becomes.keeps (h : Becomes s sm s') (hbelow : s.stateManager.SameBelow sm) : Keeps s s' :=
  ⟨h.stateManager ▸ hbelow, h.height, by rw [h.transientStorage], h.tx⟩

theorem Quiet.keeps (h : Quiet s s') : Keeps s s' := h.becomes.keeps (.refl _)

/-! ## Reading -/

theorem getAccount_spec (hs : s.stateManager.Ready) (address : Address) : (getAccount address).wp
      (fun account s' => s' = s ∧ account.getD .new = s.stateManager.account address)
      (fun e s' => Foreign e ∧ s' = s) s := by
  obtain ⟨account, hget, haccount⟩ := getAccount_eq hs.accounts address
  have hget : s.journal.stateManager.getAccount address = .ok account := hget
  simp only [wp, getAccount, onStateManager, hget, true_and]
  exact haccount

theorem getCode_spec (s : EvmState) (address : Address) :
    (getCode address).wp (fun _ s' => s' = s) (fun e s' => Foreign e ∧ s' = s) s := by
  cases hget : s.journal.stateManager.getCode address with
  | ok code => simp only [wp, getCode, onStateManager, hget]
  | error e =>
    simp only [wp, getCode, onStateManager, hget, and_true]
    exact foreign_error e

/-! ## Writing -/

theorem touchAddress_ok {j j' : Journal SimpleStateManager} {address : Address}
    (h : j.touchAddress interface address = .ok j') :
    j'.stateManager = j.stateManager ∧ j'.journalHeight = j.journalHeight := by
  unfold touchAddress touchAccount at h
  cases hpreimages : j.reportPreimage interface (address.toString.drop 2) with
  | error e => rw [hpreimages] at h; cases h
  | ok k =>
    rw [hpreimages] at h
    have hk : k = j := by
      unfold reportPreimage at hpreimages
      cases hp : j.preimages with
      | none => simpa only [hp, Except.ok.injEq, eq_comm] using hpreimages
      | some preimages =>
        -- this state manager applies no key, so nothing is reported
        simp only [hp] at hpreimages
        cases hbytes : unprefixedHexToBytes (address.toString.drop 2) with
        | error e => rw [hbytes] at hpreimages; cases hpreimages
        | ok bytes => rw [hbytes] at hpreimages; cases hpreimages
    have hj' : k.markTouched (address.toString.drop 2) = j' := by simpa [Except.map] using h
    subst hk hj'
    unfold markTouched
    split <;> exact ⟨rfl, rfl⟩

/-- A put goes through to the state manager, or fails before it gets there. -/
theorem journal_putAccount (j : Journal SimpleStateManager)
    (hj : j.stateManager.accountStack ≠ []) (address : Address) (account : Option Account) :
    (∃ e, j.putAccount SimpleStateManager.interface address account = (.error e, j)) ∨
      ∃ j', j.putAccount SimpleStateManager.interface address account = (.ok (), j') ∧
        j'.stateManager = j.stateManager.setAccount address account ∧
        j'.journalHeight = j.journalHeight := by
  unfold Journal.putAccount
  cases htouch : j.touchAddress SimpleStateManager.interface address with
  | error e => exact .inl ⟨e, rfl⟩
  | ok k =>
    obtain ⟨hsm, hheight⟩ := touchAddress_ok htouch
    have hput : SimpleStateManager.interface.putAccount k.stateManager address account =
        (.ok (), j.stateManager.setAccount address account) := by
      rw [hsm]
      exact SimpleStateManager.putAccount_eq hj address account
    simp only [hput]
    exact .inr ⟨_, rfl, rfl, hheight⟩

theorem putAccount_spec (hs : s.stateManager.Ready) (address : Address) (account : Account) :
    (putAccount address account).wp
      (fun _ s' => Becomes s (s.stateManager.setAccount address (some account)) s')
      (fun e s' => Foreign e ∧ Quiet s s') s := by
  rcases journal_putAccount s.journal hs.accounts address (some account) with
    ⟨e, hrun⟩ | ⟨j, hrun, hsm, hheight⟩
  · simp only [wp, putAccount, onJournal, hrun]
    exact ⟨foreign_error e, .refl s⟩
  · simp only [wp, putAccount, onJournal, hrun]
    exact ⟨hsm, rfl, hheight, rfl⟩

theorem onStateManager_spec {α : Type}
    (f : SimpleStateManager → Except String α × SimpleStateManager) (s : EvmState) :
    (onStateManager f).wp (fun a s' => ∃ sm, f s.stateManager = (.ok a, sm) ∧ Becomes s sm s')
      (fun e s' => Foreign e ∧ ∃ message sm, f s.stateManager = (.error message, sm) ∧
        Becomes s sm s') s := by
  unfold wp onStateManager stateManager
  cases hf : f s.journal.stateManager with
  | mk r sm =>
    cases r with
    | ok a => exact ⟨sm, rfl, rfl, rfl, rfl, rfl⟩
    | error e => exact ⟨foreign_error e, e, sm, rfl, rfl, rfl, rfl, rfl⟩

theorem addWarmedAddress_quiet (s : EvmState) (address : Bytes) :
    Quiet s { s with journal := s.journal.addWarmedAddress address } := by
  have h : (s.journal.addWarmedAddress address).stateManager = s.journal.stateManager ∧
      (s.journal.addWarmedAddress address).journalHeight = s.journal.journalHeight := by
    unfold Journal.addWarmedAddress
    dsimp only
    split <;> exact ⟨rfl, rfl⟩
  exact ⟨h.1, rfl, h.2, rfl⟩

theorem addWarmedStorage_spec (s : EvmState) (address key : Bytes) :
    (onJournal (·.addWarmedStorage address key)).wp (fun _ s' => Quiet s s')
      (fun e s' => Foreign e ∧ Quiet s s') s := by
  have h : (s.journal.addWarmedStorage address key).2.stateManager = s.journal.stateManager ∧
      (s.journal.addWarmedStorage address key).2.journalHeight = s.journal.journalHeight := by
    have hwarm := addWarmedAddress_quiet s address
    have hwarm : (s.journal.addWarmedAddress address).stateManager = s.journal.stateManager ∧
      (s.journal.addWarmedAddress address).journalHeight = s.journal.journalHeight :=
        ⟨hwarm.stateManager, hwarm.height⟩
    unfold addWarmedStorage markSlot
    dsimp only
    repeat' split
    all_goals first
      | exact ⟨rfl, rfl⟩
      | exact hwarm
  rcases hr : s.journal.addWarmedStorage address key with ⟨_ | _, journal⟩ <;> rw [hr] at h <;>
    simp only [wp, onJournal, hr]
  · exact ⟨foreign_error _, h.1, rfl, h.2, rfl⟩
  · exact ⟨h.1, rfl, h.2, rfl⟩

/-! ## Checkpoints -/

theorem checkpoint_run (s : EvmState) :
    ∃ s', checkpoint s = (.ok (), s') ∧ s'.stateManager = s.stateManager.checkpoint ∧
      s'.transientStorage = s.transientStorage ∧
      s'.journal.journalHeight = s.journal.journalHeight + 1 ∧ s'.tx = s.tx :=
  ⟨_, rfl, rfl, rfl, rfl, rfl⟩

theorem commit_run (s : EvmState) :
    ∃ s', commit s = (.ok (), s') ∧ s'.stateManager = s.stateManager.commit ∧
      s'.transientStorage = s.transientStorage ∧
      s'.journal.journalHeight = s.journal.journalHeight - 1 ∧ s'.tx = s.tx :=
  ⟨_, rfl, rfl, rfl, rfl, rfl⟩

theorem undoItems_kept (j : Journal SimpleStateManager) (items : List (Int × JournalDiffItem)) :
    (j.undoItems items).1.stateManager = j.stateManager ∧
      (j.undoItems items).1.journalHeight = j.journalHeight := by
  induction items generalizing j with
  | nil => exact ⟨rfl, rfl⟩
  | cons e es ih =>
    cases es with
    | nil =>
      simp only [undoItems]
      split <;> exact ⟨rfl, rfl⟩
    | cons e' es =>
      simp only [undoItems]
      split
      · exact ⟨rfl, rfl⟩
      · exact ih (j.undoItem e.2)

theorem revert_run (s : EvmState) :
    ∃ s', revert s = (.ok (), s') ∧ s'.stateManager = s.stateManager.revert ∧
      s'.transientStorage = s.transientStorage ∧
      s'.journal.journalHeight = s.journal.journalHeight - 1 ∧ s'.tx = s.tx := by
  have hkept := undoItems_kept s.journal s.journal.journalDiff
  refine ⟨(revert s).2, rfl, ?_, rfl, ?_, rfl⟩
  · change (s.journal.undoItems s.journal.journalDiff).1.stateManager.revert = _
    rw [hkept.1]
    rfl
  · change (s.journal.undoItems s.journal.journalDiff).1.journalHeight - 1 = _
    rw [hkept.2]

end EvmState
