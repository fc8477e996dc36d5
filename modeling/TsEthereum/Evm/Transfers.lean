-- SUMMARY: How a message moves its value, and how its code is loaded and run.
import TsEthereum.Evm.FrameRuns

/-!
# Transfers

What comes before the code of a message runs. A transfer that fails leaves its
error, and the message is reverted; one that goes through keeps the sum of all
balances.
-/

open Option

open Program EvmState

namespace EVM

open SimpleStateManager

variable {evm : EVM} {s s' s'' : EvmState} {msg msg' : Message} {destructed : OrderedSet HexString}

/-- The error is not the one that Chainstart dismisses. -/
def Ordinary (e : Throw) : Prop := e ≠ .evmError .CODESTORE_OUT_OF_GAS

theorem Ordinary.of_foreign {e : Throw} (h : Foreign e) : Ordinary e := h _

theorem Ordinary.caughtError {e : Throw} (h : Ordinary e) :
    caughtError e ≠ .CODESTORE_OUT_OF_GAS := by
  cases e with
  | evmError e => exact fun heq => h (congrArg Throw.evmError heq)
  | error _ => simp [EVM.caughtError]
  | outOfFuel => simp [EVM.caughtError]

theorem caught_wp {p : Call Unit} {Q : Unit → EvmState → Prop} {E : Throw → EvmState → Prop}
    {R : Option Throw → EvmState → Prop} (h : p.wp Q E s) (hok : ∀ s', Q () s' → R none s')
    (herror : ∀ e s', E e s' → R (some e) s') : (caught p).wp R (fun _ _ => False) s := by
  simp only [caught, wp_bind, wp_attempt]
  exact wp_mono h (fun _ s' hq => hok s' hq) (fun e s' he => herror e s' he)

/-! ## Both sides of a transfer -/

theorem reduceSenderBalance_spec (hs : s.stateManager.Ready) (account : Account) (msg : Message) :
    (reduceSenderBalance account msg).wp
      (fun _ s' => msg.value ≤ account.balance ∧ Becomes s (s.stateManager.setAccount msg.caller
        (some { account with balance := account.balance - msg.value })) s')
      (fun e s' => (msg.value ≤ account.balance → Foreign e) ∧ Ordinary e ∧ Quiet s s') s := by
  refine wp_ite (fun hlow => ?_) (fun hafford => ?_)
  · exact ⟨fun hafford => absurd hlow (by omega), by simp [Ordinary], .refl s⟩
  · refine wp_mono (putAccount_spec hs _ _) (fun _ s' h => ⟨by omega, h⟩) ?_
    exact fun e s' h => ⟨fun _ => h.1, .of_foreign h.1, h.2⟩

theorem addToBalance_spec (hs : s.stateManager.Ready) (account : Account) (address : Address)
    (msg : Message) : (addToBalance account address msg).wp
      (fun _ s' => Becomes s (s.stateManager.setAccount address
        (some { account with balance := account.balance + msg.value })) s')
      (fun e s' => Ordinary e ∧ Quiet s s') s := by
  refine wp_ite (fun _ => ⟨by simp [Ordinary], .refl s⟩) (fun _ => ?_)
  exact wp_mono (putAccount_spec hs _ _) (fun _ _ h => h) (fun e s' h => ⟨.of_foreign h.1, h.2⟩)

/-- The sender has paid. -/
structure Paid (msg : Message) (s s' : EvmState) : Prop where
  becomes : Becomes s (s.stateManager.setAccount msg.caller (some { s.stateManager.account msg.caller
    with balance := (s.stateManager.account msg.caller).balance - msg.value })) s'
  afford : msg.value ≤ (s.stateManager.account msg.caller).balance

namespace Paid

variable (h : Paid msg s s') (hs : s.stateManager.Ready)

include h hs

theorem ready : s'.stateManager.Ready := by
  rw [h.becomes.stateManager]
  exact (sameBelow_setAccount _ _ _).ready hs

omit hs in
theorem keeps : Keeps s s' := h.becomes.keeps (sameBelow_setAccount _ _ _)

theorem solvent (hsolvent : s.stateManager.Solvent) : s'.stateManager.Solvent := by
  rw [h.becomes.stateManager]
  refine solvent_setAccount hs.accounts hsolvent ?_
  exact sub_nonneg.mpr h.afford

theorem totalBalance : s'.stateManager.totalBalance = s.stateManager.totalBalance - msg.value := by
  rw [h.becomes.stateManager, totalBalance_setAccount hs.accounts]
  simp only [getD_some]
  ring

theorem accountAt (k : HexString) : s'.stateManager.accountAt k =
    if k = msg.caller.toString then { s.stateManager.account msg.caller with
      balance := (s.stateManager.account msg.caller).balance - msg.value }
    else s.stateManager.accountAt k := by
  rw [h.becomes.stateManager, accountAt_setAccount hs.accounts]
  rfl

end Paid

/-- What the sender has paid is at the address. -/
structure Received (msg : Message) (address : Address) (account : Account) (s s' : EvmState) :
    Prop where
  becomes : Becomes s (s.stateManager.setAccount address
    (some { account with balance := account.balance + msg.value })) s'
  balance : account.balance = (s.stateManager.account address).balance

/-- The value has left the accounts. -/
structure Owes (value : Int) (s s' : EvmState) : Prop where
  solvent : s.stateManager.Solvent → s'.stateManager.Solvent
  totalBalance : s'.stateManager.totalBalance = s.stateManager.totalBalance - value

theorem Paid.owes (h : Paid msg s s') (hs : s.stateManager.Ready) : Owes msg.value s s' :=
  ⟨h.solvent hs, h.totalBalance hs⟩

theorem Owes.of_accounts {value : Int} (h : Owes value s s')
    (haccounts : ∀ k, s''.stateManager.accountAt k = s'.stateManager.accountAt k) :
    Owes value s s'' where
  solvent := fun hsolvent k => by
    rw [haccounts k]
    exact h.solvent hsolvent k
  totalBalance := by
    have htotal := totalBalance_congr fun k =>
      congrArg Account.balance (haccounts k)
    rw [htotal, h.totalBalance]

/-- A transfer keeps the sum of all balances. -/
theorem money_of_received {s₁ : EvmState} {address : Address} {account : Account}
    (hs₁ : s₁.stateManager.Ready) (howes : Owes msg.value s s₁)
    (h : Received msg address account s₁ s') (hvalue : 0 ≤ msg.value) : Money destructed s s' := by
  intro hsolvent
  have htotal : s'.stateManager.totalBalance = s.stateManager.totalBalance := by
    rw [h.becomes.stateManager, totalBalance_setAccount hs₁.accounts,
      howes.totalBalance]
    simp only [getD_some, h.balance]
    ring
  refine ⟨?_, htotal.le, fun _ => htotal⟩
  rw [h.becomes.stateManager]
  refine solvent_setAccount hs₁.accounts (howes.solvent hsolvent) ?_
  rw [getD_some, h.balance]
  exact add_nonneg (howes.solvent hsolvent _) hvalue

/-- A value that stays where it is changes no account. -/
theorem accounts_of_received {s₁ : EvmState} {address : Address} (hs : s.stateManager.Ready)
    (hpaid : Paid msg s s₁) (h : Received msg address (s₁.stateManager.account address) s₁ s')
    (hstays : msg.value = 0 ∨ address = msg.caller) (k : HexString) :
    s'.stateManager.accountAt k = s.stateManager.accountAt k := by
  rw [h.becomes.stateManager, accountAt_setAccount (hpaid.ready hs).accounts]
  simp only [getD_some, account, hpaid.accountAt hs]
  rcases hstays with hzero | rfl
  · -- each put has the account that is there
    simp only [hzero, sub_zero, add_zero]
    split_ifs <;> simp_all [account]
  · simp only [if_true, sub_add_cancel]
    split_ifs <;> simp_all [account]

/-! ## The value of a call -/

/-- What `_executeCall` does before the code is loaded, and the error that it has caught. -/
structure Transferred (msg : Message) (s : EvmState) (error : Option Throw) (s' : EvmState) :
    Prop where
  keeps : Keeps s s'
  transientStorage : s'.transientStorage = s.transientStorage
  ordinary : ∀ e, error = some e → Ordinary e
  money : ∀ destructed, error = none → Money destructed s s'
  unchanged : error = none → msg.Harmless → Unchanged s s'

theorem Transferred.of_quiet {error : Option Throw} (h : Quiet s s')
    (hordinary : ∀ e, error = some e → Ordinary e) : Transferred msg s error s' :=
  ⟨h.keeps, h.transientStorage, hordinary, fun _ _ => .of_quiet h, fun _ _ => .of_quiet h⟩

theorem Harmless.stays {toAddress : Address} (h : msg.Harmless) (hto : msg.to = some toAddress)
    (hdelegate : msg.delegatecall ≠ true) : msg.value = 0 ∨ toAddress = msg.caller := by
  rcases h with hdel | hzero | hself
  · exact absurd hdel hdelegate
  · exact .inl hzero
  · exact .inr (some.inj (hto.symm.trans hself))

variable (hs : s.stateManager.Ready)
include hs

/-- The sender's side: it has paid, or nothing has changed. -/
theorem reduce_caught_spec {account : Option Account}
    (haccount : account.getD .new = s.stateManager.account msg.caller) :
    (caught (reduceSenderBalance (account.getD .new) msg)).wp
      (fun reduced s' => (∀ e, reduced = some e → Ordinary e ∧ Quiet s s') ∧
        (reduced = none → Paid msg s s')) (fun _ _ => False) s := by
  rw [haccount]
  refine caught_wp (reduceSenderBalance_spec hs _ msg) ?_ ?_
  · exact fun s' h => ⟨fun _ he => (nomatch he), fun _ => ⟨h.2, h.1⟩⟩
  · rintro e s' ⟨-, hordinary, hquiet⟩
    refine ⟨fun e' he => ?_, fun hnone => nomatch hnone⟩
    exact some.inj he ▸ ⟨hordinary, hquiet⟩

theorem add_caught_spec {account : Option Account} {address : Address}
    (haccount : account.getD .new = s.stateManager.account address) :
    (caught (addToBalance (account.getD .new) address msg)).wp
      (fun added s' => Keeps s s' ∧ s'.transientStorage = s.transientStorage ∧
        (∀ e, added = some e → Ordinary e) ∧
        (added = none → Received msg address (s.stateManager.account address) s s'))
      (fun _ _ => False) s := by
  rw [haccount]
  refine caught_wp (addToBalance_spec hs _ address msg) ?_ ?_
  · exact fun s' h => ⟨h.keeps (sameBelow_setAccount _ _ _), h.transientStorage,
      fun _ he => (nomatch he), fun _ => ⟨h, rfl⟩⟩
  · rintro e s' ⟨hordinary, hquiet⟩
    refine ⟨hquiet.keeps, hquiet.transientStorage, fun e' he => ?_, fun hnone => nomatch hnone⟩
    exact some.inj he ▸ hordinary

theorem transfer_spec (hvalue : 0 ≤ msg.value) {toAddress : Address}
    (hto : msg.to = some toAddress) :
    (transfer msg toAddress).wp (Transferred msg s) (fun e _ => Foreign e) s := by
  simp only [transfer, wp_bind]
  refine wp_mono (getAccount_spec hs msg.caller) ?_ (fun _ _ h => h.1)
  rintro account s₀ ⟨hs₀, haccount⟩
  rw [hs₀]
  by_cases hdelegate : msg.delegatecall = true
  · simp only [unlessDelegate, if_pos hdelegate, wp_pure]
    refine wp_mono (getAccount_spec hs toAddress) ?_ (fun _ _ h => h.1)
    rintro _ s' ⟨hs', -⟩
    rw [hs']
    exact .of_quiet (.refl _) (by rintro e ⟨⟩)
  · simp only [unlessDelegate, if_neg hdelegate]
    refine wp_mono (reduce_caught_spec hs haccount) ?_ (fun _ _ h => h.elim)
    rintro reduced s₁ ⟨hfailed, hpaid⟩
    have hkeeps₁ : Keeps s s₁ ∧ s₁.transientStorage = s.transientStorage := by
      cases reduced with
      | none => exact ⟨(hpaid rfl).keeps, (hpaid rfl).becomes.transientStorage⟩
      | some e => exact ⟨(hfailed e rfl).2.keeps, (hfailed e rfl).2.transientStorage⟩
    have hs₁ := hkeeps₁.1.below.ready hs
    refine wp_mono (getAccount_spec hs₁ toAddress) ?_ (fun _ _ h => h.1)
    rintro toAccount s₂ ⟨hs₂, htoAccount⟩
    rw [hs₂]
    refine wp_mono (add_caught_spec hs₁ htoAccount) ?_ (fun _ _ h => h.elim)
    rintro added s' ⟨hkeeps', htransient', hordinary, hreceived⟩
    refine ⟨hkeeps₁.1.trans hkeeps', htransient'.trans hkeeps₁.2, fun e he => ?_, ?_, ?_⟩
    · cases added with
      | none => exact (hfailed e he).1
      | some e' => exact hordinary e he
    · intro destructed hnone
      cases added with
      | some e' => cases hnone
      | none => exact money_of_received hs₁ ((hpaid hnone).owes hs) (hreceived rfl) hvalue
    · intro hnone hharmless
      cases added with
      | some e' => cases hnone
      | none =>
        have hstays := Harmless.stays hharmless hto hdelegate
        have hpaid := hpaid hnone
        have hreceived := hreceived rfl
        refine ⟨⟨accounts_of_received hs hpaid hreceived hstays, ?_, ?_⟩, ?_⟩
        · rw [hreceived.becomes.stateManager, hpaid.becomes.stateManager]
          rfl
        · rw [hreceived.becomes.stateManager, hpaid.becomes.stateManager]
          rfl
        · rw [htransient', hkeeps₁.2]

end EVM
