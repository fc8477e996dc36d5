-- SUMMARY: The state manager that keeps a map of accounts, one of codes and one of storage slots for each checkpoint.
import TsEthereum.Evm.Journal
import TsEthereum.Utils.Account

/-!
# Simple state manager

`simpleStateManager.ts`, which the EVM uses where it is given no other. The
stacks have their last map first. An account is a value here; an account object
that is changed in place is put back before anyone reads it, or its checkpoint is
reverted.
-/

abbrev Accounts := OrderedMap HexString (Option Account)
abbrev Codes := OrderedMap HexString Bytes
abbrev Slots := OrderedMap HexString Bytes

structure SimpleStateManager where
  accountStack : List Accounts
  codeStack : List Codes
  storageStack : List Slots

namespace SimpleStateManager

/-- The fields that `modifyAccountFields` can set. -/
structure AccountFields where
  nonce : Option Int
  balance : Option Int
  storageRoot : Option Bytes
  codeHash : Option Bytes

def missing {α : Type} (method : String) : Except String α :=
  .error ("TypeError: Cannot read properties of undefined (reading '" ++ method ++ "')")

/-- `stack.pop()` and `stack.push(f(top))`. -/
def onTop {α : Type} (f : α → α) : List α → List α
  | [] => []
  | top :: rest => f top :: rest

/-- `new Map(top)` on top of the others. -/
def pushCopy {κ ν : Type} [DecidableEq κ] (stack : List (OrderedMap κ ν)) : List (OrderedMap κ ν) :=
  stack.head?.getD .empty :: stack

/-- `stack.splice(-2, 1)`. -/
def spliceSecond {α : Type} : List α → List α
  | [] => []
  | [_] => []
  | top :: _ :: rest => top :: rest

/-- The state manager that the constructor makes. -/
def new : SimpleStateManager := ⟨[.empty], [.empty], [.empty]⟩

def storageKey (address : Address) (key : Bytes) : HexString :=
  address.toString ++ '_' :: bytesToHex key

def getAccount (s : SimpleStateManager) (address : Address) : Except String (Option Account) :=
  match s.accountStack with
  | [] => missing "get"
  | top :: _ => .ok ((top.get address.toString).getD none)

def putAccount (s : SimpleStateManager) (address : Address) (account : Option Account) :
    Except String Unit × SimpleStateManager :=
  match s.accountStack with
  | [] => (missing "set", s)
  | _ :: _ => (.ok (), { s with
      accountStack := onTop (·.set address.toString account) s.accountStack })

def deleteAccount (s : SimpleStateManager) (address : Address) :
    Except String Unit × SimpleStateManager := s.putAccount address none

def modifyAccountFields (s : SimpleStateManager) (address : Address) (fields : AccountFields) :
    Except String Unit × SimpleStateManager :=
  match s.getAccount address with
  | .error e => (.error e, s)
  | .ok account =>
    let account := account.getD .new
    s.putAccount address (some {
      nonce := fields.nonce.getD account.nonce
      balance := fields.balance.getD account.balance
      storageRoot := fields.storageRoot.getD account.storageRoot
      codeHash := fields.codeHash.getD account.codeHash })

def getCode (s : SimpleStateManager) (address : Address) : Except String Bytes :=
  match s.codeStack with
  | [] => missing "get"
  | top :: _ => .ok ((top.get address.toString).getD [])

def putCode (keccak256 : Bytes → Bytes) (s : SimpleStateManager) (address : Address)
    (value : Bytes) : Except String Unit × SimpleStateManager :=
  match s.codeStack with
  | [] => (missing "set", s)
  | _ :: _ =>
    let s := { s with codeStack := onTop (·.set address.toString value) s.codeStack }
    match s.getAccount address with
    | .error e => (.error e, s)
    | .ok account =>
      let s := if account.isNone then (s.putAccount address (some .new)).2 else s
      s.modifyAccountFields address ⟨none, none, none, some (keccak256 value)⟩

def getStorage (s : SimpleStateManager) (address : Address) (key : Bytes) : Except String Bytes :=
  match s.storageStack with
  | [] => missing "get"
  | top :: _ => .ok ((top.get (storageKey address key)).getD [])

def putStorage (s : SimpleStateManager) (address : Address) (key value : Bytes) :
    Except String Unit × SimpleStateManager :=
  match s.storageStack with
  | [] => (missing "set", s)
  | _ :: _ => (.ok (), { s with
      storageStack := onTop (·.set (storageKey address key) value) s.storageStack })

def checkpoint (s : SimpleStateManager) : SimpleStateManager :=
  ⟨pushCopy s.accountStack, pushCopy s.codeStack, pushCopy s.storageStack⟩

def commit (s : SimpleStateManager) : SimpleStateManager :=
  ⟨spliceSecond s.accountStack, spliceSecond s.codeStack, spliceSecond s.storageStack⟩

def revert (s : SimpleStateManager) : SimpleStateManager :=
  ⟨s.accountStack.tail, s.codeStack.tail, s.storageStack.tail⟩

/-- What the journal uses of the state manager. -/
def interface : StateManagerInterface SimpleStateManager Account where
  putAccount := putAccount
  deleteAccount := deleteAccount
  checkpoint s := (.ok (), s.checkpoint)
  commit s := (.ok (), s.commit)
  revert s := (.ok (), s.revert)
  getAppliedKey := none

/-! ## What is read back -/

/-- The account under a spelling of its address, an empty one where there is none. -/
def accountAt (s : SimpleStateManager) (k : HexString) : Account :=
  (((s.accountStack.head?.getD .empty).get k).getD none).getD .new

def account (s : SimpleStateManager) (address : Address) : Account := s.accountAt address.toString

/-- The sum of all balances. -/
def totalBalance (s : SimpleStateManager) : Int :=
  (s.accountStack.head?.getD .empty).sumKeys fun k => (s.accountAt k).balance

/-- No account owes anything. -/
def Solvent (s : SimpleStateManager) : Prop := ∀ k, 0 ≤ (s.accountAt k).balance

/-- What is under the last checkpoint is the same, and there are as many checkpoints. -/
structure SameBelow (s s' : SimpleStateManager) : Prop where
  accounts : s'.accountStack.tail = s.accountStack.tail
  accountsLength : s'.accountStack.length = s.accountStack.length
  codes : s'.codeStack.tail = s.codeStack.tail
  codesLength : s'.codeStack.length = s.codeStack.length
  slots : s'.storageStack.tail = s.storageStack.tail
  slotsLength : s'.storageStack.length = s.storageStack.length

theorem SameBelow.refl (s : SimpleStateManager) : SameBelow s s := ⟨rfl, rfl, rfl, rfl, rfl, rfl⟩

variable {s s' : SimpleStateManager}

theorem SameBelow.trans {s'' : SimpleStateManager} (h : SameBelow s s') (h' : SameBelow s' s'') :
    SameBelow s s'' :=
  ⟨h'.accounts.trans h.accounts, h'.accountsLength.trans h.accountsLength, h'.codes.trans h.codes,
    h'.codesLength.trans h.codesLength, h'.slots.trans h.slots, h'.slotsLength.trans h.slotsLength⟩

/-- There is a map to write to. -/
structure Ready (s : SimpleStateManager) : Prop where
  accounts : s.accountStack ≠ []
  codes : s.codeStack ≠ []
  slots : s.storageStack ≠ []

theorem ne_nil_of_length_eq {α : Type} {stack stack' : List α}
    (hlength : stack'.length = stack.length) (h : stack ≠ []) : stack' ≠ [] := by
  intro hnil
  rw [hnil] at hlength
  exact h (List.eq_nil_of_length_eq_zero hlength.symm)

theorem SameBelow.ready (h : SameBelow s s') (hs : s.Ready) : s'.Ready :=
  ⟨ne_nil_of_length_eq h.accountsLength hs.accounts, ne_nil_of_length_eq h.codesLength hs.codes,
    ne_nil_of_length_eq h.slotsLength hs.slots⟩

/-- The same fields of every account, the same codes and the same slots. -/
structure SameValues (s s' : SimpleStateManager) : Prop where
  accounts : ∀ k, s'.accountAt k = s.accountAt k
  codes : s'.codeStack.head? = s.codeStack.head?
  slots : s'.storageStack.head? = s.storageStack.head?

theorem SameValues.refl (s : SimpleStateManager) : SameValues s s := ⟨fun _ => rfl, rfl, rfl⟩

theorem SameValues.trans {s'' : SimpleStateManager} (h : SameValues s s') (h' : SameValues s' s'') :
    SameValues s s'' :=
  ⟨fun k => (h'.accounts k).trans (h.accounts k), h'.codes.trans h.codes, h'.slots.trans h.slots⟩

theorem tail_onTop {α : Type} (f : α → α) (stack : List α) : (onTop f stack).tail = stack.tail := by
  cases stack <;> rfl

theorem length_onTop {α : Type} (f : α → α) (stack : List α) :
    (onTop f stack).length = stack.length := by
  cases stack <;> rfl

/-! ### Accounts -/

/-- What `putAccount` leaves where there is a map. -/
def setAccount (s : SimpleStateManager) (address : Address) (account : Option Account) :
    SimpleStateManager :=
  { s with accountStack := onTop (·.set address.toString account) s.accountStack }

theorem putAccount_eq (h : s.accountStack ≠ []) (address : Address) (account : Option Account) :
    s.putAccount address account = (.ok (), s.setAccount address account) := by
  unfold putAccount
  cases hstack : s.accountStack with
  | nil => exact absurd hstack h
  | cons top rest => simp only [setAccount, hstack]

theorem getAccount_eq (h : s.accountStack ≠ []) (address : Address) :
    ∃ account, s.getAccount address = .ok account ∧ account.getD .new = s.account address := by
  unfold getAccount account accountAt
  cases hstack : s.accountStack with
  | nil => exact absurd hstack h
  | cons top rest => exact ⟨_, rfl, rfl⟩

theorem nonempty_setAccount (address : Address) (account : Option Account) :
    (s.setAccount address account).accountStack ≠ [] ↔ s.accountStack ≠ [] := by
  unfold setAccount onTop
  cases s.accountStack <;> simp

theorem sameBelow_setAccount (s : SimpleStateManager) (address : Address)
    (account : Option Account) : SameBelow s (s.setAccount address account) :=
  ⟨tail_onTop _ _, length_onTop _ _, rfl, rfl, rfl, rfl⟩

theorem accountAt_setAccount (h : s.accountStack ≠ []) (address : Address)
    (account : Option Account) (k : HexString) :
    (s.setAccount address account).accountAt k =
      if k = address.toString then account.getD .new else s.accountAt k := by
  unfold accountAt setAccount onTop
  cases hstack : s.accountStack with
  | nil => exact absurd hstack h
  | cons top rest =>
    by_cases hk : k = address.toString <;> simp [hk]

@[simp] theorem account_setAccount (h : s.accountStack ≠ []) (address : Address)
    (account : Option Account) :
    (s.setAccount address account).account address = account.getD .new := by
  simp [SimpleStateManager.account, accountAt_setAccount h]

theorem accountAt_of_notMem {k : HexString} (h : k ∉ (s.accountStack.head?.getD .empty).keys) :
    s.accountAt k = .new := by
  simp [accountAt, OrderedMap.get_eq_none.mpr h]

section

variable (h : s.accountStack ≠ [])
include h

theorem totalBalance_setAccount (address : Address) (account : Option Account) :
    (s.setAccount address account).totalBalance =
      s.totalBalance + (account.getD .new).balance - (s.account address).balance := by
  have hzero : ∀ t : SimpleStateManager, ∀ j, j ∉ (t.accountStack.head?.getD .empty).keys →
      (t.accountAt j).balance = 0 := fun t j hj => by rw [accountAt_of_notMem hj]; rfl
  have hchange := OrderedMap.sumKeys_change (s.accountStack.head?.getD .empty)
    ((s.setAccount address account).accountStack.head?.getD .empty)
    (fun k => (s.accountAt k).balance)
    (fun k => ((s.setAccount address account).accountAt k).balance) address.toString
    (hzero s) (hzero _) (fun j hj => by simp only [accountAt_setAccount h, hj, if_false])
  have hself : ((s.setAccount address account).accountAt address.toString).balance =
      (account.getD .new).balance := by simp [accountAt_setAccount h]
  rw [hself] at hchange
  unfold totalBalance SimpleStateManager.account
  linarith

theorem solvent_setAccount {address : Address} {account : Option Account}
    (hs : s.Solvent) (haccount : 0 ≤ (account.getD .new).balance) :
    (s.setAccount address account).Solvent := by
  intro k
  rw [accountAt_setAccount h]
  split
  · exact haccount
  · exact hs k

/-- The account that is there, put again. -/
theorem sameValues_setAccount {address : Address}
    {account : Option Account} (haccount : account.getD .new = s.account address) :
    SameValues s (s.setAccount address account) := by
  refine ⟨fun k => ?_, rfl, rfl⟩
  rw [accountAt_setAccount h, haccount]
  split
  · subst k
    rfl
  · rfl

end

/-- The same balances have the same sum. -/
theorem totalBalance_congr (h : ∀ k, (s'.accountAt k).balance = (s.accountAt k).balance) :
    s'.totalBalance = s.totalBalance := by
  have hzero : ∀ t : SimpleStateManager, ∀ j, j ∉ (t.accountStack.head?.getD .empty).keys →
      (t.accountAt j).balance = 0 := fun t j hj => by rw [accountAt_of_notMem hj]; rfl
  have hchange := OrderedMap.sumKeys_change (s.accountStack.head?.getD .empty)
    (s'.accountStack.head?.getD .empty) (fun k => (s.accountAt k).balance)
    (fun k => (s'.accountAt k).balance) [] (hzero s) (hzero s') (fun j _ => h j)
  simp only [h] at hchange
  unfold totalBalance
  simp only [h]
  linarith

theorem modifyAccountFields_eq (h : s.accountStack ≠ []) (address : Address)
    (fields : AccountFields) :
    s.modifyAccountFields address fields = (.ok (), s.setAccount address (some {
      nonce := fields.nonce.getD (s.account address).nonce
      balance := fields.balance.getD (s.account address).balance
      storageRoot := fields.storageRoot.getD (s.account address).storageRoot
      codeHash := fields.codeHash.getD (s.account address).codeHash })) := by
  obtain ⟨account, hget, haccount⟩ := getAccount_eq h address
  simp only [modifyAccountFields, hget, haccount, putAccount_eq h]

theorem putStorage_eq (h : s.storageStack ≠ []) (address : Address) (key value : Bytes) :
    s.putStorage address key value = (.ok (), { s with
      storageStack := onTop (·.set (storageKey address key) value) s.storageStack }) := by
  unfold putStorage
  cases hstack : s.storageStack with
  | nil => exact absurd hstack h
  | cons top rest => rfl

/-- New code changes one field of one account. -/
theorem putCode_eq (hs : s.Ready) (keccak256 : Bytes → Bytes) (address : Address) (value : Bytes) :
    ∃ s', s.putCode keccak256 address value = (.ok (), s') ∧ SameBelow s s' ∧
      ∀ k, s'.accountAt k = if k = address.toString then
        { s.account address with codeHash := keccak256 value } else s.accountAt k := by
  unfold putCode
  cases hcodes : s.codeStack with
  | nil => exact absurd hcodes hs.codes
  | cons top rest =>
    let t : SimpleStateManager := { s with codeStack := onTop (·.set address.toString value) s.codeStack }
    have ht : t.accountStack ≠ [] := hs.accounts
    have hbelow : SameBelow s t := ⟨rfl, rfl, tail_onTop _ _, length_onTop _ _, rfl, rfl⟩
    obtain ⟨account, hget, haccount⟩ := getAccount_eq ht address
    -- a missing account is put first, which changes nothing that is read
    let u := if account.isNone then (t.putAccount address (some .new)).2 else t
    have hu : u.accountStack ≠ [] ∧ SameBelow t u ∧ ∀ k, u.accountAt k = t.accountAt k := by
      cases account with
      | some account => exact ⟨ht, .refl t, fun _ => rfl⟩
      | none =>
        have hnew : t.putAccount address (some .new) = (.ok (), t.setAccount address (some .new)) :=
          putAccount_eq ht address _
        simp only [u, Option.isNone_none, if_true, hnew]
        exact ⟨(nonempty_setAccount _ _).mpr ht, sameBelow_setAccount t address _,
          (sameValues_setAccount ht (show (some Account.new).getD .new = _ from haccount)).accounts⟩
    refine ⟨u.setAccount address (some { u.account address with codeHash := keccak256 value }), ?_,
      hbelow.trans (hu.2.1.trans (sameBelow_setAccount u address _)), fun k => ?_⟩
    · have hrun := modifyAccountFields_eq hu.1 address ⟨none, none, none, some (keccak256 value)⟩
      simp only [← hcodes]
      change (match t.getAccount address with
        | .error e => (Except.error e, t)
        | .ok account =>
          (if account.isNone then (t.putAccount address (some .new)).2 else t).modifyAccountFields
            address ⟨none, none, none, some (keccak256 value)⟩) = _
      rw [hget]
      exact hrun
    · rw [accountAt_setAccount hu.1]
      split
      · simp only [Option.getD_some, SimpleStateManager.account, hu.2.2]
        rfl
      · exact hu.2.2 k

/-! ### Checkpoints -/

/-- A copy of the maps has their values. -/
theorem sameValues_checkpoint (hs : s.Ready) : SameValues s s.checkpoint := by
  refine ⟨fun _ => rfl, ?_, ?_⟩
  · cases hcodes : s.codeStack with
    | nil => exact absurd hcodes hs.codes
    | cons top rest => simp [checkpoint, pushCopy, hcodes]
  · cases hslots : s.storageStack with
    | nil => exact absurd hslots hs.slots
    | cons top rest => simp [checkpoint, pushCopy, hslots]

theorem ready_checkpoint (s : SimpleStateManager) : s.checkpoint.Ready :=
  ⟨List.cons_ne_nil _ _, List.cons_ne_nil _ _, List.cons_ne_nil _ _⟩

/-- A revert gives back what there was at the checkpoint. -/
theorem revert_checkpoint (h : SameBelow s.checkpoint s') : s'.revert = s := by
  cases s
  simp only [revert, h.accounts, h.codes, h.slots]
  rfl

/-- A stack with one map more than another, which is below it. -/
theorem eq_cons_of_tail {α : Type} {top : α} {rest stack : List α}
    (htail : stack.tail = (top :: rest).tail) (hlength : stack.length = (top :: rest).length) :
    ∃ top', stack = top' :: rest := by
  cases stack with
  | nil => simp at hlength
  | cons top' rest' => exact ⟨top', by simpa using htail⟩

theorem spliceSecond_pushCopy {κ ν : Type} [DecidableEq κ] {stack stack' : List (OrderedMap κ ν)}
    (hstack : stack ≠ []) (htail : stack'.tail = (pushCopy stack).tail)
    (hlength : stack'.length = (pushCopy stack).length) :
    (spliceSecond stack').head? = stack'.head? ∧ (spliceSecond stack').tail = stack.tail ∧
      (spliceSecond stack').length = stack.length := by
  obtain ⟨top', rfl⟩ := eq_cons_of_tail htail hlength
  cases stack with
  | nil => exact absurd rfl hstack
  | cons top rest => exact ⟨rfl, rfl, rfl⟩

/-- A commit keeps the values, over what was under the checkpoint. -/
theorem commit_checkpoint (hs : s.Ready) (h : SameBelow s.checkpoint s') :
    SameBelow s s'.commit ∧ SameValues s' s'.commit := by
  have haccounts := spliceSecond_pushCopy hs.accounts h.accounts h.accountsLength
  have hcodes := spliceSecond_pushCopy hs.codes h.codes h.codesLength
  have hslots := spliceSecond_pushCopy hs.slots h.slots h.slotsLength
  refine ⟨⟨haccounts.2.1, haccounts.2.2, hcodes.2.1, hcodes.2.2, hslots.2.1, hslots.2.2⟩,
    fun k => ?_, hcodes.1, hslots.1⟩
  simp only [accountAt, commit, haccounts.1]

end SimpleStateManager
