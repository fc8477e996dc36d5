-- SUMMARY: The induction over runs of the pool: what every synchronous step keeps, every run keeps whose steps meet a given condition.
import TsEthereum.ExecutionClient.TxPool.Ops

/-!
# Invariants of runs

A call is a sequence of synchronous steps: a nonce enters the cache, an object
is inserted, a sender is promoted, demoted or cleaned up, a hash is removed.
`Condition` asks something of the steps that can go wrong, each about the state
in which the step starts, and `Preserves` says that the steps that meet it keep
an invariant. The loops around the steps are gone through once, here.
-/

open List Bool Option

namespace TxPool

/-- A condition on the steps of a run. -/
structure Condition where
  /-- `add` reaches the insertion of a transaction into a pool -/
  insert : TxPool → TypedTransaction → Bool → UnprefixedAddress → PoolType → Bool
  /-- `demoteUnexecutables` comes to a sender with this account -/
  demote : TxPool → UnprefixedAddress → Account → Bool
  /-- a hash is removed, by a call or by an eviction -/
  remove : TxPool → UnprefixedHash → Bool
  /-- `cleanup` comes to a list -/
  expire : Int → PoolType → TxPool → UnprefixedAddress → Bool

namespace Condition

variable (K : Condition)

/-- The removals that `enforceLimit` makes meet the condition. -/
def onLimit (pool : PoolType) (limit : Int) : Nat → TxPool → Bool
  | 0, _ => true
  | fuel + 1, s =>
    if s.counts pool > limit then
      match s.lowestPriced pool with
      | none => true
      | some lowestTx =>
        K.remove s lowestTx.hash && onLimit pool limit fuel (s.removeByHash lowestTx.hash)
    else true

def onLimits (s : TxPool) : Bool :=
  K.onLimit .pending GLOBAL_SLOTS s.size s &&
    match enforceLimit .pending GLOBAL_SLOTS s.size s with
    | none => true
    | some s => K.onLimit .queued GLOBAL_QUEUE s.size s

/-- The insertion of an `addFrom` that gets there, and the evictions after it. -/
def onAddFrom (env : Env) (s : TxPool) (tx : TypedTransaction) (isLocal : Bool)
    (a : UnprefixedAddress) : Bool :=
  match s.validate env.head tx isLocal a with
  | .error _ => true
  | .ok () =>
    match s.accountNonce env.head a with
    | .error _ => true
    | .ok (s, nonce) =>
      let pool := s.classify tx a nonce
      K.insert s tx isLocal a pool &&
        match s.addTx tx isLocal env.now a pool with
        | (_, some _) => true
        | (s, none) =>
          match promoteAfterAdd env.head a s pool with
          | (_, some _) => true
          | (s, none) => K.onLimits s

def onAdd (env : Env) (s : TxPool) (tx : TypedTransaction) (isLocal : Bool) : Bool :=
  match tx.sender with
  | none => true
  | some a => K.onAddFrom env s tx isLocal a

def onRemovals : List UnprefixedHash → TxPool → Bool
  | [], _ => true
  | hash :: hashes, s => K.remove s hash && onRemovals hashes (s.removeByHash hash)

def onNewBlockTxs (newBlocks : List BlockTxs) (s : TxPool) : Bool :=
  if s.running then K.onRemovals (newBlocks.flatten.map TypedTransaction.hash) s else true

def onDemotions (accounts : UnprefixedAddress → Option Account) : List UnprefixedAddress → TxPool → Bool
  | [], _ => true
  | a :: addresses, s =>
    match (s.pools .pending).get a with
    | none => onDemotions accounts addresses s
    | some i => K.demote s a ((accounts a).getD Account.new) &&
        onDemotions accounts addresses (s.demoteAddr a i ((accounts a).getD Account.new))

def onDemote (head : Head) (s : TxPool) : Bool :=
  match head.state with
  | none => true
  | some accounts => K.onDemotions accounts (s.pools .pending).keys s

def onReinject (env : Env) (newBlocks : List BlockTxs) : List TypedTransaction → TxPool → Bool
  | [], _ => true
  | tx :: txs, s =>
    if s.skipsOrphan newBlocks tx then onReinject env newBlocks txs s
    else K.onAdd env s tx true &&
      match s.add env tx true with
      | none => true
      | some (s, _) => onReinject env newBlocks txs s

def onReorg (env : Env) (oldBlocks newBlocks : List BlockTxs) (s : TxPool) : Bool :=
  K.onReinject env newBlocks oldBlocks.flatten s &&
    match reinject env newBlocks oldBlocks.flatten s with
    | none => true
    | some s =>
      let s := s.clearNonceCache none
      K.onNewBlockTxs newBlocks s && K.onDemote env.head (s.removeNewBlockTxs newBlocks)

def onCleanups (compDate : Int) (pool : PoolType) : List UnprefixedAddress → TxPool → Bool
  | [], _ => true
  | a :: addresses, s => K.expire compDate pool s a &&
      onCleanups compDate pool addresses (cleanupAddr compDate pool s a)

def onCleanup (now : Int) (s : TxPool) : Bool :=
  let compDate := now - POOLED_STORAGE_TIME_LIMIT * 1000 * 60
  let s' := cleanupPool compDate .pending s
  K.onCleanups compDate .pending (s.pools .pending).keys s &&
    K.onCleanups compDate .queued (s'.pools .queued).keys s'

/-- Every step of a call meets the condition. -/
def onCall (env : Env) (s : TxPool) : Call → Bool
  | .add tx isLocal => K.onAdd env s tx isLocal
  | .promoteExecutables _ => true
  | .demoteUnexecutables => K.onDemote env.head s
  | .removeByHash hash => K.remove s hash
  | .removeNewBlockTxs newBlocks => K.onNewBlockTxs newBlocks s
  | .handleReorg oldBlocks newBlocks => K.onReorg env oldBlocks newBlocks s
  | .cleanup => K.onCleanup env.now s
  | .clearNonceCache _ => true
  | .start => true
  | .stop => true

/-- Every step of a run meets the condition. -/
def onRun : List (Env × Call) → TxPool → Bool
  | [], _ => true
  | (env, c) :: calls, s => K.onCall env s c &&
      match s.call env c with
      | none => true
      | some (s, _) => onRun calls s

end Condition

/-- The steps of an `add` that resolves. -/
theorem add_resolved {env : Env} {s s' : TxPool} {tx : TypedTransaction} {isLocal : Bool}
    (h : s.add env tx isLocal = some (s', none)) :
    ∃ a s₁ nonce s₂ s₃, tx.sender = some a ∧ s.validate env.head tx isLocal a = .ok () ∧
      s.accountNonce env.head a = .ok (s₁, nonce) ∧
      s₁.addTx tx isLocal env.now a (s₁.classify tx a nonce) = (s₂, none) ∧
      promoteAfterAdd env.head a s₂ (s₁.classify tx a nonce) = (s₃, none) ∧
      s₃.enforcePoolLimits = some s' := by
  unfold add at h
  split at h
  case isFalse => cases h
  cases hsender : tx.sender with
  | none => rw [hsender] at h; cases h
  | some a =>
    rw [hsender] at h
    simp only [addFrom] at h
    cases hv : s.validate env.head tx isLocal a with
    | error e => rw [hv] at h; cases h
    | ok u =>
      rw [hv] at h
      cases hn : s.accountNonce env.head a with
      | error e => rw [hn] at h; cases h
      | ok r =>
        obtain ⟨s₁, nonce⟩ := r
        rw [hn] at h
        simp only at h
        cases hadd : s₁.addTx tx isLocal env.now a (s₁.classify tx a nonce) with
        | mk s₂ e₂ =>
          rw [hadd] at h
          cases e₂ with
          | some e => cases h
          | none =>
            simp only at h
            cases hprom : promoteAfterAdd env.head a s₂ (s₁.classify tx a nonce) with
            | mk s₃ e₃ =>
              rw [hprom] at h
              cases e₃ with
              | some e => cases h
              | none =>
                simp only [map_eq_some_iff] at h
                obtain ⟨s₄, henf, heq⟩ := h
                cases heq
                exact ⟨a, s₁, nonce, s₂, s₃, rfl, hv, hn, hadd, hprom, henf⟩

/-- The condition that every step meets but an insertion. -/
def Condition.noInsert : Condition where
  insert _ _ _ _ _ := false
  demote _ _ _ := true
  remove _ _ := true
  expire _ _ _ _ := true

theorem Condition.noInsert_onLimit {pool : PoolType} {limit : Int} :
    ∀ (fuel : Nat) (s : TxPool), Condition.noInsert.onLimit pool limit fuel s = true := by
  intro fuel
  induction fuel with
  | zero => intro s; rfl
  | succ fuel ih =>
    intro s
    unfold Condition.onLimit
    split
    · split
      · rfl
      · exact (and_eq_true _ _).mpr ⟨rfl, ih _⟩
    · rfl

theorem Condition.noInsert_onLimits (s : TxPool) : Condition.noInsert.onLimits s = true := by
  refine (and_eq_true _ _).mpr ⟨noInsert_onLimit _ s, ?_⟩
  split
  · rfl
  · exact noInsert_onLimit _ _

/-- The transactions that a call offers to the pool. -/
def Call.transactions : Call → List TypedTransaction
  | .add tx _ => [tx]
  | .handleReorg oldBlocks _ => oldBlocks.flatten
  | _ => []

/-- Each step that meets `K` keeps `Inv`, as long as every head read satisfies
`onHead`, every transaction offered `onTx` and every time read `onNow`. -/
structure Maintains (K : Condition) (onHead : Head → Prop) (onTx : TypedTransaction → Prop)
    (onNow : Int → Prop) (Inv : TxPool → Prop) : Prop where
  running : ∀ {s} running, Inv s → Inv { s with running := running }
  handleError : ∀ {s tx a now} e, onTx tx → tx.sender = some a → onNow now → Inv s →
    Inv (s.handleError tx a now e)
  setNonce : ∀ {s head a account}, onHead head → head.getAccount a = some account → Inv s →
    Inv (s.setNonce a account.nonce)
  clearNonceCache : ∀ {s} a, Inv s → Inv (s.clearNonceCache a)
  addTx : ∀ {s head tx isLocal a nonce added}, onHead head → onTx tx → onNow added →
    tx.sender = some a → s.validate head tx isLocal a = .ok () →
    s.accountNonces.get a = some nonce →
    K.insert s tx isLocal a (s.classify tx a nonce) = true → Inv s →
    Inv (s.addTx tx isLocal added a (s.classify tx a nonce)).1
  promoteAddr : ∀ {s a i nonce}, (s.pools .queued).get a = some i →
    s.accountNonces.get a = some nonce → Inv s → Inv (s.promoteAddr a i nonce)
  demoteAddr : ∀ {s head a i account}, onHead head → (s.pools .pending).get a = some i →
    head.getAccount a = some account → K.demote s a account = true → Inv s → Inv (s.demoteAddr a i account)
  removeByHash : ∀ {s hash}, K.remove s hash = true → Inv s → Inv (s.removeByHash hash)
  cleanup : ∀ {s now}, onNow now → K.onCleanup now s = true → Inv s → Inv (s.cleanup now)

/-- The same for an invariant that does not read `handled`, `locals` or `running`. -/
structure Preserves (K : Condition) (onHead : Head → Prop) (onTx : TypedTransaction → Prop)
    (Inv : TxPool → Prop) : Prop where
  aux : ∀ {s} handled locals running, Inv s →
    Inv { s with handled := handled, locals := locals, running := running }
  setNonce : ∀ {s head a account}, onHead head → head.getAccount a = some account → Inv s →
    Inv (s.setNonce a account.nonce)
  clearNonceCache : ∀ {s} a, Inv s → Inv (s.clearNonceCache a)
  addTx : ∀ {s head tx isLocal a nonce} added, onHead head → onTx tx → tx.sender = some a →
    s.validate head tx isLocal a = .ok () → s.accountNonces.get a = some nonce →
    K.insert s tx isLocal a (s.classify tx a nonce) = true → Inv s →
    Inv (s.addTx tx isLocal added a (s.classify tx a nonce)).1
  promoteAddr : ∀ {s a i nonce}, (s.pools .queued).get a = some i →
    s.accountNonces.get a = some nonce → Inv s → Inv (s.promoteAddr a i nonce)
  demoteAddr : ∀ {s head a i account}, onHead head → (s.pools .pending).get a = some i →
    head.getAccount a = some account → K.demote s a account = true → Inv s → Inv (s.demoteAddr a i account)
  removeByHash : ∀ {s hash}, K.remove s hash = true → Inv s → Inv (s.removeByHash hash)
  cleanupAddr : ∀ {s compDate pool a}, K.expire compDate pool s a = true → Inv s →
    Inv (cleanupAddr compDate pool s a)

namespace Maintains

variable {K : Condition} {onHead : Head → Prop} {onTx : TypedTransaction → Prop} {onNow : Int → Prop}
  {Inv : TxPool → Prop} (hp : Maintains K onHead onTx onNow Inv)

include hp

variable {s : TxPool} {head : Head}

/-- The nonce cache afterwards has the nonce that is used. -/
theorem accountNonce {s' : TxPool} {a : UnprefixedAddress} {nonce : Nat} (hh : onHead head)
    (h : s.accountNonce head a = .ok (s', nonce)) (hi : Inv s) :
    Inv s' ∧ s'.accountNonces.get a = some nonce ∧ s'.pools = s.pools ∧
      ∀ tx isLocal, s'.validate head tx isLocal a = s.validate head tx isLocal a := by
  unfold TxPool.accountNonce at h
  cases hc : s.accountNonces.get a with
  | some n =>
    rw [hc] at h
    cases h
    exact ⟨hi, hc, rfl, fun _ _ => rfl⟩
  | none =>
    rw [hc] at h
    cases hacc : head.getAccount a with
    | none => rw [hacc] at h; cases h
    | some account =>
      rw [hacc] at h
      cases h
      refine ⟨hp.setNonce hh hacc hi, ?_, rfl, fun _ _ => rfl⟩
      simp [TxPool.setNonce]

theorem promoteExecutables (hh : onHead head) :
    ∀ (addresses : List UnprefixedAddress) (s : TxPool), Inv s →
      Inv (TxPool.promoteExecutables head addresses s).1 := by
  intro addresses
  induction addresses with
  | nil => intro s hi; exact hi
  | cons a addresses ih =>
    intro s hi
    unfold TxPool.promoteExecutables
    cases hq : (s.pools .queued).get a with
    | none => exact ih s hi
    | some i =>
      simp only
      split
      · exact ih s hi
      · cases hn : s.accountNonce head a with
        | error e => exact hi
        | ok r =>
          obtain ⟨s', nonce⟩ := r
          obtain ⟨hi', hc, hpools, _⟩ := hp.accountNonce hh hn hi
          exact ih _ (hp.promoteAddr (by rw [hpools]; exact hq) hc hi')

theorem enforceLimit {pool : PoolType} {limit : Int} :
    ∀ (fuel : Nat) (s : TxPool), K.onLimit pool limit fuel s = true → Inv s →
      ∀ s', TxPool.enforceLimit pool limit fuel s = some s' → Inv s' := by
  intro fuel
  induction fuel with
  | zero =>
    intro s _ hi s' h
    unfold TxPool.enforceLimit at h
    split at h
    · cases hl : s.lowestPriced pool with
      | none => rw [hl] at h; cases h; exact hi
      | some o => rw [hl] at h; cases h
    · cases h; exact hi
  | succ fuel ih =>
    intro s hK hi s' h
    unfold TxPool.enforceLimit at h
    unfold Condition.onLimit at hK
    split at h
    · rename_i hgt
      rw [if_pos hgt] at hK
      cases hl : s.lowestPriced pool with
      | none => rw [hl] at h; cases h; exact hi
      | some o =>
        rw [hl] at h hK
        obtain ⟨hrem, hrest⟩ := (and_eq_true _ _).mp hK
        exact ih _ hrest (hp.removeByHash hrem hi) s' h
    · cases h; exact hi

theorem enforcePoolLimits {s' : TxPool} (hK : K.onLimits s = true) (hi : Inv s)
    (h : s.enforcePoolLimits = some s') : Inv s' := by
  unfold TxPool.enforcePoolLimits at h
  obtain ⟨hpending, hqueued⟩ := (and_eq_true _ _).mp hK
  cases hpend : TxPool.enforceLimit .pending GLOBAL_SLOTS s.size s with
  | none => rw [hpend] at h; cases h
  | some s₁ =>
    rw [hpend] at h hqueued
    have hi₁ := hp.enforceLimit _ _ hpending hi s₁ hpend
    exact hp.enforceLimit _ _ hqueued hi₁ s' h

theorem promoteAfterAdd (hh : onHead head) (a : UnprefixedAddress) (pool : PoolType) (hi : Inv s) :
    Inv (TxPool.promoteAfterAdd head a s pool).1 := by
  cases pool with
  | pending => exact hp.promoteExecutables hh [a] s hi
  | queued => exact hi

variable {env : Env}

theorem addFrom {tx : TypedTransaction} {isLocal : Bool} {a : UnprefixedAddress}
    (hh : onHead env.head) (ht : onTx tx) (hnow : onNow env.now) (hsender : tx.sender = some a)
    (hK : K.onAddFrom env s tx isLocal a = true) (hi : Inv s) {r : TxPool × Option TxPoolError}
    (h : s.addFrom env tx isLocal a = some r) : Inv r.1 := by
  unfold TxPool.addFrom at h
  unfold Condition.onAddFrom at hK
  cases hv : s.validate env.head tx isLocal a with
  | error e => rw [hv] at h; cases h; exact hp.handleError _ ht hsender hnow hi
  | ok u =>
    rw [hv] at h hK
    cases hn : s.accountNonce env.head a with
    | error e => rw [hn] at h; cases h; exact hp.handleError _ ht hsender hnow hi
    | ok sn =>
      obtain ⟨s₁, nonce⟩ := sn
      rw [hn] at h hK
      simp only at h hK
      obtain ⟨hi₁, hc, _, hval⟩ := hp.accountNonce hh hn hi
      obtain ⟨hins, hlim⟩ := (and_eq_true _ _).mp hK
      have hi₂ := hp.addTx hh ht hnow hsender ((hval tx isLocal).trans hv) hc hins hi₁
      cases hadd : s₁.addTx tx isLocal env.now a (s₁.classify tx a nonce) with
      | mk s₂ e₂ =>
        rw [hadd] at h hi₂ hlim
        cases e₂ with
        | some e => cases h; exact hp.handleError _ ht hsender hnow hi₂
        | none =>
          have hi₃ := hp.promoteAfterAdd hh a (s₁.classify tx a nonce) hi₂
          simp only at h hi₃ hlim
          cases hprom : TxPool.promoteAfterAdd env.head a s₂ (s₁.classify tx a nonce) with
          | mk s₃ e₃ =>
            rw [hprom] at h hi₃ hlim
            cases e₃ with
            | some e => cases h; exact hp.handleError _ ht hsender hnow hi₃
            | none =>
              cases henf : s₃.enforcePoolLimits with
              | none => simp only [henf, map_none] at h; cases h
              | some s₄ =>
                simp only [henf, map_some] at h
                cases h
                exact hp.enforcePoolLimits hlim hi₃ henf

theorem add {env : Env} {s : TxPool} {tx : TypedTransaction} {isLocal : Bool} (hh : onHead env.head)
    (ht : onTx tx) (hnow : onNow env.now) (hK : K.onAdd env s tx isLocal = true) (hi : Inv s)
    {r : TxPool × Option TxPoolError} (h : s.add env tx isLocal = some r) : Inv r.1 := by
  unfold TxPool.add at h
  unfold Condition.onAdd at hK
  split at h
  case isFalse => cases h; exact hi
  cases hsender : tx.sender with
  | none => rw [hsender] at h; cases h; exact hi
  | some a =>
    rw [hsender] at h hK
    exact hp.addFrom hh ht hnow hsender hK hi h

theorem removals : ∀ (hashes : List UnprefixedHash) (s : TxPool), K.onRemovals hashes s = true →
    Inv s → Inv (hashes.foldl TxPool.removeByHash s) := by
  intro hashes
  induction hashes with
  | nil => intro s _ hi; exact hi
  | cons hash hashes ih =>
    intro s hK hi
    obtain ⟨hrem, hrest⟩ := (and_eq_true _ _).mp hK
    exact ih _ hrest (hp.removeByHash hrem hi)

theorem removeNewBlockTxs {newBlocks : List BlockTxs} (hK : K.onNewBlockTxs newBlocks s = true)
    (hi : Inv s) : Inv (s.removeNewBlockTxs newBlocks) := by
  unfold TxPool.removeNewBlockTxs
  unfold Condition.onNewBlockTxs at hK
  split
  · rename_i hrun
    rw [if_pos hrun] at hK
    have h := hp.removals _ s hK hi
    rw [foldl_map] at h
    exact h
  · exact hi

theorem demoteAddrs (hh : onHead head) {accounts : UnprefixedAddress → Option Account}
    (hst : head.state = some accounts) :
    ∀ (addresses : List UnprefixedAddress) (s : TxPool), K.onDemotions accounts addresses s = true →
      Inv s → Inv (TxPool.demoteAddrs accounts addresses s) := by
  intro addresses
  induction addresses with
  | nil => intro s _ hi; exact hi
  | cons a addresses ih =>
    intro s hK hi
    unfold TxPool.demoteAddrs
    unfold Condition.onDemotions at hK
    cases hq : (s.pools .pending).get a with
    | none => rw [hq] at hK; exact ih s hK hi
    | some i =>
      rw [hq] at hK
      obtain ⟨hdem, hrest⟩ := (and_eq_true _ _).mp hK
      have hacc : head.getAccount a = some ((accounts a).getD Account.new) := by
        simp [Head.getAccount, hst]
      exact ih _ hrest (hp.demoteAddr hh hq hacc hdem hi)

theorem demoteUnexecutables (hh : onHead head) (hK : K.onDemote head s = true) (hi : Inv s) :
    Inv (s.demoteUnexecutables head) := by
  unfold TxPool.demoteUnexecutables
  unfold Condition.onDemote at hK
  cases hst : head.state with
  | none => exact hi
  | some accounts =>
    rw [hst] at hK
    exact hp.demoteAddrs hh hst _ _ hK hi

theorem reinject (hh : onHead env.head) (hnow : onNow env.now) {newBlocks : List BlockTxs} :
    ∀ (txs : List TypedTransaction) (s : TxPool), (∀ tx ∈ txs, onTx tx) →
      K.onReinject env newBlocks txs s = true → Inv s →
      ∀ s', TxPool.reinject env newBlocks txs s = some s' → Inv s' := by
  intro txs
  induction txs with
  | nil => intro s _ _ hi s' h; cases h; exact hi
  | cons tx txs ih =>
    intro s ht hK hi s' h
    have ht' : ∀ t ∈ txs, onTx t := fun t hmem => ht t (mem_cons_of_mem _ hmem)
    unfold TxPool.reinject at h
    unfold Condition.onReinject at hK
    split at h
    · rename_i hskip
      rw [if_pos hskip] at hK
      exact ih s ht' hK hi s' h
    · rename_i hskip
      rw [if_neg hskip] at hK
      obtain ⟨hone, hrest⟩ := (and_eq_true _ _).mp hK
      cases hadd : s.add env tx true with
      | none => rw [hadd] at h; cases h
      | some r =>
        rw [hadd] at h hrest
        have hi' := hp.add hh (ht tx mem_cons_self) hnow hone hi hadd
        exact ih r.1 ht' hrest hi' s' h

/-- One call keeps the invariant. -/
theorem call {c : Call} (hh : onHead env.head) (ht : ∀ tx ∈ c.transactions, onTx tx)
    (hnow : onNow env.now) (hK : K.onCall env s c = true) (hi : Inv s)
    {r : TxPool × Option TxPoolError} (h : s.call env c = some r) : Inv r.1 := by
  cases c with
  | add tx isLocal => exact hp.add hh (ht tx (by simp [Call.transactions])) hnow hK hi h
  | promoteExecutables a => cases h; exact hp.promoteExecutables hh _ s hi
  | demoteUnexecutables => cases h; exact hp.demoteUnexecutables hh hK hi
  | removeByHash hash => cases h; exact hp.removeByHash hK hi
  | removeNewBlockTxs newBlocks => cases h; exact hp.removeNewBlockTxs hK hi
  | handleReorg oldBlocks newBlocks =>
    simp only [TxPool.call, TxPool.handleReorg] at h
    obtain ⟨hinj, hrest⟩ := (and_eq_true _ _).mp hK
    cases hre : TxPool.reinject env newBlocks oldBlocks.flatten s with
    | none => rw [hre] at h; cases h
    | some s₁ =>
      rw [hre] at h hrest
      cases h
      obtain ⟨hnew, hdem⟩ := (and_eq_true _ _).mp hrest
      have hi₁ := hp.reinject hh hnow _ s ht hinj hi s₁ hre
      have hi₂ := hp.removeNewBlockTxs hnew (hp.clearNonceCache none hi₁)
      exact hp.promoteExecutables hh _ _ (hp.demoteUnexecutables hh hdem hi₂)
  | cleanup => cases h; exact hp.cleanup hnow hK hi
  | clearNonceCache a => cases h; exact hp.clearNonceCache a hi
  | start => cases h; exact hp.running true hi
  | stop => cases h; exact hp.running false hi

/-- A run keeps the invariant. -/
theorem run : ∀ (calls : List (Env × Call)) (s : TxPool), (∀ c ∈ calls, onHead c.1.head) →
    (∀ c ∈ calls, ∀ tx ∈ c.2.transactions, onTx tx) → (∀ c ∈ calls, onNow c.1.now) →
    K.onRun calls s = true → Inv s → ∀ s', TxPool.run calls s = some s' → Inv s' := by
  intro calls
  induction calls with
  | nil => intro s _ _ _ _ hi s' h; cases h; exact hi
  | cons ec calls ih =>
    obtain ⟨env, c⟩ := ec
    intro s hh ht hnow hK hi s' h
    unfold TxPool.run at h
    obtain ⟨hone, hrest⟩ := (and_eq_true _ _).mp hK
    cases hc : s.call env c with
    | none => rw [hc] at h; cases h
    | some r =>
      rw [hc] at h hrest
      have hi' := hp.call (hh _ mem_cons_self) (ht _ mem_cons_self) (hnow _ mem_cons_self) hone hi hc
      exact ih r.1 (fun c hmem => hh c (mem_cons_of_mem _ hmem))
        (fun c hmem => ht c (mem_cons_of_mem _ hmem))
        (fun c hmem => hnow c (mem_cons_of_mem _ hmem)) hrest hi' s' h

end Maintains

namespace Preserves

variable {K : Condition} {onHead : Head → Prop} {onTx : TypedTransaction → Prop} {Inv : TxPool → Prop}
  (hp : Preserves K onHead onTx Inv)

include hp

theorem cleanups {compDate : Int} {pool : PoolType} :
    ∀ (addresses : List UnprefixedAddress) (s : TxPool), K.onCleanups compDate pool addresses s = true →
      Inv s → Inv (addresses.foldl (TxPool.cleanupAddr compDate pool) s) := by
  intro addresses
  induction addresses with
  | nil => intro s _ hi; exact hi
  | cons a addresses ih =>
    intro s hK hi
    obtain ⟨hexp, hrest⟩ := (and_eq_true _ _).mp hK
    exact ih _ hrest (hp.cleanupAddr hexp hi)

theorem cleanupHandled (compDate : Int) {s : TxPool} (hi : Inv s) :
    Inv (TxPool.cleanupHandled compDate s) := by
  have hloop : ∀ (hashes : List UnprefixedHash) (s : TxPool), Inv s →
      Inv (hashes.foldl (forgetHandled compDate) s) := by
    intro hashes
    induction hashes with
    | nil => intro s hi; exact hi
    | cons hash hashes ih =>
      intro s hi
      rw [foldl_cons]
      apply ih
      unfold forgetHandled
      split
      · exact hi
      · split
        · exact hp.aux _ s.locals s.running hi
        · exact hi
  exact hloop _ s hi

theorem maintains : Maintains K onHead onTx (fun _ => True) Inv where
  running {s} running hi := hp.aux s.handled s.locals running hi
  handleError {s _ _ _} _ _ _ _ hi := hp.aux _ s.locals s.running hi
  setNonce := hp.setNonce
  clearNonceCache := hp.clearNonceCache
  addTx hh ht _ := hp.addTx _ hh ht
  promoteAddr := hp.promoteAddr
  demoteAddr := hp.demoteAddr
  removeByHash := hp.removeByHash
  cleanup {s _} _ hK hi := by
    obtain ⟨hpending, hqueued⟩ := (and_eq_true _ _).mp hK
    have hi₁ := hp.cleanups _ s hpending hi
    exact hp.cleanupHandled _ (hp.cleanups _ _ hqueued hi₁)

/-- A run keeps the invariant. -/
theorem run (calls : List (Env × Call)) (s : TxPool) (hh : ∀ c ∈ calls, onHead c.1.head)
    (ht : ∀ c ∈ calls, ∀ tx ∈ c.2.transactions, onTx tx) (hK : K.onRun calls s = true) (hi : Inv s) :
    ∀ s', TxPool.run calls s = some s' → Inv s' :=
  hp.maintains.run calls s hh ht (fun _ _ => trivial) hK hi

end Preserves

/-! ## Sample inputs -/

/-- An affordable transaction of the sender 1. -/
def sampleTx (hash : UnprefixedHash) (nonce gasPrice : Nat) : TypedTransaction where
  type := .legacy
  signed := true
  hash := hash
  sender := some 1
  nonce := nonce
  gasPrice := gasPrice
  gasLimit := 1
  value := 0
  dataLength := 0

/-- A head under which every account has the given nonce. -/
def sampleEnv (nonce : Nat) : Env where
  head := { gasLimit := 30, state := some (fun _ => some { nonce := nonce, balance := 1000 }) }
  now := 0

end TxPool
