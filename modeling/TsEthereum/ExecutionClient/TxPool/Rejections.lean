-- SUMMARY: What a rejected transaction leaves behind in the pool, and what `getByHash` answers afterwards.
import TsEthereum.ExecutionClient.TxPool.Runs
import TsEthereum.ExecutionClient.TxPool.Effects

/-!
# Rejected transactions

`add` writes to the pool before its last check can throw, and its `catch` writes
the error into `handled`, where `getByHash` looks first. A rejection leaves the
pool alone exactly where neither of the two writes meets a pooled transaction.
-/

namespace TxPool

/-! ## getByHash -/

/-- One round of `getByHash`. -/
def findByHash (s : TxPool) (hash : UnprefixedHash) : Option TypedTransaction :=
  match s.handled.get hash with
  | none => none
  | some handled =>
    if handled.error.isSome then none
    else
      match s.hashIndex.get hash with
      | none => none
      | some entry =>
        ((s.list entry.poolType entry.address).find? (fun poolObj => poolObj.hash = hash)).map
          TxPoolObject.tx

def getByHash (s : TxPool) (txHashes : List UnprefixedHash) : List TypedTransaction :=
  txHashes.filterMap s.findByHash

theorem getByHash_singleton (s : TxPool) (hash : UnprefixedHash) :
    s.getByHash [hash] = (s.findByHash hash).toList := by
  cases h : s.findByHash hash with
  | none => simp [getByHash, h]
  | some tx => simp [getByHash, h]

theorem getByHash_singleton_inj {s s' : TxPool} {hash : UnprefixedHash} :
    s'.getByHash [hash] = s.getByHash [hash] ↔ s'.findByHash hash = s.findByHash hash := by
  simp only [getByHash_singleton]
  constructor
  · intro h
    cases hs : s.findByHash hash <;> cases hs' : s'.findByHash hash <;> simp_all
  · intro h
    exact congrArg Option.toList h

theorem findByHash_of_handled {s : TxPool} {hash : UnprefixedHash} {handled : HandledObject}
    (h : s.handled.get hash = some handled) (herr : handled.error.isSome = true) :
    s.findByHash hash = none := by
  simp only [findByHash, h, herr, if_true]

/-! ## The states that count as unchanged -/

/-- The pool holds what it held and answers as it did. -/
structure Unchanged (s s' : TxPool) : Prop where
  /-- `pending` and `queued`: the senders and their arrays -/
  pools : s'.pools = s.pools
  arrays : s'.arrays = s.arrays
  counts : s'.counts = s.counts
  priced : s'.priced = s.priced
  hashIndex : s'.hashIndex = s.hashIndex
  locals : s'.locals = s.locals
  getByHash : ∀ hash, s'.getByHash [hash] = s.getByHash [hash]

namespace Unchanged

theorem refl (s : TxPool) : Unchanged s s where
  pools := rfl
  arrays := rfl
  counts := rfl
  priced := rfl
  hashIndex := rfl
  locals := rfl
  getByHash _ := rfl

end Unchanged

/-! ## The error path of add -/

section Rejection

variable (s : TxPool) (tx : TypedTransaction) (a : UnprefixedAddress) (added : Int) (e : TxPoolError)

/-- After the `catch` of `add` the hash is not found any more. -/
theorem findByHash_handleError_self : (s.handleError tx a added e).findByHash tx.hash = none := by
  apply findByHash_of_handled
  · exact (OrderedMap.get_set _ _ _ _).trans (if_pos rfl)
  · rfl

theorem findByHash_handleError_of_ne {hash : UnprefixedHash} (h : hash ≠ tx.hash) :
    (s.handleError tx a added e).findByHash hash = s.findByHash hash := by
  have hget : (s.handleError tx a added e).handled.get hash = s.handled.get hash :=
    (OrderedMap.get_set _ _ _ _).trans (if_neg h)
  simp only [findByHash, hget]
  rfl

/-- The `catch` of `add` alone changes the pool where the rejected transaction was
found before. -/
theorem unchanged_handleError_iff :
    Unchanged s (s.handleError tx a added e) ↔ s.getByHash [tx.hash] = [] := by
  have hself := findByHash_handleError_self s tx a added e
  constructor
  · intro h
    rw [← h.getByHash tx.hash, getByHash_singleton, hself]
    rfl
  · intro h
    refine ⟨rfl, rfl, rfl, rfl, rfl, rfl, fun hash => ?_⟩
    by_cases heq : hash = tx.hash
    · subst heq
      rw [h, getByHash_singleton, hself]
      rfl
    · exact getByHash_singleton_inj.mpr (findByHash_handleError_of_ne s tx a added e heq)

end Rejection

/-- `classifyTransaction`, which reads the account nonce. -/
def classifyTransaction (s : TxPool) (head : Head) (tx : TypedTransaction) (a : UnprefixedAddress) :
    Except TxPoolError PoolType :=
  (s.accountNonce head a).map (fun r => r.1.classify tx a r.2)

/-- The nonce cache is not among the things that `Unchanged` looks at. -/
theorem accountNonce_frame {s s₁ : TxPool} {head : Head} {a : UnprefixedAddress} {nonce : Nat}
    (h : s.accountNonce head a = .ok (s₁, nonce)) :
    ∃ nonces, s₁ = { s with accountNonces := nonces } := by
  unfold accountNonce at h
  split at h
  · cases h
    exact ⟨_, rfl⟩
  · split at h
    · cases h
    · cases h
      exact ⟨_, rfl⟩

theorem accountNonce_cached {s s₁ : TxPool} {head : Head} {a : UnprefixedAddress} {nonce : Nat}
    (h : s.accountNonce head a = .ok (s₁, nonce)) : s₁.accountNonces.get a = some nonce := by
  unfold accountNonce at h
  split at h
  · rename_i n hn
    cases h
    exact hn
  · split at h
    · cases h
    · cases h
      exact (OrderedMap.get_set _ _ _ _).trans (if_pos rfl)

/-- With the nonce in the cache the promotion of one sender does not throw. -/
theorem promoteAfterAdd_resolves {s : TxPool} (head : Head) {a : UnprefixedAddress} {nonce : Nat}
    (h : s.accountNonces.get a = some nonce) (pool : PoolType) :
    (promoteAfterAdd head a s pool).2 = none := by
  have hnonce : s.accountNonce head a = .ok (s, nonce) := by
    simp only [accountNonce, h]
  cases pool with
  | queued => rfl
  | pending =>
    simp only [promoteAfterAdd, promoteExecutables]
    split
    · rfl
    · split
      · rfl
      · rw [hnonce]

/-- A validated transaction has an account nonce: the head that `validate` read has
a state. -/
theorem accountNonce_of_validate {s : TxPool} {head : Head} {tx : TypedTransaction} {isLocal : Bool}
    {a : UnprefixedAddress} (h : s.validate head tx isLocal a = .ok ()) :
    ∃ s₁ nonce, s.accountNonce head a = .ok (s₁, nonce) := by
  unfold accountNonce
  split
  · exact ⟨_, _, rfl⟩
  · split
    · rename_i haccount
      -- the last part of `validate` reads the same account and would have thrown
      simp only [validate, validateAtHead, haccount] at h
      cases hpool : s.validateInPool tx isLocal a with
      | error e => rw [hpool] at h; cases h
      | ok u =>
        rw [hpool] at h
        cases hgas : throwIf (tx.gasLimit > head.gasLimit)
            (.gasLimitTooHigh tx.gasLimit head.gasLimit) with
        | error e => simp only [hgas] at h; cases h
        | ok u => simp only [hgas] at h; cases h
    · exact ⟨_, _, rfl⟩

/-- Forgetting a replaced object lowers a count, forgetting nothing does nothing. -/
theorem unchanged_forgetReplaced_handleError_iff (s : TxPool) (pool : PoolType)
    (old : Option TxPoolObject) (tx : TypedTransaction) (a : UnprefixedAddress) (added : Int)
    (e : TxPoolError) : Unchanged s ((s.forgetReplaced pool old).handleError tx a added e) ↔
      old = none ∧ s.getByHash [tx.hash] = [] := by
  cases old with
  | none =>
    constructor
    · intro h
      exact ⟨rfl, (unchanged_handleError_iff s tx a added e).mp h⟩
    · intro h
      exact (unchanged_handleError_iff s tx a added e).mpr h.2
  | some oldTxObj =>
    constructor
    · intro h
      have hcount : s.counts pool - 1 = s.counts pool := by
        have hcounts := congrFun (counts_forgetReplaced s pool (some oldTxObj)) pool
        rw [Function.update_self] at hcounts
        exact hcounts.symm.trans (congrFun h.counts pool)
      exact absurd hcount (by omega)
    · intro h
      exact absurd h.1 (nomatch ·)

/-- A rejection touches nothing: the transaction is not found under its hash, and
if only the account limit can still stop it, there is no object of its nonce in
the pool it goes to. A transaction without a hash or a sender is never looked at. -/
def RejectedCleanly (s : TxPool) (head : Head) (tx : TypedTransaction) (isLocal : Bool) : Prop :=
  ∀ a, tx.signed = true → tx.sender = some a → s.getByHash [tx.hash] = [] ∧
    (s.validate head tx isLocal a = .ok () →
      ∀ pool, s.classifyTransaction head tx a = .ok pool → s.replaced tx a pool = none)

/-- Where `add` throws: in `validate`, or at the account limit, with the replaced
object forgotten by then. -/
theorem addFrom_throws {env : Env} {s s' : TxPool} {tx : TypedTransaction} {isLocal : Bool}
    {a : UnprefixedAddress} {e : TxPoolError} (h : s.addFrom env tx isLocal a = some (s', some e)) :
    (s.validate env.head tx isLocal a = .error e ∧ s' = s.handleError tx a env.now e) ∨
    (s.validate env.head tx isLocal a = .ok () ∧ ∃ s₁ nonce, s.accountNonce env.head a = .ok (s₁, nonce) ∧
      s' = (s₁.forgetReplaced (s₁.classify tx a nonce) (s₁.replaced tx a (s₁.classify tx a nonce))).handleError
        tx a env.now e) := by
  unfold addFrom at h
  cases hv : s.validate env.head tx isLocal a with
  | error e' =>
    rw [hv] at h
    cases h
    exact .inl ⟨rfl, rfl⟩
  | ok u =>
    obtain ⟨s₁, nonce, hn⟩ := accountNonce_of_validate hv
    simp only [hv, hn] at h
    refine .inr ⟨rfl, s₁, nonce, hn, ?_⟩
    cases hx : s₁.exceedsLimit tx isLocal a (s₁.classify tx a nonce) with
    | true =>
      rw [addTx_of_exceeds _ _ _ _ _ _ hx] at h
      cases h
      rfl
    | false =>
      -- past the limit check nothing throws: the nonce that the promotion needs is cached
      have hcache := (accountNonces_addTx s₁ tx isLocal env.now a (s₁.classify tx a nonce))
      have hcached := (congrArg (fun m => m.get a) hcache).trans (accountNonce_cached hn)
      have hprom := promoteAfterAdd_resolves env.head hcached (s₁.classify tx a nonce)
      rw [addTx_of_fits _ _ _ _ _ _ hx] at h hprom
      simp only at h hprom
      split at h
      · rename_i heq
        rw [heq] at hprom
        cases hprom
      · cases hlim : TxPool.enforcePoolLimits _ with
        | none => rw [hlim] at h; cases h
        | some s₂ => rw [hlim] at h; cases h

/-- A rejected transaction leaves the pool as it was exactly where the rejection is
clean. -/
theorem add_throws_iff {env : Env} {s s' : TxPool} {tx : TypedTransaction} {isLocal : Bool}
    {e : TxPoolError} (h : s.add env tx isLocal = some (s', some e)) :
    Unchanged s s' ↔ RejectedCleanly s env.head tx isLocal := by
  unfold add at h
  split at h
  case isFalse hsigned =>
    cases h
    exact iff_of_true (Unchanged.refl s) (fun a hs => absurd hs hsigned)
  case isTrue hsigned =>
    cases hsender : tx.sender with
    | none =>
      rw [hsender] at h
      cases h
      exact iff_of_true (Unchanged.refl s) (fun a _ ha => by rw [hsender] at ha; cases ha)
    | some a =>
      rw [hsender] at h
      have honly : RejectedCleanly s env.head tx isLocal ↔ s.getByHash [tx.hash] = [] ∧
          (s.validate env.head tx isLocal a = .ok () → ∀ pool,
            s.classifyTransaction env.head tx a = .ok pool → s.replaced tx a pool = none) := by
        constructor
        · intro hclean
          exact hclean a hsigned hsender
        · intro hclean b _ hb
          rw [hsender] at hb
          cases hb
          exact hclean
      rw [honly]
      rcases addFrom_throws h with ⟨hv, hs'⟩ | ⟨hv, s₁, nonce, hn, hs'⟩
      · rw [hs', unchanged_handleError_iff]
        exact ⟨fun hfind => ⟨hfind, fun hok => nomatch hv.symm.trans hok⟩, And.left⟩
      · obtain ⟨nonces, rfl⟩ := accountNonce_frame hn
        have hclass : s.classifyTransaction env.head tx a = .ok (s.classify tx a nonce) := by
          simp only [classifyTransaction, hn]
          rfl
        -- the cached nonce is not among the compared fields, so `s₁` can stand for `s`
        have hiff := unchanged_forgetReplaced_handleError_iff { s with accountNonces := nonces }
          (s.classify tx a nonce) (s.replaced tx a (s.classify tx a nonce)) tx a env.now e
        have hframe : Unchanged s s' ↔ Unchanged { s with accountNonces := nonces } s' := by
          constructor
          · intro hu
            exact ⟨hu.pools, hu.arrays, hu.counts, hu.priced, hu.hashIndex, hu.locals, hu.getByHash⟩
          · intro hu
            exact ⟨hu.pools, hu.arrays, hu.counts, hu.priced, hu.hashIndex, hu.locals, hu.getByHash⟩
        rw [hframe, hs']
        refine hiff.trans ?_
        constructor
        · intro hboth
          refine ⟨hboth.2, fun _ pool hpool => ?_⟩
          have hsame := hclass.symm.trans hpool
          cases hsame
          exact hboth.1
        · intro hboth
          exact ⟨hboth.2 hv _ hclass, hboth.1⟩

/-! The same transaction offered twice, and a replacement in an account that local
transactions brought over its limit. -/

def offeredTwice : List (Env × Call) := [(sampleEnv 0, .add (sampleTx 7 0 1) false)]

def overLimit : List (Env × Call) :=
  (List.range 18).map (fun n => (sampleEnv 0, .add (sampleTx (100 + n) n 1) true))

/-- What the pool answers for the sample transaction and how many objects it counts,
before and after an `add` that throws. -/
def aroundAdd (calls : List (Env × Call)) (tx : TypedTransaction) :
    Option ((List TypedTransaction × Int) × (List TypedTransaction × Int) × Option TxPoolError) :=
  (run calls new).bind fun s => (s.add (sampleEnv 0) tx false).map fun r =>
    ((s.getByHash [tx.hash], s.counts .pending), (r.1.getByHash [tx.hash], r.1.counts .pending), r.2)

/-- Both writes of the error path are seen: the pooled transaction is not found any
more, the replaced one is not counted any more. -/
theorem rejection_changes_pool : (∃ s s' e, run offeredTwice new = some s ∧
      s.add (sampleEnv 0) (sampleTx 7 0 1) false = some (s', some e) ∧
      s.getByHash [7] = [sampleTx 7 0 1] ∧ s'.getByHash [7] = [] ∧ ¬Unchanged s s') ∧
    ∃ s s' e, run overLimit new = some s ∧
      s.add (sampleEnv 0) (sampleTx 7 0 2) false = some (s', some e) ∧
      s.counts .pending = 18 ∧ s'.counts .pending = 17 ∧ ¬Unchanged s s' := by
  have htwice : aroundAdd offeredTwice (sampleTx 7 0 1) = some (([sampleTx 7 0 1], 1), ([], 1),
      some (.alreadyInPool 7)) := by decide +kernel
  have hover : aroundAdd overLimit (sampleTx 7 0 2) = some (([], 18), ([], 17),
      some (.accountLimit 1 .pending 16)) := by decide +kernel
  simp only [aroundAdd, Option.bind_eq_some_iff, Option.map_eq_some_iff, Prod.mk.injEq] at htwice hover
  constructor
  · obtain ⟨s, hs, ⟨s', e'⟩, hadd, ⟨hfound, _⟩, ⟨hlost, _⟩, rfl⟩ := htwice
    refine ⟨s, s', _, hs, hadd, hfound, hlost, fun hu => ?_⟩
    exact nomatch hfound.symm.trans ((hu.getByHash 7).symm.trans hlost)
  · obtain ⟨s, hs, ⟨s', e'⟩, hadd, ⟨_, hbefore⟩, ⟨_, hafter⟩, rfl⟩ := hover
    refine ⟨s, s', _, hs, hadd, hbefore, hafter, fun hu => ?_⟩
    have hcount := congrFun hu.counts .pending
    simp only at hafter
    omega

/-- The hypothesis of `add_throws_iff` holds of the second offer. -/
theorem add_throws_iff_sample : ∃ s s', run offeredTwice new = some s ∧
    (Unchanged s s' ↔ RejectedCleanly s (sampleEnv 0).head (sampleTx 7 0 1) false) := by
  exact ⟨_, _, rfl, @add_throws_iff (sampleEnv 0) _ _ _ _ (.alreadyInPool 7) rfl⟩

end TxPool
