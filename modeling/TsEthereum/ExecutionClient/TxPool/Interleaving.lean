-- SUMMARY: Concurrent calls of the pool, interleaved at their `await` points, and when no transaction is lost or doubled.
import TsEthereum.ExecutionClient.TxPool.Filed
import TsEthereum.ExecutionClient.TxPool.Runs

/-!
# Concurrent calls

A call runs synchronously from one `await` to the next, so a world of concurrent
calls is the pool and, for each call, the place where it waits with the values
it has read: the class of the transaction, or the array it took out of a map.
The world also records which transactions were inserted and which were dropped
since (replaced, evicted, mined, removed or stale), which says what the pool
should hold.
-/

open List Option Multiset Function Bool

namespace TxPool

/-! ## The pool and its record -/

structure Tracked where
  pool : TxPool
  /-- inserted by some `add` -/
  inserted : UnprefixedHash → Bool
  /-- dropped since its last insertion -/
  dropped : UnprefixedHash → Bool

/-- The arguments of an `add`, its time and the sender it computes. -/
structure AddCall where
  tx : TypedTransaction
  isLocal : Bool
  added : Int
  address : UnprefixedAddress

namespace Tracked

def new : Tracked where
  pool := TxPool.new
  inserted := fun _ => false
  dropped := fun _ => false

/-- Records that `objs` are dropped. -/
def drop (t : Tracked) (pool : TxPool) (objs : List TxPoolObject) : Tracked where
  pool := pool
  inserted := t.inserted
  dropped := fun h => objs.any (fun o => o.hash = h) || t.dropped h

def addTx (t : Tracked) (c : AddCall) (pool : PoolType) : Tracked × Option TxPoolError :=
  match t.pool.addTx c.tx c.isLocal c.added c.address pool with
  | (s, some e) => ({ t with pool := s }, some e)
  | (s, none) =>
    let replaced := t.pool.replaced c.tx c.address pool
    ({ pool := s
       inserted := fun h => h = c.tx.hash || t.inserted h
       dropped := fun h => h ≠ c.tx.hash && (replaced.any (fun o => o.hash = h) || t.dropped h) }, none)

def setNonce (t : Tracked) (a : UnprefixedAddress) (nonce : Nat) : Tracked :=
  { t with pool := t.pool.setNonce a nonce }

def promoteAddr (t : Tracked) (a : UnprefixedAddress) (i n : Nat) : Tracked :=
  t.drop (t.pool.promoteAddr a i n) (t.pool.promoteSplit a i n).stale

def demoteAddr (t : Tracked) (a : UnprefixedAddress) (i : Nat) (account : Account) : Tracked :=
  t.drop (t.pool.demoteAddr a i account) (t.pool.demoteSplit a i account).toRemove

def removeByHash (t : Tracked) (hash : UnprefixedHash) : Tracked where
  pool := t.pool.removeByHash hash
  inserted := t.inserted
  dropped := fun h => h = hash || t.dropped h

/-- `TxPool.enforceLimit`, with its evictions recorded. -/
def enforceLimit (pool : PoolType) (limit : Int) : Nat → Tracked → Option Tracked
  | fuel, t =>
    if t.pool.counts pool > limit then
      match t.pool.lowestPriced pool with
      | none => some t
      | some lowestTx =>
        match fuel with
        | 0 => none
        | fuel + 1 => enforceLimit pool limit fuel (t.removeByHash lowestTx.hash)
    else some t

def enforcePoolLimits (t : Tracked) : Option Tracked :=
  (enforceLimit .pending GLOBAL_SLOTS t.pool.size t).bind
    (fun t => enforceLimit .queued GLOBAL_QUEUE t.pool.size t)

def handleError (t : Tracked) (c : AddCall) (e : TxPoolError) : Tracked :=
  { t with pool := t.pool.handleError c.tx c.address c.added e }

end Tracked

/-! ## Calls in progress -/

/-- Where a call waits. -/
inductive Task where
  | idle
  /-- `add`, in `validate` -/
  | validating (c : AddCall)
  /-- `add`, before `classifyTransaction` -/
  | validated (c : AddCall)
  /-- `add`, in `classifyTransaction` -/
  | fetching (c : AddCall)
  /-- `add`, after `classifyTransaction` -/
  | classified (c : AddCall) (pool : PoolType)
  /-- `add`, in `promoteExecutables` with the queued array `i` -/
  | addPromoting (c : AddCall) (i : Nat)
  /-- `add`, before `enforcePoolLimits` -/
  | promoted (c : AddCall)
  | resolved (c : AddCall)
  | rejected (c : AddCall) (e : TxPoolError)
  /-- `promoteExecutables` at the sender `a` with its queued array `i` -/
  | promoting (a : UnprefixedAddress) (i : Nat) (addresses : List UnprefixedAddress)
  /-- `demoteUnexecutables`, before its loop -/
  | demoteStarting
  /-- `demoteUnexecutables` at the sender `a` with its pending array `i` -/
  | demoting (accounts : UnprefixedAddress → Option Account) (a : UnprefixedAddress) (i : Nat)
  /-- the end of a promotion, a demotion, or an `add` that throws outside its `try` -/
  | finished (error : Option TxPoolError)

/-- The transaction of a resolved `add`. -/
def Task.resolvedTx : Task → Option TypedTransaction
  | .resolved c => some c.tx
  | _ => none

/-- `promoteExecutables` up to its next `await`. -/
def promoteLoop : List UnprefixedAddress → Tracked → Tracked × Task
  | [], t => (t, .finished none)
  | a :: addresses, t =>
    match (t.pool.pools .queued).get a with
    | none => promoteLoop addresses t
    | some i =>
      if (t.pool.arrays .queued a i).isEmpty then promoteLoop addresses t
      else
        match t.pool.accountNonces.get a with
        | none => (t, .promoting a i addresses)
        | some nonce => promoteLoop addresses (t.promoteAddr a i nonce)

/-- The loop of `demoteUnexecutables` comes to its next sender, or ends. Its map
iterator is live: which sender comes next is left open. -/
def demoteNext (accounts : UnprefixedAddress → Option Account) (t : Tracked) :
    Option UnprefixedAddress → Option (Tracked × Task)
  | none => some (t, .finished none)
  | some a => ((t.pool.pools .pending).get a).map (fun i => (t, .demoting accounts a i))

def reject (t : Tracked) (c : AddCall) (e : TxPoolError) : Tracked × Task :=
  (t.handleError c e, .rejected c e)

/-- The end of `add`. -/
def resolve (t : Tracked) (c : AddCall) : Option (Tracked × Task) :=
  t.enforcePoolLimits.map (fun t => (t, .resolved c))

/-- The promotion of `add`, up to its first `await`. -/
def addPromote (t : Tracked) (c : AddCall) : Tracked × Task :=
  match (t.pool.pools .queued).get c.address with
  | none => (t, .promoted c)
  | some i =>
    if (t.pool.arrays .queued c.address i).isEmpty then (t, .promoted c)
    else
      match t.pool.accountNonces.get c.address with
      | none => (t, .addPromoting c i)
      | some nonce => (t.promoteAddr c.address i nonce, .promoted c)

/-- `add` from the return of `classifyTransaction` on. -/
def addInsert (t : Tracked) (c : AddCall) (pool : PoolType) : Option (Tracked × Task) :=
  match t.addTx c pool with
  | (t, some e) => some (reject t c e)
  | (t, none) =>
    match pool with
    | .pending => some (addPromote t c)
    | .queued => resolve t c

/-- A call goes on from where it waits to its next `await`; `head` is what it has
waited for. -/
def resume (head : Head) (next : Option UnprefixedAddress) (t : Tracked) :
    Task → Option (Tracked × Task)
  | .validating c =>
    match validateAtHead head c.tx c.address with
    | .error e => some (reject t c e)
    | .ok () => some (t, .validated c)
  | .validated c =>
    match t.pool.accountNonces.get c.address with
    | none => some (t, .fetching c)
    | some nonce => some (t, .classified c (t.pool.classify c.tx c.address nonce))
  | .fetching c =>
    match head.getAccount c.address with
    | none => some (reject t c .stateRoot)
    | some account => some (t.setNonce c.address account.nonce,
        .classified c (t.pool.classify c.tx c.address account.nonce))
  | .classified c pool => addInsert t c pool
  | .addPromoting c i =>
    match head.getAccount c.address with
    | none => some (reject t c .stateRoot)
    | some account =>
      some ((t.setNonce c.address account.nonce).promoteAddr c.address i account.nonce, .promoted c)
  | .promoted c => resolve t c
  | .promoting a i addresses =>
    match head.getAccount a with
    | none => some (t, .finished (some .stateRoot))
    | some account =>
      some (promoteLoop addresses ((t.setNonce a account.nonce).promoteAddr a i account.nonce))
  | .demoteStarting =>
    match head.state with
    | none => some (t, .finished none)
    | some accounts => demoteNext accounts t next
  | .demoting accounts a i =>
    demoteNext accounts (t.demoteAddr a i ((accounts a).getD Account.new)) next
  | .idle => none
  | .resolved _ => none
  | .rejected _ _ => none
  | .finished _ => none

/-- `add` up to its first `await`. -/
def startAdd (t : Tracked) (tx : TypedTransaction) (isLocal : Bool) (now : Int) : Tracked × Task :=
  if tx.signed then
    match tx.sender with
    | none => (t, .finished (some .transaction))
    | some a =>
      let c : AddCall := { tx := tx, isLocal := isLocal, added := now, address := a }
      match t.pool.validateInPool tx isLocal a with
      | .error e => reject t c e
      | .ok () => (t, .validating c)
  else (t, .finished (some .transaction))

/-! ## Worlds -/

structure World where
  store : Tracked
  tasks : Nat → Task

/-- A step of the world: a call starts or goes on, or a synchronous operation of
the pool runs. -/
inductive Action where
  | add (id : Nat) (tx : TypedTransaction) (isLocal : Bool) (now : Int)
  | promoteExecutables (id : Nat) (address : Option UnprefixedAddress)
  | demoteUnexecutables (id : Nat)
  | resume (id : Nat) (head : Head) (next : Option UnprefixedAddress)
  | removeByHash (hash : UnprefixedHash)
  | clearNonceCache (address : Option UnprefixedAddress)

namespace World

def new : World where
  store := Tracked.new
  tasks := fun _ => .idle

def update (w : World) (id : Nat) (r : Tracked × Task) : World where
  store := r.1
  tasks := Function.update w.tasks id r.2

/-- A new call takes an unused id. -/
def start (w : World) (id : Nat) (r : Tracked × Task) : Option World :=
  match w.tasks id with
  | .idle => some (w.update id r)
  | _ => none

def step (w : World) : Action → Option World
  | .add id tx isLocal now => w.start id (startAdd w.store tx isLocal now)
  | .promoteExecutables id address =>
    w.start id (promoteLoop (w.store.pool.promotedAddresses address) w.store)
  | .demoteUnexecutables id => w.start id (w.store, .demoteStarting)
  | .resume id head next => (resume head next w.store (w.tasks id)).map (w.update id)
  | .removeByHash hash => some { w with store := w.store.removeByHash hash }
  | .clearNonceCache a =>
    some { w with store := { w.store with pool := w.store.pool.clearNonceCache a } }

def run : List Action → World → Option World
  | [], w => some w
  | action :: actions, w => (w.step action).bind (run actions)

/-- An insertion does not replace an object of a list that is then found full, and
no other object of the sender has its hash. -/
def insertsOnce (t : Tracked) (c : AddCall) (pool : PoolType) : Bool :=
  (!t.pool.exceedsLimit c.tx c.isLocal c.address pool ||
      (t.pool.replaced c.tx c.address pool).isNone) &&
    (t.pool.exceedsLimit c.tx c.isLocal c.address pool ||
      (t.pool.withoutReplaced c.tx c.address pool ++ t.pool.list pool.other c.address).all
        (fun o => o.hash ≠ c.tx.hash))

/-- The call `task` may go on: it inserts once, and the array it has taken out of a
map before its `await` still has the contents of the sender's list. -/
def mayResume (t : Tracked) : Task → Bool
  | .classified c pool => insertsOnce t c pool
  | .addPromoting c i => t.pool.arrays .queued c.address i = t.pool.list .queued c.address
  | .promoting a i _ => t.pool.arrays .queued a i = t.pool.list .queued a
  | .demoting _ a i => t.pool.arrays .pending a i = t.pool.list .pending a
  | _ => true

def meets (w : World) : Action → Bool
  | .resume id _ _ => mayResume w.store (w.tasks id)
  | _ => true

/-- Every step of a run meets the condition. -/
def onRun : List Action → World → Bool
  | [], _ => true
  | action :: actions, w => w.meets action &&
      match w.step action with
      | none => true
      | some w => onRun actions w

end World

/-! ## What a step keeps -/

/-- Nothing that was inserted is missing unless it was dropped. -/
structure Kept (onTx : TypedTransaction → Prop) (t : Tracked) : Prop extends Filed onTx t.pool where
  present : ∀ h, t.inserted h = true → t.dropped h = false →
    ∃ a, ∃ o ∈ t.pool.allTxsForSender a, o.hash = h

/-- A step that keeps the books and forgets no insertion. -/
structure KeepsOn (onTx : TypedTransaction → Prop) (t t' : Tracked) : Prop extends Kept onTx t' where
  inserted : ∀ h, t.inserted h = true → t'.inserted h = true

section

variable {onTx : TypedTransaction → Prop}

theorem KeepsOn.refl {t : Tracked} (ht : Kept onTx t) : KeepsOn onTx t t where
  toKept := ht
  inserted _ h := h

variable {t' : Tracked}

theorem KeepsOn.trans {t t'' : Tracked} (h : KeepsOn onTx t t') (h' : KeepsOn onTx t' t'') :
    KeepsOn onTx t t'' where
  toKept := h'.toKept
  inserted x hx := h'.inserted x (h.inserted x hx)

namespace Kept

variable {t : Tracked} (ht : Kept onTx t)

include ht

/-- A step that does not touch the lists and the counts. -/
theorem same {pool : TxPool} (hpools : pool.pools = t.pool.pools) (harrays : pool.arrays = t.pool.arrays)
    (hcounts : pool.counts = t.pool.counts) : KeepsOn onTx t { t with pool := pool } := by
  have hlist : pool.list = t.pool.list := by
    funext p a
    simp only [list, hpools, harrays]
  refine { counts := ?_, filed := ?_, distinct := ?_, present := ?_, inserted := fun _ h => h }
  · intro p
    simp only [hcounts, hpools, hlist]
    exact ht.counts p
  · intro p a o ho
    simp only [hlist] at ho
    exact ht.filed p a o ho
  · intro a
    simp only [allTxsForSender, hlist]
    exact ht.distinct a
  · intro h hi hd
    simp only [allTxsForSender, hlist]
    exact ht.present h hi hd

variable {a : UnprefixedAddress}

/-- A step that drops `gone` of one sender, and says so. -/
theorem drop {s : TxPool} {gone : List TxPoolObject} (hs : Filed onTx s)
    (hframe : ∀ b, b ≠ a → ∀ p, s.list p b = t.pool.list p b)
    (hperm : (t.pool.allTxsForSender a).Perm (s.allTxsForSender a ++ gone)) :
    KeepsOn onTx t (t.drop s gone) where
  toFiled := hs
  present h hi hd := by
    simp only [Tracked.drop, or_eq_false_iff] at hi hd
    obtain ⟨b, o, ho, rfl⟩ := ht.present h hi hd.2
    by_cases hb : b = a
    · subst hb
      cases mem_append.mp (hperm.mem_iff.mp ho) with
      | inl hin => exact ⟨b, o, hin, rfl⟩
      | inr hgone =>
        have hnot := any_eq_false.mp hd.1 o hgone
        simp at hnot
    · refine ⟨b, o, ?_, rfl⟩
      simp only [Tracked.drop, allTxsForSender, hframe b hb]
      exact ho
  inserted _ h := h

theorem promoteAddr {i : Nat} (hi : t.pool.arrays .queued a i = t.pool.list .queued a) (n : Nat) :
    KeepsOn onTx t (t.promoteAddr a i n) :=
  ht.drop (ht.toFiled.promoteAddr hi n) (fun _ hb p => list_promoteAddr_of_ne _ a i n hb p)
    (allTxsForSender_promoteAddr hi n)

theorem demoteAddr {i : Nat} (hi : t.pool.arrays .pending a i = t.pool.list .pending a)
    (account : Account) : KeepsOn onTx t (t.demoteAddr a i account) :=
  ht.drop (ht.toFiled.demoteAddr hi account) (fun _ hb p => list_demoteAddr_of_ne _ a i account hb p)
    (allTxsForSender_demoteAddr hi account)

theorem removeByHash (hash : UnprefixedHash) : KeepsOn onTx t (t.removeByHash hash) := by
  cases t.pool.removeByHash_cases hash with
  | inl hsame =>
    refine { toFiled := ?_, present := ?_, inserted := fun _ h => h }
    · simp only [Tracked.removeByHash, hsame]
      exact ht.toFiled
    · intro h hi hd
      simp only [Tracked.removeByHash, hsame, or_eq_false_iff] at hi hd ⊢
      exact ht.present h hi hd.2
  | inr hfound =>
    obtain ⟨handled, o, _, ho, rfl, heq⟩ := hfound
    obtain ⟨hperm, hfiled⟩ := ht.toFiled.takeOut ho
    have hkeeps := ht.drop (s := t.pool.removeByHash o.hash) (heq ▸ hfiled)
      (fun b hb p => by rw [heq, list_takeOut, updateAt_of_address_ne _ _ _ hb]) (heq ▸ hperm)
    have hsame : t.removeByHash o.hash = t.drop (t.pool.removeByHash o.hash) [o] := by
      simp only [Tracked.removeByHash, Tracked.drop, any_cons, any_nil, Bool.or_false]
      congr 1
      funext h
      congr 1
      exact decide_eq_decide.mpr eq_comm
    rw [hsame]
    exact hkeeps

variable {pool : PoolType}

omit ht in
theorem enforceLimit {limit : Int} : ∀ (fuel : Nat) (t : Tracked), Kept onTx t →
    ∀ t', t.enforceLimit pool limit fuel = some t' → KeepsOn onTx t t' := by
  intro fuel
  induction fuel with
  | zero =>
    intro t ht t' h
    unfold Tracked.enforceLimit at h
    split at h
    · cases hl : t.pool.lowestPriced pool with
      | none => rw [hl] at h; cases h; exact KeepsOn.refl ht
      | some o => rw [hl] at h; cases h
    · cases h; exact KeepsOn.refl ht
  | succ fuel ih =>
    intro t ht t' h
    unfold Tracked.enforceLimit at h
    split at h
    · cases hl : t.pool.lowestPriced pool with
      | none => rw [hl] at h; cases h; exact KeepsOn.refl ht
      | some o =>
        rw [hl] at h
        have hstep := ht.removeByHash o.hash
        exact hstep.trans (ih _ hstep.toKept t' h)
    · cases h; exact KeepsOn.refl ht

theorem enforcePoolLimits {t' : Tracked} (h : t.enforcePoolLimits = some t') : KeepsOn onTx t t' := by
  unfold Tracked.enforcePoolLimits at h
  cases hp : Tracked.enforceLimit .pending GLOBAL_SLOTS t.pool.size t with
  | none => rw [hp] at h; cases h
  | some t₁ =>
    rw [hp] at h
    have h₁ := enforceLimit _ t ht t₁ hp
    exact h₁.trans (enforceLimit _ t₁ h₁.toKept t' h)

theorem handleError (c : AddCall) (e : TxPoolError) : KeepsOn onTx t (t.handleError c e) :=
  ht.same rfl rfl rfl

theorem setNonce (a : UnprefixedAddress) (nonce : Nat) : KeepsOn onTx t (t.setNonce a nonce) :=
  ht.same rfl rfl rfl

omit ht in
/-- A refused insertion that replaces nothing changes nothing. -/
theorem addTx_of_exceeds {c : AddCall}
    (hexc : t.pool.exceedsLimit c.tx c.isLocal c.address pool = true)
    (hnone : t.pool.replaced c.tx c.address pool = none) :
    t.addTx c pool = (t, some (.accountLimit c.address pool (accountLimit pool))) := by
  simp only [Tracked.addTx, TxPool.addTx_of_exceeds _ _ _ _ _ _ hexc, hnone]
  rfl

/-- An insertion of a fresh hash. -/
theorem addTx_of_fits {c : AddCall} (hon : onTx c.tx) (hsender : c.tx.sender = some c.address)
    (hfits : t.pool.exceedsLimit c.tx c.isLocal c.address pool = false)
    (hfresh : ∀ o ∈ t.pool.withoutReplaced c.tx c.address pool ++ t.pool.list pool.other c.address,
      o.hash ≠ c.tx.hash) : (t.addTx c pool).2 = none ∧ KeepsOn onTx t (t.addTx c pool).1 ∧
      (t.addTx c pool).1.inserted c.tx.hash = true := by
  have hpair : t.pool.addTx c.tx c.isLocal c.added c.address pool =
      ((t.pool.addTx c.tx c.isLocal c.added c.address pool).1, none) := by
    rw [TxPool.addTx_of_fits _ _ _ _ _ _ hfits]
  have hnew := allTxsForSender_addTx t.pool c.tx c.isLocal c.added c.address pool hfits
  have hold := t.pool.allTxsForSender_replaced c.tx c.address pool
  have hfiled := ht.toFiled.addTx c.added hon hsender hfits hfresh
  unfold Tracked.addTx
  rw [hpair]
  refine ⟨rfl, { toFiled := hfiled, present := ?_, inserted := ?_ }, by simp⟩
  · intro h hi hd
    simp only [Bool.or_eq_true, decide_eq_true_eq] at hi
    by_cases hh : h = c.tx.hash
    · subst hh
      exact ⟨c.address, newObject c.tx c.added, hnew.mem_iff.mpr List.mem_cons_self, rfl⟩
    · simp only [ne_eq, hh, not_false_eq_true, decide_true, Bool.true_and, Bool.or_eq_false_iff] at hd
      obtain ⟨b, o, ho, rfl⟩ := ht.present h (hi.resolve_left hh) hd.2
      by_cases hb : b = c.address
      · subst hb
        cases List.mem_append.mp (hold.mem_iff.mp ho) with
        | inl hin => exact ⟨_, o, hnew.mem_iff.mpr (List.mem_cons_of_mem _ hin), rfl⟩
        | inr hgone =>
          have hmem : o ∈ t.pool.replaced c.tx c.address pool := by
            rw [Option.mem_toList] at hgone
            exact hgone
          have hnot := hd.1
          rw [Option.mem_def.mp hmem] at hnot
          simp at hnot
      · refine ⟨b, o, ?_, rfl⟩
        simp only [allTxsForSender, list_addTx _ _ _ _ _ _ hfits, updateAt_of_address_ne _ _ _ hb]
        exact ho
  · intro h hi
    simp [hi]

end Kept

/-- What is known of a call: before its insertion that the transaction was offered
by its sender, afterwards that it was inserted. -/
def TaskOk (onTx : TypedTransaction → Prop) (t : Tracked) : Task → Prop
  | .validating c => onTx c.tx ∧ c.tx.sender = some c.address
  | .validated c => onTx c.tx ∧ c.tx.sender = some c.address
  | .fetching c => onTx c.tx ∧ c.tx.sender = some c.address
  | .classified c _ => onTx c.tx ∧ c.tx.sender = some c.address
  | .addPromoting c _ => onTx c.tx ∧ t.inserted c.tx.hash = true
  | .promoted c => onTx c.tx ∧ t.inserted c.tx.hash = true
  | .resolved c => onTx c.tx ∧ t.inserted c.tx.hash = true
  | _ => True

/-- Insertions are never taken back, so what is known of a call stays known. -/
theorem TaskOk.mono {t : Tracked} (h : ∀ x, t.inserted x = true → t'.inserted x = true)
    {task : Task} (hok : TaskOk onTx t task) : TaskOk onTx t' task := by
  cases task with
  | addPromoting c i => exact ⟨hok.1, h _ hok.2⟩
  | promoted c => exact ⟨hok.1, h _ hok.2⟩
  | resolved c => exact ⟨hok.1, h _ hok.2⟩
  | _ => exact hok

/-- The outcome of a piece of a call. -/
structure Continues (onTx : TypedTransaction → Prop) (t : Tracked) (r : Tracked × Task) : Prop where
  keeps : KeepsOn onTx t r.1
  ok : TaskOk onTx r.1 r.2

theorem Continues.after {t : Tracked} {r : Tracked × Task} (h : KeepsOn onTx t t')
    (hr : Continues onTx t' r) : Continues onTx t r where
  keeps := h.trans hr.keeps
  ok := hr.ok

namespace Kept

variable {t : Tracked} (ht : Kept onTx t)

omit ht in
/-- The rounds that run synchronously read the attached array. -/
theorem promoteLoop : ∀ (addresses : List UnprefixedAddress) (t : Tracked), Kept onTx t →
    Continues onTx t (TxPool.promoteLoop addresses t) := by
  intro addresses
  induction addresses with
  | nil => intro t ht; exact { keeps := KeepsOn.refl ht, ok := trivial }
  | cons a addresses ih =>
    intro t ht
    unfold TxPool.promoteLoop
    cases hq : (t.pool.pools .queued).get a with
    | none => exact ih t ht
    | some i =>
      simp only
      split
      · exact ih t ht
      · cases hn : t.pool.accountNonces.get a with
        | none => exact { keeps := KeepsOn.refl ht, ok := trivial }
        | some nonce =>
          have hstep := ht.promoteAddr (list_of_attached hq).symm nonce
          exact (ih _ hstep.toKept).after hstep

include ht

theorem reject (c : AddCall) (e : TxPoolError) : Continues onTx t (TxPool.reject t c e) where
  keeps := ht.handleError c e
  ok := trivial

variable {c : AddCall} {r : Tracked × Task}

theorem resolve (hok : onTx c.tx ∧ t.inserted c.tx.hash = true) (h : TxPool.resolve t c = some r) :
    Continues onTx t r := by
  obtain ⟨t', ht', rfl⟩ := map_eq_some_iff.mp h
  have hkeeps := ht.enforcePoolLimits ht'
  exact { keeps := hkeeps, ok := ⟨hok.1, hkeeps.inserted _ hok.2⟩ }

theorem addPromote (hok : onTx c.tx ∧ t.inserted c.tx.hash = true) :
    Continues onTx t (TxPool.addPromote t c) := by
  unfold TxPool.addPromote
  cases hq : (t.pool.pools .queued).get c.address with
  | none => exact { keeps := KeepsOn.refl ht, ok := hok }
  | some i =>
    simp only
    split
    · exact { keeps := KeepsOn.refl ht, ok := hok }
    · cases hn : t.pool.accountNonces.get c.address with
      | none => exact { keeps := KeepsOn.refl ht, ok := hok }
      | some nonce =>
        have hstep := ht.promoteAddr (list_of_attached hq).symm nonce
        exact { keeps := hstep, ok := ⟨hok.1, hstep.inserted _ hok.2⟩ }

theorem addInsert {pool : PoolType} (hon : onTx c.tx) (hsender : c.tx.sender = some c.address)
    (hK : World.insertsOnce t c pool = true) (h : TxPool.addInsert t c pool = some r) :
    Continues onTx t r := by
  obtain ⟨hroom, hfresh⟩ := (and_eq_true _ _).mp hK
  unfold TxPool.addInsert at h
  cases hfits : t.pool.exceedsLimit c.tx c.isLocal c.address pool with
  | true =>
    rw [hfits] at hroom
    have hnone : t.pool.replaced c.tx c.address pool = none := by simpa using hroom
    rw [addTx_of_exceeds hfits hnone] at h
    cases h
    exact ht.reject c _
  | false =>
    rw [hfits, Bool.false_or] at hfresh
    have hall : ∀ o ∈ t.pool.withoutReplaced c.tx c.address pool ++ t.pool.list pool.other c.address,
        o.hash ≠ c.tx.hash := by
      intro o ho
      simpa using all_eq_true.mp hfresh o ho
    obtain ⟨hnone, hkeeps, hins⟩ := ht.addTx_of_fits hon hsender hfits hall
    obtain ⟨t', hadd⟩ : ∃ t', t.addTx c pool = (t', none) := ⟨_, Prod.ext rfl hnone⟩
    rw [hadd] at h hkeeps hins
    cases pool with
    | pending =>
      cases h
      exact (hkeeps.toKept.addPromote ⟨hon, hins⟩).after hkeeps
    | queued => exact (hkeeps.toKept.resolve ⟨hon, hins⟩ h).after hkeeps

theorem demoteNext {accounts : UnprefixedAddress → Option Account} {next : Option UnprefixedAddress}
    (h : TxPool.demoteNext accounts t next = some r) : Continues onTx t r := by
  cases next with
  | none => cases h; exact { keeps := KeepsOn.refl ht, ok := trivial }
  | some a =>
    obtain ⟨i, _, rfl⟩ := map_eq_some_iff.mp h
    exact { keeps := KeepsOn.refl ht, ok := trivial }

/-- A call that goes on, wherever it waits. -/
theorem resume {head : Head} {next : Option UnprefixedAddress} {task : Task}
    (hok : TaskOk onTx t task) (hK : World.mayResume t task = true)
    (h : TxPool.resume head next t task = some r) : Continues onTx t r := by
  cases task with
  | validating c =>
    simp only [TxPool.resume] at h
    split at h
    · cases h; exact ht.reject c _
    · cases h; exact { keeps := KeepsOn.refl ht, ok := hok }
  | validated c =>
    simp only [TxPool.resume] at h
    split at h <;> cases h <;> exact { keeps := KeepsOn.refl ht, ok := hok }
  | fetching c =>
    simp only [TxPool.resume] at h
    split at h
    · cases h; exact ht.reject c _
    · cases h; exact { keeps := ht.setNonce _ _, ok := hok }
  | classified c pool => exact ht.addInsert hok.1 hok.2 hK h
  | addPromoting c i =>
    simp only [TxPool.resume] at h
    split at h
    · cases h; exact ht.reject c _
    · rename_i account hacc
      cases h
      have hset := ht.setNonce c.address account.nonce
      have hprom := hset.toKept.promoteAddr (i := i) (of_decide_eq_true hK) account.nonce
      exact { keeps := hset.trans hprom, ok := ⟨hok.1, (hset.trans hprom).inserted _ hok.2⟩ }
  | promoted c => exact ht.resolve hok h
  | promoting a i addresses =>
    simp only [TxPool.resume] at h
    split at h
    · cases h; exact { keeps := KeepsOn.refl ht, ok := trivial }
    · rename_i account hacc
      cases h
      have hset := ht.setNonce a account.nonce
      have hprom := hset.toKept.promoteAddr (i := i) (of_decide_eq_true hK) account.nonce
      exact (promoteLoop addresses _ hprom.toKept).after (hset.trans hprom)
  | demoteStarting =>
    simp only [TxPool.resume] at h
    split at h
    · cases h; exact { keeps := KeepsOn.refl ht, ok := trivial }
    · exact ht.demoteNext h
  | demoting accounts a i =>
    have hdem := ht.demoteAddr (i := i) (of_decide_eq_true hK) ((accounts a).getD Account.new)
    exact (hdem.toKept.demoteNext h).after hdem
  | idle => cases h
  | resolved c => cases h
  | rejected c e => cases h
  | finished e => cases h

theorem startAdd {tx : TypedTransaction} {isLocal : Bool} {now : Int} (hon : onTx tx) :
    Continues onTx t (TxPool.startAdd t tx isLocal now) := by
  unfold TxPool.startAdd
  split
  · cases hsender : tx.sender with
    | none => exact { keeps := KeepsOn.refl ht, ok := trivial }
    | some a =>
      simp only
      split
      · exact ht.reject _ _
      · exact { keeps := KeepsOn.refl ht, ok := ⟨hon, hsender⟩ }
  · exact { keeps := KeepsOn.refl ht, ok := trivial }

end Kept

end

/-! ## Runs of a world -/

namespace World

/-- The invariant of a world. -/
structure Ok (onTx : TypedTransaction → Prop) (w : World) : Prop where
  store : Kept onTx w.store
  tasks : ∀ id, TaskOk onTx w.store (w.tasks id)

def Action.transactions : Action → List TypedTransaction
  | .add _ tx _ _ => [tx]
  | _ => []

variable {onTx : TypedTransaction → Prop}

theorem Ok.new : Ok onTx World.new where
  store := { toFiled := Filed.new, present := fun h hi _ => by cases hi }
  tasks _ := trivial

variable {w : World}

section

variable (hw : Ok onTx w)
include hw

theorem Ok.update {id : Nat} {r : Tracked × Task} (hr : Continues onTx w.store r) :
    Ok onTx (w.update id r) where
  store := hr.keeps.toKept
  tasks id' := by
    by_cases h : id' = id
    · subst h
      simp only [World.update, update_self]
      exact hr.ok
    · simp only [World.update, update_of_ne h]
      exact (hw.tasks id').mono hr.keeps.inserted

theorem Ok.start {w' : World} {id : Nat} {r : Tracked × Task}
    (hr : Continues onTx w.store r) (h : w.start id r = some w') : Ok onTx w' := by
  unfold World.start at h
  split at h
  · cases h; exact hw.update hr
  · cases h

theorem Ok.store_step {t : Tracked} (ht : KeepsOn onTx w.store t) :
    Ok onTx { w with store := t } where
  store := ht.toKept
  tasks id := (hw.tasks id).mono ht.inserted

theorem Ok.step {w' : World} {action : Action}
    (hon : ∀ tx ∈ Action.transactions action, onTx tx) (hK : w.meets action = true)
    (h : w.step action = some w') : Ok onTx w' := by
  cases action with
  | add id tx isLocal now =>
    exact hw.start (hw.store.startAdd (hon tx (by simp [Action.transactions]))) h
  | promoteExecutables id address => exact hw.start (Kept.promoteLoop _ _ hw.store) h
  | demoteUnexecutables id =>
    exact hw.start (r := (w.store, .demoteStarting)) { keeps := KeepsOn.refl hw.store, ok := trivial } h
  | resume id head next =>
    obtain ⟨r, hr, rfl⟩ := map_eq_some_iff.mp h
    exact hw.update (hw.store.resume (hw.tasks id) hK hr)
  | removeByHash hash => cases h; exact hw.store_step (hw.store.removeByHash hash)
  | clearNonceCache a =>
    cases h
    cases a <;> exact hw.store_step (hw.store.same rfl rfl rfl)

end

theorem Ok.run : ∀ (actions : List Action) (w : World), Ok onTx w →
    (∀ action ∈ actions, ∀ tx ∈ Action.transactions action, onTx tx) → onRun actions w = true →
    ∀ w', World.run actions w = some w' → Ok onTx w' := by
  intro actions
  induction actions with
  | nil => intro w hw _ _ w' h; cases h; exact hw
  | cons action actions ih =>
    intro w hw hon hK w' h
    unfold World.run at h
    obtain ⟨hone, hrest⟩ := (and_eq_true _ _).mp hK
    cases hs : w.step action with
    | none => rw [hs] at h; cases h
    | some w₁ =>
      rw [hs] at h hrest
      have hw₁ := hw.step (hon action mem_cons_self) hone hs
      exact ih w₁ hw₁ (fun a ha => hon a (mem_cons_of_mem _ ha)) hrest w' h

/-- The transactions that the actions of a run offer to the pool. -/
def Offers (actions : List Action) (tx : TypedTransaction) : Prop :=
  ∃ action ∈ actions, tx ∈ Action.transactions action

/-- How often a transaction is pooled. -/
def copies (s : TxPool) (tx : TypedTransaction) : Nat :=
  ((s.pooled .pending + s.pooled .queued).map TxPoolObject.tx).count tx

theorem copies_eq_one (hdet : HashesDetermine onTx) {t : Tracked} (ht : Kept onTx t)
    {tx : TypedTransaction} (hon : onTx tx) (hi : t.inserted tx.hash = true)
    (hd : t.dropped tx.hash = false) : copies t.pool tx = 1 := by
  have hfiled : ∀ o ∈ t.pool.pooled .pending + t.pool.pooled .queued, o.hash = o.tx.hash := by
    intro o ho
    cases Multiset.mem_add.mp ho with
    | inl hp =>
      obtain ⟨a, ha⟩ := mem_pooled.mp hp
      exact (ht.filed _ a o ha).hash
    | inr hq =>
      obtain ⟨a, ha⟩ := mem_pooled.mp hq
      exact (ht.filed _ a o ha).hash
  have hnodup : ((t.pool.pooled .pending + t.pool.pooled .queued).map TxPoolObject.tx).Nodup := by
    apply Multiset.Nodup.of_map TypedTransaction.hash
    have hsame : (t.pool.pooled .pending + t.pool.pooled .queued).map TxPoolObject.hash =
        (t.pool.pooled .pending + t.pool.pooled .queued).map (TypedTransaction.hash ∘ TxPoolObject.tx) :=
      Multiset.map_congr rfl hfiled
    rw [Multiset.map_map, ← hsame]
    exact ht.nodup_hashes hdet
  obtain ⟨a, o, ho, hh⟩ := ht.present tx.hash hi hd
  have hunder := ht.filed_all ho
  have htx : o.tx = tx := hdet _ _ hunder.offered hon (hunder.hash.symm.trans hh)
  apply Multiset.count_eq_one_of_mem hnodup
  rw [← htx]
  apply Multiset.mem_map_of_mem
  obtain ⟨p, hp⟩ := mem_allTxsForSender.mp ho
  rw [Multiset.mem_add]
  cases p with
  | pending => exact Or.inl (mem_pooled.mpr ⟨a, hp⟩)
  | queued => exact Or.inr (mem_pooled.mpr ⟨a, hp⟩)

/-- After every interleaving whose steps meet the condition, a transaction whose
`add` resolved is pooled exactly once unless it was dropped since, and the counts
are the lengths. -/
theorem run_pooledOnce {actions : List Action} (hdet : HashesDetermine (Offers actions))
    (hK : onRun actions new = true) {w : World} (h : run actions new = some w) :
    (∀ id tx, (w.tasks id).resolvedTx = some tx → w.store.dropped tx.hash = false →
      copies w.store.pool tx = 1) ∧ ∀ p, w.store.pool.counts p =
      (w.store.pool.pools p).sumKeys (fun a => ((w.store.pool.list p a).length : Int)) := by
  have hw : Ok (Offers actions) w :=
    Ok.run actions new Ok.new (fun a ha tx htx => ⟨a, ha, htx⟩) hK w h
  refine ⟨?_, hw.store.counts⟩
  intro id tx hc hd
  have hok := hw.tasks id
  cases htask : w.tasks id with
  | resolved c =>
    rw [htask] at hok hc
    cases hc
    exact copies_eq_one hdet hw.store hok.1 hok.2 hd
  | _ => rw [htask] at hc; cases hc

/-- Two concurrent calls for one transaction, and one that fills the gap below it. -/
def racingActions : List Action :=
  [.add 0 (sampleTx 8 1 1) false 0, .add 1 (sampleTx 8 1 1) false 0,
    .resume 0 (sampleEnv 0).head none, .resume 1 (sampleEnv 0).head none,
    .resume 0 (sampleEnv 0).head none, .resume 0 (sampleEnv 0).head none,
    .resume 0 (sampleEnv 0).head none,
    -- the second call is classified as queued, and waits
    .resume 1 (sampleEnv 0).head none,
    .add 2 (sampleTx 7 0 1) false 0, .resume 2 (sampleEnv 0).head none,
    .resume 2 (sampleEnv 0).head none, .resume 2 (sampleEnv 0).head none,
    .resume 2 (sampleEnv 0).head none,
    .resume 1 (sampleEnv 0).head none]

/-- All three calls of `racingActions` resolve, and the transaction of the first two
is in `pending` and in `queued`. -/
theorem racing_pooledTwice : ∃ w, run racingActions new = some w ∧
    [0, 1, 2].all (fun id => (w.tasks id).resolvedTx.isSome) = true ∧
    (w.tasks 1).resolvedTx = some (sampleTx 8 1 1) ∧ w.store.dropped 8 = false ∧
    copies w.store.pool (sampleTx 8 1 1) = 2 := by
  have hrun : (run racingActions new).map (fun w =>
      ([0, 1, 2].all (fun id => (w.tasks id).resolvedTx.isSome), (w.tasks 1).resolvedTx,
        w.store.dropped 8, copies w.store.pool (sampleTx 8 1 1))) =
      some (true, some (sampleTx 8 1 1), false, 2) := by decide +kernel
  obtain ⟨w, hw, heq⟩ := map_eq_some_iff.mp hrun
  simp only [Prod.mk.injEq] at heq
  exact ⟨w, hw, heq⟩

/-- Two calls that overlap, a promotion and a demotion. -/
def overlappingActions : List Action :=
  [.add 0 (sampleTx 8 1 1) false 0, .add 1 (sampleTx 7 0 1) false 0,
    .resume 0 (sampleEnv 0).head none, .resume 1 (sampleEnv 0).head none,
    .resume 0 (sampleEnv 0).head none, .resume 0 (sampleEnv 0).head none,
    .resume 1 (sampleEnv 0).head none, .resume 0 (sampleEnv 0).head none,
    .clearNonceCache none, .resume 1 (sampleEnv 0).head none,
    .demoteUnexecutables 3, .resume 3 (sampleEnv 0).head (some 1), .resume 3 (sampleEnv 0).head none,
    .resume 1 (sampleEnv 0).head none, .resume 1 (sampleEnv 0).head none, .promoteExecutables 2 none]

theorem overlapping_pooledOnce : ∃ w, run overlappingActions new = some w ∧
    ∀ id tx, (w.tasks id).resolvedTx = some tx → w.store.dropped tx.hash = false →
      copies w.store.pool tx = 1 := by
  have hsome : (run overlappingActions new).isSome = true := by decide +kernel
  obtain ⟨w, hw⟩ := isSome_iff_exists.mp hsome
  refine ⟨w, hw, (run_pooledOnce ?_ (by decide +kernel) hw).1⟩
  have honly : ∀ t, Offers overlappingActions t → t = sampleTx 8 1 1 ∨ t = sampleTx 7 0 1 := by
    intro t ht
    simpa [overlappingActions, Offers, Action.transactions] using ht
  intro t t' ht ht' heq
  rcases honly t ht with rfl | rfl <;> rcases honly t' ht' with rfl | rfl
  · rfl
  · exact absurd heq (by decide)
  · exact absurd heq (by decide)
  · rfl

end World

end TxPool
