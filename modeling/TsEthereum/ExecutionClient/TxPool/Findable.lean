-- SUMMARY: The invariant that lets `removeByHash` find what is pooled: every pooled object has a record in `handled` that names its sender and is not older than the object.
import TsEthereum.ExecutionClient.TxPool.Filed
import TsEthereum.ExecutionClient.TxPool.Runs

/-!
# Findable objects

`removeByHash` looks an object up by the sender that `handled` names. The
records leave `handled` with their objects, or when `cleanup` finds them old, so
an object stays findable as long as its record is at least as young as itself.
-/

open List

namespace TxPool

/-! ## What the steps do to `handled` -/

section Handled

variable (s : TxPool) (a : UnprefixedAddress)

theorem handled_setOrDelete (p : PoolType) (l : List TxPoolObject) :
    (s.setOrDelete p a l).handled = s.handled := by
  unfold setOrDelete
  split <;> rfl

theorem handled_takeOut (hash : UnprefixedHash) (p : PoolType) (o : TxPoolObject) :
    (s.takeOut hash a p o).handled = s.handled := by
  simp only [takeOut, removeFromPriced]
  exact handled_setOrDelete s a p _

theorem handled_promoteAddr (i n : Nat) (h : UnprefixedHash) :
    (s.promoteAddr a i n).handled.get h =
      if h ∈ (s.promoteSplit a i n).stale.map TxPoolObject.hash then none else s.handled.get h := by
  have hmove : ∀ (t : TxPool) (pendingTxs toPromote : List TxPoolObject),
      (t.movePromoted a pendingTxs toPromote).handled = t.handled := by
    intro t pendingTxs toPromote
    unfold movePromoted
    split
    · rfl
    · exact foldl_keeps (g := TxPool.handled) (f := indexPromoted a) (fun _ _ => rfl) _ _
  simp only [promoteAddr, handled_setOrDelete, hmove]
  exact foldl_delete (g := TxPool.handled) (f := dropStale) (fun _ _ => rfl) h _ _

theorem handled_demoteAddr (i : Nat) (account : Account) (h : UnprefixedHash) :
    (s.demoteAddr a i account).handled.get h =
      if h ∈ (s.demoteSplit a i account).toRemove.map TxPoolObject.hash then none
      else s.handled.get h := by
  have hmove : ∀ (t : TxPool) (toDemote : List TxPoolObject),
      (t.moveDemoted a toDemote).handled = t.handled := by
    intro t toDemote
    unfold moveDemoted
    split <;> rfl
  simp only [demoteAddr, handled_setOrDelete, hmove]
  exact foldl_delete (g := TxPool.handled) (f := removeMined) (fun _ _ => rfl) h _ _

theorem handled_cleanupAddr (compDate : Int) (p : PoolType) (h : UnprefixedHash) :
    (cleanupAddr compDate p s a).handled.get h =
      if h ∈ (expired compDate p s a).map TxPoolObject.hash then none else s.handled.get h := by
  unfold cleanupAddr
  split
  · rename_i hnil
    rw [List.isEmpty_iff.mp hnil]
    rfl
  · rw [removeExpired, handled_setOrDelete]
    exact foldl_delete (g := TxPool.handled) (f := dropExpired) (fun _ _ => rfl) h _ _

theorem handled_addTx (tx : TypedTransaction) (isLocal : Bool) (added : Int) (pool : PoolType)
    (hfits : s.exceedsLimit tx isLocal a pool = false) :
    (s.addTx tx isLocal added a pool).1.handled =
      s.handled.set tx.hash { address := a, added := added, error := none } := by
  have hforget : ∀ old : Option TxPoolObject, (s.forgetReplaced pool old).handled = s.handled := by
    intro old
    cases old <;> rfl
  have hstore : ∀ (t : TxPool) (old : Option TxPoolObject) (l : List TxPoolObject) (o : TxPoolObject),
      (t.storeTx a pool old l o).handled = t.handled := by
    intro t old l o
    unfold storeTx
    split <;> rfl
  rw [addTx_of_fits _ _ _ _ _ _ hfits]
  cases isLocal <;>
    exact congrArg (fun m => OrderedMap.set m tx.hash (HandledObject.mk a added none))
      ((hstore _ _ _ _).trans (hforget _))

end Handled

/-! ## The invariant -/

/-- `handled` has a record for an object of the sender `a`, at least as young. -/
def HasRecord (s : TxPool) (a : UnprefixedAddress) (o : TxPoolObject) : Prop :=
  ∃ handled, s.handled.get o.hash = some handled ∧ handled.address = a ∧ o.added ≤ handled.added

/-- At the time `now`: the objects are filed, were added in the past, and have
their records. -/
structure Findable (onTx : TypedTransaction → Prop) (now : Int) (s : TxPool) : Prop
    extends Filed onTx s where
  past : ∀ p a, ∀ o ∈ s.list p a, o.added ≤ now
  record : ∀ p a, ∀ o ∈ s.list p a, s.HasRecord a o

namespace Findable

variable {onTx : TypedTransaction → Prop} {now : Int} {s s' : TxPool}

theorem new : Findable onTx now TxPool.new where
  toFiled := Filed.new
  past p a o ho := by cases ho
  record p a o ho := by cases ho

section

variable (hs : Findable onTx now s)
include hs

theorem later {now' : Int} (h : now ≤ now') : Findable onTx now' s where
  toFiled := hs.toFiled
  past p a o ho := (hs.past p a o ho).trans h
  record := hs.record

/-- A step that changes neither lists, counts nor `handled`. -/
theorem same (hlist : s'.list = s.list) (hcounts : s'.counts = s.counts)
    (hpools : s'.pools = s.pools) (hhandled : s'.handled = s.handled) : Findable onTx now s' where
  counts p := by
    rw [hcounts, hpools, hlist]
    exact hs.counts p
  filed := by
    rw [hlist]
    exact hs.filed
  distinct a := by
    rw [allTxsForSender, hlist]
    exact hs.distinct a
  past := by
    rw [hlist]
    exact hs.past
  record p a o ho := by
    rw [hlist] at ho
    unfold HasRecord
    rw [hhandled]
    exact hs.record p a o ho

/-- A step after which the sender `a` has some objects less, whose records may be
gone too. -/
theorem drop (hdet : HashesDetermine onTx) {a : UnprefixedAddress}
    {gone : List TxPoolObject} (hfiled : Filed onTx s')
    (hframe : ∀ b, b ≠ a → ∀ p, s'.list p b = s.list p b)
    (hperm : (s.allTxsForSender a).Perm (s'.allTxsForSender a ++ gone))
    (hhandled : ∀ h, h ∉ gone.map TxPoolObject.hash → s'.handled.get h = s.handled.get h) :
    Findable onTx now s' := by
  -- whatever is pooled afterwards was pooled before and is none of the objects that go
  have hstays : ∀ p b, ∀ o ∈ s'.list p b,
      (∃ q, o ∈ s.list q b) ∧ o.hash ∉ gone.map TxPoolObject.hash := by
    intro p b o ho
    by_cases hb : b = a
    · subst hb
      have hkept : o ∈ s'.allTxsForSender b := mem_allTxsForSender.mpr ⟨p, ho⟩
      have hold := hperm.mem_iff.mpr (mem_append_left gone hkept)
      exact ⟨mem_allTxsForSender.mp hold, hs.toFiled.not_gone hperm hkept⟩
    · rw [hframe b hb p] at ho
      refine ⟨⟨p, ho⟩, fun hmem => ?_⟩
      obtain ⟨g, hg, heq⟩ := mem_map.mp hmem
      have hga := hs.toFiled.filed_all (hperm.mem_iff.mpr (mem_append_right _ hg))
      exact hb ((hs.filed p b o ho).address_eq hdet hga heq.symm)
  refine { toFiled := hfiled, past := ?_, record := ?_ }
  · intro p b o ho
    obtain ⟨⟨q, hq⟩, _⟩ := hstays p b o ho
    exact hs.past q b o hq
  · intro p b o ho
    obtain ⟨⟨q, hq⟩, hnot⟩ := hstays p b o ho
    unfold HasRecord
    rw [hhandled _ hnot]
    exact hs.record q b o hq

end

section Steps

variable (hs : Findable onTx now s) (hdet : HashesDetermine onTx)

include hs hdet

theorem promoteAddr {a : UnprefixedAddress} {i : Nat}
    (hi : s.arrays .queued a i = s.list .queued a) (n : Nat) :
    Findable onTx now (s.promoteAddr a i n) := by
  refine hs.drop hdet (hs.toFiled.promoteAddr hi n)
    (fun _ hb p => list_promoteAddr_of_ne s a i n hb p) (allTxsForSender_promoteAddr hi n) ?_
  intro h hnot
  rw [handled_promoteAddr, if_neg hnot]

theorem demoteAddr {a : UnprefixedAddress} {i : Nat}
    (hi : s.arrays .pending a i = s.list .pending a) (account : Account) :
    Findable onTx now (s.demoteAddr a i account) := by
  refine hs.drop hdet (hs.toFiled.demoteAddr hi account)
    (fun _ hb p => list_demoteAddr_of_ne s a i account hb p)
    (allTxsForSender_demoteAddr hi account) ?_
  intro h hnot
  rw [handled_demoteAddr, if_neg hnot]

theorem takeOut {p : PoolType} {a : UnprefixedAddress} {o : TxPoolObject} (ho : o ∈ s.list p a) :
    Findable onTx now (s.takeOut o.hash a p o) := by
  obtain ⟨hperm, hfiled⟩ := hs.toFiled.takeOut ho
  refine hs.drop hdet hfiled ?_ hperm (fun h _ => by rw [handled_takeOut])
  intro b hb q
  rw [list_takeOut, updateAt_of_address_ne _ _ _ hb]

theorem removeByHash (hash : UnprefixedHash) : Findable onTx now (s.removeByHash hash) := by
  rcases s.removeByHash_cases hash with hsame | ⟨handled, o, _, ho, rfl, heq⟩
  · rwa [hsame]
  · rw [heq]
    exact hs.takeOut hdet ho

theorem cleanupAddr (compDate : Int) (p : PoolType) (a : UnprefixedAddress) :
    Findable onTx now (cleanupAddr compDate p s a) := by
  have hperm := expired_perm compDate p s a
  obtain ⟨hall, hfiled⟩ := hs.toFiled.leaves (list_cleanupAddr compDate p s a)
    (hperm.symm.trans perm_append_comm) (counts_cleanupAddr compDate p s a)
  refine hs.drop hdet hfiled ?_ hall ?_
  · intro b hb q
    rw [list_cleanupAddr, updateAt_of_address_ne _ _ _ hb]
  · intro h hnot
    rw [handled_cleanupAddr, if_neg hnot]

/-- A new record of a transaction names the sender of its objects. -/
theorem record_set {tx : TypedTransaction} {a : UnprefixedAddress} (ht : onTx tx)
    (hsender : tx.sender = some a) {error : Option TxPoolError}
    (hhandled : s'.handled = s.handled.set tx.hash { address := a, added := now, error := error })
    {p : PoolType} {b : UnprefixedAddress} {o : TxPoolObject} (ho : o ∈ s.list p b) :
    s'.HasRecord b o := by
  unfold HasRecord
  rw [hhandled, OrderedMap.get_set]
  split
  · rename_i hhash
    have hfiled := hs.filed p b o ho
    have htx : o.tx = tx := hdet _ _ hfiled.offered ht (hfiled.hash.symm.trans hhash)
    have hab : some b = some a := hfiled.sender.symm.trans ((congrArg _ htx).trans hsender)
    exact ⟨_, rfl, (Option.some.inj hab).symm, hs.past p b o ho⟩
  · exact hs.record p b o ho

theorem handleError {tx : TypedTransaction} {a : UnprefixedAddress} (ht : onTx tx)
    (hsender : tx.sender = some a) (e : TxPoolError) :
    Findable onTx now (s.handleError tx a now e) where
  toFiled := { counts := hs.counts, filed := hs.filed, distinct := hs.distinct }
  past := hs.past
  record _ _ _ ho := hs.record_set hdet ht hsender rfl ho

/-- An insertion whose hash no other object of the sender has. -/
theorem addTx {tx : TypedTransaction} {isLocal : Bool} {a : UnprefixedAddress} {pool : PoolType}
    (ht : onTx tx) (hsender : tx.sender = some a) (hfits : s.exceedsLimit tx isLocal a pool = false)
    (hfresh : ∀ o ∈ s.withoutReplaced tx a pool ++ s.list pool.other a, o.hash ≠ tx.hash) :
    Findable onTx now (s.addTx tx isLocal now a pool).1 := by
  have hhandled := handled_addTx s a tx isLocal now pool hfits
  -- an object afterwards is the new one or one from before
  have hold : ∀ p b, ∀ o ∈ (s.addTx tx isLocal now a pool).1.list p b,
      (o = newObject tx now ∧ b = a) ∨ ∃ q, o ∈ s.list q b := by
    intro p b o ho
    by_cases hb : b = a
    · subst hb
      have hnew := (allTxsForSender_addTx s tx isLocal now b pool hfits).mem_iff.mp
        (mem_allTxsForSender.mpr ⟨p, ho⟩)
      rcases mem_cons.mp hnew with heq | hin
      · exact Or.inl ⟨heq, rfl⟩
      · exact Or.inr (mem_allTxsForSender.mp
          ((s.allTxsForSender_replaced tx b pool).mem_iff.mpr (mem_append_left _ hin)))
    · rw [list_addTx _ _ _ _ _ _ hfits, updateAt_of_address_ne _ _ _ hb] at ho
      exact Or.inr ⟨p, ho⟩
  refine { toFiled := hs.toFiled.addTx now ht hsender hfits hfresh, past := ?_, record := ?_ }
  · intro p b o ho
    rcases hold p b o ho with ⟨rfl, _⟩ | ⟨q, hq⟩
    · exact le_rfl
    · exact hs.past q b o hq
  · intro p b o ho
    rcases hold p b o ho with ⟨rfl, rfl⟩ | ⟨q, hq⟩
    · exact ⟨{ address := b, added := now, error := none }, by simp [hhandled, newObject], rfl, le_rfl⟩
    · exact hs.record_set hdet ht hsender hhandled hq

end Steps

/-! ## cleanup -/

/-- A pass of `cleanup` keeps objects, none of them expired in the lists that it
comes to. -/
theorem mem_foldl_cleanupAddr {compDate : Int} {pool : PoolType} (addresses : List UnprefixedAddress) :
    ∀ (s : TxPool) {p : PoolType} {a : UnprefixedAddress} {o : TxPoolObject},
      o ∈ (addresses.foldl (TxPool.cleanupAddr compDate pool) s).list p a →
        o ∈ s.list p a ∧ (p = pool → a ∈ addresses → compDate ≤ o.added) := by
  induction addresses with
  | nil => intro s p a o ho; exact ⟨ho, fun _ h => (nomatch h)⟩
  | cons b addresses ih =>
    intro s p a o ho
    obtain ⟨hmem, hrest⟩ := ih _ ho
    rw [list_cleanupAddr] at hmem
    by_cases hat : p = pool ∧ a = b
    · obtain ⟨rfl, rfl⟩ := hat
      rw [updateAt_self] at hmem
      obtain ⟨hin, hyoung⟩ := mem_filter.mp hmem
      exact ⟨hin, fun _ _ => of_decide_eq_true hyoung⟩
    · rw [updateAt, if_neg hat] at hmem
      refine ⟨hmem, fun hp ha => ?_⟩
      rcases mem_cons.mp ha with hab | hin
      · exact absurd ⟨hp, hab⟩ hat
      · exact hrest hp hin

theorem mem_cleanupPool {compDate : Int} {pool p : PoolType} {s : TxPool} {a : UnprefixedAddress}
    {o : TxPoolObject} (ho : o ∈ (cleanupPool compDate pool s).list p a) :
    o ∈ s.list p a ∧ (p = pool → compDate ≤ o.added) := by
  obtain ⟨hmem, hyoung⟩ := mem_foldl_cleanupAddr (s.pools pool).keys s ho
  refine ⟨hmem, fun hp => hyoung hp ?_⟩
  by_contra hkey
  rw [hp, list_of_not_mem hkey] at hmem
  cases hmem

theorem cleanupPool (hs : Findable onTx now s) (hdet : HashesDetermine onTx) (compDate : Int)
    (pool : PoolType) : Findable onTx now (cleanupPool compDate pool s) := by
  have hloop : ∀ (addresses : List UnprefixedAddress) (s : TxPool), Findable onTx now s →
      Findable onTx now (addresses.foldl (TxPool.cleanupAddr compDate pool) s) := by
    intro addresses
    induction addresses with
    | nil => intro s hs; exact hs
    | cons a addresses ih => intro s hs; exact ih _ (hs.cleanupAddr hdet compDate pool a)
  exact hloop _ s hs

/-- The loop over `handled` forgets old records and does nothing else. -/
theorem foldl_forgetHandled (compDate : Int) (hashes : List UnprefixedHash) :
    ∀ s : TxPool, ∃ handled, hashes.foldl (forgetHandled compDate) s = { s with handled := handled } ∧
      ∀ h record, s.handled.get h = some record → compDate ≤ record.added →
        handled.get h = some record := by
  induction hashes with
  | nil => intro s; exact ⟨s.handled, rfl, fun _ _ h _ => h⟩
  | cons hash hashes ih =>
    intro s
    have hone : ∃ handled, forgetHandled compDate s hash = { s with handled := handled } ∧
        ∀ h record, s.handled.get h = some record → compDate ≤ record.added →
          handled.get h = some record := by
      unfold forgetHandled
      cases hget : s.handled.get hash with
      | none => exact ⟨s.handled, rfl, fun _ _ h _ => h⟩
      | some old =>
        simp only
        split
        · rename_i hold
          refine ⟨_, rfl, fun h record hrecord hyoung => ?_⟩
          rw [OrderedMap.get_delete, if_neg, hrecord]
          rintro rfl
          cases hget.symm.trans hrecord
          omega
        · exact ⟨s.handled, rfl, fun _ _ h _ => h⟩
    obtain ⟨handled₁, heq₁, hkeep₁⟩ := hone
    obtain ⟨handled₂, heq₂, hkeep₂⟩ := ih { s with handled := handled₁ }
    refine ⟨handled₂, ?_, fun h record hrecord hyoung => ?_⟩
    · rw [foldl_cons, heq₁, heq₂]
    · exact hkeep₂ h record (hkeep₁ h record hrecord hyoung) hyoung

/-- `cleanup` forgets a record later than it drops an object. -/
theorem cleanup (hs : Findable onTx now s) (hdet : HashesDetermine onTx) :
    Findable onTx now (s.cleanup now) := by
  let compDate := now - POOLED_STORAGE_TIME_LIMIT * 1000 * 60
  let cleaned := TxPool.cleanupPool compDate .queued (TxPool.cleanupPool compDate .pending s)
  have hcleaned : Findable onTx now cleaned :=
    (hs.cleanupPool hdet compDate .pending).cleanupPool hdet compDate .queued
  have hyoung : ∀ p a, ∀ o ∈ cleaned.list p a, compDate ≤ o.added := by
    intro p a o ho
    obtain ⟨hmem, hqueued⟩ := mem_cleanupPool ho
    cases p with
    | queued => exact hqueued rfl
    | pending => exact (mem_cleanupPool hmem).2 rfl
  obtain ⟨handled, heq, hkeep⟩ := foldl_forgetHandled
    (now - HANDLED_CLEANUP_TIME_LIMIT * 1000 * 60) cleaned.handled.keys cleaned
  have hresult : s.cleanup now = { cleaned with handled := handled } := heq
  rw [hresult]
  refine { toFiled := { counts := hcleaned.counts, filed := hcleaned.filed,
                        distinct := hcleaned.distinct },
           past := hcleaned.past, record := ?_ }
  intro p a o ho
  obtain ⟨record, hget, haddress, hadded⟩ := hcleaned.record p a o ho
  refine ⟨record, hkeep _ record hget ?_, haddress, hadded⟩
  have h := hyoung p a o ho
  simp only [compDate, POOLED_STORAGE_TIME_LIMIT] at h
  simp only [HANDLED_CLEANUP_TIME_LIMIT]
  omega

end Findable

/-! ## Runs -/

/-- An insertion does not replace an object of a list that is then found full, and
no object of the sender but the replaced one has the hash of the transaction. -/
def insertCondition : Condition where
  insert s tx isLocal a pool :=
    (!s.exceedsLimit tx isLocal a pool || (s.replaced tx a pool).isNone) &&
      (s.withoutReplaced tx a pool ++ s.list pool.other a).all (fun o => o.hash ≠ tx.hash)
  demote _ _ _ := true
  remove _ _ := true
  expire _ _ _ _ := true

theorem Findable.maintains {onTx : TypedTransaction → Prop} (hdet : HashesDetermine onTx) (now : Int) :
    Maintains insertCondition (fun _ => True) onTx (fun t => t = now) (Findable onTx now) where
  running _ hs := hs.same rfl rfl rfl rfl
  handleError e ht hsender hnow hs := by
    subst hnow
    exact hs.handleError hdet ht hsender e
  setNonce _ _ hs := hs.same rfl rfl rfl rfl
  clearNonceCache a hs := by cases a <;> exact hs.same rfl rfl rfl rfl
  addTx := by
    intro s head tx isLocal a nonce added _ ht hnow hsender _ _ hK hs
    subst hnow
    obtain ⟨hroom, hfresh⟩ := (Bool.and_eq_true _ _).mp hK
    cases hfits : s.exceedsLimit tx isLocal a (s.classify tx a nonce) with
    | true =>
      -- nothing was replaced, so the refused insertion changes nothing
      rw [hfits] at hroom
      have hnone : s.replaced tx a (s.classify tx a nonce) = none := by simpa using hroom
      rw [addTx_of_exceeds _ _ _ _ _ _ hfits, hnone]
      exact hs
    | false =>
      refine hs.addTx hdet ht hsender hfits (fun o ho => ?_)
      simpa using all_eq_true.mp hfresh o ho
  promoteAddr hi _ hs := hs.promoteAddr hdet (list_of_attached hi).symm _
  demoteAddr _ hi _ _ hs := hs.demoteAddr hdet (list_of_attached hi).symm _
  removeByHash _ hs := hs.removeByHash hdet _
  cleanup hnow _ hs := by
    subst hnow
    exact hs.cleanup hdet

/-- `Date.now()` does not go back in the course of a run. -/
def ClockRuns (calls : List (Env × Call)) : Prop :=
  (calls.map (fun c => c.1.now)).Pairwise (· ≤ ·)

/-- After a run whose insertions meet the condition everything pooled is findable,
at any time that is not before a call. -/
theorem Findable.run {onTx : TypedTransaction → Prop} (hdet : HashesDetermine onTx) {time : Int}
    (calls : List (Env × Call)) :
    ∀ {now : Int} {s : TxPool}, ClockRuns calls → (∀ c ∈ calls, now ≤ c.1.now) → now ≤ time →
      (∀ c ∈ calls, c.1.now ≤ time) → (∀ c ∈ calls, ∀ tx ∈ c.2.transactions, onTx tx) →
      insertCondition.onRun calls s = true → Findable onTx now s →
      ∀ {s' : TxPool}, TxPool.run calls s = some s' → Findable onTx time s' := by
  induction calls with
  | nil =>
    intro now s _ _ hnow _ _ _ hs s' h
    cases h
    exact hs.later hnow
  | cons ec calls ih =>
    obtain ⟨env, c⟩ := ec
    intro now s hclock hstart _ hend ht hK hs s' h
    obtain ⟨hnext, hclocks⟩ := pairwise_cons.mp hclock
    obtain ⟨hone, hrest⟩ := (Bool.and_eq_true _ _).mp hK
    unfold TxPool.run at h
    cases hc : s.call env c with
    | none => rw [hc] at h; cases h
    | some r =>
      rw [hc] at h hrest
      have hs' : Findable onTx env.now r.1 :=
        (Findable.maintains hdet env.now).call trivial (ht _ mem_cons_self) rfl hone
          (hs.later (hstart _ mem_cons_self)) hc
      exact ih hclocks (fun c hmem => hnext _ (mem_map_of_mem hmem))
        (hend _ mem_cons_self) (fun c hmem => hend c (mem_cons_of_mem _ hmem))
        (fun c hmem => ht c (mem_cons_of_mem _ hmem)) hrest hs' h

end TxPool
