-- SUMMARY: Nonces in the pool: when a sender's objects have different nonces, and when its pending objects are executable.
import TsEthereum.ExecutionClient.TxPool.Effects
import TsEthereum.ExecutionClient.TxPool.Runs

/-!
# Nonces

Two invariants of the senders' lists. `OneNonce`: no two pooled objects of a sender
have one nonce. `Executable`: the pending nonces of a sender run from its account
nonce upwards without a gap. Each holds in the runs whose steps meet a condition:
`add` looks for the replaced object in one pool only, and removals do not care
about the nonces they leave behind.
-/

open List Option

namespace TxPool

/-! ## One nonce, one transaction -/

/-- A sender's objects carry different nonces, and lie with their sender. -/
structure OneNonce (s : TxPool) : Prop where
  nonces : ∀ a, ((s.allTxsForSender a).map (fun o => o.tx.nonce)).Nodup
  sender : ∀ a, ∀ o ∈ s.allTxsForSender a, o.tx.sender = some a

/-- No sender has new objects. -/
def Shrinks (s s' : TxPool) : Prop :=
  ∀ a, (s'.allTxsForSender a).Subperm (s.allTxsForSender a)

theorem OneNonce.new : OneNonce TxPool.new where
  nonces _ := nodup_nil
  sender _ _ ho := by cases ho

theorem OneNonce.shrink {s s' : TxPool} (hs : OneNonce s) (h : Shrinks s s') : OneNonce s' where
  nonces a := by
    obtain ⟨l, hperm, hsub⟩ := h a
    have hl : (l.map (fun o : TxPoolObject => o.tx.nonce)).Nodup :=
      (hs.nonces a).sublist (hsub.map _)
    exact (hperm.map _).nodup_iff.mp hl
  sender a o ho := hs.sender a o ((h a).subset ho)

/-- A step that writes the lists of one sender shrinks the pool if it shrinks them. -/
theorem Shrinks.of_sender {s s' : TxPool} {a : UnprefixedAddress}
    (hframe : ∀ b, b ≠ a → ∀ p, s'.list p b = s.list p b)
    (h : (s'.allTxsForSender a).Subperm (s.allTxsForSender a)) : Shrinks s s' := by
  intro b
  by_cases hb : b = a
  · rw [hb]; exact h
  · rw [allTxsForSender, allTxsForSender, hframe b hb, hframe b hb]

variable {l : List TxPoolObject}

/-- A step that writes one list shrinks the pool if the list gets shorter. -/
theorem Shrinks.of_list {s s' : TxPool} {p : PoolType} {a : UnprefixedAddress}
    (hlist : s'.list = updateAt s.list p a l) (hsub : l.Sublist (s.list p a)) : Shrinks s s' := by
  apply Shrinks.of_sender (a := a)
  · intro b hb q
    rw [hlist, updateAt_of_address_ne _ _ _ hb]
  · have hself : s'.list p a = l := by rw [hlist, updateAt_self]
    have hother : s'.list p.other a = s.list p.other a := by
      rw [hlist, updateAt_of_pool_ne _ (PoolType.other_ne p)]
    refine (s'.allTxsForSender_perm_both a p).subperm.trans ?_
    rw [hself, hother]
    refine List.Subperm.trans ?_ (s.allTxsForSender_perm_both a p).symm.subperm
    exact (hsub.append (List.Sublist.refl _)).subperm

theorem shrinks_promoteAddr {s : TxPool} {a : UnprefixedAddress} {i : Nat}
    (hi : (s.pools .queued).get a = some i) (n : Nat) : Shrinks s (s.promoteAddr a i n) := by
  apply Shrinks.of_sender (a := a)
  · intro b hb p
    exact list_promoteAddr_of_ne s a i n hb p
  · have hperm := allTxsForSender_promoteAddr (list_of_attached hi).symm n
    exact ((sublist_append_left _ _).subperm).trans hperm.symm.subperm

theorem shrinks_demoteAddr {s : TxPool} {a : UnprefixedAddress} {i : Nat}
    (hi : (s.pools .pending).get a = some i) (account : Account) :
    Shrinks s (s.demoteAddr a i account) := by
  apply Shrinks.of_sender (a := a)
  · intro b hb p
    exact list_demoteAddr_of_ne s a i account hb p
  · have hperm := allTxsForSender_demoteAddr (list_of_attached hi).symm account
    exact ((sublist_append_left _ _).subperm).trans hperm.symm.subperm

theorem shrinks_removeByHash (s : TxPool) (hash : UnprefixedHash) : Shrinks s (s.removeByHash hash) := by
  cases s.removeByHash_cases hash with
  | inl hsame => rw [hsame]; intro a; exact List.Subperm.refl _
  | inr hfound =>
    obtain ⟨handled, o, _, _, _, heq⟩ := hfound
    rw [heq]
    exact Shrinks.of_list (list_takeOut _ _ _ _ _) filter_sublist

theorem shrinks_cleanupAddr (compDate : Int) (pool : PoolType) (s : TxPool) (a : UnprefixedAddress) :
    Shrinks s (cleanupAddr compDate pool s a) :=
  Shrinks.of_list (list_cleanupAddr _ _ _ _) filter_sublist

/-- The insertion finds the sender's object of the same nonce, if there is one, in
the pool it inserts into. -/
def nonceCondition : Condition where
  insert s tx isLocal a pool :=
    s.exceedsLimit tx isLocal a pool || (s.list pool.other a).all (fun o => o.tx.nonce ≠ tx.nonce)
  demote _ _ _ := true
  remove _ _ := true
  expire _ _ _ _ := true

section AddTx

variable {s : TxPool} {tx : TypedTransaction} {isLocal : Bool} {a : UnprefixedAddress} {pool : PoolType}
  (hs : OneNonce s) (hK : nonceCondition.insert s tx isLocal a pool = true)
  (hfits : s.exceedsLimit tx isLocal a pool = false)

include hs hK hfits

/-- No object that stays has the new nonce. -/
theorem OneNonce.stays_ne : ∀ o ∈ s.withoutReplaced tx a pool ++ s.list pool.other a,
    o.tx.nonce ≠ tx.nonce := by
  intro o ho
  cases mem_append.mp ho with
  | inl hin =>
    refine withoutReplaced_nonce ?_ hin
    have hall := ((s.allTxsForSender_perm_both a pool).map (fun o => o.tx.nonce)).nodup_iff.mp (hs.nonces a)
    rw [map_append] at hall
    exact (nodup_append.mp hall).1
  | inr hin =>
    simp only [nonceCondition, hfits, Bool.false_or] at hK
    simpa using all_eq_true.mp hK o hin

theorem OneNonce.addTx (added : Int) (hsender : tx.sender = some a) :
    OneNonce (s.addTx tx isLocal added a pool).1 := by
  have hnew := allTxsForSender_addTx s tx isLocal added a pool hfits
  have hold := s.allTxsForSender_replaced tx a pool
  have hframe : ∀ b, b ≠ a → (s.addTx tx isLocal added a pool).1.allTxsForSender b =
      s.allTxsForSender b := by
    intro b hb
    simp only [allTxsForSender, list_addTx _ _ _ _ _ _ hfits, updateAt_of_address_ne _ _ _ hb]
  constructor
  · intro b
    by_cases hb : b = a
    · subst hb
      rw [(hnew.map _).nodup_iff, map_cons, nodup_cons]
      constructor
      · intro hmem
        obtain ⟨o, ho, heq⟩ := mem_map.mp hmem
        exact hs.stays_ne hK hfits o ho heq
      · have hall := (hold.map (fun o => o.tx.nonce)).nodup_iff.mp (hs.nonces b)
        rw [map_append] at hall
        exact (nodup_append.mp hall).1
    · rw [hframe b hb]
      exact hs.nonces b
  · intro b o ho
    by_cases hb : b = a
    · subst hb
      cases mem_cons.mp (hnew.mem_iff.mp ho) with
      | inl heq => rw [heq]; exact hsender
      | inr hin => exact hs.sender b o (hold.mem_iff.mpr (mem_append_left _ hin))
    · rw [hframe b hb] at ho
      exact hs.sender b o ho

end AddTx

theorem OneNonce.preserves : Preserves nonceCondition (fun _ => True) (fun _ => True) OneNonce where
  aux _ _ _ hs := { nonces := hs.nonces, sender := hs.sender }
  setNonce _ _ hs := { nonces := hs.nonces, sender := hs.sender }
  clearNonceCache a hs := by cases a <;> exact { nonces := hs.nonces, sender := hs.sender }
  addTx := by
    intro s head tx isLocal a nonce added _ _ hsender _ _ hK hs
    cases hfits : s.exceedsLimit tx isLocal a (s.classify tx a nonce) with
    | true =>
      have hlist := list_addTx_of_exceeds s tx isLocal added a _ hfits
      apply hs.shrink
      intro b
      rw [allTxsForSender, allTxsForSender, hlist]
    | false => exact hs.addTx hK hfits added hsender
  promoteAddr hi _ hs := hs.shrink (shrinks_promoteAddr hi _)
  demoteAddr _ hi _ _ hs := hs.shrink (shrinks_demoteAddr hi _)
  removeByHash _ hs := hs.shrink (shrinks_removeByHash _ _)
  cleanupAddr _ hs := hs.shrink (shrinks_cleanupAddr _ _ _ _)

/-! ### The replaced transaction -/

/-- Every object of the sender `a` with the nonce of `tx` is one for `tx`. -/
def NonceTaken (tx : TypedTransaction) (a : UnprefixedAddress) (s : TxPool) : Prop :=
  ∀ o ∈ s.allTxsForSender a, o.tx.nonce = tx.nonce → o.tx = tx

theorem NonceTaken.preserves (tx : TypedTransaction) (a : UnprefixedAddress) :
    Preserves Condition.noInsert (fun _ => True) (fun _ => True) (NonceTaken tx a) where
  aux _ _ _ hs := hs
  setNonce _ _ hs := hs
  clearNonceCache b hs := by cases b <;> exact hs
  addTx _ _ _ _ _ _ hK _ := by cases hK
  promoteAddr hi _ hs o ho := hs o ((shrinks_promoteAddr hi _ a).subset ho)
  demoteAddr _ hi _ _ hs o ho := hs o ((shrinks_demoteAddr hi _ a).subset ho)
  removeByHash _ hs o ho := hs o ((shrinks_removeByHash _ _ a).subset ho)
  cleanupAddr _ hs o ho := hs o ((shrinks_cleanupAddr _ _ _ _ a).subset ho)

/-- In a pool with one transaction for each nonce, the existing transaction that
`validate` finds is the only one of its nonce. -/
theorem OneNonce.existingTxn {s : TxPool} (hs : OneNonce s) {tx : TypedTransaction}
    {a : UnprefixedAddress} {o : TxPoolObject} (ho : o ∈ s.allTxsForSender a)
    (hn : o.tx.nonce = tx.nonce) : s.existingTxn tx a = some o := by
  cases hfind : s.existingTxn tx a with
  | none =>
    have hno := find?_eq_none.mp hfind o ho
    simp only [decide_eq_true_eq] at hno
    exact absurd hn hno
  | some o' =>
    have hmem : o' ∈ s.allTxsForSender a := mem_of_find?_eq_some hfind
    have hn' : o'.tx.nonce = tx.nonce := by simpa using find?_some hfind
    rw [inj_on_of_nodup_map (hs.nonces a) hmem ho (hn'.trans hn.symm)]

/-- A resolved `add` leaves no trace of the transaction it replaces. -/
theorem OneNonce.add_replaces {env : Env} {s s' : TxPool} {tx : TypedTransaction} {isLocal : Bool}
    (hs : OneNonce s) (hK : nonceCondition.onAdd env s tx isLocal = true)
    (h : s.add env tx isLocal = some (s', none)) {a : UnprefixedAddress} (hsender : tx.sender = some a)
    {o : TxPoolObject} (ho : o ∈ s.allTxsForSender a) (hn : o.tx.nonce = tx.nonce) :
    ∀ p b, ∀ o' ∈ s'.list p b, o'.tx ≠ o.tx := by
  intro p b o' ho' heq
  have hs' : OneNonce s' := OneNonce.preserves.maintains.add trivial trivial trivial hK hs h
  obtain ⟨a', s₁, nonce, s₂, s₃, hsender', hv, hnonce, hadd, hprom, henf⟩ := add_resolved h
  obtain rfl : a = a' := some.inj (hsender.symm.trans hsender')
  have hne : o.tx ≠ tx := fun htx => validate_existing hv (hs.existingTxn ho hn) (by rw [htx])
  -- right after the insertion only the new object has the nonce, and nothing is inserted later
  have htaken₂ : NonceTaken tx a s₂ := by
    obtain ⟨hs₁, _, _, hval⟩ := OneNonce.preserves.maintains.accountNonce trivial hnonce hs
    simp only [Condition.onAdd, hsender, Condition.onAddFrom, hv, hnonce, Bool.and_eq_true] at hK
    have hfits : s₁.exceedsLimit tx isLocal a (s₁.classify tx a nonce) = false := by
      cases hfits : s₁.exceedsLimit tx isLocal a (s₁.classify tx a nonce) with
      | false => rfl
      | true => rw [addTx_of_exceeds _ _ _ _ _ _ hfits] at hadd; cases hadd
    have hnew := allTxsForSender_addTx s₁ tx isLocal env.now a _ hfits
    rw [hadd] at hnew
    intro x hx hxn
    cases mem_cons.mp (hnew.mem_iff.mp hx) with
    | inl hxnew => rw [hxnew]; rfl
    | inr hin => exact absurd hxn (hs₁.stays_ne hK.1 hfits x hin)
  have htaken₃ : NonceTaken tx a s₃ := by
    have hstep : NonceTaken tx a (promoteAfterAdd env.head a s₂ (s₁.classify tx a nonce)).1 :=
      (NonceTaken.preserves tx a).maintains.promoteAfterAdd trivial a (s₁.classify tx a nonce) htaken₂
    rw [hprom] at hstep
    exact hstep
  have htaken : NonceTaken tx a s' :=
    (NonceTaken.preserves tx a).maintains.enforcePoolLimits (Condition.noInsert_onLimits s₃) htaken₃ henf
  have hb : b = a := by
    have hown := hs'.sender b o' (mem_allTxsForSender.mpr ⟨p, ho'⟩)
    rw [heq, hs.sender a o ho] at hown
    exact (some.inj hown).symm
  subst hb
  exact hne (heq ▸ htaken o' (mem_allTxsForSender.mpr ⟨p, ho'⟩) (heq ▸ hn))

/-- In every run whose insertions meet the condition, a sender's objects have
different nonces, and a resolved `add` that meets it leaves no trace of the
transaction it replaces. -/
theorem run_oneNonce {calls : List (Env × Call)} (hK : nonceCondition.onRun calls new = true)
    {s : TxPool} (h : run calls new = some s) :
    (∀ a, ((s.allTxsForSender a).map (fun o => o.tx.nonce)).Nodup) ∧
      ∀ env tx isLocal a s', nonceCondition.onAdd env s tx isLocal = true → tx.sender = some a →
        s.add env tx isLocal = some (s', none) →
        ∀ o ∈ s.allTxsForSender a, o.tx.nonce = tx.nonce → ∀ p b, ∀ o' ∈ s'.list p b, o'.tx ≠ o.tx := by
  have hs := OneNonce.preserves.run calls new (fun _ _ => trivial) (fun _ _ _ _ => trivial) hK
    OneNonce.new s h
  refine ⟨hs.nonces, ?_⟩
  intro env tx isLocal a s' hadd hsender hres o ho hn
  exact hs.add_replaces hadd hres hsender ho hn

/-- Two transactions of a sender, and a better paid one for the second nonce. -/
def replacementRun : List (Env × Call) :=
  [(sampleEnv 0, .add (sampleTx 7 0 1) false), (sampleEnv 0, .add (sampleTx 8 1 1) false),
    (sampleEnv 0, .add (sampleTx 9 1 2) false)]

/-- The last transaction of `replacementRun` goes to `queued`, the one it replaces
stays in `pending`. -/
theorem replacementRun_not_oneNonce :
    ∃ s, run replacementRun new = some s ∧ ∃ o ∈ s.list .pending 1, ∃ o' ∈ s.list .queued 1,
      o.tx ≠ o'.tx ∧ o.tx.nonce = o'.tx.nonce := by
  have hrun : (run replacementRun new).map (fun s => (s.list .pending 1, s.list .queued 1)) =
      some ([newObject (sampleTx 7 0 1) 0, newObject (sampleTx 8 1 1) 0],
        [newObject (sampleTx 9 1 2) 0]) := by decide
  obtain ⟨s, hs, heq⟩ := map_eq_some_iff.mp hrun
  obtain ⟨hpending, hqueued⟩ := Prod.mk.inj heq
  refine ⟨s, hs, newObject (sampleTx 8 1 1) 0, ?_, newObject (sampleTx 9 1 2) 0, ?_, ?_, rfl⟩
  · rw [hpending]; decide
  · rw [hqueued]; decide
  · decide

/-- A replacement of the first nonce, which is found where it is inserted. -/
theorem run_oneNonce_sample :
    ∃ s, run [(sampleEnv 0, .add (sampleTx 7 0 1) false), (sampleEnv 0, .add (sampleTx 9 0 2) false)]
        new = some s ∧ ∀ a, ((s.allTxsForSender a).map (fun o => o.tx.nonce)).Nodup :=
  ⟨_, rfl, (@run_oneNonce [(sampleEnv 0, .add (sampleTx 7 0 1) false),
    (sampleEnv 0, .add (sampleTx 9 0 2) false)] (by decide) _ rfl).1⟩

/-! ## Executable pending lists -/

/-- The account nonce under a head. -/
def headNonce (head : Head) (a : UnprefixedAddress) : Nat :=
  ((head.getAccount a).getD Account.new).nonce

/-- The pending nonces of each sender run from its account nonce upwards without a
gap, and the nonce cache tells the truth about the head. -/
structure Executable (head : Head) (s : TxPool) : Prop where
  pending : ∀ a, (s.list .pending a).map (fun o => o.tx.nonce) =
    List.range' (headNonce head a) (s.list .pending a).length
  cache : ∀ a n, s.accountNonces.get a = some n → n = headNonce head a

variable {n : Nat}

theorem sortByNonce_of_perm_range' {k : Nat}
    (h : (l.map (fun o => o.tx.nonce)).Perm (List.range' n k)) :
    (sortByNonce l).map (fun o => o.tx.nonce) = List.range' n k := by
  have hsorted : ((sortByNonce l).map (fun o => o.tx.nonce)).Pairwise (· ≤ ·) := by
    rw [pairwise_map]
    exact pairwise_insertionSort _ l
  refine Perm.eq_of_pairwise ?_ hsorted (pairwise_le_range' (s := n))
    (((sortByNonce_perm l).map _).trans h)
  intro x y _ _ hxy hyx
  exact Nat.le_antisymm hxy hyx

/-- In a gapless list the next expected nonce is the one after the last. -/
theorem nextExpectedNonce_of_range' (h : l.map (fun o => o.tx.nonce) = List.range' n l.length) :
    nextExpectedNonce n l = n + l.length := by
  cases l with
  | nil => rfl
  | cons x l =>
    have hmem : ∀ m, m ∈ (x :: l).map (fun o => o.tx.nonce) ↔ n ≤ m ∧ m < n + (x :: l).length := by
      intro m
      rw [h, mem_range'_1]
    obtain ⟨o, ho, heq⟩ := maxNonce_attained x l
    have hupper := ((hmem _).mp (mem_map_of_mem (f := fun o : TxPoolObject => o.tx.nonce) ho)).2
    have hlast : n + l.length ∈ (x :: l).map (fun o => o.tx.nonce) :=
      (hmem _).mpr ⟨Nat.le_add_right _ _, by simp⟩
    obtain ⟨o', ho', heq'⟩ := mem_map.mp hlast
    have hlower := le_maxNonce ho' x
    simp only [length_cons] at hupper
    simp only [nextExpectedNonce, length_cons]
    omega

theorem Executable.new (head : Head) : Executable head TxPool.new where
  pending _ := rfl
  cache _ _ h := by cases h

/-- A prefix of a gapless list is gapless. -/
theorem range'_of_prefix {l' : List TxPoolObject} (hpre : l' <+: l)
    (h : l.map (fun o => o.tx.nonce) = List.range' n l.length) :
    l'.map (fun o => o.tx.nonce) = List.range' n l'.length := by
  obtain ⟨t, rfl⟩ := hpre
  rw [map_append, length_append, ← range'_append_1] at h
  exact (append_inj h (by simp)).1

theorem classify_pending {s : TxPool} {tx : TypedTransaction} {a : UnprefixedAddress}
    (h : s.classify tx a n = .pending) :
    tx.nonce = n ∨ tx.nonce = nextExpectedNonce n (s.list .pending a) := by
  unfold classify at h
  cases hl : s.list .pending a with
  | nil =>
    rw [hl] at h
    simp only at h
    split at h
    · rename_i heq
      exact Or.inl heq
    · cases h
  | cons o l =>
    rw [hl] at h
    simp only at h
    split at h
    · rename_i heq
      exact Or.inr heq
    · split at h
      · rename_i heq
        exact Or.inl heq
      · cases h

/-- Inserting into a gapless pending list leaves a gapless one, once sorted. -/
theorem addedNonces_perm {s : TxPool} {tx : TypedTransaction} {a : UnprefixedAddress} {added : Int}
    (h : (s.list .pending a).map (fun o => o.tx.nonce) = List.range' n (s.list .pending a).length)
    (hclass : s.classify tx a n = .pending) :
    ((s.withoutReplaced tx a .pending ++ [newObject tx added]).map (fun o => o.tx.nonce)).Perm
      (List.range' n (s.withoutReplaced tx a .pending ++ [newObject tx added]).length) := by
  have hkept := s.replaced_perm tx a .pending
  have hnonces := hkept.map (fun o => o.tx.nonce)
  have hlen := hkept.length_eq
  rw [h] at hnonces
  cases hold : s.replaced tx a .pending with
  | some o =>
    -- the replaced nonce comes back
    rw [hold] at hnonces hlen
    have ho := s.replaced_nonce tx a .pending hold
    simp only [toList_some, cons_append, nil_append, map_cons,
      length_cons] at hnonces hlen
    rw [map_append, length_append, length_singleton, ← hlen]
    refine List.Perm.trans ?_ hnonces.symm
    rw [ho]
    exact perm_append_comm
  | none =>
    -- the new nonce is none of the list's, so it is the one after the last
    rw [hold] at hnonces hlen
    simp only [toList_none, nil_append] at hnonces hlen
    have hnew : tx.nonce = n + (s.list .pending a).length := by
      have hout : tx.nonce ∉ (s.list .pending a).map (fun o => o.tx.nonce) := by
        intro hmem
        obtain ⟨o, ho, heq⟩ := mem_map.mp hmem
        have hno := find?_eq_none.mp hold o ho
        simp only [decide_eq_true_eq] at hno
        exact hno heq
      rw [h, mem_range'_1] at hout
      cases classify_pending hclass with
      | inl heq => omega
      | inr heq => rw [heq, nextExpectedNonce_of_range' h]
    rw [map_append, length_append, length_singleton, ← hlen, ← range'_append_1]
    refine hnonces.symm.append ?_
    simp [newObject, hnew]

/-- A removed hash, or what `cleanup` drops, is a tail of its pending list. -/
def tailCondition : Condition where
  insert _ _ _ _ _ := true
  demote _ _ _ := true
  remove s hash :=
    match s.handled.get hash with
    | none => true
    | some h => ((s.list .pending h.address).filter (fun obj => obj.hash ≠ hash)).isPrefixOf
        (s.list .pending h.address)
  expire compDate pool s a :=
    match pool with
    | .pending => (updatedObjects compDate .pending s a).isPrefixOf (s.list .pending a)
    | .queued => true

namespace Executable

variable {head : Head} {s s' : TxPool}

section

variable (hs : Executable head s)
include hs

/-- A step that leaves the cache alone and takes a tail off one pending list. -/
theorem of_prefix (hcache : s'.accountNonces = s.accountNonces)
    (h : ∀ a, s'.list .pending a <+: s.list .pending a) : Executable head s' where
  pending a := range'_of_prefix (h a) (hs.pending a)
  cache a n hn := hs.cache a n (hcache ▸ hn)

/-- A step that writes the pending list of one sender. -/
theorem of_pending (hcache : s'.accountNonces = s.accountNonces)
    {a : UnprefixedAddress} (hframe : ∀ b, b ≠ a → s'.list .pending b = s.list .pending b)
    (h : (s'.list .pending a).map (fun o => o.tx.nonce) =
      List.range' (headNonce head a) (s'.list .pending a).length) : Executable head s' where
  pending b := by
    by_cases hb : b = a
    · rw [hb]; exact h
    · rw [hframe b hb]; exact hs.pending b
  cache b n hn := hs.cache b n (hcache ▸ hn)

/-- The promoted objects go on where the pending ones end. -/
theorem promoteAddr {a : UnprefixedAddress} (i : Nat) {n : Nat}
    (hn : s.accountNonces.get a = some n) : Executable head (s.promoteAddr a i n) := by
  have hnonce := hs.cache a n hn
  have hnext := nextExpectedNonce_of_range' (hs.pending a)
  apply hs.of_pending (accountNonces_promoteAddr s a i n)
    (fun b hb => list_promoteAddr_of_ne s a i n hb .pending)
  have hmoved : (s.list .pending a ++ (s.promoteSplit a i n).toPromote).map (fun o => o.tx.nonce) =
      List.range' (headNonce head a)
        (s.list .pending a ++ (s.promoteSplit a i n).toPromote).length := by
    rw [map_append, length_append, ← range'_append_1, hs.pending a, promoteSplit,
      splitQueued_toPromote_nonces, hnonce, hnext]
  have hperm := list_promoteAddr_pending_perm s a i n
  rw [list_promoteAddr_pending]
  split
  · exact hs.pending a
  · rw [length_sortByNonce]
    apply sortByNonce_of_perm_range'
    rw [hmoved]

/-- Whatever `demoteUnexecutables` leaves in `pending` is executable. -/
theorem demoteAddr {a : UnprefixedAddress} (i : Nat) {account : Account}
    (hacc : head.getAccount a = some account) : Executable head (s.demoteAddr a i account) where
  pending b := by
    by_cases hb : b = a
    · subst hb
      have hnonce : headNonce head b = account.nonce := by simp [headNonce, hacc]
      rw [list_demoteAddr_pending, demoteSplit, splitPending_stillPending_nonces, hnonce]
    · rw [list_demoteAddr_of_ne s a i account hb]
      exact hs.pending b
  cache b n hn := by
    rw [accountNonces_demoteAddr, OrderedMap.get_set] at hn
    split at hn
    · rename_i hb
      cases hn
      simp [headNonce, hb, hacc]
    · exact hs.cache b n hn

/-- An insertion into `pending` fills the next nonce or replaces the first one. -/
theorem addTx {tx : TypedTransaction} {isLocal : Bool} (added : Int)
    {a : UnprefixedAddress} {n : Nat} (hn : s.accountNonces.get a = some n) :
    Executable head (s.addTx tx isLocal added a (s.classify tx a n)).1 := by
  have hcache := accountNonces_addTx s tx isLocal added a (s.classify tx a n)
  cases hfits : s.exceedsLimit tx isLocal a (s.classify tx a n) with
  | true =>
    apply hs.of_prefix hcache
    intro b
    rw [list_addTx_of_exceeds _ _ _ _ _ _ hfits]
  | false =>
    have hlist := list_addTx s tx isLocal added a _ hfits
    cases hpool : s.classify tx a n with
    | queued =>
      rw [hpool] at hlist hcache
      apply hs.of_prefix hcache
      intro b
      rw [hlist, updateAt_of_pool_ne _ (by decide)]
    | pending =>
      rw [hpool] at hlist hcache
      apply hs.of_pending (a := a) hcache
      · intro b hb
        rw [hlist, updateAt_of_address_ne _ _ _ hb]
      · rw [hlist, updateAt_self, length_sortByNonce]
        apply sortByNonce_of_perm_range'
        have hnonce := hs.cache a n hn
        rw [← hnonce]
        exact addedNonces_perm (hnonce ▸ hs.pending a) hpool

theorem removeByHash {hash : UnprefixedHash}
    (hK : tailCondition.remove s hash = true) : Executable head (s.removeByHash hash) := by
  cases s.removeByHash_cases hash with
  | inl hsame => rw [hsame]; exact hs
  | inr hfound =>
    obtain ⟨handled, o, hh, _, _, heq⟩ := hfound
    rw [heq]
    apply hs.of_prefix (accountNonces_takeOut _ _ _ _ _)
    intro a
    rw [list_takeOut]
    cases hpool : s.poolOfHash hash handled.address with
    | queued => rw [updateAt_of_pool_ne _ (by decide)]
    | pending =>
      by_cases ha : a = handled.address
      · rw [ha, updateAt_self]
        simp only [tailCondition, hh] at hK
        exact isPrefixOf_iff_prefix.mp hK
      · rw [updateAt_of_address_ne _ _ _ ha]

theorem cleanupAddr {compDate : Int} {pool : PoolType} {a : UnprefixedAddress}
    (hK : tailCondition.expire compDate pool s a = true) :
    Executable head (cleanupAddr compDate pool s a) := by
  apply hs.of_prefix (accountNonces_cleanupAddr _ _ _ _)
  intro b
  rw [list_cleanupAddr]
  cases pool with
  | queued => rw [updateAt_of_pool_ne _ (by decide)]
  | pending =>
    by_cases hb : b = a
    · rw [hb, updateAt_self]
      exact isPrefixOf_iff_prefix.mp hK
    · rw [updateAt_of_address_ne _ _ _ hb]

theorem clearNonceCache (a : Option UnprefixedAddress) : Executable head (s.clearNonceCache a) := by
  cases a with
  | none => exact { pending := hs.pending, cache := fun b n hn => by cases hn }
  | some a =>
    refine { pending := hs.pending, cache := fun b n hn => ?_ }
    simp only [TxPool.clearNonceCache, OrderedMap.get_delete] at hn
    split at hn
    · cases hn
    · exact hs.cache b n hn

theorem setNonce {a : UnprefixedAddress} {account : Account}
    (hacc : head.getAccount a = some account) : Executable head (s.setNonce a account.nonce) where
  pending := hs.pending
  cache b n hn := by
    simp only [TxPool.setNonce, OrderedMap.get_set] at hn
    split at hn
    · rename_i hb
      cases hn
      simp [headNonce, hb, hacc]
    · exact hs.cache b n hn

end

theorem preserves (head : Head) :
    Preserves tailCondition (fun h => h = head) (fun _ => True) (Executable head) where
  aux _ _ _ hs := { pending := hs.pending, cache := hs.cache }
  setNonce hh hacc hs := by
    subst hh
    exact hs.setNonce hacc
  clearNonceCache a hs := hs.clearNonceCache a
  addTx added _ _ _ _ hn _ hs := hs.addTx added hn
  promoteAddr _ hn hs := hs.promoteAddr _ hn
  demoteAddr hh _ hacc _ hs := by
    subst hh
    exact hs.demoteAddr _ hacc
  removeByHash hK hs := hs.removeByHash hK
  cleanupAddr hK hs := hs.cleanupAddr hK

end Executable

/-- Under one head, the pending list of every sender is executable after every run
whose removals take away tails. -/
theorem run_executable {head : Head} {calls : List (Env × Call)} (hhead : ∀ c ∈ calls, c.1.head = head)
    (hK : tailCondition.onRun calls new = true) {s : TxPool} (h : run calls new = some s) :
    ∀ a, (s.list .pending a).map (fun o => o.tx.nonce) =
      List.range' (headNonce head a) (s.list .pending a).length :=
  ((Executable.preserves head).run calls new hhead (fun _ _ _ _ => trivial) hK
    (Executable.new head) s h).pending

/-- Two transactions, promoted and demoted; then the second one is removed. -/
def tailRun : List (Env × Call) :=
  [(sampleEnv 0, .add (sampleTx 8 1 1) false), (sampleEnv 0, .add (sampleTx 7 0 1) false),
    (sampleEnv 0, .demoteUnexecutables), (sampleEnv 0, .removeByHash 8)]

theorem run_executable_sample : ∃ s, run tailRun new = some s ∧
    ∀ a, (s.list .pending a).map (fun o => o.tx.nonce) =
      List.range' (headNonce (sampleEnv 0).head a) (s.list .pending a).length := by
  refine ⟨_, rfl, @run_executable (sampleEnv 0).head tailRun ?_ (by decide) _ rfl⟩
  intro c hc
  simp only [tailRun, mem_cons, not_mem_nil, or_false] at hc
  rcases hc with rfl | rfl | rfl | rfl <;> rfl

/-- Removing the first of two pending transactions leaves the second one. -/
theorem removal_not_executable :
    ∃ s, run [(sampleEnv 0, .add (sampleTx 7 0 1) false), (sampleEnv 0, .add (sampleTx 8 1 1) false),
        (sampleEnv 0, .removeByHash 7)] new = some s ∧
      ¬(s.list .pending 1).map (fun o => o.tx.nonce) =
        List.range' (headNonce (sampleEnv 0).head 1) (s.list .pending 1).length := by
  have hrun : (run [(sampleEnv 0, .add (sampleTx 7 0 1) false),
      (sampleEnv 0, .add (sampleTx 8 1 1) false), (sampleEnv 0, .removeByHash 7)] new).map
      (fun s => s.list .pending 1) = some [newObject (sampleTx 8 1 1) 0] := by decide
  obtain ⟨s, hs, heq⟩ := map_eq_some_iff.mp hrun
  exact ⟨s, hs, by rw [heq]; decide⟩

end TxPool
