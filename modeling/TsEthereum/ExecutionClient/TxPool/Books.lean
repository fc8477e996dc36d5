-- SUMMARY: The redundant structures of the pool: counts, price heap and hash index agree with the lists in every run that meets a condition, and not in every run.
import TsEthereum.ExecutionClient.TxPool.Filed
import TsEthereum.ExecutionClient.TxPool.Runs

/-!
# The books of the pool

`pendingCount`, `queuedCount`, `priced` and `hashIndex` repeat what the lists
say. `Books` states their agreement, and `FiledBooks` the invariant that carries
it: in addition each object lies with its sender, and no list repeats a nonce.
Every step that keeps the books writes the lists of one sender, so one lemma
(`FiledBooks.refile`) takes the step's effects on that sender to the whole pool.
-/

open List Multiset

namespace TxPool

/-- The counts, the heap and the index agree with the lists. -/
structure Books (s : TxPool) : Prop where
  counts : ∀ p, s.counts p = (s.pools p).sumKeys (fun a => ((s.list p a).length : Int))
  priced : s.priced.items = s.pooled .pending + s.pooled .queued
  distinct : (s.priced.items.map TxPoolObject.hash).Nodup
  index : ∀ h e, s.hashIndex.get h = some e ↔ ∃ o ∈ s.list e.poolType e.address, o.hash = h

/-- The invariant behind `Books`. -/
structure FiledBooks (onTx : TypedTransaction → Prop) (s : TxPool) : Prop extends Filed onTx s where
  priced : s.priced.items = s.pooled .pending + s.pooled .queued
  index : ∀ h e, s.hashIndex.get h = some e ↔ ∃ o ∈ s.list e.poolType e.address, o.hash = h
  nonces : ∀ p a, ((s.list p a).map (fun o => o.tx.nonce)).Nodup

theorem FiledBooks.new {onTx : TypedTransaction → Prop} : FiledBooks onTx TxPool.new where
  toFiled := Filed.new
  priced := rfl
  index h e := by simp [TxPool.new, TxPool.list]
  nonces p a := nodup_nil

section

variable {onTx : TypedTransaction → Prop} (hdet : HashesDetermine onTx)

namespace FiledBooks

variable {s : TxPool} (hs : FiledBooks onTx s)

include hdet hs in
theorem priced_nodup : (s.priced.items.map TxPoolObject.hash).Nodup := by
  rw [hs.priced]
  exact hs.nodup_hashes hdet

include hdet hs in
theorem books : Books s where
  counts := hs.counts
  priced := hs.priced
  distinct := hs.priced_nodup hdet
  index := hs.index

include hs

/-- The objects of one sender are in the heap. -/
theorem allTxsForSender_le (a : UnprefixedAddress) :
    (s.allTxsForSender a : Multiset TxPoolObject) ≤ s.priced.items := by
  have hone : ∀ p, (s.list p a : Multiset TxPoolObject) ≤ s.pooled p := by
    intro p
    by_cases hkey : a ∈ (s.pools p).keys
    · exact OrderedMap.le_sumKeys (fun b => (s.list p b : Multiset TxPoolObject)) hkey
    · rw [list_of_not_mem hkey]
      exact Multiset.zero_le _
  rw [hs.priced, allTxsForSender, ← coe_add]
  exact add_le_add (hone .pending) (hone .queued)

theorem list_le (p : PoolType) (a : UnprefixedAddress) :
    (s.list p a : Multiset TxPoolObject) ≤ s.priced.items := by
  refine le_trans ?_ (hs.allTxsForSender_le a)
  rw [allTxsForSender, ← coe_add]
  cases p with
  | pending => exact Multiset.le_add_right _ _
  | queued => exact Multiset.le_add_left _ _

theorem indexed {p : PoolType} {a : UnprefixedAddress} {o : TxPoolObject} (ho : o ∈ s.list p a) :
    s.hashIndex.get o.hash = some { address := a, poolType := p } :=
  (hs.index o.hash { address := a, poolType := p }).mpr ⟨o, ho, rfl⟩

end FiledBooks

/-! ## One sender's lists change -/

/-- `s'` has new lists for the sender `a` only, and its heap and index follow them. -/
structure Refiles (onTx : TypedTransaction → Prop) (s s' : TxPool) (a : UnprefixedAddress) : Prop
    extends Filed onTx s' where
  frame : ∀ b, b ≠ a → ∀ p, s'.list p b = s.list p b
  priced : s'.priced.items + s.allTxsForSender a = s.priced.items + s'.allTxsForSender a
  nonces : ∀ p, ((s'.list p a).map (fun o => o.tx.nonce)).Nodup
  indexed : ∀ p, ∀ o ∈ s'.list p a, s'.hashIndex.get o.hash = some { address := a, poolType := p }
  unindexed : ∀ o ∈ s.allTxsForSender a, o.hash ∉ (s'.allTxsForSender a).map TxPoolObject.hash →
    s'.hashIndex.get o.hash = none
  others : ∀ h, h ∉ (s.allTxsForSender a).map TxPoolObject.hash →
    h ∉ (s'.allTxsForSender a).map TxPoolObject.hash → s'.hashIndex.get h = s.hashIndex.get h

variable {s' : TxPool} {a : UnprefixedAddress}

include hdet in
/-- The step lemma of the books. -/
theorem FiledBooks.refile {s : TxPool} (hs : FiledBooks onTx s) (hr : Refiles onTx s s' a) :
    FiledBooks onTx s' where
  toFiled := hr.toFiled
  priced := by
    have hpend := pooled_change hr.frame .pending
    have hqueue := pooled_change hr.frame .queued
    have hpriced := hr.priced
    rw [hs.priced, allTxsForSender, allTxsForSender, ← coe_add, ← coe_add] at hpriced
    have hboth : s'.priced.items + (s.list .pending a + s.list .queued a : Multiset TxPoolObject) =
        (s'.pooled .pending + s'.pooled .queued) + (s.list .pending a + s.list .queued a) := by
      calc s'.priced.items + (s.list .pending a + s.list .queued a : Multiset TxPoolObject)
          = (s.pooled .pending + s'.list .pending a) + (s.pooled .queued + s'.list .queued a) := by
            rw [hpriced, add_add_add_comm]
        _ = (s'.pooled .pending + s.list .pending a) + (s'.pooled .queued + s.list .queued a) := by
            rw [hpend, hqueue]
        _ = _ := add_add_add_comm _ _ _ _
    exact add_right_cancel hboth
  index h e := by
    constructor
    · intro hget
      by_cases hin : h ∈ (s'.allTxsForSender a).map TxPoolObject.hash
      · obtain ⟨o, ho, rfl⟩ := mem_map.mp hin
        obtain ⟨p, hp⟩ := mem_allTxsForSender.mp ho
        rw [hr.indexed p o hp] at hget
        cases hget
        exact ⟨o, hp, rfl⟩
      · by_cases hold : h ∈ (s.allTxsForSender a).map TxPoolObject.hash
        · obtain ⟨o, ho, rfl⟩ := mem_map.mp hold
          rw [hr.unindexed o ho hin] at hget
          cases hget
        · rw [hr.others h hold hin] at hget
          obtain ⟨o, ho, rfl⟩ := (hs.index h e).mp hget
          have hne : e.address ≠ a := by
            intro heq
            exact hold (mem_map_of_mem (mem_allTxsForSender.mpr ⟨e.poolType, heq ▸ ho⟩))
          exact ⟨o, by rw [hr.frame _ hne]; exact ho, rfl⟩
    · rintro ⟨o, ho, rfl⟩
      by_cases hea : e.address = a
      · obtain ⟨b, p⟩ := e
        simp only at hea ho
        subst hea
        exact hr.indexed p o ho
      · -- an object of another sender has none of the hashes of `a`
        have hsame : ∀ l : List TxPoolObject, (∀ o' ∈ l, FiledUnder onTx a o') →
            o.hash ∉ l.map TxPoolObject.hash := by
          intro l hl hmem
          obtain ⟨o', ho', heq⟩ := mem_map.mp hmem
          exact hea ((hr.filed _ _ o ho).address_eq hdet (hl o' ho') heq.symm)
        rw [hr.others _ (hsame _ (fun _ => hs.filed_all)) (hsame _ (fun _ => hr.filed_all))]
        rw [hr.frame _ hea] at ho
        exact (hs.index _ e).mpr ⟨o, ho, rfl⟩
  nonces p b := by
    by_cases hb : b = a
    · subst hb; exact hr.nonces p
    · rw [hr.frame b hb p]
      exact hs.nonces p b

/-- A step that only drops objects of the sender `a`, or moves them between its
two lists. -/
theorem Refiles.of_drop {s : TxPool} (gone : List TxPoolObject) (hfiled : Filed onTx s')
    (hframe : ∀ b, b ≠ a → ∀ p, s'.list p b = s.list p b)
    (hperm : (s.allTxsForSender a).Perm (s'.allTxsForSender a ++ gone))
    (hpriced : s'.priced.items + gone = s.priced.items)
    (hnonces : ∀ p, ((s'.list p a).map (fun o => o.tx.nonce)).Nodup)
    (hindexed : ∀ p, ∀ o ∈ s'.list p a, s'.hashIndex.get o.hash = some { address := a, poolType := p })
    (hgone : ∀ o ∈ gone, s'.hashIndex.get o.hash = none)
    (hothers : ∀ h, h ∉ (s.allTxsForSender a).map TxPoolObject.hash →
      s'.hashIndex.get h = s.hashIndex.get h) : Refiles onTx s s' a where
  toFiled := hfiled
  frame := hframe
  priced := by
    rw [← hpriced, Multiset.coe_eq_coe.mpr hperm, ← coe_add]
    ac_rfl
  nonces := hnonces
  indexed := hindexed
  unindexed o ho hout := by
    cases mem_append.mp (hperm.mem_iff.mp ho) with
    | inl hin => exact absurd (mem_map_of_mem hin) hout
    | inr hin => exact hgone o hin
  others h hold _ := hothers h hold

/-! ## The steps -/

/-- `gone` leaves one list of a sender, the heap and the index. -/
structure Leaves (s s' : TxPool) (p : PoolType) (a : UnprefixedAddress) (l gone : List TxPoolObject) :
    Prop where
  list : s'.list = updateAt s.list p a l
  sublist : l.Sublist (s.list p a)
  perm : (s.list p a).Perm (l ++ gone)
  counts : s'.counts = Function.update s.counts p (s.counts p - gone.length)
  priced : s'.priced.items + gone = s.priced.items
  index : ∀ h, s'.hashIndex.get h =
    if h ∈ gone.map TxPoolObject.hash then none else s.hashIndex.get h

include hdet in
theorem FiledBooks.leaves {s : TxPool} {p : PoolType} {l gone : List TxPoolObject}
    (hs : FiledBooks onTx s) (hl : Leaves s s' p a l gone) : FiledBooks onTx s' := by
  obtain ⟨hperm, hfiled⟩ := hs.toFiled.leaves hl.list hl.perm hl.counts
  have hsub : ∀ q, (s'.list q a).Sublist (s.list q a) := by
    intro q
    cases PoolType.eq_or_eq_other p q with
    | inl hq => rw [hq, hl.list, updateAt_self]; exact hl.sublist
    | inr hq =>
      rw [hq, hl.list, updateAt_of_pool_ne _ (PoolType.other_ne p)]
  apply hs.refile hdet (a := a)
  refine Refiles.of_drop gone hfiled ?_ hperm hl.priced ?_ ?_ ?_ ?_
  · intro b hb q
    rw [hl.list, updateAt_of_address_ne _ _ _ hb]
  · intro q
    exact (hs.nonces q a).sublist ((hsub q).map _)
  · intro q o ho
    rw [hl.index, if_neg (hs.not_gone hperm (mem_allTxsForSender.mpr ⟨q, ho⟩))]
    exact hs.indexed ((hsub q).mem ho)
  · intro o ho
    rw [hl.index, if_pos (mem_map_of_mem ho)]
  · intro h hout
    have hgone : h ∉ gone.map TxPoolObject.hash := by
      intro hmem
      obtain ⟨o, ho, rfl⟩ := mem_map.mp hmem
      exact hout (mem_map_of_mem (hperm.mem_iff.mpr (mem_append_right _ ho)))
    rw [hl.index, if_neg hgone]

theorem FiledBooks.takeOut_leaves {s : TxPool} (hs : FiledBooks onTx s)
    (hdet : HashesDetermine onTx) {p : PoolType} {o : TxPoolObject} (ho : o ∈ s.list p a) :
    Leaves s (s.takeOut o.hash a p o) p a ((s.list p a).filter (fun obj => obj.hash ≠ o.hash)) [o] where
  list := list_takeOut s o.hash a p o
  sublist := filter_sublist
  perm := hs.filter_perm ho
  counts := counts_takeOut s o.hash a p o
  priced := by
    rw [priced_takeOut, items_removeFromPriced]
    exact filter_hash_add (hs.priced_nodup hdet) (mem_of_le (hs.list_le p a) ho)
  index h := by
    rw [hashIndex_takeOut, OrderedMap.get_delete]
    simp

include hdet in
theorem FiledBooks.removeByHash {s : TxPool} (hs : FiledBooks onTx s) (hash : UnprefixedHash) :
    FiledBooks onTx (s.removeByHash hash) := by
  cases s.removeByHash_cases hash with
  | inl hsame => rw [hsame]; exact hs
  | inr hfound =>
    obtain ⟨handled, o, _, ho, rfl, heq⟩ := hfound
    rw [heq]
    exact hs.leaves hdet (hs.takeOut_leaves hdet ho)

include hdet in
theorem FiledBooks.cleanupAddr {s : TxPool} (hs : FiledBooks onTx s) (compDate : Int) (p : PoolType)
    (a : UnprefixedAddress) : FiledBooks onTx (cleanupAddr compDate p s a) := by
  have hperm := expired_perm compDate p s a
  have hle : (expired compDate p s a : Multiset TxPoolObject) ≤ s.priced.items := by
    refine le_trans ?_ (hs.list_le p a)
    exact Multiset.coe_le.mpr filter_sublist.subperm
  exact hs.leaves hdet
    { list := list_cleanupAddr compDate p s a
      sublist := filter_sublist
      perm := hperm.symm.trans perm_append_comm
      counts := counts_cleanupAddr compDate p s a
      priced := priced_cleanupAddr compDate p s a (hs.priced_nodup hdet) hle
      index := hashIndex_cleanupAddr compDate p s a }

variable {i : Nat}

/-- A promoted list repeats no nonce: the promoted nonces are above the pending
ones. -/
theorem nodup_promoted {s : TxPool} {n : Nat}
    (hp : ((s.list .pending a).map (fun o => o.tx.nonce)).Nodup) :
    ((s.list .pending a ++ (s.promoteSplit a i n).toPromote).map (fun o => o.tx.nonce)).Nodup := by
  rw [map_append, nodup_append]
  refine ⟨hp, ?_, ?_⟩
  · rw [promoteSplit, splitQueued_toPromote_nonces]
    exact nodup_range'
  · intro m hm m' hm' heq
    obtain ⟨o, ho, rfl⟩ := mem_map.mp hm
    obtain ⟨o', ho', rfl⟩ := mem_map.mp hm'
    have hlow := lt_nextExpectedNonce ho n
    have hhigh := next_le_toPromote ho'
    omega

include hdet in
theorem FiledBooks.promoteAddr {s : TxPool} (hs : FiledBooks onTx s)
    (hi : s.arrays .queued a i = s.list .queued a) (n : Nat) :
    FiledBooks onTx (s.promoteAddr a i n) := by
  have hperm := allTxsForSender_promoteAddr hi n
  have hsplit := promoteSplit_perm s a i n
  rw [hi] at hsplit
  have hpend := list_promoteAddr_pending_perm s a i n
  have hqueue := list_promoteAddr_queued s a i n
  have hstale : ∀ o ∈ (s.promoteAddr a i n).allTxsForSender a,
      o.hash ∉ (s.promoteSplit a i n).stale.map TxPoolObject.hash :=
    fun o ho => hs.not_gone hperm ho
  -- the promoted objects are none of the others
  have hpromote : ∀ o, o ∈ s.list .pending a ∨ o ∈ (s.promoteSplit a i n).remaining ∨
      o ∈ (s.promoteSplit a i n).stale →
      o.hash ∉ (s.promoteSplit a i n).toPromote.map TxPoolObject.hash := by
    intro o ho
    have hall : (s.allTxsForSender a).Perm ((s.list .pending a ++ (s.promoteSplit a i n).stale ++
        (s.promoteSplit a i n).remaining) ++ (s.promoteSplit a i n).toPromote) := by
      simp only [allTxsForSender, List.append_assoc]
      refine List.Perm.append_left _ (hsplit.symm.trans ?_)
      rw [List.append_assoc, ← List.append_assoc (s.promoteSplit a i n).stale]
      exact List.perm_append_comm
    apply hs.not_gone hall
    simp only [List.mem_append]
    tauto
  apply hs.refile hdet (a := a)
  refine Refiles.of_drop _ (hs.toFiled.promoteAddr hi n) ?_ hperm ?_ ?_ ?_ ?_ ?_
  · intro b hb p
    exact list_promoteAddr_of_ne s a i n hb p
  · apply priced_promoteAddr s a i n (hs.priced_nodup hdet)
    refine le_trans ?_ (hs.list_le .queued a)
    rw [← Multiset.coe_eq_coe.mpr hsplit, ← Multiset.coe_add, ← Multiset.coe_add]
    exact le_trans (Multiset.le_add_left _ _) (Multiset.le_add_right _ _)
  · intro p
    cases p with
    | pending =>
      rw [(hpend.map _).nodup_iff]
      exact nodup_promoted (hs.nonces .pending a)
    | queued =>
      rw [hqueue]
      have hn := (hsplit.map (fun o => o.tx.nonce)).nodup_iff.mpr (hs.nonces .queued a)
      rw [List.map_append] at hn
      exact (List.nodup_append.mp hn).2.1
  · intro p o ho
    have hnot := hstale o (mem_allTxsForSender.mpr ⟨p, ho⟩)
    rw [hashIndex_promoteAddr]
    cases p with
    | pending =>
      cases List.mem_append.mp (hpend.mem_iff.mp ho) with
      | inl hold => rw [if_neg (hpromote o (Or.inl hold)), if_neg hnot]; exact hs.indexed hold
      | inr hnew => rw [if_pos (List.mem_map_of_mem hnew)]
    | queued =>
      rw [hqueue] at ho
      have hold : o ∈ s.list .queued a := hsplit.mem_iff.mp (List.mem_append_right _ ho)
      rw [if_neg (hpromote o (Or.inr (Or.inl ho))), if_neg hnot]
      exact hs.indexed hold
  · intro o ho
    rw [hashIndex_promoteAddr, if_neg (hpromote o (Or.inr (Or.inr ho))),
      if_pos (List.mem_map_of_mem ho)]
  · intro h hout
    have hall : ∀ o ∈ (s.promoteSplit a i n).toPromote ++ (s.promoteSplit a i n).stale, o.hash ≠ h := by
      intro o ho heq
      apply hout
      rw [← heq]
      apply List.mem_map_of_mem
      apply mem_allTxsForSender.mpr
      exact ⟨.queued, hsplit.mem_iff.mp (List.mem_append_left _ ho)⟩
    have hnot : ∀ l : List TxPoolObject, (∀ o ∈ l, o.hash ≠ h) → h ∉ l.map TxPoolObject.hash := by
      intro l hl hmem
      obtain ⟨o, ho, heq⟩ := List.mem_map.mp hmem
      exact hl o ho heq
    rw [hashIndex_promoteAddr, if_neg (hnot _ (fun o ho => hall o (List.mem_append_left _ ho))),
      if_neg (hnot _ (fun o ho => hall o (List.mem_append_right _ ho)))]

/-- `demoteUnexecutables` has nothing to do: the nonces are the account's next
ones, and the account can pay for each object. -/
def executable (account : Account) (l : List TxPoolObject) : Bool :=
  (sortByNonce l).map (fun o => o.tx.nonce) = List.range' account.nonce l.length ∧
    ∀ o ∈ l, cost o.tx ≤ account.balance

theorem demoteSplit_of_executable {s : TxPool} {account : Account}
    (hex : executable account (s.arrays .pending a i) = true) : s.demoteSplit a i account =
      { stillPending := sortByNonce (s.arrays .pending a i), toDemote := [], toRemove := [] } := by
  obtain ⟨hnonces, hcost⟩ := of_decide_eq_true hex
  apply splitPending_of_executable account _ _ (le_refl _)
  · intro o ho
    exact hcost o (mem_sortByNonce.mp ho)
  · rw [length_sortByNonce]
    exact hnonces

include hdet in
theorem FiledBooks.demoteAddr {s : TxPool} (hs : FiledBooks onTx s)
    (hi : s.arrays .pending a i = s.list .pending a) {account : Account}
    (hex : executable account (s.list .pending a) = true) :
    FiledBooks onTx (s.demoteAddr a i account) := by
  rw [← hi] at hex
  have hsplit := demoteSplit_of_executable hex
  have hpend : (s.demoteAddr a i account).list .pending a = sortByNonce (s.list .pending a) := by
    rw [list_demoteAddr_pending, hsplit, hi]
  have hqueue : (s.demoteAddr a i account).list .queued a = s.list .queued a := by
    rw [list_demoteAddr_queued, hsplit]
    rfl
  have hlists : ∀ p, ((s.demoteAddr a i account).list p a).Perm (s.list p a) := by
    intro p
    cases p with
    | pending => rw [hpend]; exact sortByNonce_perm _
    | queued => rw [hqueue]
  apply hs.refile hdet (a := a)
  refine Refiles.of_drop [] (hs.toFiled.demoteAddr hi account) ?_ ?_ ?_ ?_ ?_ ?_ ?_
  · intro b hb p
    exact list_demoteAddr_of_ne s a i account hb p
  · rw [append_nil]
    exact ((hlists .pending).append (hlists .queued)).symm
  · have hpriced := priced_demoteAddr s a i account (hs.priced_nodup hdet)
    rw [hsplit] at hpriced
    exact hpriced (Multiset.zero_le _)
  · intro p
    exact ((hlists p).map _).nodup_iff.mpr (hs.nonces p a)
  · intro p o ho
    rw [hashIndex_demoteAddr]
    exact hs.indexed ((hlists p).mem_iff.mp ho)
  · intro o ho
    cases ho
  · intro h _
    rw [hashIndex_demoteAddr]

include hdet in
theorem FiledBooks.addTx {s : TxPool} (hs : FiledBooks onTx s) {tx : TypedTransaction}
    {isLocal : Bool} (added : Int) {pool : PoolType} (ht : onTx tx) (hsender : tx.sender = some a)
    (hfits : s.exceedsLimit tx isLocal a pool = false)
    (hfree : ∀ o ∈ s.list pool.other a, o.hash ≠ tx.hash) :
    FiledBooks onTx (s.addTx tx isLocal added a pool).1 := by
  have hself : (s.addTx tx isLocal added a pool).1.list pool a =
      sortByNonce (s.withoutReplaced tx a pool ++ [newObject tx added]) :=
    list_addTx_self s tx isLocal added a pool hfits
  have hother : (s.addTx tx isLocal added a pool).1.list pool.other a = s.list pool.other a :=
    list_addTx_other s tx isLocal added a pool hfits
  have hpool : ∀ q, q = pool ∨ q = pool.other := fun q => PoolType.eq_or_eq_other pool q
  have hkept := s.replaced_perm tx a pool
  have hnew : (sortByNonce (s.withoutReplaced tx a pool ++ [newObject tx added])).Perm
      (newObject tx added :: s.withoutReplaced tx a pool) :=
    (sortByNonce_perm _).trans List.perm_append_comm
  have hfile : FiledUnder onTx a (newObject tx added) :=
    { hash := rfl, sender := hsender, offered := ht }
  -- what stays, with its list
  have hstays : ∀ q, ∀ o ∈ (s.addTx tx isLocal added a pool).1.list q a,
      (o = newObject tx added ∧ q = pool) ∨
        (o ∈ s.list q a ∧ o ∈ s.withoutReplaced tx a pool ++ s.list pool.other a) := by
    intro q o ho
    cases hpool q with
    | inl hq =>
      subst hq
      rw [hself, hnew.mem_iff] at ho
      cases List.mem_cons.mp ho with
      | inl heq => exact Or.inl ⟨heq, rfl⟩
      | inr hin =>
        exact Or.inr ⟨hkept.mem_iff.mpr (List.mem_append_right _ hin), List.mem_append_left _ hin⟩
    | inr hq =>
      rw [hq, hother] at ho
      rw [hq]
      exact Or.inr ⟨ho, List.mem_append_right _ ho⟩
  have hall := s.allTxsForSender_replaced tx a pool
  have hall' := allTxsForSender_addTx s tx isLocal added a pool hfits
  -- the new hash is no kept one: in the target list it would bring its nonce along
  have hfresh : ∀ o ∈ s.withoutReplaced tx a pool ++ s.list pool.other a, o.hash ≠ tx.hash := by
    intro o ho
    cases List.mem_append.mp ho with
    | inl hin =>
      intro heq
      have hmem : o ∈ s.list pool a := hkept.mem_iff.mpr (List.mem_append_right _ hin)
      have htx : o.tx = tx := (hs.filed pool a o hmem).tx_eq hdet hfile heq
      exact withoutReplaced_nonce (hs.nonces pool a) hin (congrArg TypedTransaction.nonce htx)
    | inr hin => exact hfree o hin
  have hold : ∀ o ∈ s.withoutReplaced tx a pool ++ s.list pool.other a,
      o.hash ∉ (s.replaced tx a pool).toList.map TxPoolObject.hash :=
    fun o ho => hs.not_gone hall ho
  apply hs.refile hdet (a := a)
  refine { toFiled := hs.toFiled.addTx added ht hsender hfits hfresh, frame := ?_, priced := ?_,
           nonces := ?_, indexed := ?_, unindexed := ?_, others := ?_ }
  · intro b hb p
    rw [list_addTx _ _ _ _ _ _ hfits, updateAt_of_address_ne _ _ _ hb]
  · have hmem : ∀ o ∈ s.replaced tx a pool, o ∈ s.priced.items := fun o ho =>
      Multiset.mem_of_le (hs.list_le pool a) (s.replaced_mem tx a pool ho)
    have hpriced := priced_addTx _ _ _ added _ _ hfits (hs.priced_nodup hdet) hmem
    rw [Multiset.coe_eq_coe.mpr hall, Multiset.coe_eq_coe.mpr hall', ← Multiset.coe_add,
      ← Multiset.cons_coe, add_left_comm, hpriced, Multiset.add_cons, Multiset.add_cons, add_comm]
  · intro p
    cases hpool p with
    | inl hp =>
      rw [hp, hself, (hnew.map _).nodup_iff, List.map_cons, List.nodup_cons]
      constructor
      · intro hmem
        obtain ⟨o, ho, heq⟩ := List.mem_map.mp hmem
        exact withoutReplaced_nonce (hs.nonces pool a) ho heq
      · have hn := (hkept.map (fun o => o.tx.nonce)).nodup_iff.mp (hs.nonces pool a)
        rw [List.map_append] at hn
        exact (List.nodup_append.mp hn).2.1
    | inr hp => rw [hp, hother]; exact hs.nonces _ a
  · intro p o ho
    rw [hashIndex_addTx _ _ _ _ _ _ hfits]
    cases hstays p o ho with
    | inl heq => rw [heq.1, heq.2]; exact if_pos rfl
    | inr hin =>
      rw [if_neg (hfresh o hin.2), if_neg (hold o hin.2)]
      exact hs.indexed hin.1
  · intro o ho hout
    have hnot : o.hash ≠ tx.hash := by
      intro heq
      apply hout
      rw [heq]
      exact List.mem_map_of_mem (hall'.mem_iff.mpr List.mem_cons_self)
    have hgone : o ∈ (s.replaced tx a pool).toList := by
      cases List.mem_append.mp (hall.mem_iff.mp ho) with
      | inl hin =>
        exact absurd (List.mem_map_of_mem (hall'.mem_iff.mpr (List.mem_cons_of_mem _ hin))) hout
      | inr hin => exact hin
    rw [hashIndex_addTx _ _ _ _ _ _ hfits, if_neg hnot, if_pos (List.mem_map_of_mem hgone)]
  · intro h hout hout'
    have hnot : h ≠ tx.hash := by
      intro heq
      apply hout'
      rw [heq]
      exact List.mem_map_of_mem (hall'.mem_iff.mpr List.mem_cons_self)
    have hgone : h ∉ (s.replaced tx a pool).toList.map TxPoolObject.hash := by
      intro hmem
      obtain ⟨o, ho, rfl⟩ := List.mem_map.mp hmem
      exact hout (List.mem_map_of_mem (hall.mem_iff.mpr (List.mem_append_right _ ho)))
    rw [hashIndex_addTx _ _ _ _ _ _ hfits, if_neg hnot, if_neg hgone]

end

/-! ## Runs -/

/-- The transactions that the calls of a run offer to the pool. -/
def Offered (calls : List (Env × Call)) (tx : TypedTransaction) : Prop :=
  ∃ c ∈ calls, tx ∈ c.2.transactions

/-- An insertion does not replace an object of a list that is then found full, and
the transaction is not in the other pool; where `demoteUnexecutables` comes, all
objects are executable. -/
def booksCondition : Condition where
  insert s tx isLocal a pool :=
    (!s.exceedsLimit tx isLocal a pool || (s.replaced tx a pool).isNone) &&
      (s.list pool.other a).all (fun o => o.hash ≠ tx.hash)
  demote s a account := executable account (s.list .pending a)
  remove _ _ := true
  expire _ _ _ _ := true

theorem FiledBooks.preserves {onTx : TypedTransaction → Prop} (hdet : HashesDetermine onTx) :
    Preserves booksCondition (fun _ => True) onTx (FiledBooks onTx) where
  aux _ _ _ hs :=
    { counts := hs.counts, filed := hs.filed, distinct := hs.distinct, priced := hs.priced,
      index := hs.index, nonces := hs.nonces }
  setNonce _ _ hs :=
    { counts := hs.counts, filed := hs.filed, distinct := hs.distinct, priced := hs.priced,
      index := hs.index, nonces := hs.nonces }
  clearNonceCache a hs := by
    cases a <;> exact { counts := hs.counts, filed := hs.filed, distinct := hs.distinct,
                        priced := hs.priced, index := hs.index, nonces := hs.nonces }
  addTx := by
    intro s head tx isLocal a nonce added _ ht hsender _ _ hK hs
    obtain ⟨hroom, hfree⟩ := (Bool.and_eq_true _ _).mp hK
    cases hfits : s.exceedsLimit tx isLocal a (s.classify tx a nonce) with
    | true =>
      -- nothing was replaced, so the refused insertion changes nothing
      rw [hfits] at hroom
      have hnone : s.replaced tx a (s.classify tx a nonce) = none := by simpa using hroom
      rw [addTx_of_exceeds _ _ _ _ _ _ hfits, hnone]
      exact hs
    | false =>
      apply hs.addTx hdet added ht hsender hfits
      intro o ho
      simpa using all_eq_true.mp hfree o ho
  promoteAddr hi _ hs := hs.promoteAddr hdet (list_of_attached hi).symm _
  demoteAddr _ hi _ hK hs := hs.demoteAddr hdet (list_of_attached hi).symm hK
  removeByHash _ hs := hs.removeByHash hdet _
  cleanupAddr _ hs := hs.cleanupAddr hdet _ _ _

/-- The books agree with the lists after every run whose steps meet the
condition. -/
theorem run_books {calls : List (Env × Call)} (hdet : HashesDetermine (Offered calls))
    (hK : booksCondition.onRun calls new = true) {s : TxPool} (h : run calls new = some s) :
    Books s := by
  have hfiled := (FiledBooks.preserves hdet).run calls new (fun _ _ => trivial)
    (fun c hc tx htx => ⟨c, hc, htx⟩) hK FiledBooks.new s h
  exact hfiled.books hdet

def sampleRun : List (Env × Call) :=
  [(sampleEnv 0, .add (sampleTx 7 0 1) false), (sampleEnv 0, .demoteUnexecutables),
    (sampleEnv 0, .promoteExecutables none), (sampleEnv 0, .removeByHash 7)]

/-- The hypotheses of `run_books` hold of a run that adds a transaction, promotes,
demotes and removes. -/
theorem run_books_sample : ∃ s, run sampleRun new = some s ∧ Books s := by
  refine ⟨_, rfl, @run_books sampleRun ?_ (by decide) _ rfl⟩
  have honly : ∀ t, Offered sampleRun t → t = sampleTx 7 0 1 := by
    intro t ht
    simpa [sampleRun, Offered, Call.transactions] using ht
  intro t t' ht ht' _
  rw [honly t ht, honly t' ht']

/-- `demoteUnexecutables` drops a mined transaction and leaves it in the index. -/
theorem mined_not_books :
    ∃ s, run [(sampleEnv 0, .add (sampleTx 7 0 1) false), (sampleEnv 1, .demoteUnexecutables)] new =
      some s ∧ ¬Books s := by
  have hrun : (run [(sampleEnv 0, .add (sampleTx 7 0 1) false),
      (sampleEnv 1, .demoteUnexecutables)] new).map (fun s => (s.hashIndex.get 7, s.list .pending 1)) =
      some (some { address := 1, poolType := .pending }, []) := by decide
  obtain ⟨s, hs, heq⟩ := Option.map_eq_some_iff.mp hrun
  obtain ⟨hindex, hlist⟩ := Prod.mk.inj heq
  refine ⟨s, hs, fun hbooks => ?_⟩
  obtain ⟨o, ho, _⟩ := (hbooks.index 7 { address := 1, poolType := .pending }).mp hindex
  rw [hlist] at ho
  cases ho

end TxPool
