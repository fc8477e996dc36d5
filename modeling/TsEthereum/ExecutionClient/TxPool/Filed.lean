-- SUMMARY: The part of the pool's invariants that every operation keeps: objects lie with their senders, no hash is pooled twice, and the counts are the lengths.
import TsEthereum.ExecutionClient.TxPool.Effects

/-!
# Filed objects

`Filed` is what the books of the pool and its concurrent calls both rest on. An
operation writes the lists of one sender, so `Filed.change` takes its effect on
that sender to the whole pool.
-/

open List Multiset Function

namespace TxPool

/-- The objects of one pool. -/
def pooled (s : TxPool) (p : PoolType) : Multiset TxPoolObject :=
  (s.pools p).sumKeys (fun a => (s.list p a : Multiset TxPoolObject))

variable {o : TxPoolObject}

theorem mem_pooled {s : TxPool} {p : PoolType} : o ∈ s.pooled p ↔ ∃ a, o ∈ s.list p a := by
  unfold pooled
  rw [OrderedMap.mem_sumKeys]
  constructor
  · rintro ⟨a, _, ho⟩
    exact ⟨a, ho⟩
  · rintro ⟨a, ho⟩
    refine ⟨a, ?_, ho⟩
    by_contra hkey
    rw [list_of_not_mem hkey] at ho
    cases ho

/-- An object of the sender `a`. -/
structure FiledUnder (onTx : TypedTransaction → Prop) (a : UnprefixedAddress) (o : TxPoolObject) :
    Prop where
  hash : o.hash = o.tx.hash
  sender : o.tx.sender = some a
  offered : onTx o.tx

/-- The hash of an offered transaction determines it. -/
def HashesDetermine (onTx : TypedTransaction → Prop) : Prop :=
  ∀ t t', onTx t → onTx t' → t.hash = t'.hash → t = t'

variable {a : UnprefixedAddress}

theorem FiledUnder.tx_eq {onTx : TypedTransaction → Prop} (hdet : HashesDetermine onTx)
    {b : UnprefixedAddress} {o' : TxPoolObject} (ho : FiledUnder onTx a o)
    (ho' : FiledUnder onTx b o') (h : o.hash = o'.hash) : o.tx = o'.tx :=
  hdet _ _ ho.offered ho'.offered (ho.hash.symm.trans (h.trans ho'.hash))

/-- Objects of one hash have one sender. -/
theorem FiledUnder.address_eq {onTx : TypedTransaction → Prop} (hdet : HashesDetermine onTx)
    {b : UnprefixedAddress} {o' : TxPoolObject} (ho : FiledUnder onTx a o)
    (ho' : FiledUnder onTx b o') (h : o.hash = o'.hash) : a = b := by
  have htx := ho.tx_eq hdet ho' h
  exact Option.some.inj (ho.sender.symm.trans ((congrArg TypedTransaction.sender htx).trans ho'.sender))

/-- Objects lie with their senders, no hash is pooled twice, and the counts are the
lengths. -/
structure Filed (onTx : TypedTransaction → Prop) (s : TxPool) : Prop where
  counts : ∀ p, s.counts p = (s.pools p).sumKeys (fun a => ((s.list p a).length : Int))
  filed : ∀ p a, ∀ o ∈ s.list p a, FiledUnder onTx a o
  distinct : ∀ a, ((s.allTxsForSender a).map TxPoolObject.hash).Nodup

theorem pooled_change {s s' : TxPool} (hframe : ∀ b, b ≠ a → ∀ p, s'.list p b = s.list p b)
    (p : PoolType) : s'.pooled p + s.list p a = s.pooled p + s'.list p a := by
  apply OrderedMap.sumKeys_change (s.pools p) (s'.pools p) (fun b => (s.list p b : Multiset TxPoolObject))
    (fun b => (s'.list p b : Multiset TxPoolObject)) a
  · intro b hb
    simp [list_of_not_mem hb]
  · intro b hb
    simp [list_of_not_mem hb]
  · intro b hb
    rw [hframe b hb p]

namespace Filed

variable {onTx : TypedTransaction → Prop} {s s' : TxPool}

theorem new : Filed onTx TxPool.new where
  counts _ := rfl
  filed p a o ho := by cases ho
  distinct a := nodup_nil

section

variable (hs : Filed onTx s)

include hs

variable {a : UnprefixedAddress} {o : TxPoolObject}

theorem filed_all (ho : o ∈ s.allTxsForSender a) : FiledUnder onTx a o := by
  obtain ⟨p, hp⟩ := mem_allTxsForSender.mp ho
  exact hs.filed p a o hp

theorem distinct_list (p : PoolType) (a : UnprefixedAddress) :
    ((s.list p a).map TxPoolObject.hash).Nodup := by
  refine (hs.distinct a).sublist (List.Sublist.map _ ?_)
  cases p with
  | pending => exact sublist_append_left _ _
  | queued => exact sublist_append_right _ _

/-- No two pooled objects have one hash. -/
theorem nodup_hashes (hdet : HashesDetermine onTx) :
    ((s.pooled .pending + s.pooled .queued).map TxPoolObject.hash).Nodup := by
  -- both pools, one sender after the other
  have hpool : ∀ p, ((s.pooled p).map TxPoolObject.hash).Nodup := by
    intro p
    rw [pooled, OrderedMap.map_sumKeys]
    apply OrderedMap.nodup_sumKeys
    · intro a
      exact hs.distinct_list p a
    · intro a b hab
      rw [Multiset.disjoint_left]
      intro h ha hb
      obtain ⟨o, ho, rfl⟩ := Multiset.mem_map.mp ha
      obtain ⟨o', ho', heq⟩ := Multiset.mem_map.mp hb
      exact hab ((hs.filed p a o ho).address_eq hdet (hs.filed p b o' ho') heq.symm)
  rw [Multiset.map_add, Multiset.nodup_add]
  refine ⟨hpool .pending, hpool .queued, ?_⟩
  rw [Multiset.disjoint_left]
  intro h hpend hqueue
  obtain ⟨o, ho, rfl⟩ := Multiset.mem_map.mp hpend
  obtain ⟨o', ho', heq⟩ := Multiset.mem_map.mp hqueue
  obtain ⟨a, ha⟩ := mem_pooled.mp ho
  obtain ⟨b, hb⟩ := mem_pooled.mp ho'
  obtain rfl := (hs.filed _ a o ha).address_eq hdet (hs.filed _ b o' hb) heq.symm
  have hdis := hs.distinct a
  rw [allTxsForSender, List.map_append, List.nodup_append] at hdis
  exact hdis.2.2 o.hash (List.mem_map_of_mem ha) o'.hash (List.mem_map_of_mem hb) heq.symm

variable {gone : List TxPoolObject}

/-- An object that stays is not one of those that go. -/
theorem not_gone {kept : List TxPoolObject} (hperm : (s.allTxsForSender a).Perm (kept ++ gone))
    (ho : o ∈ kept) : o.hash ∉ gone.map TxPoolObject.hash := by
  have hdis := (hperm.map TxPoolObject.hash).nodup_iff.mp (hs.distinct a)
  rw [map_append] at hdis
  intro hmem
  exact (nodup_append.mp hdis).2.2 o.hash (mem_map_of_mem ho) o.hash hmem rfl

section

variable (hframe : ∀ b, b ≠ a → ∀ p, s'.list p b = s.list p b)
include hframe

/-- The step lemma: the lists of one sender change. -/
theorem change
    (hcounts : ∀ p, s'.counts p + (s.list p a).length = s.counts p + (s'.list p a).length)
    (hfiled : ∀ o ∈ s'.allTxsForSender a, FiledUnder onTx a o)
    (hdistinct : ((s'.allTxsForSender a).map TxPoolObject.hash).Nodup) : Filed onTx s' where
  counts p := by
    have hsum := OrderedMap.sumKeys_change (s.pools p) (s'.pools p)
      (fun b => ((s.list p b).length : Int)) (fun b => ((s'.list p b).length : Int)) a
      (fun b hb => by simp [list_of_not_mem hb]) (fun b hb => by simp [list_of_not_mem hb])
      (fun b hb => by rw [hframe b hb p])
    have hcount := hcounts p
    rw [hs.counts p] at hcount
    omega
  filed p b o ho := by
    by_cases hb : b = a
    · subst hb
      exact hfiled o (mem_allTxsForSender.mpr ⟨p, ho⟩)
    · rw [hframe b hb p] at ho
      exact hs.filed p b o ho
  distinct b := by
    by_cases hb : b = a
    · subst hb; exact hdistinct
    · rw [allTxsForSender, hframe b hb, hframe b hb]
      exact hs.distinct b

/-- A step that only drops objects of one sender, or moves them between its lists. -/
theorem drop (hcounts : ∀ p, s'.counts p + (s.list p a).length = s.counts p + (s'.list p a).length)
    (hperm : (s.allTxsForSender a).Perm (s'.allTxsForSender a ++ gone)) : Filed onTx s' := by
  apply hs.change hframe hcounts
  · intro o ho
    exact hs.filed_all (hperm.mem_iff.mpr (mem_append_left _ ho))
  · have hdis := (hperm.map TxPoolObject.hash).nodup_iff.mp (hs.distinct a)
    rw [map_append] at hdis
    exact (nodup_append.mp hdis).1

end

theorem promoteAddr {i : Nat} (hi : s.arrays .queued a i = s.list .queued a) (n : Nat) :
    Filed onTx (s.promoteAddr a i n) :=
  hs.drop (fun _ hb p => list_promoteAddr_of_ne s a i n hb p) (counts_length_promoteAddr s a i n hi)
    (allTxsForSender_promoteAddr hi n)

theorem demoteAddr {i : Nat} (hi : s.arrays .pending a i = s.list .pending a) (account : Account) :
    Filed onTx (s.demoteAddr a i account) :=
  hs.drop (fun _ hb p => list_demoteAddr_of_ne s a i account hb p)
    (counts_length_demoteAddr s a i account hi) (allTxsForSender_demoteAddr hi account)

/-- An insertion whose hash no other object of the sender has. -/
theorem addTx {tx : TypedTransaction} {isLocal : Bool} (added : Int) {pool : PoolType}
    (ht : onTx tx) (hsender : tx.sender = some a) (hfits : s.exceedsLimit tx isLocal a pool = false)
    (hfresh : ∀ o ∈ s.withoutReplaced tx a pool ++ s.list pool.other a, o.hash ≠ tx.hash) :
    Filed onTx (s.addTx tx isLocal added a pool).1 := by
  have hold := s.allTxsForSender_replaced tx a pool
  have hnew := allTxsForSender_addTx s tx isLocal added a pool hfits
  apply hs.change (a := a)
  · intro b hb p
    rw [list_addTx _ _ _ _ _ _ hfits, updateAt_of_address_ne _ _ _ hb]
  · exact counts_length_addTx s tx isLocal added a pool hfits
  · intro o ho
    cases List.mem_cons.mp (hnew.mem_iff.mp ho) with
    | inl heq => rw [heq]; exact { hash := rfl, sender := hsender, offered := ht }
    | inr hin => exact hs.filed_all (hold.mem_iff.mpr (List.mem_append_left _ hin))
  · rw [(hnew.map TxPoolObject.hash).nodup_iff, List.map_cons, List.nodup_cons]
    constructor
    · intro hmem
      obtain ⟨o, ho, heq⟩ := List.mem_map.mp hmem
      exact hfresh o ho heq
    · have hdis := (hold.map TxPoolObject.hash).nodup_iff.mp (hs.distinct a)
      rw [List.map_append] at hdis
      exact (List.nodup_append.mp hdis).1

variable {p : PoolType}

/-- `gone` leaves one list of a sender. -/
theorem leaves {l : List TxPoolObject} (hlist : s'.list = updateAt s.list p a l)
    (hperm : (s.list p a).Perm (l ++ gone))
    (hcounts : s'.counts = Function.update s.counts p (s.counts p - gone.length)) :
    (s.allTxsForSender a).Perm (s'.allTxsForSender a ++ gone) ∧ Filed onTx s' := by
  have hself : s'.list p a = l := by rw [hlist, updateAt_self]
  have hother : s'.list p.other a = s.list p.other a := by
    rw [hlist, updateAt_of_pool_ne _ (PoolType.other_ne p)]
  have hself_perm : (s.list p a).Perm (s'.list p a ++ gone) := by
    rw [hself]
    exact hperm
  have hall := allTxsForSender_perm hself_perm hother
  have hlen := hperm.length_eq
  rw [length_append] at hlen
  refine ⟨hall, hs.drop ?_ ?_ hall⟩
  · intro b hb q
    rw [hlist, updateAt_of_address_ne _ _ _ hb]
  · intro q
    cases PoolType.eq_or_eq_other p q with
    | inl hq =>
      rw [hq, hself, hcounts, update_self]
      omega
    | inr hq => rw [hq, hother, hcounts, update_of_ne (PoolType.other_ne p)]

/-- Where hashes are unique, filtering a hash out takes one object out. -/
theorem filter_perm (ho : o ∈ s.list p a) :
    (s.list p a).Perm ((s.list p a).filter (fun obj => obj.hash ≠ o.hash) ++ [o]) := by
  have hfilter := filter_hash_add (m := (s.list p a : Multiset TxPoolObject)) (hs.distinct_list p a) ho
  rw [filter_coe] at hfilter
  exact (Multiset.coe_eq_coe.mp hfilter).symm

theorem takeOut (ho : o ∈ s.list p a) :
    (s.allTxsForSender a).Perm ((s.takeOut o.hash a p o).allTxsForSender a ++ [o]) ∧
      Filed onTx (s.takeOut o.hash a p o) :=
  hs.leaves (list_takeOut s o.hash a p o) (hs.filter_perm ho) (counts_takeOut s o.hash a p o)

end

end Filed

end TxPool
