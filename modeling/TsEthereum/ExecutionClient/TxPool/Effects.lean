-- SUMMARY: What each piece of the pool's operations does to the lists, the counts, the price heap and the hash index.
import TsEthereum.ExecutionClient.TxPool.Ops
import Mathlib.Data.Multiset.Filter
import Mathlib.Tactic.Ring

/-!
# Effects of the pool's operations

One lemma for each piece and each structure it writes. Later modules argue from
these and do not unfold the operations.
-/

open List Function

open ImplicitHeap

namespace TxPool

open PoolType

/-! ## The price heap -/

theorem cheaper_strictWeak : StrictWeak cheaper where
  asymm a b h := by
    simp only [cheaper, decide_eq_true_eq, decide_eq_false_iff_not] at h ⊢
    exact Nat.not_lt.mpr (Nat.le_of_lt h)
  negTrans a b c hab hbc := by
    simp only [cheaper, decide_eq_false_iff_not, Nat.not_lt] at hab hbc ⊢
    exact le_trans hab hbc

/-- The rebuilt heap holds what the new heap held, and the old objects of other
hashes. -/
theorem items_drain (hash : UnprefixedHash) :
    ∀ (rounds : Nat) (heap newHeap : Heap TxPoolObject), heap.length ≤ rounds →
      (drain hash rounds heap newHeap).items =
        newHeap.items + heap.items.filter (fun o => o.hash ≠ hash) := by
  intro rounds
  induction rounds with
  | zero =>
    intro heap newHeap hle
    have h0 : heap.items = 0 := by
      rw [← Multiset.card_eq_zero, Heap.card_items]
      exact Nat.le_zero.mp hle
    simp only [drain, h0, Multiset.filter_zero, add_zero]
  | succ rounds ih =>
    intro heap newHeap hle
    rcases Nat.eq_zero_or_pos heap.length with h0 | hpos
    · have hitems : heap.items = 0 := by
        rw [← Multiset.card_eq_zero, Heap.card_items, h0]
      simp only [drain, Heap.remove_of_length_zero cheaper h0, hitems, Multiset.filter_zero, add_zero]
    · obtain ⟨hroot, hitems⟩ := Heap.items_remove cheaper_strictWeak hpos
      obtain ⟨item, rest, hrest⟩ : ∃ item rest, heap.remove cheaper = (item, rest) := ⟨_, _, rfl⟩
      rw [hrest] at hroot hitems
      have hlen : rest.length ≤ rounds := by
        have hcard := congrArg Multiset.card hitems
        simp only [Heap.card_items, Multiset.card_cons] at hcard
        omega
      simp only at hroot hitems
      subst hroot
      simp only [drain, hrest]
      rw [ih _ _ hlen, hitems]
      by_cases hkeep : (heap.list 1).hash ≠ hash
      · rw [if_pos hkeep, Heap.items_insert,
          Multiset.filter_cons_of_pos (p := fun o : TxPoolObject => o.hash ≠ hash) _ hkeep]
        simp only [Multiset.cons_add, Multiset.add_cons]
      · rw [if_neg hkeep,
          Multiset.filter_cons_of_neg (p := fun o : TxPoolObject => o.hash ≠ hash) _ hkeep]

theorem items_removeFromPriced (s : TxPool) (o : TxPoolObject) :
    (s.removeFromPriced o).priced.items = s.priced.items.filter (fun x => x.hash ≠ o.hash) := by
  simp only [removeFromPriced]
  rw [items_drain _ _ _ _ (le_refl _), Heap.items_empty, zero_add]

variable {o : TxPoolObject}

/-- Where hashes are unique, filtering out a hash takes one object out. -/
theorem filter_hash_add {m : Multiset TxPoolObject} (hm : (m.map TxPoolObject.hash).Nodup)
    (ho : o ∈ m) : m.filter (fun x => x.hash ≠ o.hash) + {o} = m := by
  obtain ⟨m, rfl⟩ := Multiset.exists_cons_of_mem ho
  rw [Multiset.map_cons, Multiset.nodup_cons] at hm
  have hall : ∀ x ∈ m, x.hash ≠ o.hash := by
    intro x hx heq
    exact hm.1 (heq ▸ Multiset.mem_map_of_mem TxPoolObject.hash hx)
  rw [Multiset.filter_cons_of_neg _ (by simp), Multiset.filter_eq_self.mpr hall, add_comm,
    Multiset.singleton_add]

/-- Objects that one by one leave the heap: what is left and they make up what
was there. -/
theorem priced_foldl_add (f : TxPool → TxPoolObject → TxPool)
    (hf : ∀ s o, (f s o).priced = (s.removeFromPriced o).priced) :
    ∀ (l : List TxPoolObject) (s : TxPool), (s.priced.items.map TxPoolObject.hash).Nodup →
      (l : Multiset TxPoolObject) ≤ s.priced.items →
      (l.foldl f s).priced.items + l = s.priced.items := by
  intro l
  induction l with
  | nil => intro s _ _; simp
  | cons o l ih =>
    intro s hs hle
    have ho : o ∈ s.priced.items := Multiset.mem_of_le hle (by simp)
    have hstep : (f s o).priced.items + {o} = s.priced.items := by
      rw [hf, items_removeFromPriced]
      exact filter_hash_add hs ho
    have hrest : (l : Multiset TxPoolObject) ≤ (f s o).priced.items := by
      rw [← hstep, ← Multiset.cons_coe, ← Multiset.singleton_add, add_comm] at hle
      exact le_of_add_le_add_right hle
    have hnodup : ((f s o).priced.items.map TxPoolObject.hash).Nodup := by
      rw [hf, items_removeFromPriced]
      exact Multiset.nodup_of_le (Multiset.map_le_map (Multiset.filter_le _ _)) hs
    calc (l.foldl f (f s o)).priced.items + (o :: l : List TxPoolObject)
        = ((l.foldl f (f s o)).priced.items + l) + {o} := by
          rw [← Multiset.cons_coe, ← Multiset.singleton_add, add_assoc, add_comm ({o} : Multiset TxPoolObject)]
      _ = s.priced.items := by rw [ih _ hnodup hrest, hstep]

/-- What no round of a loop over objects changes, the loop does not change. -/
theorem foldl_keeps {α β : Type} {g : TxPool → β} {f : TxPool → α → TxPool}
    (hf : ∀ s o, g (f s o) = g s) : ∀ (l : List α) (s : TxPool), g (l.foldl f s) = g s := by
  intro l
  induction l with
  | nil => intro s; rfl
  | cons o l ih =>
    intro s
    rw [foldl_cons, ih, hf]

/-- Objects whose hashes one by one leave a map. -/
theorem foldl_delete {ν : Type} {g : TxPool → OrderedMap UnprefixedHash ν}
    {f : TxPool → TxPoolObject → TxPool} (hf : ∀ s o, g (f s o) = (g s).delete o.hash)
    (h : UnprefixedHash) :
    ∀ (l : List TxPoolObject) (s : TxPool),
      (g (l.foldl f s)).get h =
        if h ∈ l.map TxPoolObject.hash then none else (g s).get h := by
  intro l
  induction l with
  | nil => intro s; simp
  | cons o l ih =>
    intro s
    rw [foldl_cons, ih, hf, OrderedMap.get_delete]
    by_cases hl : h ∈ l.map TxPoolObject.hash
    · simp [hl]
    · by_cases ho : h = o.hash
      · simp [ho]
      · simp only [hl, ho, if_false, map_cons, mem_cons, false_or]

/-! ## validate -/

theorem bind_eq_ok {ε α β : Type} {x : Except ε α} {f : α → Except ε β} {b : β} :
    (x >>= f) = .ok b ↔ ∃ v, x = .ok v ∧ f v = .ok b := by
  cases x with
  | error e => simp [bind, Except.bind]
  | ok v => simp [bind, Except.bind]

theorem throwIf_eq_ok {c : Bool} {e : TxPoolError} {v : Unit} : throwIf c e = .ok v ↔ c = false := by
  cases c <;> simp [throwIf]

/-- A transaction that passes is not the one it replaces. -/
theorem validate_existing {s : TxPool} {head : Head} {tx : TypedTransaction} {isLocal : Bool}
    {a : UnprefixedAddress} (h : s.validate head tx isLocal a = .ok ())
    (ho : s.existingTxn tx a = some o) : o.tx.hash ≠ tx.hash := by
  simp only [validate, validateInPool, bind_eq_ok, ho, validateReplacement, throwIf_eq_ok] at h
  obtain ⟨_, ⟨_, _, _, _, _, _, _, _, _, _, _, hne, _⟩, _⟩ := h
  simpa using hne

/-! ## Sorting and splitting -/

theorem sortByNonce_perm (l : List TxPoolObject) : (sortByNonce l).Perm l :=
  perm_insertionSort _ l

variable {l : List TxPoolObject}

@[simp] theorem mem_sortByNonce : o ∈ sortByNonce l ↔ o ∈ l := (sortByNonce_perm l).mem_iff

@[simp] theorem length_sortByNonce (l : List TxPoolObject) : (sortByNonce l).length = l.length :=
  (sortByNonce_perm l).length_eq

theorem splitQueued_perm (accountNonce : Nat) (l : List TxPoolObject) :
    ∀ next, ((splitQueued accountNonce next l).toPromote ++ (splitQueued accountNonce next l).stale ++
      (splitQueued accountNonce next l).remaining).Perm l := by
  induction l with
  | nil => intro next; exact List.Perm.nil
  | cons o l ih =>
    intro next
    simp only [splitQueued]
    split
    · exact (ih _).cons o
    · split
      · refine List.Perm.trans ?_ ((ih next).cons o)
        simp only [append_assoc]
        exact perm_middle
      · refine List.Perm.trans ?_ ((ih next).cons o)
        exact perm_middle

theorem splitPending_perm (account : Account) (l : List TxPoolObject) :
    ∀ expected, ((splitPending account expected l).stillPending ++
      (splitPending account expected l).toDemote ++
      (splitPending account expected l).toRemove).Perm l := by
  induction l with
  | nil => intro expected; exact List.Perm.nil
  | cons o l ih =>
    intro expected
    simp only [splitPending]
    split
    · exact List.Perm.trans perm_middle ((ih expected).cons o)
    · split
      · refine List.Perm.trans ?_ ((ih expected).cons o)
        simp only [append_assoc]
        exact perm_middle
      · exact (ih _).cons o

/-! ## Nonces of a list -/

theorem le_foldl_max (l : List TxPoolObject) : ∀ m : Nat,
    m ≤ l.foldl (fun max obj => if obj.tx.nonce > max then obj.tx.nonce else max) m ∧
      ∀ o ∈ l, o.tx.nonce ≤
        l.foldl (fun max obj => if obj.tx.nonce > max then obj.tx.nonce else max) m := by
  induction l with
  | nil => intro m; exact ⟨le_refl m, fun o ho => by cases ho⟩
  | cons x l ih =>
    intro m
    have hx := ih (if x.tx.nonce > m then x.tx.nonce else m)
    rw [foldl_cons]
    have hm : m ≤ (if x.tx.nonce > m then x.tx.nonce else m) ∧
        x.tx.nonce ≤ (if x.tx.nonce > m then x.tx.nonce else m) := by
      split
      · rename_i hgt
        exact ⟨Nat.le_of_lt hgt, le_refl _⟩
      · rename_i hle
        exact ⟨le_refl _, Nat.not_lt.mp hle⟩
    refine ⟨le_trans hm.1 hx.1, ?_⟩
    intro o ho
    cases ho with
    | head => exact le_trans hm.2 hx.1
    | tail _ ho => exact hx.2 o ho

theorem foldl_max_attained (l : List TxPoolObject) : ∀ m : Nat,
    l.foldl (fun max obj => if obj.tx.nonce > max then obj.tx.nonce else max) m = m ∨
      ∃ o ∈ l, o.tx.nonce =
        l.foldl (fun max obj => if obj.tx.nonce > max then obj.tx.nonce else max) m := by
  induction l with
  | nil => intro m; exact Or.inl rfl
  | cons x l ih =>
    intro m
    rw [foldl_cons]
    cases ih (if x.tx.nonce > m then x.tx.nonce else m) with
    | inl hsame =>
      rw [hsame]
      split
      · exact Or.inr ⟨x, mem_cons_self, rfl⟩
      · exact Or.inl rfl
    | inr hmem =>
      obtain ⟨o, ho, heq⟩ := hmem
      exact Or.inr ⟨o, mem_cons_of_mem _ ho, heq⟩

theorem le_maxNonce (ho : o ∈ l) (x : TxPoolObject) :
    o.tx.nonce ≤ maxNonce x l := (le_foldl_max l _).2 o ho

/-- The maximum over a list that starts with `x` is one of its nonces. -/
theorem maxNonce_attained (x : TxPoolObject) (l : List TxPoolObject) :
    ∃ o ∈ x :: l, o.tx.nonce = maxNonce x (x :: l) := by
  cases foldl_max_attained (x :: l) x.tx.nonce with
  | inl hsame => exact ⟨x, mem_cons_self, hsame.symm⟩
  | inr hmem => exact hmem

theorem lt_nextExpectedNonce (ho : o ∈ l) (n : Nat) : o.tx.nonce < nextExpectedNonce n l := by
  cases l with
  | nil => cases ho
  | cons x l => exact Nat.lt_succ_of_le (le_maxNonce ho x)

/-- The promoted objects fill the nonces from the expected one on. -/
theorem splitQueued_toPromote_nonces (accountNonce : Nat) (l : List TxPoolObject) :
    ∀ next, (splitQueued accountNonce next l).toPromote.map (fun o => o.tx.nonce) =
      List.range' next (splitQueued accountNonce next l).toPromote.length := by
  induction l with
  | nil => intro next; rfl
  | cons o l ih =>
    intro next
    simp only [splitQueued]
    split
    · rename_i hnext
      simp only [map_cons, length_cons, range'_succ]
      rw [ih, hnext]
    · split
      · exact ih next
      · exact ih next

theorem next_le_toPromote {accountNonce next : Nat}
    (ho : o ∈ (splitQueued accountNonce next l).toPromote) : next ≤ o.tx.nonce := by
  have hmem : o.tx.nonce ∈ (splitQueued accountNonce next l).toPromote.map (fun o => o.tx.nonce) :=
    mem_map_of_mem ho
  rw [splitQueued_toPromote_nonces] at hmem
  exact (mem_range'_1.mp hmem).1

/-- The nonces left in `pending` run from the expected one on. -/
theorem splitPending_stillPending_nonces (account : Account) (l : List TxPoolObject) :
    ∀ expected, (splitPending account expected l).stillPending.map (fun o => o.tx.nonce) =
      List.range' expected (splitPending account expected l).stillPending.length := by
  induction l with
  | nil => intro expected; rfl
  | cons o l ih =>
    intro expected
    simp only [splitPending]
    split
    · exact ih expected
    · split
      · exact ih expected
      · rename_i hkeep
        have heq : o.tx.nonce = expected := by
          by_contra hne
          exact hkeep (Or.inr hne)
        simp only [map_cons, length_cons, range'_succ]
        rw [ih, heq]

/-- A sorted list whose nonces are those of a gapless range is left alone by
`demoteUnexecutables`. -/
theorem splitPending_of_executable (account : Account) (l : List TxPoolObject) :
    ∀ expected, account.nonce ≤ expected → (∀ o ∈ l, cost o.tx ≤ account.balance) →
      l.map (fun o => o.tx.nonce) = List.range' expected l.length →
      splitPending account expected l = { stillPending := l, toDemote := [], toRemove := [] } := by
  induction l with
  | nil => intro expected _ _ _; rfl
  | cons o l ih =>
    intro expected hle hcost hnonces
    simp only [map_cons, length_cons, range'_succ, List.cons.injEq] at hnonces
    obtain ⟨hhead, htail⟩ := hnonces
    have hno : ¬(account.balance < cost o.tx ∨ o.tx.nonce ≠ expected) := by
      rintro (h | h)
      · exact absurd (hcost o mem_cons_self) (Nat.not_le.mpr h)
      · exact h hhead
    have hge : ¬o.tx.nonce < account.nonce := by omega
    simp only [splitPending, hge, hno, if_false]
    rw [hhead, ih (expected + 1) (by omega) (fun o' ho' => hcost o' (mem_cons_of_mem _ ho')) htail]

/-! ## The objects of a sender -/

theorem mem_allTxsForSender {s : TxPool} {a : UnprefixedAddress} :
    o ∈ s.allTxsForSender a ↔ ∃ p, o ∈ s.list p a := by
  simp only [allTxsForSender, mem_append]
  constructor
  · rintro (h | h)
    · exact ⟨.pending, h⟩
    · exact ⟨.queued, h⟩
  · rintro ⟨p, h⟩
    cases p with
    | pending => exact Or.inl h
    | queued => exact Or.inr h

/-- Where one list of a sender loses objects, the sender loses them. -/
theorem allTxsForSender_perm {s s' : TxPool} {a : UnprefixedAddress} {p : PoolType}
    {gone : List TxPoolObject} (hp : (s.list p a).Perm (s'.list p a ++ gone))
    (ho : s'.list p.other a = s.list p.other a) :
    (s.allTxsForSender a).Perm (s'.allTxsForSender a ++ gone) := by
  cases p with
  | pending =>
    simp only [allTxsForSender, PoolType.other] at ho ⊢
    rw [ho, append_assoc]
    refine (hp.append_right _).trans ?_
    rw [append_assoc]
    exact perm_append_comm.append_left _
  | queued =>
    simp only [allTxsForSender, PoolType.other] at ho ⊢
    rw [ho, append_assoc]
    exact hp.append_left _

theorem allTxsForSender_perm_both (s : TxPool) (a : UnprefixedAddress) (p : PoolType) :
    (s.allTxsForSender a).Perm (s.list p a ++ s.list p.other a) := by
  cases p with
  | pending => exact List.Perm.refl _
  | queued => exact perm_append_comm

/-! ## removeByHash -/

/-- Either `removeByHash` finds nothing, or it takes out an object that it finds
in the list of the sender that `handled` names. -/
theorem removeByHash_cases (s : TxPool) (hash : UnprefixedHash) :
    s.removeByHash hash = s ∨ ∃ handled txObj, s.handled.get hash = some handled ∧
      txObj ∈ s.list (s.poolOfHash hash handled.address) handled.address ∧ txObj.hash = hash ∧
      s.removeByHash hash = s.takeOut hash handled.address (s.poolOfHash hash handled.address) txObj := by
  unfold removeByHash
  cases hh : s.handled.get hash with
  | none => exact Or.inl rfl
  | some handled =>
    simp only
    cases hf : (s.list (s.poolOfHash hash handled.address) handled.address).find?
        (fun obj => obj.hash = hash) with
    | none => exact Or.inl rfl
    | some txObj =>
      refine Or.inr ⟨handled, txObj, rfl, mem_of_find?_eq_some hf, ?_, rfl⟩
      simpa using find?_some hf

section TakeOut

variable (s : TxPool) (hash : UnprefixedHash) (a : UnprefixedAddress) (pool : PoolType)
  (txObj : TxPoolObject)

theorem list_takeOut : (s.takeOut hash a pool txObj).list =
    updateAt s.list pool a ((s.list pool a).filter (fun obj => obj.hash ≠ hash)) :=
  list_setOrDelete s pool a _

theorem counts_takeOut : (s.takeOut hash a pool txObj).counts =
    Function.update s.counts pool (s.counts pool - 1) := by
  simp only [takeOut, removeFromPriced, counts_addCount, counts_setOrDelete]
  rfl

theorem priced_takeOut :
    (s.takeOut hash a pool txObj).priced = (s.removeFromPriced txObj).priced := by
  simp only [takeOut, removeFromPriced, priced_addCount, priced_setOrDelete]

theorem hashIndex_takeOut : (s.takeOut hash a pool txObj).hashIndex = s.hashIndex.delete hash := by
  simp only [takeOut, removeFromPriced, hashIndex_addCount, hashIndex_setOrDelete]

theorem accountNonces_takeOut : (s.takeOut hash a pool txObj).accountNonces = s.accountNonces := by
  simp only [takeOut, removeFromPriced, accountNonces_addCount, accountNonces_setOrDelete]

end TakeOut

/-! ## promoteExecutables -/

section Promote

variable (s : TxPool) (a : UnprefixedAddress) (pendingTxs toPromote : List TxPoolObject)

theorem list_movePromoted : (s.movePromoted a pendingTxs toPromote).list =
    if toPromote.isEmpty then s.list
    else updateAt s.list .pending a (sortByNonce (pendingTxs ++ toPromote)) := by
  unfold movePromoted
  split
  · rfl
  · rw [foldl_keeps (g := TxPool.list) (f := indexPromoted a) (fun _ _ => rfl), list_addCount,
      list_addCount, list_setNew]

theorem counts_movePromoted : (s.movePromoted a pendingTxs toPromote).counts =
    Function.update (Function.update s.counts .pending (s.counts .pending + toPromote.length))
      .queued (s.counts .queued - toPromote.length) := by
  unfold movePromoted
  split
  · rename_i hnil
    rw [List.isEmpty_iff.mp hnil]
    simp
  · rw [foldl_keeps (g := TxPool.counts) (f := indexPromoted a) (fun _ _ => rfl)]
    simp only [counts_addCount, counts_setNew]
    rfl

theorem priced_movePromoted : (s.movePromoted a pendingTxs toPromote).priced = s.priced := by
  unfold movePromoted
  split
  · rfl
  · exact foldl_keeps (g := TxPool.priced) (f := indexPromoted a) (fun _ _ => rfl) _ _

theorem accountNonces_movePromoted :
    (s.movePromoted a pendingTxs toPromote).accountNonces = s.accountNonces := by
  unfold movePromoted
  split
  · rfl
  · exact foldl_keeps (g := TxPool.accountNonces) (f := indexPromoted a) (fun _ _ => rfl) _ _

theorem hashIndex_foldl_indexPromoted (h : UnprefixedHash) :
    ∀ (l : List TxPoolObject) (s : TxPool), (l.foldl (indexPromoted a) s).hashIndex.get h =
      if h ∈ l.map TxPoolObject.hash then some { address := a, poolType := .pending }
      else s.hashIndex.get h := by
  intro l
  induction l with
  | nil => intro s; simp
  | cons o l ih =>
    intro s
    rw [foldl_cons, ih]
    simp only [indexPromoted, OrderedMap.get_set]
    by_cases hl : h ∈ l.map TxPoolObject.hash
    · simp [hl]
    · by_cases ho : h = o.hash
      · simp [ho]
      · simp only [hl, ho, if_false, map_cons, mem_cons, false_or]

theorem hashIndex_movePromoted (h : UnprefixedHash) :
    (s.movePromoted a pendingTxs toPromote).hashIndex.get h =
      if h ∈ toPromote.map TxPoolObject.hash then some { address := a, poolType := .pending }
      else s.hashIndex.get h := by
  unfold movePromoted
  split
  · rename_i hnil
    rw [List.isEmpty_iff.mp hnil]
    simp
  · exact hashIndex_foldl_indexPromoted a h _ _

variable (i n : Nat)

theorem list_promoteAddr_of_ne {b : UnprefixedAddress} (hb : b ≠ a) (q : PoolType) :
    (s.promoteAddr a i n).list q b = s.list q b := by
  have hwrite := list_writeArray_of_ne s (p := .queued) (fun h : q = .queued ∧ b = a => hb h.2) i
    (sortByNonce (s.arrays .queued a i))
  simp only [promoteAddr, list_setOrDelete, list_movePromoted, updateAt_of_address_ne _ _ _ hb]
  split <;>
    simp only [updateAt_of_address_ne _ _ _ hb, hwrite,
      foldl_keeps (g := TxPool.list) (f := dropStale) (fun _ _ => rfl)]

theorem list_promoteAddr_queued :
    (s.promoteAddr a i n).list .queued a = (s.promoteSplit a i n).remaining := by
  simp only [promoteAddr, list_setOrDelete, updateAt_self]

theorem list_promoteAddr_pending : (s.promoteAddr a i n).list .pending a =
    if (s.promoteSplit a i n).toPromote.isEmpty then s.list .pending a
    else sortByNonce (s.list .pending a ++ (s.promoteSplit a i n).toPromote) := by
  have hne : pending ≠ queued := by decide
  simp only [promoteAddr, list_setOrDelete, list_movePromoted, updateAt_of_pool_ne _ hne]
  split
  · rw [foldl_keeps (g := TxPool.list) (f := dropStale) (fun _ _ => rfl)]
    exact list_writeArray_of_ne s (fun h => hne h.1) i _
  · rw [updateAt_self]

theorem list_promoteAddr_pending_perm : ((s.promoteAddr a i n).list .pending a).Perm
    (s.list .pending a ++ (s.promoteSplit a i n).toPromote) := by
  rw [list_promoteAddr_pending]
  split
  · rename_i hnil
    rw [List.isEmpty_iff.mp hnil, append_nil]
  · exact sortByNonce_perm _

theorem promoteSplit_perm : ((s.promoteSplit a i n).toPromote ++ (s.promoteSplit a i n).stale ++
    (s.promoteSplit a i n).remaining).Perm (s.arrays .queued a i) :=
  (splitQueued_perm _ _ _).trans (sortByNonce_perm _)

/-- Objects leave the sender's lists only when they are stale. -/
theorem allTxsForSender_promoteAddr {s : TxPool} {a : UnprefixedAddress} {i : Nat}
    (hi : s.arrays .queued a i = s.list .queued a) (n : Nat) : (s.allTxsForSender a).Perm
      ((s.promoteAddr a i n).allTxsForSender a ++ (s.promoteSplit a i n).stale) := by
  have hsplit := promoteSplit_perm s a i n
  rw [hi] at hsplit
  simp only [allTxsForSender, list_promoteAddr_queued]
  refine (hsplit.symm.append_left _).trans ?_
  refine List.Perm.trans ?_ (((list_promoteAddr_pending_perm s a i n).symm.append_right _).append_right _)
  simp only [append_assoc]
  exact (perm_append_comm.append_left _).append_left _

theorem counts_foldl_dropStale (l : List TxPoolObject) (s : TxPool) : (l.foldl dropStale s).counts =
    Function.update s.counts .queued (s.counts .queued - l.length) := by
  induction l generalizing s with
  | nil => simp
  | cons o l ih =>
    rw [foldl_cons, ih]
    simp only [dropStale, removeFromPriced, counts_addCount, update_self,
      update_idem, length_cons, Nat.cast_add, Nat.cast_one]
    congr 1
    omega

theorem counts_promoteAddr : (s.promoteAddr a i n).counts = Function.update
      (Function.update s.counts .pending (s.counts .pending + (s.promoteSplit a i n).toPromote.length))
      .queued (s.counts .queued - (s.promoteSplit a i n).stale.length -
        (s.promoteSplit a i n).toPromote.length) := by
  simp only [promoteAddr, counts_setOrDelete, counts_movePromoted, counts_foldl_dropStale,
    counts_writeArray, update_self]
  funext q
  cases q <;> simp

/-- The counts follow the lengths. -/
theorem counts_length_promoteAddr (hi : s.arrays .queued a i = s.list .queued a) (p : PoolType) :
    (s.promoteAddr a i n).counts p + (s.list p a).length =
      s.counts p + ((s.promoteAddr a i n).list p a).length := by
  have hlen := (promoteSplit_perm s a i n).length_eq
  have hplen := (list_promoteAddr_pending_perm s a i n).length_eq
  rw [hi] at hlen
  simp only [length_append] at hlen hplen
  rw [counts_promoteAddr]
  cases p with
  | pending => simp; omega
  | queued => simp [list_promoteAddr_queued]; omega

theorem priced_promoteAddr (hs : (s.priced.items.map TxPoolObject.hash).Nodup)
    (hle : ((s.promoteSplit a i n).stale : Multiset TxPoolObject) ≤ s.priced.items) :
    (s.promoteAddr a i n).priced.items + (s.promoteSplit a i n).stale = s.priced.items := by
  simp only [promoteAddr, priced_setOrDelete, priced_movePromoted]
  exact priced_foldl_add dropStale (fun _ _ => rfl) _
    (s.writeArray .queued a i (sortByNonce (s.arrays .queued a i))) hs hle

theorem hashIndex_promoteAddr (h : UnprefixedHash) : (s.promoteAddr a i n).hashIndex.get h =
    if h ∈ (s.promoteSplit a i n).toPromote.map TxPoolObject.hash then
      some { address := a, poolType := .pending }
    else if h ∈ (s.promoteSplit a i n).stale.map TxPoolObject.hash then none
    else s.hashIndex.get h := by
  simp only [promoteAddr, hashIndex_setOrDelete, hashIndex_movePromoted]
  rw [foldl_delete (g := TxPool.hashIndex) (f := dropStale) (fun _ _ => rfl)]
  rfl

theorem accountNonces_promoteAddr : (s.promoteAddr a i n).accountNonces = s.accountNonces := by
  simp only [promoteAddr, accountNonces_setOrDelete, accountNonces_movePromoted]
  exact foldl_keeps (g := TxPool.accountNonces) (f := dropStale) (fun _ _ => rfl) _ _

end Promote

/-! ## demoteUnexecutables -/

section Demote

variable (s : TxPool) (a : UnprefixedAddress) (toDemote : List TxPoolObject)

theorem list_moveDemoted : (s.moveDemoted a toDemote).list =
    if toDemote.isEmpty then s.list
    else updateAt s.list .queued a (sortByNonce (s.list .queued a ++ toDemote)) := by
  unfold moveDemoted
  split
  · rfl
  · simp only [list_addCount, list_setNew]

theorem counts_moveDemoted : (s.moveDemoted a toDemote).counts =
    Function.update (Function.update s.counts .pending (s.counts .pending - toDemote.length))
      .queued (s.counts .queued + toDemote.length) := by
  unfold moveDemoted
  split
  · rename_i hnil
    rw [List.isEmpty_iff.mp hnil]
    simp
  · simp only [counts_addCount, counts_setNew]
    rfl

theorem priced_moveDemoted : (s.moveDemoted a toDemote).priced = s.priced := by
  unfold moveDemoted
  split <;> rfl

theorem hashIndex_moveDemoted : (s.moveDemoted a toDemote).hashIndex = s.hashIndex := by
  unfold moveDemoted
  split <;> rfl

theorem accountNonces_moveDemoted : (s.moveDemoted a toDemote).accountNonces = s.accountNonces := by
  unfold moveDemoted
  split <;> rfl

variable (i : Nat) (account : Account)

theorem list_demoteAddr_of_ne {b : UnprefixedAddress} (hb : b ≠ a) (q : PoolType) :
    (s.demoteAddr a i account).list q b = s.list q b := by
  have hwrite := list_writeArray_of_ne (s.setNonce a account.nonce) (p := .pending)
    (fun h : q = .pending ∧ b = a => hb h.2) i (sortByNonce (s.arrays .pending a i))
  simp only [demoteAddr, list_setOrDelete, list_moveDemoted, updateAt_of_address_ne _ _ _ hb]
  split <;> simp only [updateAt_of_address_ne _ _ _ hb,
    foldl_keeps (g := TxPool.list) (f := removeMined) (fun _ _ => rfl)] <;> exact hwrite

theorem list_demoteAddr_pending :
    (s.demoteAddr a i account).list .pending a = (s.demoteSplit a i account).stillPending := by
  simp only [demoteAddr, list_setOrDelete, updateAt_self]

theorem list_demoteAddr_queued : (s.demoteAddr a i account).list .queued a =
    if (s.demoteSplit a i account).toDemote.isEmpty then s.list .queued a
    else sortByNonce (s.list .queued a ++ (s.demoteSplit a i account).toDemote) := by
  have hne : queued ≠ pending := by decide
  have hwrite := list_writeArray_of_ne (s.setNonce a account.nonce)
    (fun h : queued = .pending ∧ a = a => hne h.1) i (sortByNonce (s.arrays .pending a i))
  simp only [demoteAddr, list_setOrDelete, list_moveDemoted, updateAt_of_pool_ne _ hne]
  split
  · rw [foldl_keeps (g := TxPool.list) (f := removeMined) (fun _ _ => rfl)]
    exact hwrite
  · rw [updateAt_self, foldl_keeps (g := TxPool.list) (f := removeMined) (fun _ _ => rfl)]
    exact congrArg (fun l => sortByNonce (l ++ (s.demoteSplit a i account).toDemote)) hwrite

theorem list_demoteAddr_queued_perm : ((s.demoteAddr a i account).list .queued a).Perm
    (s.list .queued a ++ (s.demoteSplit a i account).toDemote) := by
  rw [list_demoteAddr_queued]
  split
  · rename_i hnil
    rw [List.isEmpty_iff.mp hnil, append_nil]
  · exact sortByNonce_perm _

theorem demoteSplit_perm : ((s.demoteSplit a i account).stillPending ++
    (s.demoteSplit a i account).toDemote ++ (s.demoteSplit a i account).toRemove).Perm
    (s.arrays .pending a i) :=
  (splitPending_perm _ _ _).trans (sortByNonce_perm _)

/-- Objects leave the sender's lists only when they are mined. -/
theorem allTxsForSender_demoteAddr {s : TxPool} {a : UnprefixedAddress} {i : Nat}
    (hi : s.arrays .pending a i = s.list .pending a) (account : Account) :
    (s.allTxsForSender a).Perm
      ((s.demoteAddr a i account).allTxsForSender a ++ (s.demoteSplit a i account).toRemove) := by
  have hsplit := demoteSplit_perm s a i account
  rw [hi] at hsplit
  have hqueue := list_demoteAddr_queued_perm s a i account
  simp only [allTxsForSender, list_demoteAddr_pending]
  refine (hsplit.symm.append_right _).trans ?_
  refine List.Perm.trans ?_ ((hqueue.symm.append_left _).append_right _)
  simp only [append_assoc]
  refine Perm.append_left _ ?_
  rw [← append_assoc]
  exact perm_append_comm

theorem counts_foldl_removeMined (l : List TxPoolObject) (s : TxPool) :
    (l.foldl removeMined s).counts =
      Function.update s.counts .pending (s.counts .pending - l.length) := by
  induction l generalizing s with
  | nil => simp
  | cons o l ih =>
    rw [foldl_cons, ih]
    simp only [removeMined, removeFromPriced, counts_addCount, update_self,
      update_idem, length_cons, Nat.cast_add, Nat.cast_one]
    congr 1
    omega

theorem counts_demoteAddr : (s.demoteAddr a i account).counts = Function.update
      (Function.update s.counts .pending (s.counts .pending -
        (s.demoteSplit a i account).toRemove.length - (s.demoteSplit a i account).toDemote.length))
      .queued (s.counts .queued + (s.demoteSplit a i account).toDemote.length) := by
  simp only [demoteAddr, counts_setOrDelete, counts_moveDemoted, counts_foldl_removeMined,
    counts_writeArray]
  funext q
  cases q <;> simp [setNonce]

/-- The counts follow the lengths. -/
theorem counts_length_demoteAddr (hi : s.arrays .pending a i = s.list .pending a) (p : PoolType) :
    (s.demoteAddr a i account).counts p + (s.list p a).length =
      s.counts p + ((s.demoteAddr a i account).list p a).length := by
  have hlen := (demoteSplit_perm s a i account).length_eq
  have hqlen := (list_demoteAddr_queued_perm s a i account).length_eq
  rw [hi] at hlen
  simp only [length_append] at hlen hqlen
  rw [counts_demoteAddr]
  cases p with
  | pending => simp [list_demoteAddr_pending]; omega
  | queued => simp; omega

theorem priced_demoteAddr (hs : (s.priced.items.map TxPoolObject.hash).Nodup)
    (hle : ((s.demoteSplit a i account).toRemove : Multiset TxPoolObject) ≤ s.priced.items) :
    (s.demoteAddr a i account).priced.items + (s.demoteSplit a i account).toRemove =
      s.priced.items := by
  simp only [demoteAddr, priced_setOrDelete, priced_moveDemoted]
  exact priced_foldl_add removeMined (fun _ _ => rfl) _
    ((s.setNonce a account.nonce).writeArray .pending a i (sortByNonce (s.arrays .pending a i))) hs hle

theorem hashIndex_demoteAddr : (s.demoteAddr a i account).hashIndex = s.hashIndex := by
  simp only [demoteAddr, hashIndex_setOrDelete, hashIndex_moveDemoted]
  exact foldl_keeps (g := TxPool.hashIndex) (f := removeMined) (fun _ _ => rfl) _ _

theorem accountNonces_demoteAddr :
    (s.demoteAddr a i account).accountNonces = s.accountNonces.set a account.nonce := by
  simp only [demoteAddr, accountNonces_setOrDelete, accountNonces_moveDemoted]
  exact foldl_keeps (g := TxPool.accountNonces) (f := removeMined) (fun _ _ => rfl) _ _

end Demote

/-! ## add -/

section Add

variable (s : TxPool) (tx : TypedTransaction) (isLocal : Bool) (added : Int) (a : UnprefixedAddress)
  (pool : PoolType)

variable {o : TxPoolObject}

theorem replaced_mem (ho : s.replaced tx a pool = some o) : o ∈ s.list pool a :=
  mem_of_find?_eq_some ho

theorem replaced_nonce (ho : s.replaced tx a pool = some o) : o.tx.nonce = tx.nonce := by
  simpa using find?_some ho

theorem perm_cons_eraseP {l : List TxPoolObject} {q : TxPoolObject → Bool} (ho : l.find? q = some o) :
    l.Perm (o :: l.eraseP q) := by
  induction l with
  | nil => cases ho
  | cons x l ih =>
    by_cases hx : q x
    · rw [find?_cons_of_pos hx] at ho
      cases ho
      rw [eraseP_cons_of_pos hx]
    · rw [find?_cons_of_neg hx] at ho
      rw [eraseP_cons_of_neg hx]
      exact ((ih ho).cons x).trans (List.Perm.swap o x _)

/-- The list is the replaced object, if there is one, and the rest. -/
theorem replaced_perm :
    (s.list pool a).Perm ((s.replaced tx a pool).toList ++ s.withoutReplaced tx a pool) := by
  unfold withoutReplaced
  cases ho : s.replaced tx a pool with
  | some o => exact perm_cons_eraseP ho
  | none =>
    rw [eraseP_of_forall_not (fun o hmem => find?_eq_none.mp ho o hmem)]
    exact List.Perm.refl _

/-- No kept object of the target list has the new nonce. -/
theorem withoutReplaced_nonce {s : TxPool} {tx : TypedTransaction} {a : UnprefixedAddress}
    {pool : PoolType} (hn : ((s.list pool a).map (fun o => o.tx.nonce)).Nodup)
    (ho : o ∈ s.withoutReplaced tx a pool) : o.tx.nonce ≠ tx.nonce := by
  intro heq
  have hperm := s.replaced_perm tx a pool
  have hmem : o ∈ s.list pool a := hperm.mem_iff.mpr (mem_append_right _ ho)
  cases hold : s.replaced tx a pool with
  | none =>
    have hno := find?_eq_none.mp hold o hmem
    simp only [decide_eq_true_eq] at hno
    exact hno heq
  | some o' =>
    rw [hold] at hperm
    have hnodup := (hperm.map (fun o => o.tx.nonce)).nodup_iff.mp hn
    simp only [Option.toList_some, cons_append, nil_append, map_cons,
      nodup_cons] at hnodup
    apply hnodup.1
    rw [s.replaced_nonce tx a pool hold, ← heq]
    exact mem_map_of_mem ho

section

variable (old : Option TxPoolObject)
include old

theorem list_forgetReplaced : (s.forgetReplaced pool old).list = s.list := by
  cases old <;> rfl

theorem accountNonces_forgetReplaced :
    (s.forgetReplaced pool old).accountNonces = s.accountNonces := by
  cases old <;> rfl

theorem counts_forgetReplaced : (s.forgetReplaced pool old).counts =
    Function.update s.counts pool (s.counts pool - old.toList.length) := by
  cases old with
  | none => simp [forgetReplaced]
  | some o => rfl

theorem hashIndex_forgetReplaced (h : UnprefixedHash) :
    (s.forgetReplaced pool old).hashIndex.get h =
      if h ∈ old.toList.map TxPoolObject.hash then none else s.hashIndex.get h := by
  cases old with
  | none => simp [forgetReplaced]
  | some o => simp [forgetReplaced, removeFromPriced]

end

theorem priced_forgetReplaced (hs : (s.priced.items.map TxPoolObject.hash).Nodup)
    {old : Option TxPoolObject} (hmem : ∀ o ∈ old, o ∈ s.priced.items) :
    (s.forgetReplaced pool old).priced.items + old.toList = s.priced.items := by
  cases old with
  | none => exact Multiset.add_zero _
  | some o => exact (congrArg (· + _) (items_removeFromPriced s o)).trans (filter_hash_add hs (hmem o rfl))

section

variable (old : Option TxPoolObject)
include old

theorem list_storeTx (existingTxs : List TxPoolObject)
    (txObj : TxPoolObject) : (s.storeTx a pool old existingTxs txObj).list =
      updateAt s.list pool a (sortByNonce (existingTxs ++ [txObj])) := by
  unfold storeTx
  split
  · rename_i i hi
    exact list_writeArray hi _
  · exact list_setNew s pool a _

theorem counts_storeTx (existingTxs : List TxPoolObject)
    (txObj : TxPoolObject) : (s.storeTx a pool old existingTxs txObj).counts = s.counts := by
  unfold storeTx
  split <;> rfl

theorem priced_storeTx (existingTxs : List TxPoolObject)
    (txObj : TxPoolObject) : (s.storeTx a pool old existingTxs txObj).priced = s.priced := by
  unfold storeTx
  split <;> rfl

theorem hashIndex_storeTx (existingTxs : List TxPoolObject)
    (txObj : TxPoolObject) : (s.storeTx a pool old existingTxs txObj).hashIndex = s.hashIndex := by
  unfold storeTx
  split <;> rfl

theorem accountNonces_storeTx (existingTxs : List TxPoolObject) (txObj : TxPoolObject) :
    (s.storeTx a pool old existingTxs txObj).accountNonces = s.accountNonces := by
  unfold storeTx
  split <;> rfl

end

theorem addTx_of_exceeds (h : s.exceedsLimit tx isLocal a pool = true) :
    s.addTx tx isLocal added a pool = (s.forgetReplaced pool (s.replaced tx a pool),
      some (.accountLimit a pool (accountLimit pool))) := by
  simp only [addTx, h, if_true]

theorem addTx_of_fits (h : s.exceedsLimit tx isLocal a pool = false) :
    s.addTx tx isLocal added a pool = ((s.forgetReplaced pool (s.replaced tx a pool)).fileTx tx isLocal
      added a pool (s.replaced tx a pool) (s.withoutReplaced tx a pool), none) := by
  simp only [addTx, h, if_false, Bool.false_eq_true]

/-- The sender's objects are those that stay and the replaced one. -/
theorem allTxsForSender_replaced : (s.allTxsForSender a).Perm
    ((s.withoutReplaced tx a pool ++ s.list pool.other a) ++ (s.replaced tx a pool).toList) := by
  refine (s.allTxsForSender_perm_both a pool).trans (((s.replaced_perm tx a pool).append_right _).trans ?_)
  rw [append_assoc]
  exact perm_append_comm

/-- Whether the limit is exceeded or not, the nonce cache stays. -/
theorem accountNonces_addTx : (s.addTx tx isLocal added a pool).1.accountNonces = s.accountNonces := by
  cases h : s.exceedsLimit tx isLocal a pool with
  | true => rw [addTx_of_exceeds _ _ _ _ _ _ h, accountNonces_forgetReplaced]
  | false =>
    rw [addTx_of_fits _ _ _ _ _ _ h]
    cases isLocal <;>
      exact (accountNonces_storeTx _ _ _ _ _ _).trans (accountNonces_forgetReplaced _ _ _)

theorem list_addTx_of_exceeds (h : s.exceedsLimit tx isLocal a pool = true) :
    (s.addTx tx isLocal added a pool).1.list = s.list := by
  rw [addTx_of_exceeds _ _ _ _ _ _ h, list_forgetReplaced]

variable (h : s.exceedsLimit tx isLocal a pool = false)
include h

theorem list_addTx : (s.addTx tx isLocal added a pool).1.list =
    updateAt s.list pool a (sortByNonce (s.withoutReplaced tx a pool ++ [newObject tx added])) := by
  rw [addTx_of_fits _ _ _ _ _ _ h, ← list_forgetReplaced s pool (s.replaced tx a pool)]
  cases isLocal <;> exact list_storeTx _ _ _ _ _ _

theorem list_addTx_self : (s.addTx tx isLocal added a pool).1.list pool a =
    sortByNonce (s.withoutReplaced tx a pool ++ [newObject tx added]) := by
  rw [list_addTx _ _ _ _ _ _ h, updateAt_self]

theorem list_addTx_other :
    (s.addTx tx isLocal added a pool).1.list pool.other a = s.list pool.other a := by
  rw [list_addTx _ _ _ _ _ _ h, updateAt_of_pool_ne _ (other_ne pool)]

/-- The sender's objects afterwards are the new one and those that stay. -/
theorem allTxsForSender_addTx : ((s.addTx tx isLocal added a pool).1.allTxsForSender a).Perm
    (newObject tx added :: (s.withoutReplaced tx a pool ++ s.list pool.other a)) := by
  refine (allTxsForSender_perm_both _ a pool).trans ?_
  rw [list_addTx_self _ _ _ _ _ _ h, list_addTx_other _ _ _ _ _ _ h]
  exact ((sortByNonce_perm _).trans perm_append_comm).append_right _

theorem counts_addTx : (s.addTx tx isLocal added a pool).1.counts = Function.update s.counts pool
      (s.counts pool - (s.replaced tx a pool).toList.length + 1) := by
  have hstored : ((s.forgetReplaced pool (s.replaced tx a pool)).storeTx a pool (s.replaced tx a pool)
      (s.withoutReplaced tx a pool) (newObject tx added)).counts =
      Function.update s.counts pool (s.counts pool - (s.replaced tx a pool).toList.length) := by
    rw [counts_storeTx, counts_forgetReplaced]
  rw [addTx_of_fits _ _ _ _ _ _ h]
  cases isLocal <;>
    simp only [fileTx, if_true, if_false, Bool.false_eq_true, counts_addCount, hstored,
      update_self, update_idem]

/-- The counts follow the lengths. -/
theorem counts_length_addTx (p : PoolType) :
    (s.addTx tx isLocal added a pool).1.counts p + (s.list p a).length =
      s.counts p + ((s.addTx tx isLocal added a pool).1.list p a).length := by
  have hlen := (s.replaced_perm tx a pool).length_eq
  rw [length_append] at hlen
  cases eq_or_eq_other pool p with
  | inl hp =>
    rw [hp, list_addTx_self _ _ _ _ _ _ h, counts_addTx _ _ _ _ _ _ h, update_self, hlen,
      length_sortByNonce, length_append, length_singleton]
    push_cast
    ring
  | inr hp =>
    rw [hp, list_addTx_other _ _ _ _ _ _ h, counts_addTx _ _ _ _ _ _ h,
      update_of_ne (other_ne pool)]

theorem priced_addTx (hs : (s.priced.items.map TxPoolObject.hash).Nodup)
    (hmem : ∀ o ∈ s.replaced tx a pool, o ∈ s.priced.items) :
    (s.addTx tx isLocal added a pool).1.priced.items + (s.replaced tx a pool).toList =
      newObject tx added ::ₘ s.priced.items := by
  have hforget := priced_forgetReplaced s pool hs hmem
  have hpriced : (s.addTx tx isLocal added a pool).1.priced =
      (s.forgetReplaced pool (s.replaced tx a pool)).priced.insert cheaper (newObject tx added) := by
    rw [addTx_of_fits _ _ _ _ _ _ h]
    cases isLocal <;> exact congrArg (fun p => Heap.insert cheaper p (newObject tx added))
      (priced_storeTx _ _ _ _ _ _)
  rw [hpriced, Heap.items_insert, Multiset.cons_add, hforget]

theorem hashIndex_addTx (k : UnprefixedHash) : (s.addTx tx isLocal added a pool).1.hashIndex.get k =
    if k = tx.hash then some { address := a, poolType := pool }
    else if k ∈ (s.replaced tx a pool).toList.map TxPoolObject.hash then none
    else s.hashIndex.get k := by
  have hindex : (s.addTx tx isLocal added a pool).1.hashIndex =
      (s.forgetReplaced pool (s.replaced tx a pool)).hashIndex.set tx.hash
        { address := a, poolType := pool } := by
    rw [addTx_of_fits _ _ _ _ _ _ h]
    cases isLocal <;> exact congrArg (fun m => OrderedMap.set m tx.hash (IndexEntry.mk a pool))
      (hashIndex_storeTx _ _ _ _ _ _)
  rw [hindex, OrderedMap.get_set, hashIndex_forgetReplaced]

end Add

/-! ## cleanup -/

section Cleanup

variable (compDate : Int) (pool : PoolType) (s : TxPool) (a : UnprefixedAddress)

theorem expired_perm :
    (expired compDate pool s a ++ updatedObjects compDate pool s a).Perm (s.list pool a) := by
  have hsame : updatedObjects compDate pool s a =
      (s.list pool a).filter (fun obj => !decide (obj.added < compDate)) := by
    apply filter_congr
    intro o _
    by_cases ho : o.added < compDate
    · simp [ho, not_le.mpr ho]
    · simp [ho, not_lt.mp ho]
  rw [hsame]
  exact filter_append_perm _ _

theorem updatedObjects_of_none (hnil : expired compDate pool s a = []) :
    updatedObjects compDate pool s a = s.list pool a := by
  apply List.filter_eq_self.mpr
  intro o ho
  have hnot := filter_eq_nil_iff.mp hnil o ho
  simpa using hnot

theorem list_cleanupAddr : (cleanupAddr compDate pool s a).list =
    updateAt s.list pool a (updatedObjects compDate pool s a) := by
  unfold cleanupAddr
  split
  · rename_i hnil
    rw [updatedObjects_of_none _ _ _ _ (List.isEmpty_iff.mp hnil)]
    funext q b
    by_cases hq : q = pool ∧ b = a
    · obtain ⟨rfl, rfl⟩ := hq
      rw [updateAt_self]
    · simp [updateAt, hq]
  · rw [removeExpired, list_setOrDelete,
      foldl_keeps (g := TxPool.list) (f := dropExpired) (fun _ _ => rfl), list_addCount]

theorem counts_cleanupAddr : (cleanupAddr compDate pool s a).counts =
    Function.update s.counts pool (s.counts pool - (expired compDate pool s a).length) := by
  unfold cleanupAddr
  split
  · rename_i hnil
    rw [List.isEmpty_iff.mp hnil]
    simp
  · rw [removeExpired, counts_setOrDelete,
      foldl_keeps (g := TxPool.counts) (f := dropExpired) (fun _ _ => rfl), counts_addCount]
    rfl

theorem priced_cleanupAddr (hs : (s.priced.items.map TxPoolObject.hash).Nodup)
    (hle : (expired compDate pool s a : Multiset TxPoolObject) ≤ s.priced.items) :
    (cleanupAddr compDate pool s a).priced.items + expired compDate pool s a = s.priced.items := by
  unfold cleanupAddr
  split
  · rename_i hnil
    rw [List.isEmpty_iff.mp hnil]
    exact Multiset.add_zero _
  · rw [removeExpired, priced_setOrDelete]
    exact priced_foldl_add dropExpired (fun _ _ => rfl) _
      (s.addCount pool (-(expired compDate pool s a).length)) hs hle

theorem hashIndex_cleanupAddr (h : UnprefixedHash) : (cleanupAddr compDate pool s a).hashIndex.get h =
    if h ∈ (expired compDate pool s a).map TxPoolObject.hash then none else s.hashIndex.get h := by
  simp only [cleanupAddr]
  by_cases hnil : (expired compDate pool s a).isEmpty = true
  · rw [if_pos hnil, List.isEmpty_iff.mp hnil]
    simp
  · rw [if_neg hnil, removeExpired, hashIndex_setOrDelete,
      foldl_delete (g := TxPool.hashIndex) (f := dropExpired) (fun _ _ => rfl)]
    rfl

theorem accountNonces_cleanupAddr :
    (cleanupAddr compDate pool s a).accountNonces = s.accountNonces := by
  unfold cleanupAddr
  split
  · rfl
  · rw [removeExpired, accountNonces_setOrDelete]
    exact foldl_keeps (g := TxPool.accountNonces) (f := dropExpired) (fun _ _ => rfl) _ _

end Cleanup

end TxPool
