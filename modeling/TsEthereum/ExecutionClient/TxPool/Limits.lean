-- SUMMARY: `enforcePoolLimits`: it ends, evicts the cheapest transaction that is not local, and reaches the limits or local transactions alone, exactly when prices stay below its sentinel or do not matter.
import TsEthereum.ExecutionClient.TxPool.Books
import TsEthereum.ExecutionClient.TxPool.Findable

/-!
# The limits of the pool

`enforcePoolLimits` evicts from one pool and then from the other. The search for
the cheapest transaction starts from `Number.MAX_SAFE_INTEGER`, so it never sees a
transaction that is priced at that or above.
-/

open List

namespace TxPool

/-! ## The search -/

/-- The search can pick the object. -/
def evictable (s : TxPool) (o : TxPoolObject) : Bool :=
  !s.locals.has o.hash && o.tx.gasPrice < MAX_SAFE_INTEGER

/-- The price to beat in the search. -/
def bestPrice (lowest : Option TxPoolObject) : Nat :=
  (lowest.map (fun o => o.tx.gasPrice)).getD MAX_SAFE_INTEGER

theorem lowerPriced_spec (s : TxPool) (lowest : Option TxPoolObject) (o : TxPoolObject) :
    (s.lowerPriced lowest o = lowest ∧ (s.locals.has o.hash = false → bestPrice lowest ≤ o.tx.gasPrice)) ∨
      (s.lowerPriced lowest o = some o ∧ s.locals.has o.hash = false ∧
        o.tx.gasPrice < bestPrice lowest) := by
  unfold lowerPriced
  split
  · rename_i hlocal
    exact Or.inl ⟨rfl, fun h => absurd (hlocal.symm.trans h) (by simp)⟩
  · rename_i hlocal
    split
    · rename_i hlt
      exact Or.inr ⟨rfl, by simpa using hlocal, hlt⟩
    · rename_i hge
      exact Or.inl ⟨rfl, fun _ => Nat.not_lt.mp hge⟩

/-- The search ends with its start or an object that beats it, and nothing that is
not local beats the end. -/
theorem foldl_lowerPriced (s : TxPool) (l : List TxPoolObject) : ∀ lowest : Option TxPoolObject,
      bestPrice (l.foldl s.lowerPriced lowest) ≤ bestPrice lowest ∧
      (∀ o ∈ l, s.locals.has o.hash = false →
        bestPrice (l.foldl s.lowerPriced lowest) ≤ o.tx.gasPrice) ∧
      (l.foldl s.lowerPriced lowest = lowest ∨ ∃ o ∈ l, l.foldl s.lowerPriced lowest = some o ∧
        s.locals.has o.hash = false ∧ o.tx.gasPrice < bestPrice lowest) := by
  induction l with
  | nil => intro lowest; exact ⟨le_rfl, by simp, Or.inl rfl⟩
  | cons x l ih =>
    intro lowest
    rw [foldl_cons]
    obtain ⟨hle, hall, hend⟩ := ih (s.lowerPriced lowest x)
    have hstep : bestPrice (s.lowerPriced lowest x) ≤ bestPrice lowest ∧
        (s.locals.has x.hash = false → bestPrice (s.lowerPriced lowest x) ≤ x.tx.gasPrice) := by
      rcases s.lowerPriced_spec lowest x with ⟨hsame, hx⟩ | ⟨hnew, _, hlt⟩
      · rw [hsame]
        exact ⟨le_rfl, hx⟩
      · rw [hnew]
        exact ⟨hlt.le, fun _ => le_rfl⟩
    refine ⟨hle.trans hstep.1, ?_, ?_⟩
    · intro o ho hlocal
      rcases mem_cons.mp ho with rfl | hin
      · exact hle.trans (hstep.2 hlocal)
      · exact hall o hin hlocal
    · rcases hend with hsame | ⟨o, ho, hfound, hlocal, hlt⟩
      · rw [hsame]
        rcases s.lowerPriced_spec lowest x with ⟨hsame', _⟩ | ⟨hnew, hlocal, hlt⟩
        · exact Or.inl hsame'
        · exact Or.inr ⟨x, mem_cons_self, hnew, hlocal, hlt⟩
      · exact Or.inr ⟨o, mem_cons_of_mem x ho, hfound, hlocal, hlt.trans_le hstep.1⟩

variable {p : PoolType} {o : TxPoolObject}

theorem mem_searched {s : TxPool} : o ∈ (s.pools p).keys.flatMap (s.list p) ↔ o ∈ s.pooled p := by
  rw [mem_pooled, mem_flatMap]
  constructor
  · rintro ⟨a, _, ho⟩
    exact ⟨a, ho⟩
  · rintro ⟨a, ho⟩
    refine ⟨a, ?_, ho⟩
    by_contra hkey
    rw [list_of_not_mem hkey] at ho
    cases ho

/-- The search finds nothing exactly when there is nothing it can pick. -/
theorem lowestPriced_none {s : TxPool} (h : s.lowestPriced p = none) :
    ∀ o ∈ s.pooled p, s.evictable o = false := by
  intro o ho
  obtain ⟨_, hall, _⟩ := s.foldl_lowerPriced ((s.pools p).keys.flatMap (s.list p)) none
  have hbest : bestPrice (s.lowestPriced p) = MAX_SAFE_INTEGER := by
    rw [h]
    rfl
  have hprice : s.locals.has o.hash = false → MAX_SAFE_INTEGER ≤ o.tx.gasPrice := by
    intro hlocal
    rw [← hbest]
    exact hall o (mem_searched.mpr ho) hlocal
  unfold evictable
  cases hlocal : s.locals.has o.hash with
  | true => rfl
  | false => simpa using hprice hlocal

/-- What the search finds it can pick, and nothing else that is not local is
cheaper. -/
theorem lowestPriced_some {s : TxPool} (h : s.lowestPriced p = some o) :
    o ∈ s.pooled p ∧ s.evictable o = true ∧
      ∀ o' ∈ s.pooled p, s.locals.has o'.hash = false → o.tx.gasPrice ≤ o'.tx.gasPrice := by
  obtain ⟨_, hall, hend⟩ := s.foldl_lowerPriced ((s.pools p).keys.flatMap (s.list p)) none
  rcases hend with hnone | ⟨x, hx, hfound, hlocal, hlt⟩
  · cases h.symm.trans hnone
  · cases h.symm.trans hfound
    refine ⟨mem_searched.mp hx, ?_, ?_⟩
    · have hcheap : o.tx.gasPrice < MAX_SAFE_INTEGER := hlt
      simp [evictable, hlocal, hcheap]
    · intro o' ho' hlocal'
      have hle := hall o' (mem_searched.mpr ho') hlocal'
      have hbest : bestPrice (((s.pools p).keys.flatMap (s.list p)).foldl s.lowerPriced none) =
          o.tx.gasPrice := by
        rw [hfound]
        rfl
      exact hbest ▸ hle

/-! ## One eviction -/

variable {onTx : TypedTransaction → Prop} {now : Int} {s : TxPool}

theorem card_pooled (s : TxPool) (p : PoolType) :
    (s.pooled p).card = (s.pools p).sumKeys (fun a => (s.list p a).length) := by
  unfold pooled OrderedMap.sumKeys
  induction (s.pools p).keys with
  | nil => rfl
  | cons a keys ih => simpa using ih

/-- The counts are the numbers of objects. -/
theorem Filed.counts_card (hs : Filed onTx s) (p : PoolType) : s.counts p = (s.pooled p).card := by
  rw [hs.counts p, card_pooled]
  unfold OrderedMap.sumKeys
  induction (s.pools p).keys with
  | nil => rfl
  | cons a keys ih => simpa using ih

/-- `removeByHash` takes a findable object out. -/
theorem Findable.removeByHash_eq (hs : Findable onTx now s) {a : UnprefixedAddress}
    (ho : o ∈ s.list p a) : s.removeByHash o.hash = s.takeOut o.hash a p o := by
  obtain ⟨handled, hget, haddress, _⟩ := hs.record p a o ho
  have hpool : s.poolOfHash o.hash a = p := by
    unfold poolOfHash
    cases p with
    | pending => exact if_pos (List.any_eq_true.mpr ⟨o, ho, by simp⟩)
    | queued =>
      -- the sender has the hash once, so not in `pending`
      refine if_neg (fun hany => ?_)
      obtain ⟨o', ho', heq⟩ := List.any_eq_true.mp hany
      have hdis := hs.distinct a
      rw [allTxsForSender, map_append, nodup_append] at hdis
      exact hdis.2.2 o'.hash (mem_map_of_mem ho') o.hash (mem_map_of_mem ho)
        (of_decide_eq_true heq)
  have hfind : (s.list p a).find? (fun obj => obj.hash = o.hash) = some o := by
    cases hf : (s.list p a).find? (fun obj => obj.hash = o.hash) with
    | none => exact absurd (find?_eq_none.mp hf o ho) (by simp)
    | some o' =>
      have hsame : o'.hash = o.hash := by simpa using find?_some hf
      rw [inj_on_of_nodup_map (hs.toFiled.distinct_list p a) (mem_of_find?_eq_some hf) ho hsame]
  unfold TxPool.removeByHash
  simp only [hget, haddress, hpool, hfind]

/-- What an eviction changes. -/
structure Evicted (s s' : TxPool) (p : PoolType) (o : TxPoolObject) : Prop where
  pooled : s'.pooled p + {o} = s.pooled p
  others : s'.pooled p.other = s.pooled p.other
  locals : ∀ h, s'.locals.has h = s.locals.has h

theorem Findable.evicted (hs : Findable onTx now s) (hlowest : s.lowestPriced p = some o) :
    Evicted s (s.removeByHash o.hash) p o := by
  obtain ⟨hmem, hevictable, _⟩ := lowestPriced_some hlowest
  obtain ⟨a, ho⟩ := mem_pooled.mp hmem
  have hlocal : s.locals.has o.hash = false := by
    simpa using (Bool.and_eq_true _ _).mp hevictable |>.1
  have hlist := list_takeOut s o.hash a p o
  have hframe : ∀ b, b ≠ a → ∀ q, (s.takeOut o.hash a p o).list q b = s.list q b := by
    intro b hb q
    rw [hlist, updateAt_of_address_ne _ _ _ hb]
  rw [hs.removeByHash_eq ho]
  constructor
  · have hchange := pooled_change hframe p
    have hself : (s.takeOut o.hash a p o).list p a =
        (s.list p a).filter (fun obj => obj.hash ≠ o.hash) := by
      rw [hlist, updateAt_self]
    have hperm : (s.list p a : Multiset TxPoolObject) =
        ((s.takeOut o.hash a p o).list p a : Multiset TxPoolObject) + {o} := by
      rw [hself]
      exact Multiset.coe_eq_coe.mpr (hs.toFiled.filter_perm ho)
    rw [hperm, ← add_assoc, add_right_comm] at hchange
    exact add_right_cancel hchange
  · have hchange := pooled_change hframe p.other
    have hself : (s.takeOut o.hash a p o).list p.other a = s.list p.other a := by
      rw [hlist, updateAt_of_pool_ne _ (PoolType.other_ne p)]
    rw [hself] at hchange
    exact add_right_cancel hchange
  · intro h
    have hdelete : (s.takeOut o.hash a p o).locals = s.locals.delete o.hash := by
      have hkeep : (s.setOrDelete p a ((s.list p a).filter (fun obj => obj.hash ≠ o.hash))).locals =
          s.locals := by
        unfold setOrDelete
        split <;> rfl
      exact congrArg (OrderedMap.delete · o.hash) hkeep
    rw [hdelete, OrderedMap.has_delete]
    cases hh : decide (h = o.hash) with
    | false => rfl
    | true => rw [of_decide_eq_true hh, hlocal, Bool.and_false]

/-! ## The loop -/

/-- The evictions of a loop of `enforcePoolLimits`, each with the state before it. -/
def evictions (pool : PoolType) (limit : Int) : Nat → TxPool → List (TxPool × TxPoolObject)
  | fuel, s =>
    if s.counts pool > limit then
      match s.lowestPriced pool with
      | none => []
      | some lowestTx =>
        match fuel with
        | 0 => []
        | fuel + 1 => (s, lowestTx) :: evictions pool limit fuel (s.removeByHash lowestTx.hash)
    else []

/-- The object leaves its pool, is not local, and no other that is not local is
cheaper. -/
structure EvictsLowest (pool : PoolType) (s : TxPool) (o : TxPoolObject) : Prop where
  leaves : (s.removeByHash o.hash).pooled pool + {o} = s.pooled pool
  others : (s.removeByHash o.hash).pooled pool.other = s.pooled pool.other
  remote : s.locals.has o.hash = false
  lowest : ∀ o' ∈ s.pooled pool, s.locals.has o'.hash = false → o.tx.gasPrice ≤ o'.tx.gasPrice

theorem Findable.evictsLowest (hs : Findable onTx now s) (hlowest : s.lowestPriced p = some o) :
    EvictsLowest p s o where
  leaves := (hs.evicted hlowest).pooled
  others := (hs.evicted hlowest).others
  remote := by
    simpa using ((Bool.and_eq_true _ _).mp (lowestPriced_some hlowest).2.1).1
  lowest := (lowestPriced_some hlowest).2.2

/-- The pool is within its limit, or all that it holds is local. -/
def LimitReached (limit : Int) (s : TxPool) (p : PoolType) : Prop :=
  s.counts p ≤ limit ∨ ∀ o ∈ s.pooled p, s.locals.has o.hash = true

/-- What the search cannot pick fits into the limit, or it can pick all that is
not local. -/
def LimitReachable (limit : Int) (s : TxPool) (p : PoolType) : Prop :=
  (((s.pooled p).filter (fun o => s.evictable o = false)).card : Int) ≤ limit ∨
    ∀ o ∈ s.pooled p, s.locals.has o.hash = false → o.tx.gasPrice < MAX_SAFE_INTEGER

/-- Neither depends on more than the pool and the hashes that are local. -/
theorem limitReachable_congr {limit : Int} {s s' : TxPool} (hpooled : s'.pooled p = s.pooled p)
    (hlocals : ∀ h, s'.locals.has h = s.locals.has h) :
    LimitReachable limit s' p ↔ LimitReachable limit s p := by
  unfold LimitReachable evictable
  simp only [hpooled, hlocals]

/-- An eviction leaves what the search cannot pick. -/
theorem Evicted.limitReachable_iff {limit : Int} {s s' : TxPool} (h : Evicted s s' p o)
    (ho : s.evictable o = true) : LimitReachable limit s' p ↔ LimitReachable limit s p := by
  have hprice : o.tx.gasPrice < MAX_SAFE_INTEGER := by
    simpa using ((Bool.and_eq_true _ _).mp ho).2
  have hsame : ∀ x, s'.evictable x = s.evictable x := by
    intro x
    unfold evictable
    rw [h.locals]
  have hfilter : (s.pooled p).filter (fun x => s.evictable x = false) =
      (s'.pooled p).filter (fun x => s'.evictable x = false) := by
    rw [← h.pooled, Multiset.filter_add, Multiset.filter_singleton, if_neg (by simp [ho])]
    simp only [hsame]
    exact add_zero _
  unfold LimitReachable
  rw [hfilter]
  refine or_congr_right ⟨fun hall x hx => ?_, fun hall x hx => ?_⟩
  · rw [← h.pooled, Multiset.mem_add, Multiset.mem_singleton] at hx
    rcases hx with hin | rfl
    · rw [← h.locals]
      exact hall x hin
    · exact fun _ => hprice
  · rw [h.locals]
    exact hall x (h.pooled ▸ Multiset.mem_add.mpr (Or.inl hx))

/-- What a loop of `enforcePoolLimits` does with a pool. -/
structure Enforced (onTx : TypedTransaction → Prop) (now : Int) (limit : Int) (p : PoolType)
    (fuel : Nat) (s s' : TxPool) : Prop where
  ends : enforceLimit p limit fuel s = some s'
  findable : Findable onTx now s'
  evicts : ∀ e ∈ evictions p limit fuel s, EvictsLowest p e.1 e.2
  others : s'.pooled p.other = s.pooled p.other
  locals : ∀ h, s'.locals.has h = s.locals.has h
  reached : LimitReached limit s' p ↔ LimitReachable limit s p

/-- The induction is on the fuel, which bounds the objects left in the pool. -/
theorem Findable.enforceLimit (hdet : HashesDetermine onTx) (limit : Int) (p : PoolType) :
    ∀ (fuel : Nat) {s : TxPool}, Findable onTx now s → (s.pooled p).card ≤ fuel →
      ∃ s', Enforced onTx now limit p fuel s s' := by
  intro fuel
  induction fuel with
  | zero =>
    intro s hs hle
    have hempty : s.pooled p = 0 := Multiset.card_eq_zero.mp (Nat.le_zero.mp hle)
    have hnone : s.lowestPriced p = none := by
      cases hl : s.lowestPriced p with
      | none => rfl
      | some o =>
        have hmem := (lowestPriced_some hl).1
        rw [hempty] at hmem
        exact absurd hmem (Multiset.notMem_zero o)
    refine ⟨s, ?_, hs, ?_, rfl, fun _ => rfl, ?_⟩
    · unfold TxPool.enforceLimit
      simp only [hnone]
      split <;> rfl
    · unfold evictions
      simp [hnone]
    · exact iff_of_true (Or.inr (by simp [hempty])) (Or.inr (by simp [hempty]))
  | succ fuel ih =>
    intro s hs hle
    by_cases hgt : s.counts p > limit
    · cases hl : s.lowestPriced p with
      | none =>
        have hall := lowestPriced_none hl
        refine ⟨s, ?_, hs, ?_, rfl, fun _ => rfl, ?_⟩
        · unfold TxPool.enforceLimit
          rw [if_pos hgt]
          simp only [hl]
        · unfold evictions
          simp [hl]
        · -- nothing more can be picked, and the pool is over its limit
          have hfilter : (s.pooled p).filter (fun o => s.evictable o = false) = s.pooled p :=
            Multiset.filter_eq_self.mpr hall
          have hcount := hs.toFiled.counts_card p
          unfold LimitReached LimitReachable
          rw [hfilter, or_iff_right (by omega), or_iff_right (by omega)]
          refine forall₂_congr (fun o ho => ?_)
          have hnot := hall o ho
          unfold evictable at hnot
          cases hlocal : s.locals.has o.hash with
          | true => simp
          | false =>
            rw [hlocal] at hnot
            have hprice : MAX_SAFE_INTEGER ≤ o.tx.gasPrice := by simpa using hnot
            simp [hprice]
      | some o =>
        have hevicted := hs.evicted hl
        have hcard : ((s.removeByHash o.hash).pooled p).card ≤ fuel := by
          have hadd := congrArg Multiset.card hevicted.pooled
          rw [Multiset.card_add, Multiset.card_singleton] at hadd
          omega
        obtain ⟨s', hs'⟩ := ih (hs.removeByHash hdet o.hash) hcard
        refine ⟨s', ?_, hs'.findable, ?_, hs'.others.trans hevicted.others,
          fun h => (hs'.locals h).trans (hevicted.locals h), ?_⟩
        · unfold TxPool.enforceLimit
          rw [if_pos hgt]
          simp only [hl]
          exact hs'.ends
        · intro e he
          unfold evictions at he
          rw [if_pos hgt] at he
          simp only [hl] at he
          rcases mem_cons.mp he with rfl | hrest
          · exact hs.evictsLowest hl
          · exact hs'.evicts e hrest
        · exact hs'.reached.trans (hevicted.limitReachable_iff (lowestPriced_some hl).2.1)
    · have hcount := hs.toFiled.counts_card p
      refine ⟨s, ?_, hs, ?_, rfl, fun _ => rfl, ?_⟩
      · unfold TxPool.enforceLimit
        exact if_neg hgt
      · unfold evictions
        simp [hgt]
      · have hle : ((s.pooled p).filter (fun o => s.evictable o = false)).card ≤ (s.pooled p).card :=
          Multiset.card_le_card (Multiset.filter_le _ _)
        exact iff_of_true (Or.inl (by omega)) (Or.inl (by omega))

/-! ## Both limits -/

def poolLimit : PoolType → Int
  | .pending => GLOBAL_SLOTS
  | .queued => GLOBAL_QUEUE

/-- The evictions of `enforcePoolLimits`, with the pool of each. -/
def limitEvictions (s : TxPool) : List (PoolType × TxPool × TxPoolObject) :=
  (evictions .pending GLOBAL_SLOTS s.size s).map (fun e => (.pending, e)) ++
    match enforceLimit .pending GLOBAL_SLOTS s.size s with
    | none => []
    | some s => (evictions .queued GLOBAL_QUEUE s.size s).map (fun e => (.queued, e))

/-- `enforcePoolLimits` ends, evicts the cheapest transactions that are not local,
and leaves no pool over its limit but one that is all local. -/
def EnforcesLimits (s : TxPool) : Prop :=
  ∃ s', s.enforcePoolLimits = some s' ∧
    (∀ e ∈ s.limitEvictions, EvictsLowest e.1 e.2.1 e.2.2) ∧
    ∀ p, LimitReached (poolLimit p) s' p

theorem card_le_size (s : TxPool) (p : PoolType) : (s.pooled p).card ≤ s.size := by
  rw [card_pooled]
  unfold size
  cases p with
  | pending => exact Nat.le_add_right _ _
  | queued => exact Nat.le_add_left _ _

/-- Where everything pooled is findable, the limits are enforced exactly when they
can be reached. -/
theorem Findable.enforcesLimits_iff (hs : Findable onTx now s) (hdet : HashesDetermine onTx) :
    s.EnforcesLimits ↔ ∀ p, LimitReachable (poolLimit p) s p := by
  obtain ⟨s₁, h₁⟩ := Findable.enforceLimit hdet GLOBAL_SLOTS .pending s.size hs (card_le_size s .pending)
  obtain ⟨s₂, h₂⟩ := Findable.enforceLimit hdet GLOBAL_QUEUE .queued s₁.size h₁.findable
    (card_le_size s₁ .queued)
  have hends : s.enforcePoolLimits = some s₂ := by
    unfold enforcePoolLimits
    rw [h₁.ends]
    exact h₂.ends
  have hevicts : ∀ e ∈ s.limitEvictions, EvictsLowest e.1 e.2.1 e.2.2 := by
    intro e he
    unfold limitEvictions at he
    rw [h₁.ends] at he
    rcases mem_append.mp he with hpending | hqueued
    · obtain ⟨e', he', rfl⟩ := mem_map.mp hpending
      exact h₁.evicts e' he'
    · obtain ⟨e', he', rfl⟩ := mem_map.mp hqueued
      exact h₂.evicts e' he'
  -- the second loop leaves `pending`, the first what there is to say of `queued`
  have hpending : LimitReached GLOBAL_SLOTS s₂ .pending ↔ LimitReachable GLOBAL_SLOTS s .pending := by
    rw [← h₁.reached]
    have hpooled : s₂.pooled .pending = s₁.pooled .pending := h₂.others
    unfold LimitReached
    rw [h₂.findable.toFiled.counts_card, h₁.findable.toFiled.counts_card]
    simp only [hpooled, h₂.locals]
  have hqueued : LimitReached GLOBAL_QUEUE s₂ .queued ↔ LimitReachable GLOBAL_QUEUE s .queued :=
    h₂.reached.trans (limitReachable_congr h₁.others h₁.locals)
  constructor
  · rintro ⟨s', hs', _, hreached⟩ p
    cases hends.symm.trans hs'
    cases p with
    | pending => exact hpending.mp (hreached .pending)
    | queued => exact hqueued.mp (hreached .queued)
  · intro hreachable
    refine ⟨s₂, hends, hevicts, fun p => ?_⟩
    cases p with
    | pending => exact hpending.mpr (hreachable .pending)
    | queued => exact hqueued.mpr (hreachable .queued)

/-! ## The states in which the limits are enforced -/

/-- The state in which an `add` calls `enforcePoolLimits`, if it gets there. -/
def beforeLimits (env : Env) (s : TxPool) (tx : TypedTransaction) (isLocal : Bool) : Option TxPool :=
  if tx.signed then
    match tx.sender with
    | none => none
    | some a =>
      match s.validate env.head tx isLocal a with
      | .error _ => none
      | .ok () =>
        match s.accountNonce env.head a with
        | .error _ => none
        | .ok (s, nonce) =>
          let pool := s.classify tx a nonce
          match s.addTx tx isLocal env.now a pool with
          | (_, some _) => none
          | (s, none) =>
            match promoteAfterAdd env.head a s pool with
            | (_, some _) => none
            | (s, none) => some s
  else none

variable {env : Env} {s₃ : TxPool} {isLocal : Bool}

/-- The steps that an `add` has made by then. -/
theorem beforeLimits_cases {s : TxPool} {tx : TypedTransaction}
    (h : s.beforeLimits env tx isLocal = some s₃) :
    ∃ a s₁ nonce s₂, tx.signed = true ∧ tx.sender = some a ∧
      s.validate env.head tx isLocal a = .ok () ∧ s.accountNonce env.head a = .ok (s₁, nonce) ∧
      s₁.addTx tx isLocal env.now a (s₁.classify tx a nonce) = (s₂, none) ∧
      promoteAfterAdd env.head a s₂ (s₁.classify tx a nonce) = (s₃, none) := by
  unfold beforeLimits at h
  split at h
  case isFalse => cases h
  rename_i hsigned
  split at h
  · cases h
  · rename_i a hsender
    split at h
    · cases h
    · rename_i hv
      split at h
      · cases h
      · rename_i s₁ nonce hn
        simp only at h
        split at h
        · cases h
        · rename_i s₂ hadd
          split at h
          · cases h
          · rename_i s₃' hprom
            cases h
            exact ⟨a, s₁, nonce, s₂, hsigned, hsender, hv, hn, hadd, hprom⟩

/-- From there on an `add` enforces the limits and does nothing else. -/
theorem add_of_beforeLimits {s : TxPool} {tx : TypedTransaction}
    (h : s.beforeLimits env tx isLocal = some s₃) :
    s.add env tx isLocal = s₃.enforcePoolLimits.map (fun s => (s, none)) := by
  obtain ⟨a, s₁, nonce, s₂, hsigned, hsender, hv, hn, hadd, hprom⟩ := beforeLimits_cases h
  simp only [add, hsigned, if_true, hsender, addFrom, hv, hn, hadd, hprom]

variable {K : Condition}

theorem Maintains.beforeLimits {onHead : Head → Prop} {onNow : Int → Prop} {Inv : TxPool → Prop}
    (hp : Maintains K onHead onTx onNow Inv) {tx : TypedTransaction} (hh : onHead env.head)
    (ht : onTx tx) (hnow : onNow env.now) (hK : K.onAdd env s tx isLocal = true) (hi : Inv s)
    (h : s.beforeLimits env tx isLocal = some s₃) : Inv s₃ := by
  obtain ⟨a, s₁, nonce, s₂, _, hsender, hv, hn, hadd, hprom⟩ := beforeLimits_cases h
  obtain ⟨hi₁, hc, _, hval⟩ := hp.accountNonce hh hn hi
  simp only [Condition.onAdd, hsender, Condition.onAddFrom, hv, hn, Bool.and_eq_true] at hK
  have hi₂ := hp.addTx hh ht hnow hsender ((hval tx isLocal).trans hv) hc hK.1 hi₁
  rw [hadd] at hi₂
  have hi₃ := hp.promoteAfterAdd hh a (s₁.classify tx a nonce) hi₂
  rw [hprom] at hi₃
  exact hi₃

/-- A call that starts in `s` enforces the limits in `s'`: an `add`, or an `add` in
the loop of `handleReorg`. -/
inductive Enforces (env : Env) (s : TxPool) : Call → TxPool → Prop where
  | add {tx : TypedTransaction} {isLocal : Bool} {s' : TxPool} :
    s.beforeLimits env tx isLocal = some s' → Enforces env s (.add tx isLocal) s'
  | reorg {oldBlocks newBlocks : List BlockTxs} {before after : List TypedTransaction}
      {tx : TypedTransaction} {s₁ s' : TxPool} :
    oldBlocks.flatten = before ++ tx :: after → reinject env newBlocks before s = some s₁ →
      s₁.skipsOrphan newBlocks tx = false → s₁.beforeLimits env tx true = some s' →
        Enforces env s (.handleReorg oldBlocks newBlocks) s'

/-- The states that a run from the empty pool comes to: after its last call, or
where its last call enforces the limits. -/
inductive Reached (calls : List (Env × Call)) : TxPool → Prop where
  | settled {s : TxPool} : run calls new = some s → Reached calls s
  | enforcing {prior : List (Env × Call)} {env : Env} {c : Call} {s s' : TxPool} :
    calls = prior ++ [(env, c)] → run prior new = some s → Enforces env s c s' → Reached calls s'

/-- The condition on a loop of `handleReorg`, up to one of its transactions. -/
theorem Condition.onReinject_append {newBlocks : List BlockTxs} {tx : TypedTransaction}
    {after : List TypedTransaction} (before : List TypedTransaction) :
    ∀ {s s₁ : TxPool}, K.onReinject env newBlocks (before ++ tx :: after) s = true →
      reinject env newBlocks before s = some s₁ → s₁.skipsOrphan newBlocks tx = false →
        K.onReinject env newBlocks before s = true ∧ K.onAdd env s₁ tx true = true := by
  induction before with
  | nil =>
    intro s s₁ hK h hskip
    cases h
    rw [nil_append, onReinject, if_neg (by simp [hskip])] at hK
    exact ⟨rfl, ((Bool.and_eq_true _ _).mp hK).1⟩
  | cons first before ih =>
    intro s s₁ hK h hskip
    rw [cons_append, onReinject] at hK
    unfold reinject at h
    unfold onReinject
    split at h
    · rename_i hfirst
      rw [if_pos hfirst] at hK ⊢
      exact ih hK h hskip
    · rename_i hfirst
      rw [if_neg hfirst] at hK ⊢
      obtain ⟨hone, hrest⟩ := (Bool.and_eq_true _ _).mp hK
      cases hadd : s.add env first true with
      | none => rw [hadd] at h; cases h
      | some r =>
        rw [hadd] at h hrest
        obtain ⟨hbefore, htx⟩ := ih hrest h hskip
        exact ⟨(Bool.and_eq_true _ _).mpr ⟨hone, hbefore⟩, htx⟩

theorem Condition.onRun_append (prior : List (Env × Call)) {c : Call} :
    ∀ {s s' : TxPool}, K.onRun (prior ++ [(env, c)]) s = true → run prior s = some s' →
      K.onRun prior s = true ∧ K.onCall env s' c = true := by
  induction prior with
  | nil =>
    intro s s' hK h
    cases h
    exact ⟨rfl, ((Bool.and_eq_true _ _).mp hK).1⟩
  | cons first prior ih =>
    intro s s' hK h
    obtain ⟨hone, hrest⟩ := (Bool.and_eq_true _ _).mp hK
    unfold run at h
    unfold onRun
    cases hc : s.call first.1 first.2 with
    | none => rw [hc] at h; cases h
    | some r =>
      rw [hc] at h hrest
      obtain ⟨hprior, hlast⟩ := ih hrest h
      exact ⟨(Bool.and_eq_true _ _).mpr ⟨hone, hprior⟩, hlast⟩

/-- Every time is bounded in a finite run. -/
theorem exists_time (calls : List (Env × Call)) : ∃ time : Int, ∀ c ∈ calls, c.1.now ≤ time := by
  induction calls with
  | nil => exact ⟨0, fun _ h => (nomatch h)⟩
  | cons c calls ih =>
    obtain ⟨time, h⟩ := ih
    refine ⟨max c.1.now time, fun d hd => ?_⟩
    rcases mem_cons.mp hd with rfl | hin
    · exact le_max_left _ _
    · exact (h d hin).trans (le_max_right _ _)

/-- From the empty pool, at any time after the calls. -/
theorem Findable.run_new {calls : List (Env × Call)} (hdet : HashesDetermine onTx)
    (hclock : ClockRuns calls) (ht : ∀ c ∈ calls, ∀ tx ∈ c.2.transactions, onTx tx)
    (hK : insertCondition.onRun calls TxPool.new = true) {s : TxPool}
    (h : TxPool.run calls TxPool.new = some s) {time : Int} (hend : ∀ c ∈ calls, c.1.now ≤ time) :
    Findable onTx time s := by
  cases calls with
  | nil => cases h; exact Findable.new
  | cons c calls =>
    have hfirst : ∀ d ∈ c :: calls, c.1.now ≤ d.1.now := by
      intro d hd
      rcases mem_cons.mp hd with rfl | hin
      · exact le_rfl
      · exact (pairwise_cons.mp hclock).1 _ (mem_map_of_mem hin)
    exact Findable.run hdet (c :: calls) hclock hfirst (hend c mem_cons_self) hend ht hK
      Findable.new h

/-- Whatever a run comes to, everything pooled is findable there. -/
theorem Findable.of_reached {calls : List (Env × Call)} (hdet : HashesDetermine (Offered calls))
    (hclock : ClockRuns calls) (hK : insertCondition.onRun calls TxPool.new = true) {s : TxPool}
    (h : Reached calls s) : ∃ time, Findable (Offered calls) time s := by
  have hoffered : ∀ c ∈ calls, ∀ tx ∈ c.2.transactions, Offered calls tx :=
    fun c hc tx htx => ⟨c, hc, htx⟩
  cases h with
  | settled hrun =>
    obtain ⟨time, hend⟩ := exists_time calls
    exact ⟨time, Findable.run_new hdet hclock hoffered hK hrun hend⟩
  | @enforcing prior env c s₀ _ hcalls hrun henforces =>
    subst hcalls
    obtain ⟨hprior, hlast⟩ := Condition.onRun_append prior hK hrun
    rw [ClockRuns, map_append, pairwise_append] at hclock
    obtain ⟨hpriorClock, _, hlater⟩ := hclock
    have hs₀ : Findable (Offered (prior ++ [(env, c)])) env.now s₀ := by
      refine Findable.run_new hdet hpriorClock (fun d hd => hoffered d (mem_append_left _ hd))
        hprior hrun (fun d hd => ?_)
      exact hlater _ (mem_map_of_mem hd) _ (by simp)
    have hmaintains := Findable.maintains hdet env.now
    have hmem : (env, c) ∈ prior ++ [(env, c)] := mem_append_right _ (mem_singleton_self _)
    refine ⟨env.now, ?_⟩
    cases henforces with
    | @add tx isLocal _ hbefore =>
      exact hmaintains.beforeLimits trivial (hoffered _ hmem tx (by simp [Call.transactions])) rfl
        hlast hs₀ hbefore
    | @reorg oldBlocks newBlocks before after tx s₁ _ hsplit hreinject hskip hbefore =>
      have htxs : ∀ t ∈ before ++ tx :: after, Offered (prior ++ [(env, .handleReorg oldBlocks newBlocks)]) t := by
        intro t hin
        exact hoffered _ hmem t (by simpa only [Call.transactions, hsplit] using hin)
      have hloop := ((Bool.and_eq_true _ _).mp hlast).1
      rw [hsplit] at hloop
      obtain ⟨hbeforeK, htxK⟩ := Condition.onReinject_append before hloop hreinject hskip
      have hs₁ := hmaintains.reinject trivial rfl before s₀
        (fun t hin => htxs t (mem_append_left _ hin)) hbeforeK hs₀ _ hreinject
      exact hmaintains.beforeLimits trivial (htxs tx (by simp)) rfl htxK hs₁ hbefore

/-- A transaction of the sender `n` whose price the search does not see. -/
def dearTx (n : Nat) : TypedTransaction where
  type := .legacy
  signed := true
  hash := n
  sender := some n
  nonce := 5
  gasPrice := MAX_SAFE_INTEGER
  gasLimit := 1
  value := 0
  dataLength := 0

/-- A head under which every account has nonce 0 and can pay for it. -/
def dearEnv : Env where
  head := { gasLimit := 30, state := some (fun _ => some { nonce := 0, balance := MAX_SAFE_INTEGER }) }
  now := 0

/-- The senders below `n` have one such transaction each in the queue. -/
structure DearQueue (n : Nat) (s : TxPool) : Prop where
  list : s.list = fun p a => if p = .queued ∧ a < n then [newObject (dearTx a) 0] else []
  counts : ∀ p, s.counts p = if p = .queued then (n : Int) else 0
  nonces : ∀ a, s.accountNonces.get a = none ∨ s.accountNonces.get a = some 0
  locals : ∀ h, s.locals.has h = false

namespace DearQueue

variable {n : Nat}

section

variable (hs : DearQueue n s)
include hs

theorem validate (hn : n ≤ GLOBAL_QUEUE) : s.validate dearEnv.head (dearTx n) false n = .ok () := by
  have hnone : s.allTxsForSender n = [] := by
    simp [allTxsForSender, hs.list]
  have hroom : ¬ s.counts .pending + s.counts .queued ≥ UNDERPRICED_THRESHOLD := by
    rw [hs.counts, hs.counts]
    simp only [UNDERPRICED_THRESHOLD, GLOBAL_SLOTS, GLOBAL_QUEUE] at hn ⊢
    simp
    omega
  have hpool : s.validateInPool (dearTx n) false n = .ok () := by
    simp only [validateInPool, existingTxn, hnone, find?_nil, length_nil, validateReplacement,
      decide_eq_false hroom, Bool.and_false, Bool.false_and]
    rfl
  have hhead : validateAtHead dearEnv.head (dearTx n) n = .ok () := by
    simp [validateAtHead, validateAccount, Head.getAccount, dearEnv, dearTx, cost, throwIf, bind,
      Except.bind]
  simp only [TxPool.validate, hpool, hhead, bind, Except.bind]

theorem accountNonce : ∃ s₁, s.accountNonce dearEnv.head n = .ok (s₁, 0) ∧ DearQueue n s₁ := by
  unfold TxPool.accountNonce
  rcases hs.nonces n with hnone | hcached
  · simp only [hnone]
    refine ⟨s.setNonce n 0, rfl, hs.list, hs.counts, fun a => ?_, hs.locals⟩
    simp only [setNonce, OrderedMap.get_set]
    split
    · exact Or.inr rfl
    · exact hs.nonces a
  · simp only [hcached]
    exact ⟨s, rfl, hs⟩

/-- The next sender's transaction goes to the queue. -/
theorem beforeLimits (hn : n ≤ GLOBAL_QUEUE) :
    ∃ s', s.beforeLimits dearEnv (dearTx n) false = some s' ∧ DearQueue (n + 1) s' := by
  obtain ⟨s₁, hnonce, hs₁⟩ := hs.accountNonce
  have hclassify : s₁.classify (dearTx n) n 0 = .queued := by
    simp [classify, hs₁.list, dearTx]
  have hlist : s₁.list .queued n = [] := by simp [hs₁.list]
  have hfits : s₁.exceedsLimit (dearTx n) false n .queued = false := by
    simp [exceedsLimit, withoutReplaced, hlist, accountLimit, ACCOUNT_QUEUE]
  have hreplaced : s₁.replaced (dearTx n) n .queued = none := by simp [replaced, hlist]
  let s₂ := (s₁.addTx (dearTx n) false 0 n .queued).1
  have hadd : s₁.addTx (dearTx n) false 0 n .queued = (s₂, none) := by
    simp only [s₂, addTx_of_fits _ _ _ _ _ _ hfits]
  refine ⟨s₂, ?_, ?_, ?_, ?_, ?_⟩
  · have hsender : (dearTx n).sender = some n := rfl
    have hsigned : (dearTx n).signed = true := rfl
    have hnow : dearEnv.now = 0 := rfl
    simp only [TxPool.beforeLimits, hsigned, if_true, hsender, hs.validate hn, hnonce, hclassify, hnow,
      hadd, promoteAfterAdd]
  · funext p a
    simp only [s₂, list_addTx _ _ _ _ _ _ hfits, withoutReplaced, hlist, hs₁.list]
    by_cases hat : p = .queued ∧ a = n
    · obtain ⟨rfl, rfl⟩ := hat
      simp [sortByNonce]
    · rw [updateAt, if_neg hat]
      by_cases hp : p = .queued
      · have hne : a ≠ n := fun ha => hat ⟨hp, ha⟩
        have hlt : a < n + 1 ↔ a < n :=
          ⟨fun h => lt_of_le_of_ne (Nat.le_of_lt_succ h) hne, Nat.lt_succ_of_lt⟩
        simp only [hp, hlt]
      · simp [hp]
  · intro p
    simp only [s₂, counts_addTx _ _ _ _ _ _ hfits, hreplaced]
    cases p with
    | pending => simp [hs₁.counts]
    | queued => simp [hs₁.counts]
  · intro a
    simp only [s₂, accountNonces_addTx]
    exact hs₁.nonces a
  · intro h
    have hkeep : s₂.locals = s₁.locals := by
      have hstore : ∀ (t : TxPool) (l : List TxPoolObject) (o : TxPoolObject),
          (t.storeTx n .queued none l o).locals = t.locals := by
        intro t l o
        unfold storeTx
        split <;> rfl
      simp only [s₂, addTx_of_fits _ _ _ _ _ _ hfits, hreplaced]
      exact hstore _ _ _
    rw [hkeep]
    exact hs₁.locals h

/-- Within the limits `enforcePoolLimits` has nothing to do. -/
theorem enforcePoolLimits (hn : n ≤ GLOBAL_QUEUE) : s.enforcePoolLimits = some s := by
  have hstay : ∀ (p : PoolType) (limit : Int), s.counts p ≤ limit →
      enforceLimit p limit s.size s = some s := by
    intro p limit hle
    unfold TxPool.enforceLimit
    exact if_neg (by omega)
  unfold TxPool.enforcePoolLimits
  rw [hstay .pending GLOBAL_SLOTS (by simp [hs.counts, GLOBAL_SLOTS])]
  exact hstay .queued GLOBAL_QUEUE (by simpa [hs.counts] using hn)

end

/-- The adds of some senders one after the other. -/
theorem run (count : Nat) : ∀ {n : Nat} {s : TxPool}, DearQueue n s → n + count ≤ GLOBAL_QUEUE →
      ∃ s', TxPool.run ((List.range' n count).map (fun i => (dearEnv, .add (dearTx i) false))) s =
        some s' ∧ DearQueue (n + count) s' := by
  induction count with
  | zero => intro n s hs _; exact ⟨s, rfl, hs⟩
  | succ count ih =>
    intro n s hs hle
    obtain ⟨s₁, hbefore, hs₁⟩ := hs.beforeLimits (by omega)
    have hadd : s.add dearEnv (dearTx n) false = some (s₁, none) := by
      rw [add_of_beforeLimits hbefore, hs₁.enforcePoolLimits (by omega)]
      rfl
    obtain ⟨s', hrun, hs'⟩ := ih hs₁ (by omega)
    refine ⟨s', ?_, by rwa [Nat.add_assoc, Nat.add_comm 1] at hs'⟩
    rw [range'_succ, map_cons, TxPool.run]
    simp only [TxPool.call, hadd]
    exact hrun

/-- Over its limit such a queue stays as it is. -/
theorem not_enforcesLimits (hs : DearQueue n s) (hn : GLOBAL_QUEUE < n) : ¬ s.EnforcesLimits := by
  have hdear : ∀ o ∈ s.pooled .queued, s.evictable o = false ∧ s.locals.has o.hash = false := by
    intro o ho
    obtain ⟨a, ha⟩ := mem_pooled.mp ho
    rw [hs.list] at ha
    simp only at ha
    split at ha
    · rw [mem_singleton.mp ha]
      refine ⟨?_, hs.locals _⟩
      simp [evictable, newObject, dearTx]
    · cases ha
  have hnone : s.lowestPriced .queued = none := by
    cases hl : s.lowestPriced .queued with
    | none => rfl
    | some o =>
      obtain ⟨hmem, hevictable, _⟩ := lowestPriced_some hl
      rw [(hdear o hmem).1] at hevictable
      cases hevictable
  have hpending : TxPool.enforceLimit .pending GLOBAL_SLOTS s.size s = some s := by
    unfold TxPool.enforceLimit
    refine if_neg ?_
    simp [hs.counts, GLOBAL_SLOTS]
  have hqueued : TxPool.enforceLimit .queued GLOBAL_QUEUE s.size s = some s := by
    unfold TxPool.enforceLimit
    simp only [hnone]
    split <;> rfl
  rintro ⟨s', hends, _, hreached⟩
  unfold TxPool.enforcePoolLimits at hends
  rw [hpending, Option.bind_some, hqueued] at hends
  cases hends
  have hcount := hs.counts .queued
  simp only [if_true] at hcount
  rcases hreached .queued with hle | hlocal
  · simp only [poolLimit] at hle
    omega
  · have hfirst : newObject (dearTx 0) 0 ∈ s.pooled .queued := by
      refine mem_pooled.mpr ⟨0, ?_⟩
      rw [hs.list]
      simp only [true_and, if_pos (Nat.lt_of_le_of_lt (Nat.zero_le _) hn)]
      exact mem_singleton_self _
    have h := hlocal _ hfirst
    rw [(hdear _ hfirst).2] at h
    cases h

end DearQueue

end TxPool
