-- SUMMARY: The transactions of one account that `miner/ordering.ts` delivers over a run of `peek`, `shift` and `pop`, and when they are a prefix of the account's list.
import Mathlib.Algebra.Order.BigOperators.Group.Finset
import TsEthereum.ExecutionClient.Ordering

/-!
# Deliveries of an account

`shift` and `pop` take the head that `peek` shows. The heads taken over a run
are what the set has delivered. The constructor filters each account's list by
price before it splits off the head, so what an account delivers follows the
filtered list.
-/

open List Multiset Option

open ImplicitHeap TxWithMinerFee

namespace TransactionsByPriceAndNonce

variable (getGasPrice : TypedTransaction → Int)

/-- The head that a call takes. -/
def delivers (s : TransactionsByPriceAndNonce) : Call → List TxWithMinerFee
  | .peek => []
  | .shift => s.heads.peek.toList
  | .pop => s.heads.peek.toList

/-- The heads taken over a run of calls, in order. The head that `peek` shows
after the run is the one taken next. -/
def delivered (s : TransactionsByPriceAndNonce) : List Call → List TxWithMinerFee
  | [] => []
  | c :: calls => s.delivers c ++ (s.call getGasPrice c).delivered calls

/-- The transactions of account `a` among some heads. -/
def ofAccount (a : UnprefixedAddress) (heads : List TxWithMinerFee) : List TxPoolObject :=
  (heads.filter (fun head => head.sender = a)).map TxWithMinerFee.txObj

@[simp] theorem ofAccount_nil (a : UnprefixedAddress) : ofAccount a [] = [] := rfl

theorem ofAccount_append (a : UnprefixedAddress) (heads heads' : List TxWithMinerFee) :
    ofAccount a (heads ++ heads') = ofAccount a heads ++ ofAccount a heads' := by
  simp [ofAccount]

theorem ofAccount_singleton (a : UnprefixedAddress) (head : TxWithMinerFee) :
    ofAccount a [head] = if head.sender = a then [head.txObj] else [] := by
  by_cases h : head.sender = a <;> simp [ofAccount, h]

/-! ## What an account has left -/

/-- `l` is what account `a` has left to deliver: its head, and the transactions
kept behind it. -/
def Waits (s : TransactionsByPriceAndNonce) (a : UnprefixedAddress) : List TxPoolObject → Prop
  | [] => a ∉ s.heads.items.map TxWithMinerFee.sender
  | txObj :: rest =>
    (⟨txObj, a, getGasPrice txObj.tx⟩ : TxWithMinerFee) ∈ s.heads.items ∧ s.txs.get a = some rest

/-- The prices a transaction must reach to pass the constructor's filter. -/
def passes (minGasPrice : Int) (txObj : TxPoolObject) : Bool :=
  getGasPrice txObj.tx ≥ minGasPrice

/-- The part of an account's list that the constructor keeps. -/
def kept (txsByAccount : OrderedMap UnprefixedAddress (List TxPoolObject)) (minGasPrice : Int)
    (a : UnprefixedAddress) : List TxPoolObject :=
  ((txsByAccount.get a).getD []).filter (passes getGasPrice minGasPrice)

/-- What the constructor's loop has stored for an account: the entry of `txs`,
and its heads without their sender. -/
private def stored (acc : OrderedMap UnprefixedAddress (List TxPoolObject) × List TxWithMinerFee)
    (a : UnprefixedAddress) : Option (List TxPoolObject) × List (TxPoolObject × Int) :=
  (acc.1.get a, (acc.2.filter (fun head => head.sender = a)).map (fun head => (head.txObj, head.fees)))

/-- What one round of the loop stores for its account. -/
private def storedBy (minGasPrice : Int) (list : List TxPoolObject)
    (old : Option (List TxPoolObject) × List (TxPoolObject × Int)) :
    Option (List TxPoolObject) × List (TxPoolObject × Int) :=
  match list.filter (passes getGasPrice minGasPrice) with
  | [] => old
  | headTxObj :: rest => (some rest, old.2 ++ [(headTxObj, getGasPrice headTxObj.tx)])

private theorem stored_addAccount (minGasPrice : Int)
    (acc : OrderedMap UnprefixedAddress (List TxPoolObject) × List TxWithMinerFee)
    (entry : UnprefixedAddress × List TxPoolObject) (a : UnprefixedAddress) :
    stored (addAccount getGasPrice minGasPrice acc entry) a =
      if a = entry.1 then storedBy getGasPrice minGasPrice entry.2 (stored acc a)
      else stored acc a := by
  unfold addAccount storedBy passes
  cases entry.2.filter (fun txObj => getGasPrice txObj.tx ≥ minGasPrice) with
  | nil => simp
  | cons headTxObj rest =>
    by_cases ha : a = entry.1
    · simp [stored, ha]
    · simp [stored, ha, Ne.symm ha]

/-- A new set has left, for each account, what passes the filter. -/
theorem new_waits (txsByAccount : OrderedMap UnprefixedAddress (List TxPoolObject))
    (minGasPrice : Int) (a : UnprefixedAddress) :
    (new getGasPrice txsByAccount minGasPrice).Waits getGasPrice a
      (kept getGasPrice txsByAccount minGasPrice a) := by
  let acc := txsByAccount.entries.foldl (addAccount getGasPrice minGasPrice) (.empty, [])
  have hitems : (new getGasPrice txsByAccount minGasPrice).heads.items = (acc.2 : Multiset _) := by
    have h := (foldl_insert_heads acc.2 Heap.empty (Heap.valid_empty comparBefore)).2
    rw [Heap.items_empty, zero_add] at h
    exact h
  have hstored : stored acc a = storedBy getGasPrice minGasPrice
      ((txsByAccount.get a).getD []) (none, []) := by
    have h := OrderedMap.read_foldl_update (addAccount getGasPrice minGasPrice) stored
      (storedBy getGasPrice minGasPrice) (stored_addAccount getGasPrice minGasPrice)
      txsByAccount (.empty, []) a
    refine h.trans ?_
    cases txsByAccount.get a <;> rfl
  unfold storedBy at hstored
  unfold kept
  cases hkept : ((txsByAccount.get a).getD []).filter (passes getGasPrice minGasPrice) with
  | nil =>
    rw [hkept] at hstored
    have hnone : acc.2.filter (fun head => head.sender = a) = [] :=
      List.map_eq_nil_iff.mp (congrArg Prod.snd hstored)
    have hsender : ∀ head ∈ acc.2, head.sender ≠ a := by
      simpa [List.filter_eq_nil_iff] using hnone
    simpa [Waits, hitems] using hsender
  | cons headTxObj rest =>
    rw [hkept] at hstored
    have hheads : (acc.2.filter (fun head => head.sender = a)).map
        (fun head => (head.txObj, head.fees)) = [(headTxObj, getGasPrice headTxObj.tx)] :=
      congrArg Prod.snd hstored
    have hmem : (headTxObj, getGasPrice headTxObj.tx) ∈
        (acc.2.filter (fun head => head.sender = a)).map (fun head => (head.txObj, head.fees)) :=
      hheads ▸ List.mem_singleton_self _
    obtain ⟨⟨txObj, sender, fees⟩, hhead, heq⟩ := List.mem_map.mp hmem
    obtain ⟨hin, hsender⟩ := List.mem_filter.mp hhead
    have hsender : sender = a := of_decide_eq_true hsender
    have htxObj : txObj = headTxObj := congrArg Prod.fst heq
    have hfees : fees = getGasPrice headTxObj.tx := congrArg Prod.snd heq
    subst hsender htxObj hfees
    exact ⟨by simpa [hitems] using hin, congrArg Prod.fst hstored⟩

/-! ## One call -/

variable {getGasPrice}

variable {s : TransactionsByPriceAndNonce} {head : TxWithMinerFee} {l : List TxPoolObject}

/-- The head of an account is the first of what it has left. -/
theorem waits_head (hs : s.WellFormed) (hhead : head ∈ s.heads.items)
    (hl : s.Waits getGasPrice head.sender l) :
    ∃ rest, l = head.txObj :: rest ∧ s.txs.get head.sender = some rest := by
  cases l with
  | nil => exact absurd (mem_map_of_mem _ hhead) hl
  | cons txObj rest =>
    -- the account has one head, so the waiting one is it
    have hsame : (⟨txObj, head.sender, getGasPrice txObj.tx⟩ : TxWithMinerFee) = head :=
      inj_on_of_nodup_map hs.nodup _ hl.1 _ hhead rfl
    exact ⟨rest, by rw [← hsame], hl.2⟩

variable {a : UnprefixedAddress}

/-- What another account has left does not depend on the head that is taken out
or on the one that comes in. -/
private theorem waits_of_ne {s' : TransactionsByPriceAndNonce}
    (hheads : ∀ head : TxWithMinerFee, head.sender = a →
      (head ∈ s'.heads.items ↔ head ∈ s.heads.items)) (htxs : s'.txs.get a = s.txs.get a)
    (hl : s.Waits getGasPrice a l) : s'.Waits getGasPrice a l := by
  cases l with
  | nil =>
    intro hmem
    obtain ⟨head, hhead, hsender⟩ := Multiset.mem_map.mp hmem
    exact hl (Multiset.mem_map.mpr ⟨head, (hheads head hsender).mp hhead, hsender⟩)
  | cons txObj rest => exact ⟨(hheads _ rfl).mpr hl.1, htxs.trans hl.2⟩

/-- `shift` takes the first transaction of the shown account and no other. -/
theorem waits_shift (hs : s.WellFormed) (hpeek : s.heads.peek = some head)
    (hl : s.Waits getGasPrice a l) :
    (s.shift getGasPrice).Waits getGasPrice a (if head.sender = a then l.tail else l) := by
  obtain ⟨_, _, hitems⟩ := heads_remove hs hpeek
  have hnodup := hs.nodup
  rw [hitems, Multiset.map_cons, Multiset.nodup_cons] at hnodup
  have hold : ∀ other : TxWithMinerFee, other.sender ≠ head.sender →
      (other ∈ s.heads.items ↔ other ∈ (s.heads.remove comparBefore).2.items) := by
    intro other hne
    rw [hitems, Multiset.mem_cons, or_iff_right]
    rintro rfl
    exact hne rfl
  by_cases ha : head.sender = a
  · subst ha
    obtain ⟨rest, rfl, hrest⟩ := waits_head hs (Heap.peek_mem hpeek) hl
    rw [if_pos rfl, List.tail_cons]
    unfold shift
    simp only [hpeek, hrest]
    cases rest with
    | nil => exact hnodup.1
    | cons nextTxObj remainingTxObjs =>
      exact ⟨by simp [Heap.items_insert], by simp⟩
  · rw [if_neg ha]
    unfold shift
    simp only [hpeek]
    split
    · refine waits_of_ne ?_ (by simp [Ne.symm ha]) hl
      rintro other rfl
      rw [hold other (Ne.symm ha), Heap.items_insert, Multiset.mem_cons, or_iff_right]
      rintro rfl
      exact ha rfl
    · refine waits_of_ne ?_ (by simp [Ne.symm ha]) hl
      rintro other rfl
      exact (hold other (Ne.symm ha)).symm

/-- `pop` takes everything the shown account has left. -/
theorem waits_pop (hs : s.WellFormed) (hpeek : s.heads.peek = some head)
    (hl : s.Waits getGasPrice a l) :
    s.pop.Waits getGasPrice a (if head.sender = a then [] else l) := by
  obtain ⟨_, _, hitems⟩ := heads_remove hs hpeek
  have hnodup := hs.nodup
  rw [hitems, Multiset.map_cons, Multiset.nodup_cons] at hnodup
  rw [pop_eq hs hpeek]
  by_cases ha : head.sender = a
  · subst ha
    rw [if_pos rfl]
    exact hnodup.1
  · rw [if_neg ha]
    refine waits_of_ne ?_ (by simp [Ne.symm ha]) hl
    rintro other rfl
    rw [hitems, Multiset.mem_cons, or_iff_right]
    rintro rfl
    exact ha rfl

/-- A call delivers the first transactions of what an account has left; without
`pop` the account keeps the others. -/
theorem waits_call (hs : s.WellFormed) (c : Call) (hl : s.Waits getGasPrice a l) :
    ∃ l', (s.call getGasPrice c).Waits getGasPrice a l' ∧ ofAccount a (s.delivers c) ++ l' <+: l ∧
      (c ≠ .pop → ofAccount a (s.delivers c) ++ l' = l) := by
  -- the shown head is the first transaction its account has left
  have hfirst : ∀ head, s.heads.peek = some head → head.sender = a →
      head.txObj :: l.tail = l := by
    rintro head hpeek rfl
    obtain ⟨rest, rfl, _⟩ := waits_head hs (Heap.peek_mem hpeek) hl
    rfl
  cases c with
  | peek => exact ⟨l, hl, prefix_rfl, fun _ => rfl⟩
  | shift =>
    cases hpeek : s.heads.peek with
    | none =>
      refine ⟨l, ?_, ?_⟩
      · simpa [call, shift, hpeek] using hl
      · simp [delivers, hpeek]
    | some head =>
      refine ⟨_, waits_shift hs hpeek hl, ?_⟩
      have heq : ofAccount a (s.delivers .shift) ++ (if head.sender = a then l.tail else l) = l := by
        simp only [delivers, hpeek, toList_some, ofAccount_singleton]
        split
        · exact hfirst head hpeek ‹_›
        · rfl
      exact ⟨⟨[], by rw [append_nil, heq]⟩, fun _ => heq⟩
  | pop =>
    cases hpeek : s.heads.peek with
    | none =>
      refine ⟨l, ?_, ?_⟩
      · simpa [call, pop_of_empty hpeek] using hl
      · simp [delivers, hpeek]
    | some head =>
      refine ⟨_, waits_pop hs hpeek hl, ?_, fun h => (h rfl).elim⟩
      simp only [delivers, hpeek, toList_some, ofAccount_singleton]
      split
      · exact ⟨l.tail, hfirst head hpeek ‹_›⟩
      · exact prefix_rfl

/-! ## Runs -/

/-- Over a run an account delivers the first transactions of what it had left. -/
theorem waits_run (calls : List Call) :
    ∀ {s : TransactionsByPriceAndNonce}, s.WellFormed → ∀ {l : List TxPoolObject},
      s.Waits getGasPrice a l → ofAccount a (s.delivered getGasPrice calls) <+: l := by
  induction calls with
  | nil => intro s _ l _; exact nil_prefix
  | cons c calls ih =>
    intro s hs l hl
    obtain ⟨l', hl', hcall, _⟩ := waits_call hs c hl
    have hrest : ofAccount a ((s.call getGasPrice c).delivered getGasPrice calls) <+: l' :=
      ih (call_wellFormed getGasPrice hs c) hl'
    rw [delivered, ofAccount_append]
    exact ((prefix_append_right_inj _).mpr hrest).trans hcall

/-- Without `pop`, enough shifts deliver everything that is left: `left a` for
each account, of which only those in `accounts` have any. -/
theorem delivered_shifts (accounts : Finset UnprefixedAddress) (calls : List Call) :
    ∀ {s : TransactionsByPriceAndNonce}, s.WellFormed → .pop ∉ calls →
      ∀ left : UnprefixedAddress → List TxPoolObject,
        (∀ a, s.Waits getGasPrice a (left a)) → (∀ a, left a ≠ [] → a ∈ accounts) →
        ∑ a ∈ accounts, (left a).length ≤ calls.count .shift → ∀ a,
          ofAccount a (s.delivered getGasPrice calls) = left a := by
  induction calls with
  | nil =>
    intro s _ _ left _ hin hle a
    have hnone : left a = [] := by
      by_contra hne
      have hzero := Finset.sum_eq_zero_iff.mp (Nat.le_zero.mp hle) a (hin a hne)
      exact hne (List.length_eq_zero_iff.mp hzero)
    simp [delivered, hnone]
  | cons c calls ih =>
    intro s hs hpop left hleft hin hle a
    have hpops : .pop ∉ calls := fun h => hpop (List.mem_cons_of_mem c h)
    rw [delivered, ofAccount_append]
    cases c with
    | pop => exact absurd List.mem_cons_self hpop
    | peek => exact ih hs hpops left hleft hin (by simpa using hle) a
    | shift =>
      rw [List.count_cons_self] at hle
      cases hpeek : s.heads.peek with
      | none =>
        have hnone : ∀ a, left a = [] := by
          intro a
          have hwaits := hleft a
          cases hl : left a with
          | nil => rfl
          | cons txObj rest =>
            rw [hl] at hwaits
            obtain ⟨head, hhead⟩ := mem_items_exists_peek hwaits.1
            exact absurd (hpeek.symm.trans hhead) (nomatch ·)
        have hstay : s.call getGasPrice .shift = s := by
          simp [call, shift, hpeek]
        rw [hstay, ih hs hpops left hleft hin (by simp [hnone]) a]
        simp [delivers, hpeek]
      | some head =>
        obtain ⟨rest, hrest, _⟩ := waits_head hs (Heap.peek_mem hpeek) (hleft head.sender)
        -- the shown account is left with one transaction less, the others with what they had
        let after (b : UnprefixedAddress) := if head.sender = b then (left b).tail else left b
        have hlength : ∀ b, (after b).length ≤ (left b).length := by
          intro b
          simp only [after]
          split
          · simp
          · exact le_rfl
        have hless : ∑ b ∈ accounts, (after b).length < ∑ b ∈ accounts, (left b).length := by
          refine Finset.sum_lt_sum (fun b _ => hlength b) ⟨head.sender, ?_, ?_⟩
          · exact hin _ (by simp [hrest])
          · simp [after, hrest]
        have hrun := ih (call_wellFormed getGasPrice hs .shift) hpops after
          (fun b => waits_shift hs hpeek (hleft b))
          (fun b hb => hin b (fun hnil => hb (by simp [after, hnil])))
          (by omega) a
        rw [hrun]
        simp only [delivers, hpeek, Option.toList_some, ofAccount_singleton, after]
        split
        · rename_i ha
          subst ha
          simp [hrest]
        · rfl

/-! ## Nonce order -/

/-- A nonce-sorted list without gaps. -/
def Consecutive (list : List TxPoolObject) : Prop :=
  list.IsChain (fun a b => b.tx.nonce = a.tx.nonce + 1)

theorem Consecutive.nonces_increase {list : List TxPoolObject} (h : Consecutive list) :
    list.Pairwise (fun a b => a.tx.nonce < b.tx.nonce) := by
  rw [← isChain_iff_pairwise]
  exact List.IsChain.imp (fun a b hab => by omega) h

/-- How many transactions the accounts have together. -/
def txCount (txsByAccount : OrderedMap UnprefixedAddress (List TxPoolObject)) : Nat :=
  txsByAccount.sumKeys (fun a => ((txsByAccount.get a).getD []).length)

variable (getGasPrice) in
/-- What the set is to deliver for a map of nonce-sorted lists: each account's
transactions from its first on, none twice, and all of them where no price is
too low and nothing is popped. -/
structure HonoursNonces (txsByAccount : OrderedMap UnprefixedAddress (List TxPoolObject))
    (minGasPrice : Int) : Prop where
  inOrder : ∀ calls a,
    ofAccount a ((new getGasPrice txsByAccount minGasPrice).delivered getGasPrice calls) <+:
      (txsByAccount.get a).getD []
  once : ∀ calls a,
    (ofAccount a ((new getGasPrice txsByAccount minGasPrice).delivered getGasPrice calls)).Pairwise
      (fun x y => x.tx.nonce ≠ y.tx.nonce)
  complete : minGasPrice = 0 → ∀ calls, .pop ∉ calls → txCount txsByAccount ≤ calls.count .shift →
    ∀ a, ofAccount a ((new getGasPrice txsByAccount minGasPrice).delivered getGasPrice calls) =
      (txsByAccount.get a).getD []

variable (getGasPrice) in
/-- In an account's list nothing below the minimum stands before something that
reaches it, and no price is negative where the minimum is zero. -/
structure PassesInOrder (minGasPrice : Int) (list : List TxPoolObject) : Prop where
  earlier : list.Pairwise (fun before after =>
    minGasPrice ≤ getGasPrice after.tx → minGasPrice ≤ getGasPrice before.tx)
  priced : minGasPrice = 0 → ∀ txObj ∈ list, 0 ≤ getGasPrice txObj.tx

/-- A filter keeps a prefix exactly when nothing it drops stands before
something it keeps. -/
theorem filter_isPrefix_iff {α : Type} (p : α → Bool) (l : List α) :
    l.filter p <+: l ↔ l.Pairwise (fun x y => p y = true → p x = true) := by
  induction l with
  | nil => simp
  | cons a l ih =>
    rw [pairwise_cons]
    cases ha : p a with
    | true => simp [ha, ih]
    | false =>
      rw [filter_cons_of_neg (by simp [ha])]
      constructor
      · intro h
        -- the first of the kept would be `a`, which is dropped
        have hnil : l.filter p = [] := by
          cases hf : l.filter p with
          | nil => rfl
          | cons b bs =>
            rw [hf, cons_prefix_cons] at h
            have hb : b ∈ l.filter p := hf ▸ mem_cons_self
            rw [h.1] at hb
            exact absurd (mem_filter.mp hb).2 (by simp [ha])
        have hdrop : ∀ x ∈ l, p x ≠ true := filter_eq_nil_iff.mp hnil
        refine ⟨fun y hy hpy => absurd hpy (hdrop y hy), ?_⟩
        rw [← ih, hnil]
        exact nil_prefix
      · rintro ⟨hnone, _⟩
        have hnil : l.filter p = [] :=
          filter_eq_nil_iff.mpr (fun y hy hpy => absurd (hnone y hy hpy) (by simp))
        rw [hnil]
        exact nil_prefix

variable (getGasPrice) in
/-- Enough shifts deliver what passes the filter. -/
theorem delivered_kept (txsByAccount : OrderedMap UnprefixedAddress (List TxPoolObject))
    (minGasPrice : Int) {calls : List Call} (hpop : .pop ∉ calls)
    (hle : txCount txsByAccount ≤ calls.count .shift) (a : UnprefixedAddress) :
    ofAccount a ((new getGasPrice txsByAccount minGasPrice).delivered getGasPrice calls) =
      kept getGasPrice txsByAccount minGasPrice a := by
  refine delivered_shifts txsByAccount.keys.toFinset calls
    (new_wellFormed getGasPrice txsByAccount minGasPrice) hpop _
    (new_waits getGasPrice txsByAccount minGasPrice) ?_ ?_ a
  · intro b hb
    rw [List.mem_toFinset]
    by_contra hkey
    exact hb (by simp [kept, OrderedMap.get_eq_none.mpr hkey])
  · refine le_trans ?_ hle
    rw [txCount, OrderedMap.sumKeys, List.sum_toFinset _ txsByAccount.nodup_keys]
    exact List.sum_le_sum (fun b _ => List.length_filter_le _ _)

/-- The set honours the nonces of a map exactly when every account's list passes
the minimum price in order. -/
theorem honoursNonces_iff (txsByAccount : OrderedMap UnprefixedAddress (List TxPoolObject))
    (minGasPrice : Int) (hlists : ∀ a list, txsByAccount.get a = some list → Consecutive list) :
    HonoursNonces getGasPrice txsByAccount minGasPrice ↔
      ∀ a list, txsByAccount.get a = some list → PassesInOrder getGasPrice minGasPrice list := by
  have hall : ∀ a, ofAccount a ((new getGasPrice txsByAccount minGasPrice).delivered getGasPrice
      (List.replicate (txCount txsByAccount) .shift)) =
        kept getGasPrice txsByAccount minGasPrice a :=
    delivered_kept getGasPrice txsByAccount minGasPrice (by simp [List.mem_replicate])
      (by simp)
  have hpasses : ∀ list : List TxPoolObject, list.Pairwise (fun before after =>
      minGasPrice ≤ getGasPrice after.tx → minGasPrice ≤ getGasPrice before.tx) ↔
        list.filter (passes getGasPrice minGasPrice) <+: list := by
    intro list
    rw [filter_isPrefix_iff]
    simp [passes]
  constructor
  · intro h a list hget
    have hkept : kept getGasPrice txsByAccount minGasPrice a =
        list.filter (passes getGasPrice minGasPrice) := by
      simp [kept, hget]
    constructor
    · have hprefix := h.inOrder (List.replicate (txCount txsByAccount) .shift) a
      rw [hall, hkept, hget] at hprefix
      exact (hpasses list).mpr hprefix
    · intro hzero
      have hcomplete := h.complete hzero (List.replicate (txCount txsByAccount) .shift)
        (by simp [List.mem_replicate]) (by simp) a
      rw [hall, hkept, hget] at hcomplete
      simpa [passes, hzero] using List.filter_eq_self.mp hcomplete
  · intro h
    have hrun : ∀ calls a, ofAccount a
        ((new getGasPrice txsByAccount minGasPrice).delivered getGasPrice calls) <+:
          kept getGasPrice txsByAccount minGasPrice a := by
      intro calls a
      exact waits_run calls (new_wellFormed getGasPrice txsByAccount minGasPrice)
        (new_waits getGasPrice txsByAccount minGasPrice a)
    constructor
    · intro calls a
      refine (hrun calls a).trans ?_
      unfold kept
      cases hget : txsByAccount.get a with
      | none => exact List.nil_prefix
      | some list => exact (hpasses list).mp (h a list hget).earlier
    · intro calls a
      have hnonces : ((txsByAccount.get a).getD []).Pairwise (fun x y => x.tx.nonce ≠ y.tx.nonce) := by
        cases hget : txsByAccount.get a with
        | none => exact List.Pairwise.nil
        | some list => exact (hlists a list hget).nonces_increase.imp Nat.ne_of_lt
      exact hnonces.sublist ((hrun calls a).sublist.trans List.filter_sublist)
    · intro hzero calls hpop hle a
      rw [delivered_kept getGasPrice txsByAccount minGasPrice hpop hle]
      unfold kept
      cases hget : txsByAccount.get a with
      | none => rfl
      | some list =>
        refine List.filter_eq_self.mpr (fun txObj hmem => ?_)
        simpa [passes, hzero] using (h a list hget).priced hzero txObj hmem

/-- One account with three transactions, the second cheaper than the others. -/
def cheapBetween : OrderedMap UnprefixedAddress (List TxPoolObject) :=
  let txObj (nonce gasPrice : Nat) : TxPoolObject :=
    { tx := { type := .legacy, signed := true, hash := nonce, sender := some 1, nonce := nonce,
              gasPrice := gasPrice, gasLimit := 21000, value := 0, dataLength := 0 }
      hash := nonce, added := 0 }
  OrderedMap.empty.set 1 [txObj 0 5, txObj 1 1, txObj 2 5]

private theorem cheapBetween_consecutive (a : UnprefixedAddress) (list : List TxPoolObject)
    (hget : cheapBetween.get a = some list) : Consecutive list := by
  rw [cheapBetween, OrderedMap.get_set] at hget
  split at hget
  · cases hget
    simp [Consecutive]
  · cases hget

/-- With a minimum of 2 the third transaction follows the first. -/
theorem cheapBetween_not_honoursNonces :
    ¬ HonoursNonces (fun tx => tx.gasPrice) cheapBetween 2 := by
  intro h
  exact absurd (h.inOrder [.shift, .shift] 1) (by decide +kernel)

/-- Without a minimum everything is delivered in order. -/
theorem cheapBetween_honoursNonces : HonoursNonces (fun tx => tx.gasPrice) cheapBetween 0 := by
  refine (honoursNonces_iff cheapBetween 0 cheapBetween_consecutive).mpr ?_
  intro a list _
  exact ⟨pairwise_of_forall (fun _ _ _ => Int.natCast_nonneg _),
    fun _ _ _ => Int.natCast_nonneg _⟩

end TransactionsByPriceAndNonce
