-- SUMMARY: Price ordering of the miner's transactions (`miner/ordering.ts`): the set over any run of `peek`, `shift` and `pop`, and which head it shows.
import TsEthereum.Base.OrderedMap
import TsEthereum.ExecutionClient.QHeap
import TsEthereum.ExecutionClient.Types

/-!
# Transactions by price and nonce

`TransactionsByPriceAndNonce` of `miner/ordering.ts`: the first transaction of
every account waits in a heap, the rest in nonce order behind it.
-/

open Multiset

open ImplicitHeap

/-- A transaction with its miner fee, for the heap. -/
structure TxWithMinerFee where
  txObj : TxPoolObject
  sender : UnprefixedAddress
  fees : Int
  deriving DecidableEq, Inhabited

namespace TxWithMinerFee

def tx (head : TxWithMinerFee) : TypedTransaction := head.txObj.tx

def added (head : TxWithMinerFee) : Int := head.txObj.added

/-- The comparator the constructor and `clear` pass to the heap. -/
def comparBefore (a b : TxWithMinerFee) : Bool :=
  if a.fees > b.fees then false
  else if a.fees < b.fees then true
  else a.added > b.added

theorem comparBefore_eq_true {a b : TxWithMinerFee} :
    comparBefore a b = true ↔ a.fees < b.fees ∨ (a.fees = b.fees ∧ b.added < a.added) := by
  unfold comparBefore
  split
  · rename_i hgt
    constructor
    · intro h; cases h
    · intro h; omega
  · rename_i hngt
    split
    · rename_i hlt
      simp [hlt]
    · rename_i hnlt
      simp only [decide_eq_true_eq, gt_iff_lt]
      omega

theorem comparBefore_eq_false {a b : TxWithMinerFee} :
    comparBefore a b = false ↔ b.fees < a.fees ∨ (a.fees = b.fees ∧ a.added ≤ b.added) := by
  rw [← Bool.not_eq_true, comparBefore_eq_true]
  omega

theorem comparBefore_strictWeak : StrictWeak comparBefore where
  asymm := by
    intro a b h
    rw [comparBefore_eq_true] at h
    rw [comparBefore_eq_false]
    omega
  negTrans := by
    intro a b c hba hcb
    rw [comparBefore_eq_false] at hba hcb ⊢
    omega

end TxWithMinerFee

open TxWithMinerFee

structure TransactionsByPriceAndNonce where
  /-- Per account, the transactions behind its head. -/
  txs : OrderedMap UnprefixedAddress (List TxPoolObject)
  /-- The next transaction of each account. -/
  heads : Heap TxWithMinerFee

namespace TransactionsByPriceAndNonce

variable (getGasPrice : TypedTransaction → Int)

/-- One round of the constructor's loop over the accounts: the account's entry
and its head, unless no transaction passes the price filter. -/
def addAccount (minGasPrice : Int)
    (acc : OrderedMap UnprefixedAddress (List TxPoolObject) × List TxWithMinerFee)
    (entry : UnprefixedAddress × List TxPoolObject) :
    OrderedMap UnprefixedAddress (List TxPoolObject) × List TxWithMinerFee :=
  match entry.2.filter (fun txObj => getGasPrice txObj.tx ≥ minGasPrice) with
  | [] => acc
  | headTxObj :: rest =>
    (acc.1.set entry.1 rest, acc.2 ++ [⟨headTxObj, entry.1, getGasPrice headTxObj.tx⟩])

/-- `new TransactionsByPriceAndNonce(txsByAccount, getGasPrice, minGasPrice)`. -/
def new (txsByAccount : OrderedMap UnprefixedAddress (List TxPoolObject)) (minGasPrice : Int) :
    TransactionsByPriceAndNonce :=
  let acc := txsByAccount.entries.foldl (addAccount getGasPrice minGasPrice) (.empty, [])
  { txs := acc.1
    heads := acc.2.foldl (Heap.insert comparBefore) Heap.empty }

/-- The next transaction and its fee, or `none` when the set is empty. -/
def peek (s : TransactionsByPriceAndNonce) : Option (TypedTransaction × Int) :=
  s.heads.peek.map (fun head => (head.tx, head.fees))

/-- Replaces the current best head with the next one from the same account. -/
def shift (s : TransactionsByPriceAndNonce) : TransactionsByPriceAndNonce :=
  match s.heads.peek with
  | none => s
  | some head =>
    match s.txs.get head.sender with
    | some (nextTxObj :: remainingTxObjs) =>
      { txs := s.txs.set head.sender remainingTxObjs
        heads := (s.heads.remove comparBefore).2.insert comparBefore
          ⟨nextTxObj, head.sender, getGasPrice nextTxObj.tx⟩ }
    | _ =>
      { txs := s.txs.delete head.sender
        heads := (s.heads.remove comparBefore).2 }

/-- Removes the best head together with the rest of its account. -/
def pop (s : TransactionsByPriceAndNonce) : TransactionsByPriceAndNonce :=
  match s.heads.remove comparBefore with
  | (none, heads) => { s with heads := heads }
  | (some head, heads) => { txs := s.txs.delete head.sender, heads := heads }

def isEmpty (s : TransactionsByPriceAndNonce) : Bool := s.heads.length = 0

def clear (_ : TransactionsByPriceAndNonce) : TransactionsByPriceAndNonce :=
  { txs := .empty, heads := Heap.empty }

/-! ## Runs -/

/-- The calls a miner makes on the set. -/
inductive Call where
  | peek
  | shift
  | pop
  deriving DecidableEq

def call (s : TransactionsByPriceAndNonce) : Call → TransactionsByPriceAndNonce
  | .peek => s
  | .shift => s.shift getGasPrice
  | .pop => s.pop

/-- The set after a run of calls. -/
def run (s : TransactionsByPriceAndNonce) (calls : List Call) : TransactionsByPriceAndNonce :=
  calls.foldl (call getGasPrice) s

/-- The heads are in heap order, and no account has two of them. -/
structure WellFormed (s : TransactionsByPriceAndNonce) : Prop where
  valid : s.heads.Valid comparBefore
  nodup : (s.heads.items.map TxWithMinerFee.sender).Nodup

/-- Every head the constructor makes belongs to an account it has gone through. -/
private theorem foldl_addAccount_senders (minGasPrice : Int)
    (entries : List (UnprefixedAddress × List TxPoolObject)) :
    ∀ acc : OrderedMap UnprefixedAddress (List TxPoolObject) × List TxWithMinerFee,
      ((entries.foldl (addAccount getGasPrice minGasPrice) acc).2.map TxWithMinerFee.sender).Sublist
        (acc.2.map TxWithMinerFee.sender ++ entries.map Prod.fst) := by
  induction entries with
  | nil => intro acc; simp
  | cons e es ih =>
    intro acc
    rw [List.foldl_cons]
    refine (ih _).trans ?_
    rw [List.map_cons, ← List.singleton_append, ← List.append_assoc]
    apply List.Sublist.append_right
    unfold addAccount
    split
    · exact List.sublist_append_left _ _
    · simp

theorem foldl_insert_heads (heads : List TxWithMinerFee) :
    ∀ h : Heap TxWithMinerFee, h.Valid comparBefore →
      (heads.foldl (Heap.insert comparBefore) h).Valid comparBefore ∧
        (heads.foldl (Heap.insert comparBefore) h).items = h.items + heads := by
  induction heads with
  | nil => intro h hv; exact ⟨hv, by simp⟩
  | cons a as ih =>
    intro h hv
    rw [List.foldl_cons]
    obtain ⟨hvalid, hitems⟩ := ih _ (Heap.valid_insert comparBefore_strictWeak a hv)
    refine ⟨hvalid, ?_⟩
    rw [hitems, Heap.items_insert, ← cons_coe, cons_add, add_cons]

theorem new_wellFormed (txsByAccount : OrderedMap UnprefixedAddress (List TxPoolObject))
    (minGasPrice : Int) : (new getGasPrice txsByAccount minGasPrice).WellFormed := by
  have hheads := foldl_insert_heads
    (txsByAccount.entries.foldl (addAccount getGasPrice minGasPrice) (.empty, [])).2
    Heap.empty (Heap.valid_empty comparBefore)
  refine ⟨hheads.1, ?_⟩
  have hsub := foldl_addAccount_senders getGasPrice minGasPrice
    txsByAccount.entries (.empty, [])
  simp only [new, hheads.2, Heap.items_empty, zero_add, map_coe, coe_nodup]
  exact txsByAccount.nodup.sublist (by simpa using hsub)

variable {s : TransactionsByPriceAndNonce} {head : TxWithMinerFee}

/-- Taking the shown head out leaves the heads of the other accounts. -/
theorem heads_remove (hs : s.WellFormed) (hpeek : s.heads.peek = some head) :
    (s.heads.remove comparBefore).1 = some head ∧
      (s.heads.remove comparBefore).2.Valid comparBefore ∧
      s.heads.items = head ::ₘ (s.heads.remove comparBefore).2.items := by
  obtain ⟨hpos, hroot⟩ := Heap.peek_eq_some.mp hpeek
  obtain ⟨hret, hitems⟩ := Heap.items_remove comparBefore_strictWeak hpos
  rw [hroot] at hret hitems
  exact ⟨hret, Heap.valid_remove comparBefore_strictWeak hs.valid, hitems⟩

theorem shift_wellFormed (hs : s.WellFormed) : (s.shift getGasPrice).WellFormed := by
  unfold shift
  split
  · exact hs
  · rename_i head hpeek
    obtain ⟨_, hvalid, hitems⟩ := heads_remove hs hpeek
    have hnodup := hs.nodup
    rw [hitems, map_cons] at hnodup
    split
    · refine ⟨Heap.valid_insert comparBefore_strictWeak _ hvalid, ?_⟩
      simpa only [Heap.items_insert, map_cons] using hnodup
    · exact ⟨hvalid, (nodup_cons.mp hnodup).2⟩

/-- `pop` with the head that it takes. -/
theorem pop_eq (hs : s.WellFormed) (hpeek : s.heads.peek = some head) :
    s.pop = { txs := s.txs.delete head.sender, heads := (s.heads.remove comparBefore).2 } := by
  unfold pop
  rw [show s.heads.remove comparBefore = (some head, (s.heads.remove comparBefore).2) by
    rw [← (heads_remove hs hpeek).1]]

/-- `pop` of an empty set. -/
theorem pop_of_empty (hpeek : s.heads.peek = none) : s.pop = s := by
  have h0 : s.heads.length = 0 := by
    simpa [Heap.peek] using hpeek
  simp only [pop, Heap.remove_of_length_zero comparBefore h0]

theorem pop_wellFormed (hs : s.WellFormed) : s.pop.WellFormed := by
  cases hpeek : s.heads.peek with
  | none => rwa [pop_of_empty hpeek]
  | some head =>
    obtain ⟨_, hvalid, hitems⟩ := heads_remove hs hpeek
    have hnodup := hs.nodup
    rw [hitems, map_cons] at hnodup
    rw [pop_eq hs hpeek]
    exact ⟨hvalid, (nodup_cons.mp hnodup).2⟩

theorem call_wellFormed (hs : s.WellFormed) (c : Call) : (s.call getGasPrice c).WellFormed := by
  cases c with
  | peek => exact hs
  | shift => exact shift_wellFormed getGasPrice hs
  | pop => exact pop_wellFormed hs

theorem run_wellFormed (hs : s.WellFormed) (calls : List Call) :
    (s.run getGasPrice calls).WellFormed := by
  induction calls generalizing s with
  | nil => exact hs
  | cons c cs ih => exact ih (call_wellFormed getGasPrice hs c)

/-! ## The head that `peek` shows -/

/-- `peek` shows a head whose fee is at least that of every head, the older one
where the fees are equal. -/
def ProfitMaximising (s : TransactionsByPriceAndNonce) : Prop :=
  ∀ head, s.heads.peek = some head →
    s.peek = some (head.tx, head.fees) ∧
      ∀ other ∈ s.heads.items, other.fees < head.fees ∨
        (other.fees = head.fees ∧ head.added ≤ other.added)

/-- All heads have one fee and one time of arrival. -/
def LevelHeads (s : TransactionsByPriceAndNonce) : Prop :=
  ∀ a ∈ s.heads.items, ∀ b ∈ s.heads.items, a.fees = b.fees ∧ a.added = b.added

/-- The comparator puts the lowest fee and the latest arrival at the root. -/
theorem peek_lowest (hs : s.WellFormed) (hpeek : s.heads.peek = some head) :
    ∀ other ∈ s.heads.items, head.fees < other.fees ∨
      (head.fees = other.fees ∧ other.added ≤ head.added) := by
  intro other hother
  have hfirst := Heap.peek_first comparBefore_strictWeak hs.valid hpeek other hother
  rw [comparBefore_eq_false] at hfirst
  omega

theorem mem_items_exists_peek {a : TxWithMinerFee} (ha : a ∈ s.heads.items) :
    ∃ head, s.heads.peek = some head := by
  obtain ⟨i, h1, hi, _⟩ := mem_contents.mp ha
  exact ⟨_, Heap.peek_eq_some.mpr ⟨by omega, rfl⟩⟩

theorem WellFormed.profitMaximising_iff (hs : s.WellFormed) :
    s.ProfitMaximising ↔ s.LevelHeads := by
  constructor
  · intro hmax
    -- the shown head is both a highest and a lowest one, so every head is level with it
    have hlevel : ∀ head, s.heads.peek = some head → ∀ a ∈ s.heads.items,
        a.fees = head.fees ∧ a.added = head.added := by
      intro head hpeek a ha
      have hhigh := (hmax head hpeek).2 a ha
      have hlow := peek_lowest hs hpeek a ha
      omega
    intro a ha b hb
    obtain ⟨head, hpeek⟩ := mem_items_exists_peek ha
    have hla := hlevel head hpeek a ha
    have hlb := hlevel head hpeek b hb
    exact ⟨hla.1.trans hlb.1.symm, hla.2.trans hlb.2.symm⟩
  · intro hlevel head hpeek
    refine ⟨by simp [peek, hpeek], ?_⟩
    intro other hother
    have hsame := hlevel head (Heap.peek_mem hpeek) other hother
    exact Or.inr ⟨hsame.1.symm, le_of_eq hsame.2⟩

/-- Over every run, the head shown is profit-maximising exactly when all heads
are level in fee and arrival. -/
theorem run_profitMaximising_iff (txsByAccount : OrderedMap UnprefixedAddress (List TxPoolObject))
    (minGasPrice : Int) (calls : List Call) :
    ((new getGasPrice txsByAccount minGasPrice).run getGasPrice calls).ProfitMaximising ↔
      ((new getGasPrice txsByAccount minGasPrice).run getGasPrice calls).LevelHeads :=
  (run_wellFormed getGasPrice (new_wellFormed getGasPrice txsByAccount minGasPrice)
    calls).profitMaximising_iff

/-- Two accounts, the first offering a gas price of 5 and the second one of 1. -/
def dearAndCheap : OrderedMap UnprefixedAddress (List TxPoolObject) :=
  let txObj (sender gasPrice : Nat) : TxPoolObject :=
    { tx := { type := .legacy, signed := true, hash := sender, sender := some sender, nonce := 0,
              gasPrice := gasPrice, gasLimit := 21000, value := 0, dataLength := 0 }
      hash := sender, added := 0 }
  (OrderedMap.empty.set 1 [txObj 1 5]).set 2 [txObj 2 1]

/-- The set built from them shows the cheap transaction. -/
theorem dearAndCheap_not_profitMaximising :
    ¬ ((new (fun tx => tx.gasPrice) dearAndCheap 0).run (fun tx => tx.gasPrice) []).ProfitMaximising := by
  intro hmax
  let s := new (fun tx => tx.gasPrice) dearAndCheap 0
  have hpeek : s.heads.peek = some (s.heads.list 1) := rfl
  have hdear : s.heads.list 2 ∈ s.heads.items := mem_contents.mpr ⟨2, by decide, by decide, rfl⟩
  have hfees := (hmax _ hpeek).2 _ hdear
  exact absurd hfees (by decide)

end TransactionsByPriceAndNonce
