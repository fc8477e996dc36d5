-- SUMMARY: The invariant of the canonical chain, and what the loops over its references do.
import TsEthereum.Base.ChainIndex
import TsEthereum.Blockchain.Blockchain
import Mathlib.Data.Set.Function
import Mathlib.Data.List.Perm.Subperm

/-!
# The canonical chain

The blocks that are put are headers of one tree, in which no two share a hash.
The index of numbers is a chain of that tree from the genesis block to the head
header, and every header that is stored carries the total difficulty of the tree.
-/

open List Option Except Nat

namespace Blockchain

open OrderedMap

variable {Hash : Type} [DecidableEq Hash] {opts : BlockchainOptions Hash}
  {tree : Set (BlockHeader Hash)} {genesis : BlockHeader Hash}

/-! ## The tree of headers -/

/-- The header at `k + 1` with hash `x` names the parent `p`. -/
def Link (opts : BlockchainOptions Hash) (tree : Set (BlockHeader Hash)) (k : Nat) (x p : Hash) :
    Prop :=
  ∃ header ∈ tree, opts.hash header = x ∧ header.number = k + 1 ∧ header.parentHash = p

/-- The difficulties along the chain that ends with a header, down to the genesis block. -/
inductive TotalDifficulty (opts : BlockchainOptions Hash) (tree : Set (BlockHeader Hash))
    (genesis : BlockHeader Hash) : BlockHeader Hash → Nat → Prop
  | genesis : TotalDifficulty opts tree genesis genesis genesis.difficulty
  | child {parent header : BlockHeader Hash} {td : Nat} (hparent : parent ∈ tree)
      (hhash : header.parentHash = opts.hash parent) (hnumber : header.number = parent.number + 1)
      (htd : TotalDifficulty opts tree genesis parent td) :
      TotalDifficulty opts tree genesis header (td + header.difficulty)

/-- A tree of headers below its genesis header, in which hashes tell headers apart. -/
structure ForkTree (opts : BlockchainOptions Hash) (tree : Set (BlockHeader Hash))
    (genesis : BlockHeader Hash) : Prop where
  root : genesis ∈ tree
  number_root : genesis.number = 0
  hash_inj : Set.InjOn opts.hash tree

variable {header : BlockHeader Hash}

omit [DecidableEq Hash] in
theorem ForkTree.totalDifficulty_unique (h : ForkTree opts tree genesis) {td td' : Nat}
    (htd : TotalDifficulty opts tree genesis header td)
    (htd' : TotalDifficulty opts tree genesis header td') : td = td' := by
  induction htd generalizing td' with
  | genesis =>
    cases htd' with
    | genesis => rfl
    | child _ _ hnumber _ =>
      have hzero := h.number_root
      omega
  | @child parent header td hparent hhash hnumber _ ih =>
    cases htd' with
    | genesis =>
      have hzero := h.number_root
      omega
    | @child parent' _ td' hparent' hhash' _ hrest =>
      obtain rfl := h.hash_inj hparent hparent' (hhash.symm.trans hhash')
      rw [ih hrest]

omit [DecidableEq Hash] in
theorem difficulty_root_le {td : Nat} (htd : TotalDifficulty opts tree genesis header td) :
    genesis.difficulty ≤ td := by
  induction htd with
  | genesis => exact Nat.le_refl _
  | child _ _ _ _ ih => exact Nat.le_trans ih (Nat.le_add_right _ _)

/-! ## The invariant -/

/-- The index of the canonical chain. -/
def index (s : Blockchain Hash) (k : Nat) : Option Hash := s.db.numberToHash.get k

/-- What is stored with a header. -/
structure StoredHeader (opts : BlockchainOptions Hash) (tree : Set (BlockHeader Hash))
    (genesis : BlockHeader Hash) (db : ChainDB Hash) (n : Nat) (h : Hash)
    (header : BlockHeader Hash) : Prop where
  mem : header ∈ tree
  hash : opts.hash header = h
  number : header.number = n
  hashToNumber : db.hashToNumber.get h = some n
  totalDifficulty : ∃ td, db.totalDifficulty.get (n, h) = some td ∧
    TotalDifficulty opts tree genesis header td
  root : n = 0 → header = genesis

/-- The canonical chain of the database, with the header `head` on top. -/
structure Canonical (opts : BlockchainOptions Hash) (tree : Set (BlockHeader Hash))
    (genesis : BlockHeader Hash) (s : Blockchain Hash) (n : Nat) : Prop where
  chain : ChainIndex (Link opts tree) (opts.hash genesis) s.index n s._headHeaderHash
  stored : ∀ k h, s.index k = some h → ∃ header, s.db.header.get (k, h) = some header
  headers : ∀ k h header, s.db.header.get (k, h) = some header →
    StoredHeader opts tree genesis s.db k h header
  genesis : s._genesisBlock.header = genesis

variable {s : Blockchain Hash} {n k : Nat}

/-- A hash is canonical at one number. -/
theorem Canonical.number_unique (h : Canonical opts tree genesis s n)
    (htree : ForkTree opts tree genesis) {j : Nat} {x : Hash} (hj : s.index j = some x)
    (hk : s.index k = some x) : j = k := by
  obtain ⟨header, hheader⟩ := h.stored j x hj
  obtain ⟨header', hheader'⟩ := h.stored k x hk
  have hstored := h.headers j x header hheader
  have hstored' := h.headers k x header' hheader'
  obtain rfl := htree.hash_inj hstored.mem hstored'.mem (hstored.hash.trans hstored'.hash.symm)
  exact hstored.number.symm.trans hstored'.number

/-- The table of references is as long as the chain. -/
theorem Canonical.length_keys (h : Canonical opts tree genesis s n) :
    n + 1 ≤ s.db.numberToHash.keys.length := by
  have hsub : List.range (n + 1) ⊆ s.db.numberToHash.keys := by
    intro k hk
    rw [OrderedMap.mem_keys]
    exact h.chain.exists_of_le (le_of_lt_succ (List.mem_range.mp hk))
  have hlength := (subperm_of_subset nodup_range hsub).length_le
  rwa [length_range] at hlength

/-! ## Deleting references -/

/-- The entries of an index from `k` on, up to a gap. -/
def references (index : Nat → Option Hash) : Nat → Nat → List (Nat × Hash)
  | 0, _ => []
  | fuel + 1, k =>
    match index k with
    | none => []
    | some hash => (k, hash) :: references index fuel (k + 1)

variable {top : Hash} {m : Nat}

omit [DecidableEq Hash] in
theorem mem_references {index : Nat → Option Hash} {link : Nat → Hash → Hash → Prop} {root : Hash}
    (h : ChainIndex link root index n top) {fuel : Nat} (hfuel : n + 1 ≤ fuel + m) (e : Nat × Hash) :
     e ∈ references index fuel m ↔ m ≤ e.1 ∧ index e.1 = some e.2 := by
  induction fuel generalizing m with
  | zero =>
    have habove (hm : m ≤ e.1) : index e.1 = none := h.above _ (by omega)
    constructor
    · intro hmem
      cases hmem
    · rintro ⟨hm, hindex⟩
      rw [habove hm] at hindex
      cases hindex
  | succ fuel ih =>
    unfold references
    cases hindex : index m with
    | none =>
      -- nothing is canonical from there on
      have hgone (hm : m ≤ e.1) : index e.1 = none := by
        refine h.above _ (Nat.lt_of_lt_of_le (Nat.lt_of_not_le (fun hle => ?_)) hm)
        obtain ⟨x, hx⟩ := h.exists_of_le hle
        rw [hindex] at hx
        cases hx
      constructor
      · intro hmem
        cases hmem
      · rintro ⟨hm, hsome⟩
        rw [hgone hm] at hsome
        cases hsome
    | some hash =>
      rw [mem_cons, ih (by omega)]
      constructor
      · rintro (rfl | ⟨hm, hsome⟩)
        · exact ⟨Nat.le_refl m, hindex⟩
        · exact ⟨le_of_succ_le hm, hsome⟩
      · rintro ⟨hm, hsome⟩
        rcases Nat.lt_or_eq_of_le hm with hlt | heq
        · exact .inr ⟨hlt, hsome⟩
        · obtain ⟨k, x⟩ := e
          obtain rfl : m = k := heq
          rw [hindex] at hsome
          obtain rfl := some.inj hsome
          exact .inl rfl

/-- All heads at one of the hashes go to `headHash`. -/
def moveAll (headHash : Hash) (hashes : List Hash) (s : Blockchain Hash) : Blockchain Hash :=
  { s with
    _heads := s._heads.mapValues fun h => if h ∈ hashes then headHash else h
    _headHeaderHash := if s._headHeaderHash ∈ hashes then headHash else s._headHeaderHash
    _headBlockHash := if s._headBlockHash ∈ hashes then headHash else s._headBlockHash }

theorem mapValues_mapValues {κ α β γ : Type} (f : α → β) (g : β → γ) (m : OrderedMap κ α) :
    (m.mapValues f).mapValues g = m.mapValues (fun a => g (f a)) := by
  simp [mapValues, Function.comp_def]

theorem mapValues_id {κ α : Type} (m : OrderedMap κ α) : m.mapValues (fun a => a) = m := by
  simp [mapValues]

/-- A head that is deleted goes to `headHash`. -/
theorem move_cons (headHash hash y : Hash) (rest : List Hash) :
    (if (if y = hash then headHash else y) ∈ rest then headHash
      else if y = hash then headHash else y) = if y ∈ hash :: rest then headHash else y := by
  by_cases hy : y = hash
  · simp [hy]
  · simp [hy]

/-- The loop moves the heads of all it reads. -/
theorem deleteReferences_eq (headHash : Hash) (fuel m : Nat) (s : Blockchain Hash) :
    deleteReferences headHash fuel m s =
      (s.moveAll headHash ((references s.index fuel m).map Prod.snd),
        (references s.index fuel m).map fun e => .delNumberToHash e.1) := by
  induction fuel generalizing m s with
  | zero => simp [deleteReferences, references, moveAll, mapValues_id]
  | succ fuel ih =>
    unfold deleteReferences references index
    cases hindex : s.db.numberToHash.get m with
    | none => simp [moveAll, mapValues_id]
    | some hash =>
      -- a head that has been moved stays where it went
      simp only [ih, map_cons, moveAll, moveHeads, mapValues_mapValues, move_cons]
      rfl

/-- The canonical entries from the number `m` on, as `_deleteCanonicalChainReferences` reads them. -/
def referencesFrom (s : Blockchain Hash) (m : Nat) : List (Nat × Hash) :=
  references s.index s.db.numberToHash.keys.length m

theorem _deleteCanonicalChainReferences_eq (s : Blockchain Hash) (m : Nat) (headHash : Hash) :
    s._deleteCanonicalChainReferences m headHash =
      (s.moveAll headHash ((s.referencesFrom m).map Prod.snd),
        (s.referencesFrom m).map fun e => .delNumberToHash e.1) := deleteReferences_eq _ _ _ s

section

variable (h : Canonical opts tree genesis s n)
include h

theorem Canonical.mem_referencesFrom (m : Nat) (e : Nat × Hash) :
    e ∈ s.referencesFrom m ↔ m ≤ e.1 ∧ s.index e.1 = some e.2 :=
  mem_references h.chain (le_add_right_of_le h.length_keys) e

/-- The index without the entries from `m` on. -/
theorem Canonical.get_deleted (m k : Nat) :
    (((s.referencesFrom m).map Prod.fst).foldl delete s.db.numberToHash).get k =
      if m ≤ k then none else s.index k := by
  rw [get_foldl_delete]
  split
  · rename_i hk
    obtain ⟨e, he, rfl⟩ := mem_map.mp hk
    rw [if_pos ((h.mem_referencesFrom m e).mp he).1]
  · rename_i hk
    split
    · rename_i hle
      cases hget : s.db.numberToHash.get k with
      | none => rfl
      | some x =>
        have hmem := (h.mem_referencesFrom m (k, x)).mpr ⟨hle, hget⟩
        exact absurd (mem_map_of_mem hmem) hk
    · rfl

/-- Of the canonical hashes, those from `m` on are deleted. -/
theorem Canonical.mem_hashes
    (htree : ForkTree opts tree genesis) {y : Hash} (hk : s.index k = some y) :
    y ∈ (s.referencesFrom m).map Prod.snd ↔ m ≤ k := by
  constructor
  · intro hy
    obtain ⟨⟨j, z⟩, he, rfl⟩ := mem_map.mp hy
    obtain ⟨hle, hj⟩ := (h.mem_referencesFrom m _).mp he
    rwa [h.number_unique htree hk hj]
  · intro hle
    exact mem_map_of_mem (f := Prod.snd) ((h.mem_referencesFrom m (k, y)).mpr ⟨hle, hk⟩)

end

/-! ## Rebuilding -/

/-- What the loop of `_rebuildCanonical` finds and writes: the chain `w` of the new head, which
leaves the old one after the number `c`. -/
structure RebuildSpec (opts : BlockchainOptions Hash) (tree : Set (BlockHeader Hash))
    (genesis : BlockHeader Hash) (s : Blockchain Hash) (m : Nat) (header : BlockHeader Hash)
    (r : Rebuilt Hash) (c : Nat) (w : Nat → Option Hash) : Prop where
  le : c ≤ m
  chain : ChainIndex (Link opts tree) (opts.hash genesis) w m (opts.hash header)
  common : ∀ k ≤ c, w k = s.index k
  fork : ∀ k, c < k → k ≤ m → s.index k ≠ w k
  ancestor : s.index c = some r.currentCanonicalHash
  stored : ∀ k x, k < m → w k = some x → ∃ header, s.db.header.get (k, x) = some header
  numberToHash : ∀ (db : ChainDB Hash) k, (db.batch r.ops).numberToHash.get k =
    if c < k ∧ k ≤ m then w k else db.numberToHash.get k
  hashToNumber : ∀ (db : ChainDB Hash) k x, c < k → k ≤ m → w k = some x →
    (db.batch r.ops).hashToNumber.get x = some k
  hashToNumber_old : ∀ (db : ChainDB Hash) k x, db.hashToNumber.get x = some k →
    (∀ j, c < j → j ≤ m → w j = some x → j = k) → (db.batch r.ops).hashToNumber.get x = some k
  others : ∀ db : ChainDB Hash, db.batch r.ops =
    { db with
      numberToHash := (db.batch r.ops).numberToHash
      hashToNumber := (db.batch r.ops).hashToNumber }
  staleHeads : ∀ name, name ∈ r.staleHeads ↔
    ∃ k x, c < k ∧ k ≤ m ∧ s.index k = some x ∧ s._heads.get name = some x

omit [DecidableEq Hash] in
/-- The number of a hash in a chain of the tree. -/
theorem ForkTree.number_of_chain (htree : ForkTree opts tree genesis) {w : Nat → Option Hash}
    (h : ChainIndex (Link opts tree) (opts.hash genesis) w m top) (hmem : header ∈ tree)
    (hk : w k = some (opts.hash header)) : header.number = k := by
  cases k with
  | zero =>
    rw [h.root] at hk
    rw [← htree.hash_inj htree.root hmem (some.inj hk), htree.number_root]
  | succ k =>
    obtain ⟨p, -, header', hmem', hhash', hnumber', -⟩ := h.link_of_succ hk
    rw [← htree.hash_inj hmem' hmem hhash', hnumber']

/-- The new chain has met the old one. -/
theorem RebuildSpec.met (hchain : ChainIndex (Link opts tree) (opts.hash genesis) s.index n top)
    (hstored : ∀ k h, s.index k = some h → ∃ header, s.db.header.get (k, h) = some header)
    (h : s.index m = some (opts.hash header)) :
    RebuildSpec opts tree genesis s m header ⟨opts.hash header, [], false, []⟩ m
      (fun k => if k ≤ m then s.index k else none) where
  le := Nat.le_refl m
  chain := hchain.truncate h
  common := fun k hk => if_pos hk
  fork := by
    intro k hlt hle
    omega
  ancestor := h
  stored := by
    intro k x hk hx
    rw [if_pos (Nat.le_of_lt hk)] at hx
    exact hstored k x hx
  numberToHash := by
    intro db k
    rw [if_neg (by omega)]
    rfl
  hashToNumber := by
    intro db k x hlt hle
    omega
  hashToNumber_old := fun db k x hx _ => hx
  others := fun db => rfl
  staleHeads := by
    intro name
    constructor
    · intro hmem
      cases hmem
    · rintro ⟨k, x, hlt, hle, -⟩
      omega

/-- The loop goes on to the parent. -/
theorem RebuildSpec.step (htree : ForkTree opts tree genesis) {c : Nat} {parent : BlockHeader Hash}
    {r : Rebuilt Hash} {w : Nat → Option Hash} (h : RebuildSpec opts tree genesis s m parent r c w)
    (hmem : header ∈ tree) (hnumber : header.number = m + 1)
    (hparent : opts.hash parent = header.parentHash)
    (hthere : s.db.header.get (m, header.parentHash) = some parent)
    (hne : s.index (m + 1) ≠ some (opts.hash header)) :
    RebuildSpec opts tree genesis s (m + 1) header
      { r with
        staleHeads := s._heads.keysWhere (fun h => s.db.numberToHash.get (m + 1) = some h) ++
          r.staleHeads
        staleHeadBlock := decide (s.db.numberToHash.get (m + 1) = some s._headBlockHash) ||
          r.staleHeadBlock
        ops := DBSaveLookups (opts.hash header) header.number ++ r.ops } c
      (fun k => if k = m + 1 then some (opts.hash header) else w k) := by
  have hlink : Link opts tree m (opts.hash header) (opts.hash parent) :=
    ⟨header, hmem, rfl, hnumber, hparent.symm⟩
  have hle := h.le
  have hwrites (db : ChainDB Hash) :
      db.batch (DBSaveLookups (opts.hash header) header.number ++ r.ops) =
        ChainDB.batch { db with
          numberToHash := db.numberToHash.set (m + 1) (opts.hash header)
          hashToNumber := db.hashToNumber.set (opts.hash header) (m + 1) } r.ops := by
    simp [DBSaveLookups, hnumber, ChainDB.batchOp]
  -- nothing below the new header has its hash
  have hbelow : ∀ j, w j = some (opts.hash header) → False := by
    intro j hj
    have hj' := htree.number_of_chain h.chain hmem hj
    have hle' := h.chain.le_of_some hj
    omega
  constructor
  case le => exact le_succ_of_le hle
  case chain => exact h.chain.extend hlink
  case common =>
    intro k hk
    rw [if_neg (by omega), h.common k hk]
  case fork =>
    intro k hlt hle'
    rcases Nat.lt_or_eq_of_le hle' with hlt' | rfl
    · rw [if_neg (by omega)]
      exact h.fork k hlt (le_of_lt_succ hlt')
    · rw [if_pos rfl]
      exact hne
  case ancestor => exact h.ancestor
  case stored =>
    intro k x hk hx
    rw [if_neg (by omega)] at hx
    rcases Nat.lt_or_eq_of_le (le_of_lt_succ hk) with hlt | rfl
    · exact h.stored k x hlt hx
    · rw [h.chain.top, hparent] at hx
      obtain rfl := some.inj hx
      exact ⟨parent, hthere⟩
  case numberToHash =>
    intro db k
    dsimp only
    rw [hwrites, h.numberToHash, get_set]
    by_cases htop : k = m + 1
    · rw [if_neg (by omega), if_pos htop, if_pos (by omega), if_pos htop]
    · rw [if_neg htop, if_neg htop]
      by_cases hk : c < k ∧ k ≤ m
      · rw [if_pos hk, if_pos (by omega)]
      · rw [if_neg hk, if_neg (by omega)]
  case hashToNumber =>
    intro db k x hlt hle' hx
    dsimp only at hx ⊢
    rw [hwrites]
    by_cases htop : k = m + 1
    · rw [if_pos htop] at hx
      obtain rfl := some.inj hx
      refine h.hashToNumber_old _ k _ ?_ (fun j _ _ hj => (hbelow j hj).elim)
      simp [htop]
    · rw [if_neg htop] at hx
      exact h.hashToNumber _ k x hlt (by omega) hx
  case hashToNumber_old =>
    intro db k x hx hsame
    dsimp only at hsame ⊢
    rw [hwrites]
    refine h.hashToNumber_old _ k x ?_ (fun j hlt hj hw => ?_)
    · dsimp only
      rw [get_set]
      by_cases heq : x = opts.hash header
      · rw [if_pos heq, hsame (m + 1) (by omega) (Nat.le_refl _) (by rw [if_pos rfl, heq])]
      · rw [if_neg heq, hx]
    · exact hsame j hlt (by omega) (by rw [if_neg (by omega), hw])
  case others =>
    intro db
    dsimp only
    rw [hwrites, h.others]
  case staleHeads =>
    intro name
    dsimp only
    rw [mem_append, mem_keysWhere, h.staleHeads]
    constructor
    · rintro (⟨x, hx, htop⟩ | ⟨k, x, hlt, hle', hk, hx⟩)
      · exact ⟨m + 1, x, by omega, Nat.le_refl _, of_decide_eq_true htop, hx⟩
      · exact ⟨k, x, hlt, by omega, hk, hx⟩
    · rintro ⟨k, x, hlt, hle', hk, hx⟩
      rcases Nat.lt_or_eq_of_le hle' with hlt' | rfl
      · exact .inr ⟨k, x, hlt, le_of_lt_succ hlt', hk, hx⟩
      · exact .inl ⟨x, hx, decide_eq_true hk⟩

theorem rebuildLoop_spec (htree : ForkTree opts tree genesis)
    (hchain : ChainIndex (Link opts tree) (opts.hash genesis) s.index n top)
    (hstored : ∀ k h, s.index k = some h → ∃ header, s.db.header.get (k, h) = some header)
    (hheaders : ∀ k h header, s.db.header.get (k, h) = some header →
      StoredHeader opts tree genesis s.db k h header) {r : Rebuilt Hash} (hmem : header ∈ tree)
    (hnumber : header.number = m) (hroot : m = 0 → header = genesis)
    (hr : rebuildLoop opts s m header = .ok r) :
    ∃ c w, RebuildSpec opts tree genesis s m header r c w := by
  -- the induction follows the loop down the parents of the new head
  induction m generalizing header r with
  | zero =>
    obtain rfl := hroot rfl
    unfold rebuildLoop at hr
    rw [if_pos (.inr hnumber)] at hr
    obtain rfl := ok.inj hr
    exact ⟨0, _, .met hchain hstored hchain.root⟩
  | succ m ih =>
    unfold rebuildLoop at hr
    by_cases hhere : s.db.numberToHash.get (m + 1) = some (opts.hash header)
    · rw [if_pos (.inl hhere)] at hr
      obtain rfl := ok.inj hr
      exact ⟨m + 1, _, .met hchain hstored hhere⟩
    · have hpos : header.number ≠ 0 := by omega
      rw [if_neg (not_or.mpr ⟨hhere, hpos⟩)] at hr
      cases hparent : s.db.header.get (m, header.parentHash) with
      | none => simp [getHeader, hparent, bind, Except.bind] at hr
      | some parent =>
        simp only [getHeader, hparent, bind, Except.bind] at hr
        have hp := hheaders m _ parent hparent
        cases hrest : rebuildLoop opts s m parent with
        | error e => simp [hrest] at hr
        | ok r' =>
          simp only [hrest] at hr
          obtain rfl := ok.inj hr
          obtain ⟨c, w, hspec⟩ := ih hp.mem hp.number hp.root hrest
          exact ⟨c, _, hspec.step htree hmem hnumber hp.hash hparent hhere⟩

end Blockchain
