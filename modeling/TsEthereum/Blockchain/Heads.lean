-- SUMMARY: What a reorganisation does to the heads of iterators.
import TsEthereum.Blockchain.CanonicalRuns

/-!
# Iterator heads

A put that reorganises the chain moves the heads that were on the old chain. Those
up to the number of the new block go to the last block that both chains have;
those above go to the new block itself, past the blocks that the new chain has
below it.
-/

open Option Nat

namespace Blockchain

variable {Hash : Type} [DecidableEq Hash] {opts : BlockchainOptions Hash}
  {tree : Set (BlockHeader Hash)} {genesis : BlockHeader Hash}

/-! ## Branches -/

/-- The hash is that of the header or of one of its ancestors. -/
inductive Branch (opts : BlockchainOptions Hash) (tree : Set (BlockHeader Hash)) :
    BlockHeader Hash → Hash → Prop
  | self {header : BlockHeader Hash} : Branch opts tree header (opts.hash header)
  | parent {header parent : BlockHeader Hash} {x : Hash} (hparent : parent ∈ tree)
      (hhash : header.parentHash = opts.hash parent) (hnumber : header.number = parent.number + 1)
      (hrest : Branch opts tree parent x) : Branch opts tree header x

omit [DecidableEq Hash] in
/-- The top of a chain, when it is not the root, has a parent that is the top of the rest. -/
theorem ForkTree.top_parent (htree : ForkTree opts tree genesis) {w : Nat → Option Hash} {m : Nat}
    {header : BlockHeader Hash}
    (hchain : ChainIndex (Link opts tree) (opts.hash genesis) w (m + 1) (opts.hash header))
    (hmem : header ∈ tree) :
    ∃ parent ∈ tree, header.parentHash = opts.hash parent ∧ parent.number = m ∧
      w m = some (opts.hash parent) := by
  obtain ⟨p, hp, header', hmem', hhash', -, rfl⟩ := hchain.link_of_succ hchain.top
  obtain rfl := htree.hash_inj hmem' hmem hhash'
  have hexists : ∃ parent ∈ tree, opts.hash parent = header'.parentHash := by
    cases m with
    | zero => exact ⟨genesis, htree.root, some.inj (hchain.root.symm.trans hp)⟩
    | succ m =>
      obtain ⟨-, -, parent, hparent, hhash, -, -⟩ := hchain.link_of_succ hp
      exact ⟨parent, hparent, hhash⟩
  obtain ⟨parent, hparent, hhash⟩ := hexists
  rw [← hhash] at hp
  exact ⟨parent, hparent, hhash.symm, htree.number_of_chain hchain hparent hp, hp⟩

omit [DecidableEq Hash] in
/-- The chain of a header has just its branch. -/
theorem ForkTree.branch_iff (htree : ForkTree opts tree genesis) {w : Nat → Option Hash} {m : Nat}
    {header : BlockHeader Hash}
    (hchain : ChainIndex (Link opts tree) (opts.hash genesis) w m (opts.hash header))
    (hmem : header ∈ tree) (x : Hash) : Branch opts tree header x ↔ ∃ k, w k = some x := by
  -- the induction goes down the chain to the genesis block
  induction m generalizing header w with
  | zero =>
    constructor
    · intro hbranch
      cases hbranch with
      | self => exact ⟨0, hchain.top⟩
      | parent _ _ hnumber _ =>
        have hzero := htree.number_of_chain hchain hmem hchain.top
        omega
    · rintro ⟨k, hk⟩
      obtain rfl := Nat.le_zero.mp (hchain.le_of_some hk)
      rw [hchain.top] at hk
      obtain rfl := some.inj hk
      exact .self
  | succ m ih =>
    obtain ⟨parent, hparent, hhash, hnumber, hp⟩ := htree.top_parent hchain hmem
    have hsucc := htree.number_of_chain hchain hmem hchain.top
    have hrest := ih (hchain.truncate hp) hparent
    constructor
    · intro hbranch
      cases hbranch with
      | self => exact ⟨m + 1, hchain.top⟩
      | @parent _ parent' _ hparent' hhash' _ hbelow =>
        obtain rfl := htree.hash_inj hparent' hparent (hhash'.symm.trans hhash)
        obtain ⟨k, hk⟩ := hrest.mp hbelow
        split at hk
        · exact ⟨k, hk⟩
        · cases hk
    · rintro ⟨k, hk⟩
      rcases Nat.lt_or_eq_of_le (hchain.le_of_some hk) with hlt | rfl
      · refine .parent hparent hhash (by omega) (hrest.mpr ⟨k, ?_⟩)
        rw [if_pos (le_of_lt_succ hlt), hk]
      · rw [hchain.top] at hk
        obtain rfl := some.inj hk
        exact .self

/-! ## Following the chain -/

/-- The hash is canonical. -/
def InChain (s : Blockchain Hash) (x : Hash) : Prop := ∃ k, s.index k = some x

/-- A block of the old chain is no longer canonical. -/
def Reorganises (s s' : Blockchain Hash) : Prop := ∃ k x, s.index k = some x ∧ s'.index k ≠ some x

/-- The first block of the new chain that the old one does not have. -/
structure FirstNew (s s' : Blockchain Hash) (k : Nat) (x : Hash) : Prop where
  new : s'.index k = some x
  stale : s.index k ≠ some x
  common : ∀ j < k, s'.index j = s.index j

/-- What a head `h` is to become when the chain is reorganised. -/
structure HeadFollows (s s' : Blockchain Hash) (h h' : Hash) : Prop where
  canonical : s'.InChain h'
  kept : s'.InChain h → h' = h
  ancestor : ¬s'.InChain h → ∀ k x, FirstNew s s' k x → ∃ j < k, s'.index j = some h'

/-- The head is on the branch of the new block, or on the old chain, and then not above the new
block unless that is canonical already. -/
def HeadInReach (opts : BlockchainOptions Hash) (tree : Set (BlockHeader Hash)) (s : Blockchain Hash)
    (header : BlockHeader Hash) (h : Hash) : Prop :=
  Branch opts tree header h ∨
    ∃ k, s.index k = some h ∧
      (k ≤ header.number ∨ s.index header.number = some (opts.hash header))

theorem Canonical.number_unique' (htree : ForkTree opts tree genesis) {s s' : Blockchain Hash}
    {n n' : Nat} (h : Canonical opts tree genesis s n) (h' : Canonical opts tree genesis s' n')
    {j k : Nat} {x : Hash} (hj : s.index j = some x) (hk : s'.index k = some x) : j = k := by
  obtain ⟨header, hheader⟩ := h.stored j x hj
  have hstored := h.headers j x header hheader
  rw [← hstored.number]
  exact htree.number_of_chain h'.chain hstored.mem (hstored.hash ▸ hk)

omit [DecidableEq Hash] in
/-- Above the fork the new chain has blocks of its own. -/
theorem Adopted.firstNew_of_lt {s s' : Blockchain Hash} {header : BlockHeader Hash} {c : Nat}
    (hadopted : Adopted opts tree genesis s s' header c) (hlt : c < header.number) :
    ∃ x, FirstNew s s' (c + 1) x := by
  obtain ⟨x, hx⟩ := hadopted.chain.exists_of_le (succ_le_of_lt hlt)
  have hfork := hadopted.fork (c + 1) (lt_succ_self c) (succ_le_of_lt hlt)
  exact ⟨x, hx, hx ▸ hfork, fun j hj => hadopted.common j (le_of_lt_succ hj)⟩

omit [DecidableEq Hash] in
theorem Adopted.lt_firstNew {s s' : Blockchain Hash} {header : BlockHeader Hash} {c : Nat}
    (hadopted : Adopted opts tree genesis s s' header c) {k : Nat} {x : Hash}
    (hnew : FirstNew s s' k x) : c < k := by
  refine Nat.lt_of_not_le (fun hle => hnew.stale ?_)
  rw [← hadopted.common k hle, hnew.new]

section Following

variable {s s' : Blockchain Hash} {n c : Nat} {header : BlockHeader Hash} {name : String} {x : Hash}

variable (htree : ForkTree opts tree genesis)
include htree

/-- A head up to the number of the new block follows the chain. -/
theorem Adopted.head_follows
    (h : Canonical opts tree genesis s n) (h' : Canonical opts tree genesis s' header.number)
    (hadopted : Adopted opts tree genesis s s' header c) {k : Nat}
    (hx : s._heads.get name = some x) (hk : s.index k = some x) (hle : k ≤ header.number) :
    ∃ y, s'._heads.get name = some y ∧ HeadFollows s s' x y := by
  rcases Nat.lt_or_ge c k with hlt | hkept
  · obtain ⟨a, ha⟩ := hadopted.ancestor
    have hcommon : s'.index c = some a := (hadopted.common c (Nat.le_refl c)).trans ha
    have hgone : ¬ s'.InChain x := by
      rintro ⟨j, hj⟩
      obtain rfl := h.number_unique' htree h' hk hj
      exact hadopted.fork k hlt hle (hk.trans hj.symm)
    refine ⟨a, (hadopted.headStale name x k hx hlt hle hk).trans ha, ⟨c, hcommon⟩, ?_, ?_⟩
    · intro hin
      exact absurd hin hgone
    · intro _ j y hnew
      exact ⟨c, hadopted.lt_firstNew hnew, hcommon⟩
  · have hin : s'.InChain x := ⟨k, (hadopted.common k hkept).trans hk⟩
    exact ⟨x, hadopted.headKept name x k hx hkept hk, hin, fun _ => rfl,
      fun hgone => absurd hin hgone⟩

/-- A head above the new block follows the chain only if there is nothing new. -/
theorem Adopted.head_above_follows_iff
    (h : Canonical opts tree genesis s n) (h' : Canonical opts tree genesis s' header.number)
    (hadopted : Adopted opts tree genesis s s' header c) (hmem : header ∈ tree) {k : Nat}
    (hx : s._heads.get name = some x) (hk : s.index k = some x) (habove : header.number < k) :
    (∃ y, s'._heads.get name = some y ∧ HeadFollows s s' x y) ↔
      s.index header.number = some (opts.hash header) := by
  have hmoved := hadopted.headAbove name x k hx habove hk
  have hgone : ¬ s'.InChain x := by
    rintro ⟨j, hj⟩
    obtain rfl := h.number_unique' htree h' hk hj
    have hle := hadopted.chain.le_of_some hj
    omega
  constructor
  · rintro ⟨y, hy, hfollows⟩
    obtain rfl := some.inj (hmoved.symm.trans hy)
    rcases Nat.lt_or_eq_of_le hadopted.le with hlt | rfl
    · -- the new block would be below the first new one
      obtain ⟨z, hnew⟩ := hadopted.firstNew_of_lt hlt
      obtain ⟨j, hj, hhead⟩ := hfollows.ancestor hgone (c + 1) z hnew
      have hnumber := htree.number_of_chain hadopted.chain hmem hhead
      omega
    · rw [← hadopted.common _ (Nat.le_refl _), hadopted.chain.top]
  · intro hthere
    have hall : c = header.number := by
      refine Nat.le_antisymm hadopted.le (Nat.le_of_not_lt (fun hlt => ?_))
      refine hadopted.fork _ hlt (Nat.le_refl _) ?_
      rw [hthere, hadopted.chain.top]
    refine ⟨_, hmoved, ⟨_, hadopted.chain.top⟩, fun hin => absurd hin hgone, ?_⟩
    intro _ j y hnew
    have hlt := hadopted.lt_firstNew hnew
    have hle := hadopted.chain.le_of_some hnew.new
    omega

/-- The head after an adopted item follows the chain just when it was in reach of the new block. -/
theorem Adopted.follows_iff
    (h : Canonical opts tree genesis s n) (h' : Canonical opts tree genesis s' header.number)
    (hadopted : Adopted opts tree genesis s s' header c) (hmem : header ∈ tree)
    (hx : s._heads.get name = some x) : (∃ y, s'._heads.get name = some y ∧ HeadFollows s s' x y) ↔
      HeadInReach opts tree s header x := by
  have hbranch : Branch opts tree header x ↔ s'.InChain x :=
    htree.branch_iff hadopted.chain hmem x
  by_cases hin : s.InChain x
  · obtain ⟨k, hk⟩ := hin
    rcases Nat.lt_or_ge header.number k with habove | hle
    · rw [hadopted.head_above_follows_iff htree h h' hmem hx hk habove]
      constructor
      · exact fun hthere => .inr ⟨k, hk, .inr hthere⟩
      · rintro (hself | ⟨j, hj, hreach⟩)
        · obtain ⟨j, hj⟩ := hbranch.mp hself
          obtain rfl := h.number_unique' htree h' hk hj
          have hle := hadopted.chain.le_of_some hj
          omega
        · obtain rfl := h.number_unique htree hk hj
          exact hreach.resolve_left (Nat.not_le_of_lt habove)
    · exact iff_of_true (hadopted.head_follows htree h h' hx hk hle) (.inr ⟨k, hk, .inl hle⟩)
  · have hoff : ∀ k, s.index k ≠ some x := fun k hk => hin ⟨k, hk⟩
    have hstays := hadopted.headOff name x hx hoff
    constructor
    · rintro ⟨y, hy, hfollows⟩
      obtain rfl := some.inj (hstays.symm.trans hy)
      exact .inl (hbranch.mpr hfollows.canonical)
    · rintro (hself | ⟨k, hk, -⟩)
      · have hin' := hbranch.mp hself
        exact ⟨x, hstays, hin', fun _ => rfl, fun hgone => absurd hin' hgone⟩
      · exact absurd hk (hoff k)

end Following

/-- In every reachable state, a head follows a reorganisation to a block that both chains have,
or stays where it is still canonical, if and only if it was in reach of the new block. -/
theorem head_follows_iff {genesisBlock : Block Hash}
    (htree : ForkTree opts tree genesisBlock.header) {hist : History Hash} {s s' : Blockchain Hash}
    (hrun : Run opts tree genesisBlock hist s) {item : ChainItem Hash}
    (hvalid : Validated opts tree s item) (hput : _putBlockOrHeader opts s item = .ok s')
    (hreorg : Reorganises s s') {name : String} {h : Hash} (hh : s._heads.get name = some h) :
    (∃ h', s'._heads.get name = some h' ∧ HeadFollows s s' h h') ↔
      HeadInReach opts tree s item.header h := by
  obtain ⟨n, hn⟩ := (hrun.invariant htree).canonical
  obtain ⟨k, x, hk, hchanged⟩ := hreorg
  by_cases hzero : item.header.number = 0
  · obtain ⟨rfl, -⟩ := hn.put_genesis htree hvalid.mem hzero hput
    exact absurd hk hchanged
  · obtain ⟨td, headTd, hspec⟩ := hn.put htree hvalid hzero hput
    rcases hspec.outcome with ⟨-, ⟨c, hadopted⟩, hcanonical⟩ | ⟨-, -, hkept, -⟩
    · exact hadopted.follows_iff htree hn hcanonical hvalid.mem hh
    · rw [hkept.index] at hchanged
      exact absurd hk hchanged

/-- The longer chain is iterated up to `head` before the heavier one arrives. -/
def sampleIterated (head : Nat) : List (Call Nat) :=
  [.put (sampleBlock 11 1 1 2), .put (sampleBlock 12 11 2 2), .put (sampleBlock 13 12 3 2),
    .put (sampleBlock 21 1 1 3), .moveIteratorHead "vm" head]

theorem exists_run_iterated (head : Nat) : ∃ hist,
    Run sampleOptions sampleTree sampleGenesis hist (sampleAfter (sampleIterated head)) := by
  obtain ⟨hist₁, h₁⟩ := exists_run_put .create (sampleHeader 11 1 1 2) (by decide) (by decide +kernel)
    (by decide +kernel)
  obtain ⟨hist₂, h₂⟩ := exists_run_put h₁ (sampleHeader 12 11 2 2) (by decide) (by decide +kernel)
    (by decide +kernel)
  obtain ⟨hist₃, h₃⟩ := exists_run_put h₂ (sampleHeader 13 12 3 2) (by decide) (by decide +kernel)
    (by decide +kernel)
  obtain ⟨hist₄, h₄⟩ := exists_run_put h₃ (sampleHeader 21 1 1 3) (by decide) (by decide +kernel)
    (by decide +kernel)
  exact ⟨_, .call (.moveIteratorHead "vm" head) h₄ trivial rfl⟩

/-- The state after the heavier chain has become the canonical one. -/
def sampleReorganised (head : Nat) : Blockchain Nat :=
  sampleNext (sampleAfter (sampleIterated head)) (.put (sampleBlock 22 21 2 9))

theorem validated_sample (head : Nat)
    (h : (validateHeader sampleOptions (sampleAfter (sampleIterated head))
      (sampleHeader 22 21 2 9)).toOption.isSome = true) :
    Validated sampleOptions sampleTree (sampleAfter (sampleIterated head)) (sampleBlock 22 21 2 9) where
  mem := (by decide : sampleHeader 22 21 2 9 ∈ sampleHeaders)
  valid := validateHeader_of_isSome h

/-- A head as high as the new block goes back to the genesis block. -/
theorem head_follows_sample : ∃ h', (sampleReorganised 12)._heads.get "vm" = some h' ∧
    HeadFollows (sampleAfter (sampleIterated 12)) (sampleReorganised 12) 12 h' := by
  obtain ⟨hist, hrun⟩ := exists_run_iterated 12
  have hreorg : Reorganises (sampleAfter (sampleIterated 12)) (sampleReorganised 12) :=
    ⟨1, 11, by decide +kernel, by decide +kernel⟩
  have hput : _putBlockOrHeader sampleOptions (sampleAfter (sampleIterated 12))
      (sampleBlock 22 21 2 9) = .ok (sampleReorganised 12) :=
    sampleNext_eq (c := .put (sampleBlock 22 21 2 9)) (by decide +kernel)
  exact (head_follows_iff sampleTree_forkTree hrun (validated_sample 12 (by decide +kernel)) hput
    hreorg (by decide +kernel)).mpr (.inr ⟨2, by decide +kernel, .inl (by decide)⟩)

/-- A head above the new block is at the new block afterwards, and the block `21` below it has
never been iterated. -/
theorem head_skips_sample : ∃ hist,
    Run sampleOptions sampleTree sampleGenesis hist (sampleAfter (sampleIterated 13)) ∧
    Validated sampleOptions sampleTree (sampleAfter (sampleIterated 13)) (sampleBlock 22 21 2 9) ∧
    _putBlockOrHeader sampleOptions (sampleAfter (sampleIterated 13)) (sampleBlock 22 21 2 9) =
      .ok (sampleReorganised 13) ∧
    Reorganises (sampleAfter (sampleIterated 13)) (sampleReorganised 13) ∧
    (sampleAfter (sampleIterated 13))._heads.get "vm" = some 13 ∧
    ¬∃ h', (sampleReorganised 13)._heads.get "vm" = some h' ∧
      HeadFollows (sampleAfter (sampleIterated 13)) (sampleReorganised 13) 13 h' := by
  obtain ⟨hist, hrun⟩ := exists_run_iterated 13
  refine ⟨hist, hrun, validated_sample 13 (by decide +kernel),
    sampleNext_eq (c := .put (sampleBlock 22 21 2 9)) (by decide +kernel),
    ⟨1, 11, by decide +kernel, by decide +kernel⟩, by decide +kernel, ?_⟩
  rintro ⟨h', hhead, hfollows⟩
  have hmoved : (sampleReorganised 13)._heads.get "vm" = some 22 := by decide +kernel
  obtain rfl := some.inj (hmoved.symm.trans hhead)
  have hgone : ¬ (sampleReorganised 13).InChain 13 := by
    rintro ⟨k, hk⟩
    have hkeys : (sampleReorganised 13).db.numberToHash.keys = [0, 1, 2] := by decide +kernel
    have hmem := OrderedMap.mem_keys.mpr ⟨13, hk⟩
    rw [hkeys] at hmem
    have hnone : ∀ k ∈ [0, 1, 2], (sampleReorganised 13).index k ≠ some 13 := by decide +kernel
    exact hnone k hmem hk
  have hnew : FirstNew (sampleAfter (sampleIterated 13)) (sampleReorganised 13) 1 21 :=
    ⟨by decide +kernel, by decide +kernel, by decide +kernel⟩
  obtain ⟨j, hj, hbelow⟩ := hfollows.ancestor hgone 1 21 hnew
  obtain rfl := Nat.lt_one_iff.mp hj
  have hroot : (sampleReorganised 13).index 0 ≠ some 22 := by decide +kernel
  exact hroot hbelow

end Blockchain
