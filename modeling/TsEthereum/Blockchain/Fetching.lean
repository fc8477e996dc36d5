-- SUMMARY: Looking up runs of blocks, and finding where the unknown hashes of a list begin.
import Mathlib.Tactic.Ring
import TsEthereum.Blockchain.Iterator

/-!
# Fetching

What a peer asks of a chain: `getBlocks`, a walk from block to block that counts
the blocks it skips and the ones it returns with one counter, and
`selectNeededHashes`, a binary search for the first unknown hash. Both are given
a number of steps, and are right whenever it is large enough.
-/

open List Option Nat

namespace Blockchain

variable {Hash : Type} [DecidableEq Hash] {opts : BlockchainOptions Hash}

/-! ## The first unknown hash -/

section SelectNeededHashes

variable (s : Blockchain Hash) (hashes : List Hash)

/-- The loop of `selectNeededHashes`; the result is the final `min`. -/
def selectNeededHashes.loop : Nat → Int → Int → Int → Option (Except ChainError Int)
  | 0, _, _, _ => none
  | fuel + 1, min, mid, max =>
    if max ≥ min then
      match hashes[mid.toNat]? with
      | none => some (.error (.other "no bytes"))
      | some hash =>
        match s.hashToNumber hash with
        | .ok _ =>
          let min := mid + 1
          selectNeededHashes.loop fuel min ((min + max) / 2) max
        | .error (.notFoundInDB _) =>
          let max := mid - 1
          selectNeededHashes.loop fuel min ((min + max) / 2) max
        | .error e => some (.error e)
    else some (.ok min)

def selectNeededHashes (fuel : Nat) : Option (Except ChainError (List Hash)) :=
  (selectNeededHashes.loop s hashes fuel 0 0 (hashes.length - 1)).map
    (·.map fun min => hashes.drop min.toNat)

/-- The database has a number for the hash. -/
def Knows (hash : Hash) : Prop := (s.db.hashToNumber.get hash).isSome = true

instance (hash : Hash) : Decidable (s.Knows hash) := inferInstanceAs (Decidable (_ = true))

variable {s hashes}

theorem hashToNumber_of_knows {hash : Hash} (h : s.Knows hash) :
    ∃ number, s.hashToNumber hash = .ok number := by
  obtain ⟨number, hnumber⟩ := isSome_iff_exists.mp h
  exact ⟨number, by simp [hashToNumber, hnumber]⟩

theorem hashToNumber_of_not_knows {hash : Hash} (h : ¬s.Knows hash) :
    ∃ message, s.hashToNumber hash = .error (.notFoundInDB message) := by
  have hnone : s.db.hashToNumber.get hash = none := by simpa [Knows] using h
  exact ⟨_, by simp only [hashToNumber, hnone]; rfl⟩

/-- The boundary `known.length` stays between `min` and `max + 1`, and the middle of the window is
looked at next. -/
structure Window (known : Nat) (length : Nat) (min mid max : Int) : Prop where
  min_nonneg : 0 ≤ min
  min_le : min ≤ known
  le_max : known ≤ max + 1
  max_lt : max < length
  mid : min ≤ max → min ≤ mid ∧ mid ≤ max

variable {min mid max : Int}

theorem Window.known {known length : Nat} (h : Window known length min mid max) (hopen : min ≤ max)
    (hmid : mid < known) :
    Window known length (mid + 1) ((mid + 1 + max) / 2) max where
  min_nonneg := by have := h.mid hopen; have := h.min_nonneg; omega
  min_le := hmid
  le_max := h.le_max
  max_lt := h.max_lt
  mid := by omega

theorem Window.unknown {known length : Nat} (h : Window known length min mid max)
    (hopen : min ≤ max) (hmid : known ≤ mid) :
    Window known length min ((min + (mid - 1)) / 2) (mid - 1) where
  min_nonneg := h.min_nonneg
  min_le := h.min_le
  le_max := by omega
  max_lt := by have := h.mid hopen; have := h.max_lt; omega
  mid := by omega

/-- The window shrinks with every step, and ends at the boundary. -/
theorem Window.loop {known unknown : List Hash} (hknown : ∀ x ∈ known, s.Knows x)
    (hunknown : ∀ x ∈ unknown, ¬s.Knows x) {fuel : Nat}
    (h : Window known.length (known ++ unknown).length min mid max) (hfuel : max - min + 1 < fuel) :
    selectNeededHashes.loop s (known ++ unknown) fuel min mid max = some (.ok known.length) := by
  induction fuel generalizing min mid max with
  | zero =>
    have hle := h.min_le.trans h.le_max
    omega
  | succ fuel ih =>
    unfold selectNeededHashes.loop
    by_cases hopen : min ≤ max
    · obtain ⟨hmin, hmax⟩ := h.mid hopen
      obtain ⟨m, rfl⟩ := Int.eq_ofNat_of_zero_le (h.min_nonneg.trans hmin)
      have hlt : m < (known ++ unknown).length := by
        have hlength := h.max_lt
        omega
      have hget : (known ++ unknown)[m]? = some ((known ++ unknown).get ⟨m, hlt⟩) :=
        getElem?_eq_getElem hlt
      simp only [ge_iff_le, hopen, if_true, Int.toNat_natCast, hget]
      by_cases hside : m < known.length
      · have hmem : (known ++ unknown).get ⟨m, hlt⟩ ∈ known := by
          simp [hside]
        obtain ⟨number, hnumber⟩ := hashToNumber_of_knows (hknown _ hmem)
        simp only [hnumber]
        exact ih (h.known hopen (by omega)) (by omega)
      · have hmem : (known ++ unknown).get ⟨m, hlt⟩ ∈ unknown := by
          simp [getElem_append_right (Nat.le_of_not_lt hside)]
        obtain ⟨message, hmessage⟩ := hashToNumber_of_not_knows (hunknown _ hmem)
        simp only [hmessage]
        exact ih (h.unknown hopen (by omega)) (by omega)
    · have hend : min = known.length := by
        have hle := h.min_le
        have hge := h.le_max
        omega
      rw [if_neg hopen, hend]

/-- Where the known hashes come first, exactly the unknown ones are selected, in order. -/
theorem selectNeededHashes_eq {known unknown : List Hash} (hknown : ∀ x ∈ known, s.Knows x)
    (hunknown : ∀ x ∈ unknown, ¬s.Knows x) {fuel : Nat} (hfuel : (known ++ unknown).length < fuel) :
    s.selectNeededHashes (known ++ unknown) fuel = some (.ok unknown) := by
  have hwindow : Window known.length (known ++ unknown).length 0 0
      ((known ++ unknown).length - 1) := by
    refine ⟨le_rfl, Int.natCast_nonneg _, ?_, ?_, fun hopen => ⟨le_rfl, hopen⟩⟩
    · simp
    · omega
  have hloop : selectNeededHashes.loop s (known ++ unknown) fuel 0 0
      ((known ++ unknown).length - 1) = some (.ok known.length) :=
    hwindow.loop hknown hunknown (by omega)
  rw [selectNeededHashes, hloop]
  simp [Except.map]

/-- Of three hashes the chain of the first block knows the first. -/
theorem selectNeededHashes_sample :
    (sampleAfter [.put (sampleBlock 11 1 1 2)]).selectNeededHashes ([11] ++ [12, 13]) 4 =
      some (.ok [12, 13]) :=
  selectNeededHashes_eq (by decide +kernel) (by decide +kernel) (by decide)

end SelectNeededHashes

/-! ## Runs of blocks -/

/-- A hash, or a number: the walk also asks for the number below the genesis block. -/
inductive BlockId (Hash : Type) where
  | hash (blockHash : Hash)
  | number (blockNumber : Int)

/-- `BigInt.asUintN(64, value)`, under which numbers are looked up. -/
def asUintN64 (value : Int) : Nat := (value % 2 ^ 64).toNat

section GetBlocks

variable (s : Blockchain Hash)

def getBlock : BlockId Hash → Except ChainError (Block Hash)
  | .hash blockHash => s.getBlockByHash blockHash
  | .number blockNumber => s.getBlockByNumber (asUintN64 blockNumber)

/-- One number up, or down. -/
def direction (reverse : Bool) : Int := if reverse then -1 else 1

/-- The closure of `getBlocks`, with its two variables. -/
def getBlocks.nextBlock (maxBlocks skip : Nat) (reverse : Bool) :
    Nat → BlockId Hash → Int → List (Block Hash) → Option (Except ChainError (List (Block Hash)))
  | 0, _, _, _ => none
  | fuel + 1, blockId, i, blocks =>
    match s.getBlock blockId with
    | .error (.notFoundInDB _) => some (.ok blocks)
    | .error e => some (.error e)
    | .ok block =>
      let i := i + 1
      let nextBlockNumber := .number (block.header.number + direction reverse)
      if i ≠ 0 ∧ skip ≠ 0 ∧ i % (skip + 1) ≠ 0 then
        getBlocks.nextBlock maxBlocks skip reverse fuel nextBlockNumber i blocks
      else
        let blocks := blocks ++ [block]
        if blocks.length < maxBlocks then
          getBlocks.nextBlock maxBlocks skip reverse fuel nextBlockNumber i blocks
        else some (.ok blocks)

def getBlocks (fuel : Nat) (blockId : BlockId Hash) (maxBlocks skip : Nat) (reverse : Bool) :
    Option (Except ChainError (List (Block Hash))) :=
  getBlocks.nextBlock s maxBlocks skip reverse fuel blockId (-1) []

/-! ### What is asked for -/

/-- The canonical block of a number. -/
def canonicalBlock : Int → Option (Block Hash)
  | .ofNat k => (s.getBlockByNumber k).toOption
  | .negSucc _ => none

/-- At most so many canonical blocks, each `step` away from the last, up to the first that is
missing. -/
def everyStep (step : Int) : Nat → Int → List (Block Hash)
  | 0, _ => []
  | m + 1, k =>
    match s.canonicalBlock k with
    | none => []
    | some block => block :: everyStep step m (k + step)

/-- The number of the start, if its hash is known. -/
def startNumber : BlockId Hash → Option Int
  | .hash blockHash => (s.db.hashToNumber.get blockHash).map (↑)
  | .number blockNumber => some blockNumber

def requestedBlocks (blockId : BlockId Hash) (maxBlocks skip : Nat) (reverse : Bool) :
    List (Block Hash) :=
  ((s.startNumber blockId).map fun k =>
    s.everyStep (direction reverse * (skip + 1)) maxBlocks k).getD []

end GetBlocks

/-! ### The numbers along the way -/

variable {s : Blockchain Hash} {tree : Set (BlockHeader Hash)} {genesis : BlockHeader Hash}
  {n L : Nat} {k : Int} {reverse : Bool}

/-- The `j`-th number from `k` on. -/
def along (k : Int) (reverse : Bool) (j : Nat) : Int := k + direction reverse * j

/-- The canonical blocks among these numbers can be read: no header is without its body. -/
def Readable (s : Blockchain Hash) (k : Int) (reverse : Bool) (first last : Nat) : Prop :=
  ∀ j, first ≤ j → j ≤ last → ∀ m : Nat, along k reverse j = m → (s.index m).isSome = true →
    ∃ block, s.getBlockByNumber m = .ok block

/-- The way from `k` is on the chain for `L` numbers, and then leaves it for good. -/
structure Leaves (n : Nat) (k : Int) (reverse : Bool) (L : Nat) : Prop where
  inside : ∀ j < L, ∃ m : Nat, along k reverse j = m ∧ m ≤ n
  outside : ∀ j, L ≤ j → ∀ m : Nat, along k reverse j = m → n < m
  bounds : -1 ≤ along k reverse L ∧ along k reverse L ≤ n + 1

variable {m : Nat}

theorem exists_leaves (hm : m ≤ n) (reverse : Bool) : ∃ L ≤ n + 1, Leaves n m reverse L := by
  cases reverse with
  | false =>
    refine ⟨n - m + 1, by omega, ?_, ?_, ?_⟩ <;> simp only [along, direction, Bool.false_eq_true, if_false]
    · exact fun j hj => ⟨m + j, by omega, by omega⟩
    · intro j hj i hi
      omega
    · omega
  | true =>
    refine ⟨m + 1, by omega, ?_, ?_, ?_⟩ <;> simp only [along, direction, if_true]
    · exact fun j hj => ⟨m - j, by omega, by omega⟩
    · intro j hj i hi
      omega
    · omega

theorem along_succ (k : Int) (reverse : Bool) (j : Nat) :
    along k reverse j + direction reverse = along k reverse (j + 1) := by
  simp only [along, cast_add, cast_one]
  ring

theorem along_add (k : Int) (reverse : Bool) (j d : Nat) :
    along k reverse j + direction reverse * (d + 1) = along k reverse (j + 1 + d) := by
  simp only [along, cast_add, cast_one]
  ring

theorem asUintN64_natCast (hm : m < 2 ^ 64) : asUintN64 m = m := by
  have hmod : (m : Int) % 2 ^ 64 = m := Int.emod_eq_of_lt (Int.natCast_nonneg m) (by exact_mod_cast hm)
  rw [asUintN64, hmod, Int.toNat_natCast]

/-! ### Reading blocks -/

theorem getBlockAt_error {x : Hash} {e : ChainError} (h : s.getBlockAt x m = .error e) :
    ∃ message, e = .other message := by
  unfold getBlockAt getHeader at h
  cases hheader : s.db.header.get (m, x) with
  | none =>
    simp only [hheader, bind, Except.bind] at h
    exact ⟨_, (Except.error.inj h).symm⟩
  | some header =>
    simp only [hheader, bind, Except.bind] at h
    split at h
    · cases h
    · split at h
      · cases h
      · exact ⟨_, (Except.error.inj h).symm⟩

theorem getBlockByNumber_of_index {x : Hash} (h : s.index m = some x) :
    s.getBlockByNumber m = s.getBlockAt x m := by
  have hget : s.db.numberToHash.get m = some x := h
  simp only [getBlockByNumber, hget]

theorem getBlockByNumber_of_none (h : s.index m = none) :
    ∃ message, s.getBlockByNumber m = .error (.notFoundInDB message) := by
  have hget : s.db.numberToHash.get m = none := h
  exact ⟨_, by simp only [getBlockByNumber, hget]; rfl⟩

variable {skip : Nat}

/-- One counter is enough: the next number is skipped while there are numbers to skip. -/
theorem skips_iff {j d : Nat} (hd : d ≤ skip) (hmod : (j + d) % (skip + 1) = 0) :
    ((j : Int) ≠ 0 ∧ skip ≠ 0 ∧ (j : Int) % (skip + 1) ≠ 0) ↔ d ≠ 0 := by
  have hcast : (j : Int) % (skip + 1) = ((j % (skip + 1) : Nat) : Int) := by
    push_cast
    rfl
  have hzero : j % (skip + 1) = 0 ↔ d = 0 := by
    constructor
    · intro hj
      rw [add_mod, hj, Nat.zero_add, mod_mod, mod_eq_of_lt (by omega)] at hmod
      exact hmod
    · rintro rfl
      exact hmod
  rw [hcast]
  constructor
  · rintro ⟨-, -, hne⟩ rfl
    exact hne (by exact_mod_cast hmod)
  · intro hne
    refine ⟨?_, by omega, by exact_mod_cast fun hj => hne (hzero.mp hj)⟩
    intro hj
    have hj : j = 0 := by exact_mod_cast hj
    exact hne (hzero.mp (by simp [hj]))

theorem readable_succ {first last : Nat} {block : Block Hash} (hm : along k reverse first = m)
    (hget : s.getBlockByNumber m = .ok block) :
    Readable s k reverse first last ↔ Readable s k reverse (first + 1) last := by
  constructor
  · intro hread j hj
    exact hread j (le_of_succ_le hj)
  · intro hread j hj hlast i hi hindex
    rcases hj.eq_or_lt with rfl | hlt
    · obtain rfl : i = m := by exact_mod_cast hi.symm.trans hm
      exact ⟨block, hget⟩
    · exact hread j hlt hlast i hi hindex

section Walk

variable (h : Canonical opts tree genesis s n)

include h

theorem Canonical.header_number {m : Nat} {block : Block Hash}
    (hget : s.getBlockByNumber m = .ok block) : block.header.number = m := by
  obtain ⟨x, -, hheader⟩ := Blockchain.getBlockByNumber_ok hget
  exact (h.headers _ _ _ hheader).number

section

variable (hleaves : Leaves n k reverse L)
include hleaves

theorem Canonical.canonicalBlock_outside {j : Nat} (hj : L ≤ j) :
    s.canonicalBlock (along k reverse j) = none := by
  cases hnumber : along k reverse j with
  | ofNat m =>
    obtain ⟨message, hmessage⟩ :=
      getBlockByNumber_of_none (h.chain.above m (hleaves.outside j hj m hnumber))
    simp [canonicalBlock, hmessage, Except.toOption]
  | negSucc m => rfl

theorem Canonical.readable_outside (last : Nat) : Readable s k reverse L last := by
  intro j hj _ m hm hindex
  rw [h.chain.above m (hleaves.outside j hj m hm)] at hindex
  cases hindex

/-- The number below genesis and the one above the head are looked up in vain. -/
theorem Canonical.getBlock_end (hn : n + 1 < 2 ^ 64) :
    ∃ message, s.getBlock (.number (along k reverse L)) = .error (.notFoundInDB message) := by
  refine getBlockByNumber_of_none (h.chain.above _ ?_)
  obtain ⟨hlow, hhigh⟩ := hleaves.bounds
  cases hnumber : along k reverse L with
  | ofNat m =>
    have hout := hleaves.outside L le_rfl m hnumber
    have hm : m < 2 ^ 64 := by
      rw [hnumber] at hhigh
      have hle : m ≤ n + 1 := Int.ofNat_le.mp hhigh
      omega
    exact (asUintN64_natCast hm).symm ▸ hout
  | negSucc m =>
    rw [hnumber] at hlow
    have hzero : m = 0 := by omega
    subst hzero
    have hwrapped : asUintN64 (Int.negSucc 0) = 2 ^ 64 - 1 := by decide +kernel
    omega

end

/-- Inside, a number is looked up as it is, and its block read or not. -/
theorem Canonical.getBlock_inside (hn : n + 1 < 2 ^ 64) {m : Nat} (hm : m ≤ n) :
    (∃ block, s.getBlock (.number m) = .ok block ∧ s.canonicalBlock m = some block ∧
      s.getBlockByNumber m = .ok block ∧ block.header.number = m) ∨
    ((s.index m).isSome = true ∧ (∀ block, s.getBlockByNumber m ≠ .ok block) ∧
      ∃ message, s.getBlock (.number m) = .error (.other message)) := by
  have hlookup : s.getBlock (.number m) = s.getBlockByNumber m :=
    congrArg s.getBlockByNumber (asUintN64_natCast (by omega))
  obtain ⟨x, hx⟩ := h.chain.exists_of_le hm
  cases hget : s.getBlockByNumber m with
  | ok block =>
    refine .inl ⟨block, hlookup.trans hget, ?_, rfl, h.header_number hget⟩
    have hblock : s.canonicalBlock m = (s.getBlockByNumber m).toOption := rfl
    rw [hblock, hget]
    rfl
  | error e =>
    obtain ⟨message, rfl⟩ := getBlockAt_error ((getBlockByNumber_of_index hx).symm.trans hget)
    exact .inr ⟨by simp [hx], nofun, message, hlookup.trans hget⟩

/-- The walk on the `j`-th number, where `d` numbers are still skipped and `m` more blocks wanted
after the next one. -/
theorem Canonical.nextBlock_along (hleaves : Leaves n k reverse L) (hn : n + 1 < 2 ^ 64)
    (maxBlocks skip fuel j d m : Nat) (blocks : List (Block Hash)) (hj : j ≤ L)
    (hfuel : L < fuel + j) (hd : d ≤ skip) (hmod : (j + d) % (skip + 1) = 0)
    (hroom : maxBlocks = blocks.length + m + 1) : (Readable s k reverse j (j + d + m * (skip + 1)) →
      getBlocks.nextBlock s maxBlocks skip reverse fuel (.number (along k reverse j)) (j - 1) blocks =
        some (.ok (blocks ++ s.everyStep (direction reverse * (skip + 1)) (m + 1)
          (along k reverse (j + d))))) ∧ (¬Readable s k reverse j (j + d + m * (skip + 1)) →
      ∃ e, getBlocks.nextBlock s maxBlocks skip reverse fuel (.number (along k reverse j)) (j - 1)
        blocks = some (.error e)) := by
  induction fuel generalizing j d m blocks with
  | zero => omega
  | succ fuel ih =>
    unfold getBlocks.nextBlock
    rcases hj.lt_or_eq with hlt | rfl
    · obtain ⟨number, hnumber, hle⟩ := hleaves.inside j hlt
      rw [hnumber]
      rcases h.getBlock_inside hn hle with ⟨block, hget, hcanonical, hread, hheader⟩ |
        ⟨hindex, hnone, message, hget⟩
      · have hnext : (block.header.number : Int) + direction reverse = along k reverse (j + 1) := by
          rw [hheader, ← along_succ, hnumber]
        have hcount : (j : Int) - 1 + 1 = j := by ring
        have hindex : ((j + 1 : Nat) : Int) - 1 = j := by
          push_cast
          ring
        simp only [hget, hnext, hcount, skips_iff hd hmod, readable_succ hnumber hread]
        by_cases hskip : d = 0
        · subst hskip
          have hstep (m : Nat) : s.everyStep (direction reverse * (skip + 1)) (m + 1)
              (along k reverse j) =
              block :: s.everyStep (direction reverse * (skip + 1)) m (along k reverse (j + 1 + skip)) := by
            rw [← along_add, hnumber]
            simp only [everyStep, hcanonical]
          simp only [ne_eq, not_true_eq_false, if_false, length_append, length_singleton,
            Nat.add_zero, hstep]
          cases m with
          | zero =>
            -- the last block that was asked for
            have hfull : ¬blocks.length + 1 < maxBlocks := by omega
            simp only [hfull, if_false]
            refine ⟨fun _ => rfl, fun hread => absurd ?_ hread⟩
            intro i hi hlast
            omega
          | succ m =>
            have hmore : blocks.length + 1 < maxBlocks := by omega
            have hrest := ih (j + 1) skip m (blocks ++ [block]) hlt
              (by omega) le_rfl (by rw [← hmod]; simp [Nat.add_assoc, Nat.add_comm 1])
              (by simp only [length_append, length_singleton]; omega)
            have hlast : j + 1 + skip + m * (skip + 1) = j + (m + 1) * (skip + 1) := by ring
            rw [hindex, hlast] at hrest
            simpa [hmore] using hrest
        · obtain ⟨d, rfl⟩ := exists_eq_succ_of_ne_zero hskip
          have hrest := ih (j + 1) d m blocks hlt (by omega) (by omega)
            (by rw [← hmod]; congr 1; omega) hroom
          have hlast : j + 1 + d + m * (skip + 1) = j + (d + 1) + m * (skip + 1) := by ring
          have hfirst : j + 1 + d = j + (d + 1) := by ring
          rw [hindex, hlast, hfirst] at hrest
          simpa using hrest
      · refine ⟨fun hread => ?_, fun _ => ⟨.other message, by simp only [hget]⟩⟩
        obtain ⟨block, hblock⟩ := hread j le_rfl (by omega) number hnumber hindex
        exact absurd hblock (hnone block)
    · obtain ⟨message, hget⟩ := h.getBlock_end hleaves hn
      have hnone := h.canonicalBlock_outside hleaves (Nat.le_add_right j d)
      refine ⟨fun _ => ?_, fun hread => absurd (h.readable_outside hleaves _) hread⟩
      simp [hget, everyStep, hnone]

end Walk

/-! ### What is returned -/

variable {maxBlocks fuel : Nat} {blockId : BlockId Hash} {result : List (Block Hash)}

theorem nextBlock_prefix {i : Int} {blocks : List (Block Hash)}
    (hnext : getBlocks.nextBlock s maxBlocks skip reverse fuel blockId i blocks = some (.ok result)) :
     blocks <+: result := by
  induction fuel generalizing blockId i blocks with
  | zero => cases hnext
  | succ fuel ih =>
    unfold getBlocks.nextBlock at hnext
    split at hnext
    · obtain rfl := Except.ok.inj (some.inj hnext)
      exact prefix_rfl
    · cases hnext
    · dsimp only at hnext
      split at hnext
      · exact ih hnext
      · split at hnext
        · exact (prefix_append blocks _).trans (ih hnext)
        · obtain rfl := Except.ok.inj (some.inj hnext)
          exact prefix_append blocks _

/-- The block that is found first is returned, however few are asked for. -/
theorem getBlocks_first {block : Block Hash} (hget : s.getBlock blockId = .ok block)
    (hresult : s.getBlocks fuel blockId maxBlocks skip reverse = some (.ok result)) :
    ∃ rest, result = block :: rest := by
  unfold getBlocks at hresult
  cases fuel with
  | zero => cases hresult
  | succ fuel =>
    unfold getBlocks.nextBlock at hresult
    simp only [hget] at hresult
    have hprefix : [block] <+: result := by
      split at hresult
      · rename_i hskip
        exact absurd rfl hskip.1
      · split at hresult
        · exact nextBlock_prefix hresult
        · obtain rfl := Except.ok.inj (some.inj hresult)
          exact prefix_rfl
    obtain ⟨rest, hrest⟩ := hprefix
    exact ⟨rest, hrest.symm⟩

theorem getBlocks_error {message : String} (hget : s.getBlock blockId = .error (.other message)) :
    s.getBlocks fuel blockId maxBlocks skip reverse ≠ some (.ok result) := by
  intro hresult
  unfold getBlocks at hresult
  cases fuel with
  | zero => cases hresult
  | succ fuel =>
    unfold getBlocks.nextBlock at hresult
    simp only [hget] at hresult
    cases hresult

theorem getBlocks_notFound {message : String}
    (hget : s.getBlock blockId = .error (.notFoundInDB message)) (hfuel : 0 < fuel) :
    s.getBlocks fuel blockId maxBlocks skip reverse = some (.ok []) := by
  unfold getBlocks
  obtain ⟨fuel, rfl⟩ := exists_eq_succ_of_ne_zero hfuel.ne'
  unfold getBlocks.nextBlock
  simp only [hget]

theorem getBlocks_congr {blockId' : BlockId Hash} (hget : s.getBlock blockId = s.getBlock blockId') :
     s.getBlocks fuel blockId maxBlocks skip reverse =
      s.getBlocks fuel blockId' maxBlocks skip reverse := by
  unfold getBlocks
  cases fuel with
  | zero => rfl
  | succ fuel =>
    unfold getBlocks.nextBlock
    rw [hget]

theorem everyStep_of_none {step : Int} (hnone : s.canonicalBlock k = none) (m : Nat) :
    s.everyStep step m k = [] := by
  cases m with
  | zero => rfl
  | succ m => simp only [everyStep, hnone]

/-- The number at which the code finds the start. -/
def foundAt (s : Blockchain Hash) : BlockId Hash → Option Nat
  | .hash blockHash => s.db.hashToNumber.get blockHash
  | .number blockNumber =>
    if (s.index (asUintN64 blockNumber)).isSome then some (asUintN64 blockNumber) else none

/-- The start is the canonical block of the number. -/
def Names (s : Blockchain Hash) : BlockId Hash → Nat → Prop
  | .hash blockHash, number => s.index number = some blockHash
  | .number blockNumber, number => blockNumber = number

/-- Where the start is found, it is canonical, a block is asked for, and no header on the way is
without its body. -/
def Answerable (s : Blockchain Hash) (blockId : BlockId Hash) (maxBlocks skip : Nat)
    (reverse : Bool) : Prop :=
  ∀ number, s.foundAt blockId = some number → 0 < maxBlocks ∧ s.Names blockId number ∧
    Readable s number reverse 0 ((maxBlocks - 1) * (skip + 1))

section Answers

variable (h : Canonical opts tree genesis s n)

include h

variable {fuel : Nat}

/-- From a number on the chain. -/
theorem Canonical.getBlocks_inside (hn : n + 1 < 2 ^ 64) {m : Nat} (hm : m ≤ n)
    (hfuel : n + 1 < fuel) (maxBlocks skip : Nat) (reverse : Bool) :
    s.getBlocks fuel (.number m) maxBlocks skip reverse =
        some (.ok (s.everyStep (direction reverse * (skip + 1)) maxBlocks m)) ↔
      0 < maxBlocks ∧ Readable s m reverse 0 ((maxBlocks - 1) * (skip + 1)) := by
  cases maxBlocks with
  | zero =>
    refine iff_of_false (fun hresult => ?_) (fun hpos => absurd hpos.1 (Nat.lt_irrefl 0))
    rcases h.getBlock_inside hn hm with ⟨block, hget, -⟩ | ⟨-, -, message, hget⟩
    · obtain ⟨rest, hrest⟩ := getBlocks_first hget hresult
      cases hrest
    · exact getBlocks_error hget hresult
  | succ maxBlocks =>
    obtain ⟨L, hL, hleaves⟩ := exists_leaves hm reverse
    have hwalk := h.nextBlock_along hleaves hn (maxBlocks + 1) skip fuel 0 0 maxBlocks []
      (Nat.zero_le L) (by omega) (Nat.zero_le skip) (zero_mod _) (by simp)
    have hstart : along (m : Int) reverse 0 = m := by simp [along]
    simp only [Nat.add_zero, Nat.zero_add, hstart, nil_append, cast_zero, zero_sub]
      at hwalk
    simp only [zero_lt_succ, true_and, Nat.add_sub_cancel]
    constructor
    · intro hresult
      by_contra hread
      obtain ⟨e, he⟩ := hwalk.2 hread
      exact nomatch he.symm.trans hresult
    · exact hwalk.1

theorem Canonical.canonicalBlock_ok {block : Block Hash} {m : Nat}
    (hblock : s.canonicalBlock m = some block) : s.index m = some (opts.hash block.header) := by
  have hget : (s.getBlockByNumber m).toOption = some block := hblock
  cases hread : s.getBlockByNumber m with
  | error e => simp [hread, Except.toOption] at hget
  | ok block' =>
    obtain rfl : block' = block := by simpa [hread, Except.toOption] using hget
    obtain ⟨x, hx, hheader⟩ := Blockchain.getBlockByNumber_ok hread
    rw [hx, (h.headers _ _ _ hheader).hash]

variable (hn : n + 1 < 2 ^ 64)
include hn

theorem Canonical.canonicalBlock_of_wrapped
    (hwrapped : (asUintN64 k : Int) ≠ k ∨ s.index (asUintN64 k) = none) :
    s.canonicalBlock k = none := by
  cases hblock : s.canonicalBlock k with
  | none => rfl
  | some block =>
    cases k with
    | negSucc m => cases hblock
    | ofNat m =>
      have hindex := h.canonicalBlock_ok hblock
      have hm := h.chain.le_of_some hindex
      have hsame : asUintN64 (Int.ofNat m) = m := asUintN64_natCast (by omega)
      rw [hsame] at hwrapped
      rcases hwrapped with hne | hnone
      · exact absurd rfl hne
      · exact nomatch hindex.symm.trans hnone

/-- A start by number. -/
theorem Canonical.getBlocks_number (hfuel : n + 1 < fuel) (number : Int)
    (maxBlocks skip : Nat) (reverse : Bool) :
    s.getBlocks fuel (.number number) maxBlocks skip reverse =
        some (.ok (s.requestedBlocks (.number number) maxBlocks skip reverse)) ↔
      s.Answerable (.number number) maxBlocks skip reverse := by
  have hrequested : s.requestedBlocks (.number number) maxBlocks skip reverse =
      s.everyStep (direction reverse * (skip + 1)) maxBlocks number := rfl
  rw [hrequested]
  cases hindex : s.index (asUintN64 number) with
  | none =>
    obtain ⟨message, hget⟩ := getBlockByNumber_of_none hindex
    have hnone := h.canonicalBlock_of_wrapped hn (.inr hindex)
    refine iff_of_true ?_ (fun m hm => by simp [foundAt, hindex] at hm)
    rw [everyStep_of_none hnone]
    exact getBlocks_notFound hget (by omega)
  | some x =>
    have hle := h.chain.le_of_some hindex
    have hfound : s.foundAt (.number number) = some (asUintN64 number) := by
      simp [foundAt, hindex]
    by_cases hsame : (asUintN64 number : Int) = number
    · have hinside := h.getBlocks_inside hn hle hfuel maxBlocks skip reverse
      rw [hsame] at hinside
      refine hinside.trans ⟨?_, ?_⟩
      · rintro ⟨hpos, hread⟩ m hm
        obtain rfl := some.inj (hfound.symm.trans hm)
        exact ⟨hpos, hsame.symm, hsame.symm ▸ hread⟩
      · intro hanswerable
        obtain ⟨hpos, -, hread⟩ := hanswerable _ hfound
        exact ⟨hpos, hsame ▸ hread⟩
    · -- the number wraps onto the chain
      refine iff_of_false (fun hresult => ?_) (fun hanswerable => ?_)
      · rw [everyStep_of_none (h.canonicalBlock_of_wrapped hn (.inl hsame))] at hresult
        have hat : s.getBlock (.number number) = s.getBlockAt x (asUintN64 number) :=
          getBlockByNumber_of_index hindex
        cases hget : s.getBlockAt x (asUintN64 number) with
        | ok block =>
          obtain ⟨rest, hrest⟩ := getBlocks_first (hat.trans hget) hresult
          cases hrest
        | error e =>
          obtain ⟨message, rfl⟩ := getBlockAt_error hget
          exact getBlocks_error (hat.trans hget) hresult
      · exact hsame (hanswerable _ hfound).2.1.symm

/-- A start by hash. -/
theorem Canonical.getBlocks_hash (hfuel : n + 1 < fuel) (blockHash : Hash)
    (maxBlocks skip : Nat) (reverse : Bool) :
    s.getBlocks fuel (.hash blockHash) maxBlocks skip reverse =
        some (.ok (s.requestedBlocks (.hash blockHash) maxBlocks skip reverse)) ↔
      s.Answerable (.hash blockHash) maxBlocks skip reverse := by
  cases hnumber : s.db.hashToNumber.get blockHash with
  | none =>
    have hrequested : s.requestedBlocks (.hash blockHash) maxBlocks skip reverse = [] := by
      simp [requestedBlocks, startNumber, hnumber]
    have hget : s.getBlock (.hash blockHash) = .error (.notFoundInDB "value not found in DB") := by
      simp [getBlock, getBlockByHash, hashToNumber, hnumber, bind, Except.bind]
    rw [hrequested]
    exact iff_of_true (getBlocks_notFound hget (by omega)) (fun m hm => by cases hnumber.symm.trans hm)
  | some number =>
    have hrequested : s.requestedBlocks (.hash blockHash) maxBlocks skip reverse =
        s.everyStep (direction reverse * (skip + 1)) maxBlocks number := by
      simp [requestedBlocks, startNumber, hnumber]
    have hat : s.getBlock (.hash blockHash) = s.getBlockAt blockHash number := by
      simp [getBlock, getBlockByHash, hashToNumber, hnumber, bind, Except.bind]
    rw [hrequested]
    by_cases hcanonical : s.index number = some blockHash
    · have hle := h.chain.le_of_some hcanonical
      have hsame : s.getBlock (.hash blockHash) = s.getBlock (.number number) := by
        refine hat.trans ((getBlockByNumber_of_index hcanonical).symm.trans ?_)
        exact (congrArg s.getBlockByNumber (asUintN64_natCast (by omega))).symm
      rw [getBlocks_congr hsame]
      refine (h.getBlocks_inside hn hle hfuel maxBlocks skip reverse).trans ⟨?_, ?_⟩
      · rintro ⟨hpos, hread⟩ m hm
        obtain rfl := some.inj (hnumber.symm.trans hm)
        exact ⟨hpos, hcanonical, hread⟩
      · intro hanswerable
        obtain ⟨hpos, -, hread⟩ := hanswerable number hnumber
        exact ⟨hpos, hread⟩
    · -- the block that is found is of another branch
      refine iff_of_false (fun hresult => ?_) (fun hanswerable =>
        hcanonical (hanswerable number hnumber).2.1)
      cases hget : s.getBlockAt blockHash number with
      | error e =>
        obtain ⟨message, rfl⟩ := getBlockAt_error hget
        exact getBlocks_error (hat.trans hget) hresult
      | ok block =>
        obtain ⟨rest, hrest⟩ := getBlocks_first (hat.trans hget) hresult
        have hhash : opts.hash block.header = blockHash := (h.headers _ _ _ (getBlockAt_ok hget)).hash
        cases maxBlocks with
        | zero => cases hrest
        | succ maxBlocks =>
          cases hblock : s.canonicalBlock number with
          | none => simp [everyStep, hblock] at hrest
          | some block' =>
            simp only [everyStep, hblock] at hrest
            obtain ⟨rfl, -⟩ := List.cons.inj hrest
            exact hcanonical (hhash ▸ h.canonicalBlock_ok hblock)

end Answers

section Sample

/-- The chain with the blocks `11`, `12` and `13`, and `21` beside it. -/
def sampleFetched : Blockchain Nat := sampleAfter (sampleIterated 13)

theorem sampleFetched_canonical :
    ∃ n < 4, Canonical sampleOptions sampleTree sampleGenesis.header sampleFetched n := by
  obtain ⟨hist, hrun⟩ := exists_run_iterated 13
  obtain ⟨n, hn⟩ := (hrun.invariant sampleTree_forkTree).canonical
  refine ⟨n, Nat.lt_of_not_le fun hle => ?_, hn⟩
  have hnone : (sampleFetched.index 4).isSome = false := by decide +kernel
  exact nomatch ((hn.chain.isSome_iff 4).mpr hle).symm.trans hnone

end Sample

end Blockchain
