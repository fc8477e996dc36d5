-- SUMMARY: The hardforks of a geth genesis file, and when they come out in order.
import TsEthereum.Base.StableSort
import TsEthereum.ChainConfig.ActiveHardfork
import Mathlib.Data.Prod.Lex

/-!
# Geth genesis files

The hardforks that `parseGethParams` reads from a geth genesis file. The fields of the
genesis block and of the consensus, which are copied or padded, are left out. Block
numbers and timestamps in a file are not negative.
-/

open List Option Prod

namespace GethGenesis

structure BlobSchedule where
  target : Option Nat
  max : Option Nat
  baseFeeUpdateFraction : Option Nat

structure Config where
  /-- The number in a field of `config`, where there is one. -/
  field : String → Option Nat
  terminalTotalDifficultyPassed : Bool
  blobSchedule : Option (List (String × BlobSchedule))

structure ConfigHardfork where
  name : Hardfork
  block : Option Nat
  timestamp : Option Nat
  deriving DecidableEq, Repr

structure Params where
  hardfork : Option Hardfork
  hardforks : List ConfigHardfork

/-- The errors of a blob schedule. -/
def checkBlobSchedule : List (String × BlobSchedule) → Except String Unit
  | [] => .ok ()
  | (hfKey, hfSchedule) :: rest =>
    if HARDFORK_ORDER.all fun hf => hf.text ≠ hfKey then
      .error ("unknown hardfork=" ++ hfKey ++ " specified in blobSchedule")
    else if hfSchedule.target = none ∨ hfSchedule.max = none ∨
        hfSchedule.baseFeeUpdateFraction = none then
      .error ("undefined target, max or baseFeeUpdateFraction specified in blobSchedule for " ++
        "hardfork=" ++ hfKey)
    else checkBlobSchedule rest

structure Fork where
  hardfork : Hardfork
  name : String
  isTimestamp : Bool

def blockForks : List Fork :=
  [⟨.Homestead, "homesteadBlock", false⟩, ⟨.Dao, "daoForkBlock", false⟩,
    ⟨.TangerineWhistle, "eip150Block", false⟩, ⟨.SpuriousDragon, "eip155Block", false⟩,
    ⟨.Byzantium, "byzantiumBlock", false⟩, ⟨.Constantinople, "constantinopleBlock", false⟩,
    ⟨.Petersburg, "petersburgBlock", false⟩, ⟨.Istanbul, "istanbulBlock", false⟩,
    ⟨.MuirGlacier, "muirGlacierBlock", false⟩, ⟨.Berlin, "berlinBlock", false⟩,
    ⟨.London, "londonBlock", false⟩, ⟨.ArrowGlacier, "arrowGlacierBlock", false⟩,
    ⟨.GrayGlacier, "grayGlacierBlock", false⟩]

def mergeForks : List Fork :=
  [⟨.Paris, "mergeForkBlock", false⟩, ⟨.MergeNetsplitBlock, "mergeNetsplitBlock", false⟩]

def timeForks : List Fork :=
  [⟨.Shanghai, "shanghaiTime", true⟩, ⟨.Cancun, "cancunTime", true⟩,
    ⟨.Prague, "pragueTime", true⟩, ⟨.Osaka, "osakaTime", true⟩, ⟨.Bpo1, "bpo1Time", true⟩,
    ⟨.Bpo2, "bpo2Time", true⟩, ⟨.Bpo3, "bpo3Time", true⟩, ⟨.Bpo4, "bpo4Time", true⟩,
    ⟨.Bpo5, "bpo5Time", true⟩]

def forkMap : List Fork := blockForks ++ mergeForks ++ timeForks

/-- The entry of a fork that the file configures. -/
def Config.entry (config : Config) (fork : Fork) : Option ConfigHardfork :=
  (config.field fork.name).map fun configValue =>
    if fork.isTimestamp then ⟨fork.hardfork, none, some configValue⟩
    else ⟨fork.hardfork, some configValue, none⟩

/-- `splice(start, 0, item)`. -/
def splice (hardforks : List ConfigHardfork) (start : Nat) (item : ConfigHardfork) :
    List ConfigHardfork :=
  hardforks.take start ++ item :: hardforks.drop start

/-- A fork at the block of the entry with an index. -/
def atBlockOf (name : Hardfork) (hardforks : List ConfigHardfork) (index : Nat) : ConfigHardfork :=
  ⟨name, hardforks[index]?.bind ConfigHardfork.block, none⟩

/-- The forks of the merge that the file does not have. -/
def addMerge (terminalTotalDifficultyPassed : Bool) (hardforks : List ConfigHardfork) :
    List ConfigHardfork :=
  let mergeIndex := hardforks.findIdx? (·.name = .Paris)
  let mergeNetsplitBlockIndex := hardforks.findIdx? (·.name = .MergeNetsplitBlock)
  let firstPostMergeHFIndex := hardforks.findIdx? (·.timestamp.isSome)
  let (hardforks, mergeNetsplitBlockIndex) :=
    match mergeIndex, mergeNetsplitBlockIndex with
    | some mergeIndex, none =>
      (splice hardforks (mergeIndex + 1) (atBlockOf .MergeNetsplitBlock hardforks mergeIndex),
        some (mergeIndex + 1))
    | _, _ => (hardforks, mergeNetsplitBlockIndex)
  match firstPostMergeHFIndex with
  | some firstPostMergeHFIndex =>
    let (hardforks, mergeNetsplitBlockIndex) :=
      match mergeNetsplitBlockIndex with
      | none => (splice hardforks firstPostMergeHFIndex ⟨.MergeNetsplitBlock, some 0, none⟩,
          firstPostMergeHFIndex)
      | some mergeNetsplitBlockIndex => (hardforks, mergeNetsplitBlockIndex)
    if mergeIndex = none then
      splice hardforks mergeNetsplitBlockIndex (atBlockOf .Paris hardforks mergeNetsplitBlockIndex)
    else hardforks
  | none =>
    if terminalTotalDifficultyPassed then
      let hardforks := if mergeIndex = none then hardforks ++ [⟨.Paris, some 0, none⟩] else hardforks
      if mergeNetsplitBlockIndex = none then hardforks ++ [⟨.MergeNetsplitBlock, some 0, none⟩]
      else hardforks
    else hardforks

/-- The first comparison is not positive; two forks without a block compare as NaN, which
counts as 0. -/
def blockLe (a b : ConfigHardfork) : Bool :=
  match a.block, b.block with
  | _, none => true
  | none, some _ => false
  | some a, some b => decide (a ≤ b)

/-- The second comparison is not positive. -/
def timestampLe (a b : ConfigHardfork) : Bool := decide (a.timestamp.getD 0 ≤ b.timestamp.getD 0)

/-- A fork at the time of the genesis block starts at 0. -/
def ConfigHardfork.fromGenesis (genesisTimestamp : Nat) (hf : ConfigHardfork) : ConfigHardfork :=
  if hf.timestamp = some genesisTimestamp then { hf with timestamp := some 0 } else hf

/-- The hardforks after both sorts. -/
def sorted (config : Config) : List ConfigHardfork :=
  ((addMerge config.terminalTotalDifficultyPassed (forkMap.filterMap config.entry)).mergeSort
    blockLe).mergeSort timestampLe

def parseGethParams (config : Config) (genesisTimestamp : Nat) : Except String Params :=
  if config.field "eip155Block" ≠ config.field "eip158Block" then
    .error ("EIP155 block number must equal EIP 158 block number since both are part of " ++
      "SpuriousDragon hardfork and the client only supports activating the full hardfork")
  else do
    checkBlobSchedule (config.blobSchedule.getD [])
    let hardforks := (sorted config).map (·.fromGenesis genesisTimestamp)
    return ⟨hardforks.getLast?.map (·.name), ⟨.Chainstart, some 0, none⟩ :: hardforks⟩

/-! ## Specification -/

/-- The position in the fork order, that of `forkMap` behind the chain start. -/
def position (name : Hardfork) : Nat := (Hardfork.Chainstart :: forkMap.map (·.hardfork)).idxOf name

/-- Block numbers before timestamps, then by when the fork starts, then by the fork order. -/
def ConfigHardfork.start (hf : ConfigHardfork) : ℕ ×ₗ ℕ ×ₗ ℕ :=
  match hf.timestamp with
  | none => toLex (0, toLex (hf.block.getD 0, position hf.name))
  | some timestamp => toLex (1, toLex (timestamp, position hf.name))

/-- The entry of the chain configuration. -/
def ConfigHardfork.transition (hf : ConfigHardfork) : HardforkSelection.HardforkTransitionConfig :=
  ⟨.known hf.name, hf.block.map Nat.cast, hf.timestamp.map fun timestamp => ⟨none, timestamp⟩⟩

/-- The hardforks that a file asks for, in order. -/
structure Scheduled (config : Config) (genesisTimestamp : Nat) (hardforks : List ConfigHardfork) :
    Prop where
  chainstart : hardforks.head? = some ⟨.Chainstart, some 0, none⟩
  configured : ∀ fork ∈ forkMap, ∀ hf, config.entry fork = some hf →
    (hardforks.filter fun other => other.name = fork.hardfork) = [hf.fromGenesis genesisTimestamp]
  ordered : hardforks.Pairwise fun a b => a.start < b.start
  /-- Where there is a fork with a timestamp, the two of the merge come before it. -/
  merge : (∃ hf ∈ hardforks, hf.timestamp.isSome) →
    [.Paris, .MergeNetsplitBlock].Sublist
      ((hardforks.takeWhile fun hf => hf.timestamp.isNone).map (·.name))
  /-- The order that `getHardforkBy` needs. -/
  relied : HardforkSelection.Ordered (hardforks.map (·.transition))

/-- The timestamp of a fork that has one. -/
def Config.time (config : Config) (fork : Fork) : Option Nat :=
  (config.entry fork).bind ConfigHardfork.timestamp

/-- The condition under which the hardforks come out in order. -/
structure Orderly (config : Config) (genesisTimestamp : Nat) : Prop where
  /-- A fork before the genesis block starts at 0, and the forks of the genesis block follow. -/
  times : ∀ early ∈ timeForks, ∀ late ∈ timeForks, ∀ t, config.time early = some t →
    t < genesisTimestamp → config.time late = some genesisTimestamp →
      t = 0 ∧ position early.hardfork < position late.hardfork
  merge : ∀ p n, config.field "mergeForkBlock" = some p →
    config.field "mergeNetsplitBlock" = some n → (∃ fork ∈ timeForks, (config.time fork).isSome) →
      p ≤ n
  passed : (∀ fork ∈ timeForks, config.time fork = none) →
    config.terminalTotalDifficultyPassed = true → config.field "mergeForkBlock" = none →
      config.field "mergeNetsplitBlock" ≠ some 0

/-! ## The list before the sorts -/

section Before

variable (config : Config)

/-- The forks of the merge, as they are inserted. -/
def mergeEntries (p n : Option Nat) (passed timed : Bool) : List ConfigHardfork :=
  match p, n with
  | some p, n => [⟨.Paris, some p, none⟩, ⟨.MergeNetsplitBlock, some (n.getD p), none⟩]
  | none, some n =>
    if timed then [⟨.Paris, some n, none⟩, ⟨.MergeNetsplitBlock, some n, none⟩]
    else ⟨.MergeNetsplitBlock, some n, none⟩ :: if passed then [⟨.Paris, some 0, none⟩] else []
  | none, none =>
    if timed || passed then [⟨.Paris, some 0, none⟩, ⟨.MergeNetsplitBlock, some 0, none⟩] else []

/-- The entries of forks. -/
def entries (forks : List Fork) : List ConfigHardfork := forks.filterMap config.entry

variable {hf : ConfigHardfork}

theorem mem_entries {forks : List Fork} :
    hf ∈ entries config forks ↔ ∃ fork ∈ forks, config.entry fork = some hf :=
  mem_filterMap

/-- An entry has the name of its fork, and a block or a timestamp. -/
theorem entry_eq {fork : Fork} (h : config.entry fork = some hf) :
    hf.name = fork.hardfork ∧ hf.timestamp.isSome = fork.isTimestamp ∧
      hf.block.isSome = !fork.isTimestamp := by
  obtain ⟨v, -, rfl⟩ := map_eq_some_iff.mp h
  cases fork.isTimestamp <;> exact ⟨rfl, rfl, rfl⟩

/-- A block fork before the merge. -/
def Early (hf : ConfigHardfork) : Prop :=
  hf.timestamp = none ∧ hf.block.isSome ∧ 0 < position hf.name ∧ position hf.name < 14

/-- A fork with a timestamp. -/
def Late (hf : ConfigHardfork) : Prop :=
  hf.timestamp.isSome ∧ hf.block = none ∧ 15 < position hf.name

theorem early_of_mem (h : hf ∈ entries config blockForks) : Early hf := by
  obtain ⟨fork, hfork, hentry⟩ := (mem_entries config).mp h
  obtain ⟨hname, htime, hblock⟩ := entry_eq config hentry
  have hall : ∀ fork ∈ blockForks, fork.isTimestamp = false ∧ 0 < position fork.hardfork ∧
      position fork.hardfork < 14 := by decide
  obtain ⟨hkind, hposition⟩ := hall fork hfork
  rw [hkind] at htime hblock
  exact ⟨Option.not_isSome_iff_eq_none.mp (by simp [htime]), hblock, hname ▸ hposition⟩

theorem late_of_mem (h : hf ∈ entries config timeForks) : Late hf := by
  obtain ⟨fork, hfork, hentry⟩ := (mem_entries config).mp h
  obtain ⟨hname, htime, hblock⟩ := entry_eq config hentry
  have hall : ∀ fork ∈ timeForks, fork.isTimestamp = true ∧ 15 < position fork.hardfork := by
    decide
  obtain ⟨hkind, hposition⟩ := hall fork hfork
  rw [hkind] at htime hblock
  exact ⟨htime, Option.not_isSome_iff_eq_none.mp (by simp [hblock]), hname ▸ hposition⟩

theorem Early.not_merge (h : Early hf) : hf.name ≠ .Paris ∧ hf.name ≠ .MergeNetsplitBlock := by
  constructor <;> intro hname <;> exact absurd (hname ▸ h.2.2.2) (by decide)

theorem Late.not_merge (h : Late hf) : hf.name ≠ .Paris ∧ hf.name ≠ .MergeNetsplitBlock := by
  constructor <;> intro hname <;> exact absurd (hname ▸ h.2.2) (by decide)

theorem findIdx?_append_of_not {pre : List ConfigHardfork} {q : ConfigHardfork → Bool}
    (h : ∀ hf ∈ pre, q hf = false) (rest : List ConfigHardfork) :
    (pre ++ rest).findIdx? q = (rest.findIdx? q).map (· + pre.length) := by
  rw [findIdx?_append, List.findIdx?_eq_none_iff.mpr h, none_or]

theorem splice_append (pre rest : List ConfigHardfork) (k : Nat) (item : ConfigHardfork) :
    splice (pre ++ rest) (k + pre.length) item = pre ++ splice rest k item := by
  simp [splice, Nat.add_comm k, take_length_add_append, drop_length_add_append]

theorem atBlockOf_append (name : Hardfork) (pre rest : List ConfigHardfork) (k : Nat) :
    atBlockOf name (pre ++ rest) (k + pre.length) = atBlockOf name rest k := by
  simp [atBlockOf, getElem?_append_right]

/-- The insertions do not look at the forks before the merge. -/
theorem addMerge_append (passed : Bool) {pre : List ConfigHardfork} (hpre : ∀ hf ∈ pre, Early hf)
    (rest : List ConfigHardfork) : addMerge passed (pre ++ rest) = pre ++ addMerge passed rest := by
  have hparis := @findIdx?_append_of_not pre (fun hf => decide (hf.name = .Paris))
    (fun hf h => decide_eq_false (hpre hf h).not_merge.1) rest
  have hnetsplit := @findIdx?_append_of_not pre (fun hf => decide (hf.name = .MergeNetsplitBlock))
    (fun hf h => decide_eq_false (hpre hf h).not_merge.2) rest
  have htime := @findIdx?_append_of_not pre (fun hf => hf.timestamp.isSome)
    (fun hf h => by rw [(hpre hf h).1]; rfl) rest
  unfold addMerge
  rw [hparis, hnetsplit, htime]
  cases rest.findIdx? fun hf => decide (hf.name = .Paris) <;>
    cases rest.findIdx? fun hf => decide (hf.name = .MergeNetsplitBlock) <;>
    cases rest.findIdx? (fun hf => hf.timestamp.isSome) <;>
    simp only [map_some, map_none, Nat.add_right_comm _ pre.length 1, splice_append,
      atBlockOf_append, reduceCtorEq, if_true, if_false] <;>
    first | rfl | (split <;> simp only [append_assoc])

theorem addMerge_rest (passed : Bool) (p n : Option Nat) {post : List ConfigHardfork}
    (hpost : ∀ hf ∈ post, Late hf) :
    addMerge passed (((p.map fun v => ⟨.Paris, some v, none⟩).toList ++
      (n.map fun v => ⟨.MergeNetsplitBlock, some v, none⟩).toList) ++ post) =
        mergeEntries p n passed (!post.isEmpty) ++ post := by
  have hparis : post.findIdx? (fun hf => decide (hf.name = .Paris)) = none :=
    List.findIdx?_eq_none_iff.mpr fun hf h => decide_eq_false (hpost hf h).not_merge.1
  have hnetsplit : post.findIdx? (fun hf => decide (hf.name = .MergeNetsplitBlock)) = none :=
    List.findIdx?_eq_none_iff.mpr fun hf h => decide_eq_false (hpost hf h).not_merge.2
  have htime : post.findIdx? (fun hf => hf.timestamp.isSome) =
      if post.isEmpty then none else some 0 := by
    cases post with
    | nil => rfl
    | cons hf post => rw [findIdx?_cons, (hpost hf mem_cons_self).1]; rfl
  cases p <;> cases n <;> cases hempty : post.isEmpty <;> cases passed <;>
    simp [addMerge, mergeEntries, findIdx?_cons, hparis, hnetsplit, htime, hempty, splice,
      atBlockOf]
  all_goals
    rw [List.isEmpty_iff.mp hempty]
    rfl

def merged : List ConfigHardfork :=
  mergeEntries (config.field "mergeForkBlock") (config.field "mergeNetsplitBlock")
    config.terminalTotalDifficultyPassed (!(entries config timeForks).isEmpty)

/-- The hardforks that are sorted. -/
def unsorted : List ConfigHardfork :=
  entries config blockForks ++ (merged config ++ entries config timeForks)

theorem addMerge_eq :
    addMerge config.terminalTotalDifficultyPassed (forkMap.filterMap config.entry) =
      unsorted config := by
  have hmerge : mergeForks.filterMap config.entry =
      ((config.field "mergeForkBlock").map fun v => ⟨.Paris, some v, none⟩).toList ++
        ((config.field "mergeNetsplitBlock").map fun v =>
          ⟨.MergeNetsplitBlock, some v, none⟩).toList := by
    unfold mergeForks
    cases hp : config.field "mergeForkBlock" <;> cases hn : config.field "mergeNetsplitBlock" <;>
      simp [Config.entry, hp, hn]
  have hpre : ∀ hf ∈ entries config blockForks, Early hf := fun _ => early_of_mem config
  have hpost : ∀ hf ∈ entries config timeForks, Late hf := fun _ => late_of_mem config
  rw [forkMap, append_assoc, filterMap_append, filterMap_append, hmerge]
  exact (addMerge_append _ hpre _).trans (congrArg _ (addMerge_rest _ _ _ hpost))

theorem mem_merged (h : hf ∈ merged config) :
    hf.timestamp = none ∧ hf.block.isSome ∧ (hf.name = .Paris ∨ hf.name = .MergeNetsplitBlock) := by
  unfold merged mergeEntries at h
  split at h <;> (try split at h) <;> (try split at h) <;> grind

/-- A relation that the fork order implies, where no fork of the merge is concerned. -/
theorem pairwise_unsorted {Q : ConfigHardfork → ConfigHardfork → Prop}
    (hQ : ∀ a b, position a.name < position b.name → Early a ∨ Late b → Q a b)
    (hmerged : (merged config).Pairwise Q) : (unsorted config).Pairwise Q := by
  have hentries {forks : List Fork}
      (h : forks.Pairwise fun a b => position a.hardfork < position b.hardfork) :
      (entries config forks).Pairwise fun a b => position a.name < position b.name := by
    refine List.Pairwise.filterMap _ (fun a b hab x hx y hy => ?_) h
    rw [(entry_eq config hx).1, (entry_eq config hy).1]
    exact hab
  have hmiddle {hf : ConfigHardfork} (h : hf ∈ merged config) :
      14 ≤ position hf.name ∧ position hf.name ≤ 15 := by
    rcases (mem_merged config h).2.2 with h | h <;> rw [h] <;> decide
  have hpre : (entries config blockForks).Pairwise Q :=
    (hentries (by decide)).imp_of_mem fun ha _ h => hQ _ _ h (.inl (early_of_mem config ha))
  have hpost : (entries config timeForks).Pairwise Q :=
    (hentries (by decide)).imp_of_mem fun _ hb h => hQ _ _ h (.inr (late_of_mem config hb))
  refine pairwise_append.mpr ⟨hpre, pairwise_append.mpr ⟨hmerged, hpost, ?_⟩, ?_⟩
  · intro a ha b hb
    have hlate := late_of_mem config hb
    exact hQ a b (lt_of_le_of_lt (hmiddle ha).2 hlate.2.2) (.inr hlate)
  · intro a ha b hb
    have hearly := early_of_mem config ha
    refine hQ a b ?_ (.inl hearly)
    rcases mem_append.mp hb with hb | hb
    · exact hearly.2.2.2.trans_le (hmiddle hb).1
    · exact (hearly.2.2.2.trans (by decide)).trans (late_of_mem config hb).2.2

theorem unsorted_names : (unsorted config).Pairwise fun a b => a.name ≠ b.name := by
  refine pairwise_unsorted config (fun a b h _ hname => absurd (hname ▸ h) (lt_irrefl _)) ?_
  unfold merged mergeEntries
  split <;> (try split) <;> (try split) <;> simp

end Before

/-! ## Sorting -/

theorem blockLe_trans (a b c : ConfigHardfork) (hab : blockLe a b = true) (hbc : blockLe b c = true) :
    blockLe a c = true := by
  rcases a with ⟨_, _ | a, _⟩ <;> rcases b with ⟨_, _ | b, _⟩ <;> rcases c with ⟨_, _ | c, _⟩ <;>
    simp [blockLe] at hab hbc ⊢
  exact hab.trans hbc

theorem blockLe_total (a b : ConfigHardfork) : (blockLe a b || blockLe b a) = true := by
  unfold blockLe
  cases a.block <;> cases b.block <;> simp
  omega

theorem mem_sorted {config : Config} {hf : ConfigHardfork} :
    hf ∈ sorted config ↔ hf ∈ unsorted config := by
  rw [sorted, addMerge_eq, mem_mergeSort, mem_mergeSort]

/-- Both sorts are stable: the order is by timestamp, then by block, then the old one. -/
theorem pairwise_sorted {config : Config} {Q : ConfigHardfork → ConfigHardfork → Prop}
    (h : (unsorted config).Pairwise Q) :
    (sorted config).Pairwise (StableSort.Refined timestampLe (StableSort.Refined blockLe Q)) := by
  rw [sorted, addMerge_eq]
  refine StableSort.pairwise_mergeSort (fun a b c hab hbc => ?_) (fun a b => ?_)
    (StableSort.pairwise_mergeSort blockLe_trans blockLe_total h)
  · exact decide_eq_true ((of_decide_eq_true hab).trans (of_decide_eq_true hbc))
  · simpa [timestampLe] using Nat.le_total _ _

/-- The order of two entries that are equal for both sorts. -/
def Ties (a b : ConfigHardfork) : Prop := a.block = b.block → position a.name < position b.name

/-- An entry has either a block or a timestamp. -/
def Shaped (hf : ConfigHardfork) : Prop := hf.block.isSome = !hf.timestamp.isSome

theorem shaped_of_mem {config : Config} {hf : ConfigHardfork} (h : hf ∈ sorted config) :
    Shaped hf := by
  unfold Shaped
  rcases mem_append.mp (mem_sorted.mp h) with h | h
  · obtain ⟨htime, hblock, -⟩ := early_of_mem config h
    rw [htime, hblock]
    rfl
  · rcases mem_append.mp h with h | h
    · obtain ⟨htime, hblock, -⟩ := mem_merged config h
      rw [htime, hblock]
      rfl
    · obtain ⟨htime, hblock, -⟩ := late_of_mem config h
      rw [htime, hblock]
      rfl

theorem start_lt {a b : ConfigHardfork} (ha : Shaped a) (hb : Shaped b)
    (h : StableSort.Refined timestampLe (StableSort.Refined blockLe Ties) a b) :
    a.start < b.start := by
  rcases a with ⟨_, _ | x, _ | s⟩ <;> rcases b with ⟨_, _ | y, _ | t⟩ <;>
    simp [Shaped] at ha hb <;>
    simp [StableSort.Refined, timestampLe, blockLe, Ties, ConfigHardfork.start,
      Lex.toLex_lt_toLex] at h ⊢ <;> omega

/-! ## The result -/

section Result

variable {config : Config} {genesisTimestamp : Nat}

variable {fork : Fork}

theorem time_eq (h : fork ∈ timeForks) : config.time fork = config.field fork.name := by
  have hkind : ∀ fork ∈ timeForks, fork.isTimestamp = true := by decide
  unfold Config.time Config.entry
  cases config.field fork.name <;> simp [hkind fork h]

theorem isEmpty_entries :
    (entries config timeForks).isEmpty = true ↔ ∀ fork ∈ timeForks, config.time fork = none := by
  rw [List.isEmpty_iff, entries, filterMap_eq_nil_iff]
  refine forall₂_congr fun fork hfork => ?_
  rw [time_eq hfork, Config.entry, map_eq_none_iff]

variable {hf : ConfigHardfork}

/-- An entry with a timestamp comes from a fork with one. -/
theorem exists_time {t : Nat} (h : hf ∈ sorted config) (ht : hf.timestamp = some t) :
    ∃ fork ∈ timeForks, config.entry fork = some hf ∧ hf.name = fork.hardfork ∧
      config.time fork = some t := by
  rcases mem_append.mp (mem_sorted.mp h) with h | h
  · rw [(early_of_mem config h).1] at ht
    cases ht
  · rcases mem_append.mp h with h | h
    · rw [(mem_merged config h).1] at ht
      cases ht
    · obtain ⟨fork, hfork, hentry⟩ := (mem_entries config).mp h
      refine ⟨fork, hfork, hentry, (entry_eq config hentry).1, ?_⟩
      rw [Config.time, hentry, bind_some, ht]

@[simp] theorem fromGenesis_name (hf : ConfigHardfork) :
    (hf.fromGenesis genesisTimestamp).name = hf.name := by
  unfold ConfigHardfork.fromGenesis
  split <;> rfl

theorem fromGenesis_of_none {hf : ConfigHardfork} (h : hf.timestamp = none) :
    hf.fromGenesis genesisTimestamp = hf := by
  rw [ConfigHardfork.fromGenesis, if_neg (by rw [h]; exact nofun)]

theorem fromGenesis_isNone (hf : ConfigHardfork) :
    (hf.fromGenesis genesisTimestamp).timestamp.isNone = hf.timestamp.isNone := by
  unfold ConfigHardfork.fromGenesis
  split
  · rename_i h
    rw [h]
    rfl
  · rfl

/-- The start of a fork with a timestamp in the result. -/
theorem start_fromGenesis {t : Nat} (h : hf.timestamp = some t) :
    (hf.fromGenesis genesisTimestamp).start =
      toLex (1, toLex (if t = genesisTimestamp then 0 else t, position hf.name)) := by
  obtain ⟨name, block, timestamp⟩ := hf
  obtain rfl : timestamp = some t := h
  unfold ConfigHardfork.fromGenesis
  by_cases hgenesis : t = genesisTimestamp
  · subst hgenesis
    simp [ConfigHardfork.start]
  · simp [ConfigHardfork.start, hgenesis]

theorem start_of_none (h : hf.timestamp = none) :
    hf.start = toLex (0, toLex (hf.block.getD 0, position hf.name)) := by
  rw [ConfigHardfork.start, h]

/-- Every configured fork is among those that are sorted. -/
theorem mem_of_configured (hfork : fork ∈ forkMap) (h : config.entry fork = some hf) :
    hf ∈ sorted config := by
  refine mem_sorted.mpr ?_
  rcases mem_append.mp hfork with hfork | hfork
  · rcases mem_append.mp hfork with hfork | hfork
    · exact mem_append_left _ ((mem_entries config).mpr ⟨fork, hfork, h⟩)
    · refine mem_append_right _ (mem_append_left _ ?_)
      obtain ⟨v, hv, rfl⟩ := map_eq_some_iff.mp h
      simp only [mergeForks, mem_cons, not_mem_nil, or_false] at hfork
      rcases hfork with rfl | rfl
      · simp [merged, mergeEntries, show config.field "mergeForkBlock" = some v from hv]
      · rw [merged, show config.field "mergeNetsplitBlock" = some v from hv]
        unfold mergeEntries
        split <;> (try split) <;> simp_all
  · exact mem_append_right _ (mem_append_right _ ((mem_entries config).mpr ⟨fork, hfork, h⟩))

variable {l : List ConfigHardfork}

theorem filter_name (h : l.Pairwise fun a b => a.name ≠ b.name) (hmem : hf ∈ l) :
    (l.filter fun other => other.name = hf.name) = [hf] := by
  induction l with
  | nil => cases hmem
  | cons a l ih =>
    obtain ⟨ha, hl⟩ := pairwise_cons.mp h
    rcases mem_cons.mp hmem with rfl | hmem
    · rw [filter_cons_of_pos (by simp)]
      refine congrArg _ (filter_eq_nil_iff.mpr fun b hb => ?_)
      simpa using (ha b hb).symm
    · rw [filter_cons_of_neg (by simpa using ha hf hmem), ih hl hmem]

theorem configured_result (hfork : fork ∈ forkMap) (h : config.entry fork = some hf) :
    ((⟨.Chainstart, some 0, none⟩ ::
      (sorted config).map (·.fromGenesis genesisTimestamp)).filter fun other =>
        other.name = fork.hardfork) = [hf.fromGenesis genesisTimestamp] := by
  have hstart : ∀ fork ∈ forkMap, Hardfork.Chainstart ≠ fork.hardfork := by decide
  have hperm : (sorted config).Perm (unsorted config) := by
    rw [sorted, addMerge_eq]
    exact (List.mergeSort_perm _ _).trans (List.mergeSort_perm _ _)
  have hnames : (sorted config).Pairwise fun a b => a.name ≠ b.name :=
    (hperm.pairwise_iff fun h => Ne.symm h).mpr (unsorted_names config)
  rw [List.filter_cons_of_neg (by simpa using hstart fork hfork), List.filter_map]
  simp only [Function.comp_def, fromGenesis_name]
  rw [← (entry_eq config h).1, filter_name hnames (mem_of_configured hfork h)]
  rfl

/-- Two different entries of an ordered list stand in one of the two orders. -/
theorem pairwise_or {R : ConfigHardfork → ConfigHardfork → Prop} (h : l.Pairwise R)
    {a b : ConfigHardfork} (ha : a ∈ l) (hb : b ∈ l) (hne : a ≠ b) : R a b ∨ R b a :=
  have : Std.Symm fun a b => R a b ∨ R b a := ⟨fun _ _ => Or.symm⟩
  (h.imp (S := fun a b => R a b ∨ R b a) Or.inl).forall ha hb hne

/-- In a list in order, the forks without a timestamp are the first ones. -/
theorem takeWhile_eq_filter (h : l.Pairwise fun a b => a.start < b.start) :
    (l.takeWhile fun hf => hf.timestamp.isNone) = l.filter fun hf => hf.timestamp.isNone := by
  induction l with
  | nil => rfl
  | cons a l ih =>
    obtain ⟨ha, hl⟩ := pairwise_cons.mp h
    cases htime : a.timestamp with
    | none => rw [takeWhile_cons_of_pos (by simp [htime]),
        filter_cons_of_pos (by simp [htime]), ih hl]
    | some t =>
      rw [takeWhile_cons_of_neg (by simp [htime]), filter_cons_of_neg (by simp [htime])]
      refine (filter_eq_nil_iff.mpr fun b hb hnone => ?_).symm
      have hlt := ha b hb
      rw [start_of_none (isNone_iff_eq_none.mp hnone), ConfigHardfork.start, htime] at hlt
      simp [Lex.toLex_lt_toLex] at hlt

theorem Orderly.ties (h : Orderly config genesisTimestamp) : (unsorted config).Pairwise Ties := by
  refine pairwise_unsorted config (fun a b h _ _ => h) ?_
  have hbefore : position .Paris < position .MergeNetsplitBlock := by decide
  unfold merged
  cases hp : config.field "mergeForkBlock" <;> cases hn : config.field "mergeNetsplitBlock" <;>
    cases htimed : (entries config timeForks).isEmpty <;>
    cases hpassed : config.terminalTotalDifficultyPassed <;>
    simp [mergeEntries, Ties, hbefore]
  -- Paris is appended behind MergeNetsplitBlock
  rintro rfl
  exact absurd hn (h.passed (isEmpty_entries.mp htimed) hpassed hp)

theorem Orderly.fromGenesis_lt (h : Orderly config genesisTimestamp) {a b : ConfigHardfork}
    (ha : a ∈ sorted config) (hb : b ∈ sorted config) (hlt : a.start < b.start) :
    (a.fromGenesis genesisTimestamp).start < (b.fromGenesis genesisTimestamp).start := by
  cases hs : a.timestamp with
  | none =>
    rw [fromGenesis_of_none hs]
    cases ht : b.timestamp with
    | none => rwa [fromGenesis_of_none ht]
    | some t =>
      rw [start_fromGenesis ht, start_of_none hs]
      exact Lex.toLex_lt_toLex.mpr (.inl Nat.zero_lt_one)
  | some s =>
    cases ht : b.timestamp with
    | none =>
      rw [start_of_none ht, ConfigHardfork.start, hs] at hlt
      simp [Lex.toLex_lt_toLex] at hlt
    | some t =>
      rw [start_fromGenesis hs, start_fromGenesis ht]
      rw [ConfigHardfork.start, ConfigHardfork.start, hs, ht] at hlt
      simp only [Lex.toLex_lt_toLex, lt_irrefl, false_or, true_and] at hlt ⊢
      obtain ⟨early, hearly, -, hname, hs'⟩ := exists_time ha hs
      obtain ⟨late, hlate, -, hname', ht'⟩ := exists_time hb ht
      by_cases hgenesis : t = genesisTimestamp
      · subst hgenesis
        have htimes := h.times early hearly late hlate s hs'
        rw [← hname, ← hname'] at htimes
        split <;> grind
      · split <;> grind

/-- The order of the starts is the one that `getHardforkBy` needs. -/
theorem ordered_of_starts (hshaped : ∀ hf ∈ ⟨.Chainstart, some 0, none⟩ :: l, Shaped hf)
    (h : (⟨.Chainstart, some 0, none⟩ :: l).Pairwise fun a b => a.start < b.start) :
    HardforkSelection.Ordered ((⟨.Chainstart, some 0, none⟩ :: l).map (·.transition)) := by
  have hpairs {R : HardforkSelection.HardforkTransitionConfig →
      HardforkSelection.HardforkTransitionConfig → Prop}
      (hR : ∀ a b, Shaped a → Shaped b → a.start < b.start → R a.transition b.transition) :
      ((⟨.Chainstart, some 0, none⟩ :: l).map (·.transition)).Pairwise R :=
    pairwise_map.mpr (h.imp_of_mem fun ha hb hlt => hR _ _ (hshaped _ ha) (hshaped _ hb) hlt)
  refine ⟨⟨_, _, rfl, rfl⟩, fun hf hhf => ?_, hpairs ?_, hpairs ?_, hpairs ?_⟩
  · obtain ⟨⟨_, _ | b, _ | t⟩, ha, rfl⟩ := mem_map.mp hhf <;>
      simp [ConfigHardfork.transition]
    exact absurd (hshaped _ ha) (by simp [Shaped])
  all_goals
    rintro ⟨_, _ | x, _ | s⟩ ⟨_, _ | y, _ | t⟩ ha hb hlt <;> simp [Shaped] at ha hb <;>
      simp [ConfigHardfork.start, Lex.toLex_lt_toLex, ConfigHardfork.transition] at hlt ⊢ <;>
      omega

theorem shaped_fromGenesis (h : Shaped hf) : Shaped (hf.fromGenesis genesisTimestamp) := by
  obtain ⟨name, block, timestamp⟩ := hf
  unfold ConfigHardfork.fromGenesis
  split
  · rename_i htime
    obtain rfl : timestamp = some genesisTimestamp := htime
    exact h
  · exact h

theorem position_pos (h : hf ∈ sorted config) : 0 < position hf.name := by
  rcases mem_append.mp (mem_sorted.mp h) with h | h
  · exact (early_of_mem config h).2.2.1
  · rcases mem_append.mp h with h | h
    · rcases (mem_merged config h).2.2 with h | h <;> rw [h] <;> decide
    · exact (by decide : 0 < 15).trans (late_of_mem config h).2.2

theorem Orderly.merged_eq (h : Orderly config genesisTimestamp)
    (htimed : ∃ fork ∈ timeForks, (config.time fork).isSome) : ∃ p n, p ≤ n ∧
      merged config = [⟨.Paris, some p, none⟩, ⟨.MergeNetsplitBlock, some n, none⟩] := by
  have hsome : (entries config timeForks).isEmpty = false := by
    refine Bool.eq_false_iff.mpr fun hempty => ?_
    obtain ⟨fork, hfork, htime⟩ := htimed
    rw [isEmpty_entries.mp hempty fork hfork] at htime
    cases htime
  unfold merged
  rw [hsome]
  cases hp : config.field "mergeForkBlock" with
  | none => cases config.field "mergeNetsplitBlock" with
    | none => exact ⟨0, 0, le_refl _, rfl⟩
    | some n => exact ⟨n, n, le_refl _, rfl⟩
  | some p => cases hn : config.field "mergeNetsplitBlock" with
    | none => exact ⟨p, p, le_refl _, rfl⟩
    | some n => exact ⟨p, n, h.merge p n hp hn htimed, rfl⟩

theorem Orderly.scheduled (h : Orderly config genesisTimestamp) : Scheduled config genesisTimestamp
      (⟨.Chainstart, some 0, none⟩ :: (sorted config).map (·.fromGenesis genesisTimestamp)) := by
  have hsorted : (sorted config).Pairwise fun a b =>
      (a.fromGenesis genesisTimestamp).start < (b.fromGenesis genesisTimestamp).start :=
    (pairwise_sorted h.ties).imp_of_mem fun ha hb hab =>
      h.fromGenesis_lt ha hb (start_lt (shaped_of_mem ha) (shaped_of_mem hb) hab)
  have hordered : (⟨.Chainstart, some 0, none⟩ ::
      (sorted config).map (·.fromGenesis genesisTimestamp)).Pairwise
        fun a b => a.start < b.start := by
    refine pairwise_cons.mpr ⟨fun hf hhf => ?_, pairwise_map.mpr hsorted⟩
    obtain ⟨a, ha, rfl⟩ := mem_map.mp hhf
    have hpos := position_pos ha
    cases ht : a.timestamp with
    | none =>
      rw [fromGenesis_of_none ht, start_of_none ht]
      refine Lex.toLex_lt_toLex.mpr (.inr ⟨rfl, Lex.toLex_lt_toLex.mpr ?_⟩)
      rcases Nat.eq_zero_or_pos (a.block.getD 0) with hzero | hblock
      · exact .inr ⟨hzero.symm, hpos⟩
      · exact .inl hblock
    | some t =>
      rw [start_fromGenesis ht]
      exact Lex.toLex_lt_toLex.mpr (.inl Nat.zero_lt_one)
  have hshaped : ∀ hf ∈ ⟨.Chainstart, some 0, none⟩ ::
      (sorted config).map (·.fromGenesis genesisTimestamp), Shaped hf := by
    intro hf hhf
    rcases mem_cons.mp hhf with rfl | hhf
    · rfl
    · obtain ⟨a, ha, rfl⟩ := mem_map.mp hhf
      exact shaped_fromGenesis (shaped_of_mem ha)
  refine ⟨rfl, fun fork hfork hf hentry => configured_result hfork hentry, hordered, ?_,
    ordered_of_starts hshaped hordered⟩
  rintro ⟨hf, hhf, htime⟩
  have htimed : ∃ fork ∈ timeForks, (config.time fork).isSome := by
    rcases mem_cons.mp hhf with rfl | hhf
    · cases htime
    · obtain ⟨a, ha, rfl⟩ := mem_map.mp hhf
      cases ht : a.timestamp with
      | none => rw [fromGenesis_of_none ht, ht] at htime; cases htime
      | some t =>
        obtain ⟨fork, hfork, -, -, htime⟩ := exists_time ha ht
        exact ⟨fork, hfork, htime ▸ rfl⟩
  obtain ⟨p, n, hpn, hmerged⟩ := h.merged_eq htimed
  have hmem {hf : ConfigHardfork} (h : hf ∈ merged config) (htime : hf.timestamp = none) :
      hf ∈ (⟨.Chainstart, some 0, none⟩ ::
        (sorted config).map (·.fromGenesis genesisTimestamp)).filter (·.timestamp.isNone) := by
    refine mem_filter.mpr ⟨mem_cons_of_mem _ (mem_map.mpr ⟨hf, ?_, ?_⟩), htime ▸ rfl⟩
    · exact mem_sorted.mpr (mem_append_right _ (mem_append_left _ h))
    · exact fromGenesis_of_none htime
  have hlt : (⟨.Paris, some p, none⟩ : ConfigHardfork).start <
      (⟨.MergeNetsplitBlock, some n, none⟩ : ConfigHardfork).start := by
    refine Lex.toLex_lt_toLex.mpr (.inr ⟨rfl, Lex.toLex_lt_toLex.mpr ?_⟩)
    exact (Nat.lt_or_eq_of_le hpn).imp id fun heq =>
      ⟨heq, show position .Paris < position .MergeNetsplitBlock by decide⟩
  have hanti : Std.Antisymm fun a b : ConfigHardfork => a.start < b.start :=
    ⟨fun a b hab hba => absurd (hab.trans hba) (lt_irrefl _)⟩
  rw [takeWhile_eq_filter hordered]
  have hsubperm := subperm_of_subset (by simp) fun hf hhf => hmem (hmerged ▸ hhf) <| by
    rcases List.mem_pair.mp hhf with rfl | rfl <;> rfl
  have hsublist := sublist_of_subperm_of_pairwise hsubperm (List.pairwise_pair.mpr hlt)
    (hordered.filter _)
  exact hsublist.map ConfigHardfork.name

/-! ## The condition is needed -/

section Necessary

variable (h : Scheduled config genesisTimestamp
  (⟨.Chainstart, some 0, none⟩ :: (sorted config).map (·.fromGenesis genesisTimestamp)))

include h

theorem Scheduled.sorted_ordered : (sorted config).Pairwise fun a b =>
    (a.fromGenesis genesisTimestamp).start < (b.fromGenesis genesisTimestamp).start :=
  (pairwise_map (R := fun a b : ConfigHardfork => a.start < b.start)).mp
    (pairwise_cons.mp h.ordered).2

/-- Two entries that the sorts leave in their order are in order in the result. -/
theorem Scheduled.start_lt {Q : ConfigHardfork → ConfigHardfork → Prop}
    (hQ : (unsorted config).Pairwise Q) {a b : ConfigHardfork} (ha : a ∈ sorted config)
    (hb : b ∈ sorted config) (hne : a ≠ b)
    (hnot : ¬StableSort.Refined timestampLe (StableSort.Refined blockLe Q) b a) :
    (a.fromGenesis genesisTimestamp).start < (b.fromGenesis genesisTimestamp).start :=
  ((pairwise_or ((pairwise_sorted hQ).and h.sorted_ordered) ha hb hne).resolve_right
    fun hba => hnot hba.1).2

theorem Scheduled.times {early late : Fork} (hearly : early ∈ timeForks) (hlate : late ∈ timeForks)
    {t : Nat} (ht : config.time early = some t) (hlt : t < genesisTimestamp)
    (hgenesis : config.time late = some genesisTimestamp) :
    t = 0 ∧ position early.hardfork < position late.hardfork := by
  obtain ⟨a, ha, hta⟩ := bind_eq_some_iff.mp ht
  obtain ⟨b, hb, htb⟩ := bind_eq_some_iff.mp hgenesis
  have hmem {fork : Fork} (hfork : fork ∈ timeForks) : fork ∈ forkMap := mem_append_right _ hfork
  have hne : a ≠ b := by
    rintro rfl
    exact absurd (Option.some_inj.mp (hta.symm.trans htb)) hlt.ne
  have hnot : ¬StableSort.Refined timestampLe (StableSort.Refined blockLe fun _ _ => True) b a := by
    rintro ⟨hle, -⟩
    rw [timestampLe, hta, htb] at hle
    exact absurd (of_decide_eq_true hle) (not_le.mpr hlt)
  have hstart := h.start_lt (List.pairwise_iff_forall_sublist.mpr fun _ => trivial)
    (mem_of_configured (hmem hearly) ha) (mem_of_configured (hmem hlate) hb) hne hnot
  rw [start_fromGenesis hta, start_fromGenesis htb, if_neg hlt.ne, if_pos rfl,
    (entry_eq config ha).1, (entry_eq config hb).1] at hstart
  simpa [Lex.toLex_lt_toLex] using hstart

theorem Scheduled.merge_le {p n : Nat} (hp : config.field "mergeForkBlock" = some p)
    (hn : config.field "mergeNetsplitBlock" = some n)
    (htimed : ∃ fork ∈ timeForks, (config.time fork).isSome) : p ≤ n := by
  obtain ⟨fork, hfork, htime⟩ := htimed
  obtain ⟨t, ht⟩ := isSome_iff_exists.mp htime
  obtain ⟨a, ha, hta⟩ := bind_eq_some_iff.mp ht
  have hsublist := h.merge ⟨a.fromGenesis genesisTimestamp, mem_cons_of_mem _ (mem_map.mpr
    ⟨a, mem_of_configured (mem_append_right _ hfork) ha, rfl⟩), ?_⟩
  · obtain ⟨pair, hpair, hnames⟩ :=
      List.sublist_map_iff.mp (hsublist.trans ((takeWhile_sublist _).map _))
    obtain ⟨x, y, rfl⟩ : ∃ x y, pair = [x, y] := by
      rcases pair with _ | ⟨x, _ | ⟨y, _ | ⟨z, pair⟩⟩⟩ <;> simp at hnames ⊢
    simp only [map_cons, map_nil, List.cons.injEq, and_true] at hnames
    have hentry (name : Hardfork) (field : String) (v : Nat)
        (hmem : (⟨name, field, false⟩ : Fork) ∈ forkMap) (hv : config.field field = some v)
        {z : ConfigHardfork} (hz : z ∈ [x, y]) (hname : z.name = name) : z = ⟨name, some v, none⟩ := by
      have hfilter := h.configured ⟨name, field, false⟩ hmem ⟨name, some v, none⟩
        (by simp [Config.entry, hv])
      have hin : z ∈ [ConfigHardfork.mk name (some v) none] := by
        rw [← @fromGenesis_of_none genesisTimestamp ⟨name, some v, none⟩ rfl, ← hfilter]
        exact mem_filter.mpr ⟨hpair.subset hz, decide_eq_true hname⟩
      exact mem_singleton.mp hin
    have hx := hentry .Paris "mergeForkBlock" p (by simp [forkMap, mergeForks]) hp (by simp) hnames.1.symm
    have hy := hentry .MergeNetsplitBlock "mergeNetsplitBlock" n (by simp [forkMap, mergeForks]) hn
      (by simp) hnames.2.symm
    have hlt := List.pairwise_pair.mp (h.ordered.sublist hpair)
    rw [hx, hy] at hlt
    simp [ConfigHardfork.start, Lex.toLex_lt_toLex] at hlt
    omega
  · have hnone := @fromGenesis_isNone genesisTimestamp a
    rw [hta] at hnone
    exact Option.isSome_iff_ne_none.mpr fun h => by rw [h] at hnone; cases hnone

theorem Scheduled.not_passed (htimed : ∀ fork ∈ timeForks, config.time fork = none)
    (hpassed : config.terminalTotalDifficultyPassed = true)
    (hp : config.field "mergeForkBlock" = none) : config.field "mergeNetsplitBlock" ≠ some 0 := by
  intro hn
  have hmerged : merged config =
      [⟨.MergeNetsplitBlock, some 0, none⟩, ⟨.Paris, some 0, none⟩] := by
    rw [merged, hp, hn, hpassed, isEmpty_entries.mpr htimed]
    rfl
  have hmem {hf : ConfigHardfork} (h : hf ∈ merged config) : hf ∈ sorted config :=
    mem_sorted.mpr (mem_append_right _ (mem_append_left _ h))
  -- Paris does not come first in the list, so it does not after the stable sorts
  have hQ : (unsorted config).Pairwise fun a b => ¬(a.name = .Paris ∧ b.name = .MergeNetsplitBlock) := by
    refine pairwise_unsorted config (fun a b _ h hab => ?_) (by simp [hmerged])
    rcases h with h | h
    · exact h.not_merge.1 hab.1
    · exact h.not_merge.2 hab.2
  have hlt := h.start_lt hQ (a := ⟨.MergeNetsplitBlock, some 0, none⟩)
    (b := ⟨.Paris, some 0, none⟩) (hmem (by simp [hmerged])) (hmem (by simp [hmerged])) (by simp)
    fun hrefined => (hrefined.2 (by decide)).2 (by decide) ⟨rfl, rfl⟩
  rw [fromGenesis_of_none rfl, fromGenesis_of_none rfl] at hlt
  exact absurd hlt (by decide)

end Necessary

/-- The hardforks come out in order just when no fork before the genesis block is overtaken by
one that the genesis block activates, and Paris is not asked for after the net split. -/
theorem parseGethParams_scheduled_iff {params : Params}
    (h : parseGethParams config genesisTimestamp = .ok params) :
    Scheduled config genesisTimestamp params.hardforks ↔ Orderly config genesisTimestamp := by
  have hresult : params.hardforks =
      ⟨.Chainstart, some 0, none⟩ :: (sorted config).map (·.fromGenesis genesisTimestamp) := by
    unfold parseGethParams at h
    split at h
    · cases h
    · cases hcheck : checkBlobSchedule (config.blobSchedule.getD []) with
      | error e => rw [hcheck] at h; cases h
      | ok _ => rw [hcheck] at h; cases h; rfl
  rw [hresult]
  refine ⟨fun hscheduled => ⟨?_, ?_, ?_⟩, Orderly.scheduled⟩
  · exact fun early hearly late hlate t ht hlt hgenesis =>
      hscheduled.times hearly hlate ht hlt hgenesis
  · exact fun p n hp hn htimed => hscheduled.merge_le hp hn htimed
  · exact fun htimed hpassed hp => hscheduled.not_passed htimed hpassed hp

end Result

namespace Sample

/-- London at block 0, Shanghai at a time and Cancun at 10. -/
def config (shanghai : Nat) : Config where
  field := fun name =>
    if name = "londonBlock" then some 0 else if name = "shanghaiTime" then some shanghai
    else if name = "cancunTime" then some 10 else none
  terminalTotalDifficultyPassed := false
  blobSchedule := none

def params (shanghai : Nat) : Params :=
  let hardforks := (sorted (config shanghai)).map (·.fromGenesis 10)
  ⟨hardforks.getLast?.map (·.name), ⟨.Chainstart, some 0, none⟩ :: hardforks⟩

theorem config_time {fork : Fork} {shanghai t : Nat} (hfork : fork ∈ timeForks)
    (h : (config shanghai).time fork = some t) :
    fork.hardfork = .Shanghai ∧ t = shanghai ∨ fork.hardfork = .Cancun ∧ t = 10 := by
  rw [time_eq hfork] at h
  simp only [timeForks, mem_cons, not_mem_nil, or_false] at hfork
  rcases hfork with rfl | rfl | rfl | rfl | rfl | rfl | rfl | rfl | rfl <;>
    simp [config] at h ⊢ <;> exact h.symm

/-- Shanghai from the start, and the genesis block with Cancun. -/
theorem scheduled_zero : Scheduled (config 0) 10 (params 0).hardforks := by
  refine (@parseGethParams_scheduled_iff _ 10 _ rfl).mpr ⟨?_, ?_, ?_⟩
  · intro early hearly late hlate t ht hlt hgenesis
    rcases config_time hearly ht with ⟨hname, rfl⟩ | ⟨-, rfl⟩
    · rcases config_time hlate hgenesis with ⟨-, h⟩ | ⟨hname', -⟩
      · cases h
      · rw [hname, hname']
        decide
    · exact absurd hlt (lt_irrefl _)
  · exact fun p n hp _ _ => (by cases hp)
  · exact fun _ h _ => (by cases h)

/-- What the file with Shanghai at 5 gives. -/
def lateHardforks : List ConfigHardfork :=
  [⟨.Chainstart, some 0, none⟩, ⟨.London, some 0, none⟩, ⟨.Paris, some 0, none⟩,
    ⟨.MergeNetsplitBlock, some 0, none⟩, ⟨.Shanghai, none, some 5⟩, ⟨.Cancun, none, some 0⟩]

/-- Shanghai at 5 stays before Cancun, which the genesis block moves to 0. -/
theorem cancun_late : parseGethParams (config 5) 10 = .ok ⟨some .Cancun, lateHardforks⟩ ∧
      ¬Scheduled (config 5) 10 lateHardforks := by
  have hunsorted : unsorted (config 5) = [⟨.London, some 0, none⟩, ⟨.Paris, some 0, none⟩,
      ⟨.MergeNetsplitBlock, some 0, none⟩, ⟨.Shanghai, none, some 5⟩, ⟨.Cancun, none, some 10⟩] := by
    decide
  have hsorted : sorted (config 5) = unsorted (config 5) := by
    rw [sorted, addMerge_eq, hunsorted, @List.mergeSort_of_pairwise _ blockLe _ (by decide),
      mergeSort_of_pairwise (by decide)]
  constructor
  · have hparams : parseGethParams (config 5) 10 = .ok (params 5) := rfl
    rw [hparams, params, hsorted, hunsorted]
    rfl
  · intro h
    exact absurd h.ordered (by decide)

end Sample

end GethGenesis
