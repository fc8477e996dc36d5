-- SUMMARY: Log blooms: their bits as marks, and that nothing which was added is ever missed.
import TsEthereum.Base.BloomFilters
import TsEthereum.Base.Fallible
import TsEthereum.Evm.Types
import TsEthereum.MerkleTrie.TrieRuns

/-!
# Log blooms

`bloom/index.ts`, and the blooms of transactions and blocks. All blooms compute
the same keccak-256, whichever implementation they are given.
-/

open List Except Set Function Nat

/-- A hash function with values of 32 bytes. -/
structure KeccakFunction where
  keccak256 : Bytes → Bytes
  length_keccak256 : ∀ msg, (keccak256 msg).length = 32

structure Bloom where
  bitvector : Bytes
  length_eq : bitvector.length = 256

namespace Bloom

def empty : Bloom := ⟨List.replicate 256 0, List.length_replicate⟩

/-- The constructor. -/
def new : Option Bytes → Except String Bloom
  | none => .ok empty
  | some bitvector =>
    if h : bitvector.length = 256 then .ok ⟨bitvector, h⟩
    else .error "bitvectors must be 2048 bits long"

/-- `DataView.getUint16`, within the bytes. -/
def getUint16 (bytes : Bytes) (byteOffset : Nat) (h : byteOffset + 1 < bytes.length) : Nat :=
  256 * (bytes.get ⟨byteOffset, Nat.lt_of_succ_lt h⟩).toNat + (bytes.get ⟨byteOffset + 1, h⟩).toNat

variable (k : KeccakFunction)

def loc (e : Bytes) (i : Fin 3) : Nat :=
  2047 &&& getUint16 (k.keccak256 e) (i * 2) (by rw [k.length_keccak256]; omega)

def byteLoc (loc : Nat) : Nat := loc >>> 3

def bitLoc (loc : Nat) : UInt8 := UInt8.ofNat (1 <<< (loc % 8))

/-- The byte that has the bit of `loc`. -/
def byteAt (bitvector : Bytes) (loc : Nat) : UInt8 := bitvector.getD (256 - byteLoc loc - 1) 0

def setBit (bloom : Bloom) (loc : Nat) : Bloom where
  bitvector := bloom.bitvector.set (256 - byteLoc loc - 1) (byteAt bloom.bitvector loc ||| bitLoc loc)
  length_eq := by rw [List.length_set, bloom.length_eq]

def add (bloom : Bloom) (e : Bytes) : Bloom :=
  (List.finRange 3).foldl (fun bloom i => bloom.setBit (loc k e i)) bloom

/-- The loop ends at the first bit that is not set. -/
def check (bloom : Bloom) (e : Bytes) : Bool :=
  (List.finRange 3).all fun i => byteAt bloom.bitvector (loc k e i) &&& bitLoc (loc k e i) ≠ 0

def multiCheck (bloom : Bloom) (topics : List Bytes) : Bool := topics.all (bloom.check k)

/-- The loop of `or`, on the indices `is`. -/
def orAt (bitvector other : Bytes) (is : List Nat) : Bytes :=
  is.foldl (fun bitvector i => bitvector.set i (bitvector.getD i 0 ||| other.getD i 0)) bitvector

theorem length_orAt (bitvector other : Bytes) (is : List Nat) :
    (orAt bitvector other is).length = bitvector.length := by
  induction is generalizing bitvector with
  | nil => rfl
  | cons i is ih => exact (ih _).trans length_set

/-- The last round of the loop is past the end, where a typed array ignores the write. -/
def or (bloom other : Bloom) : Bloom where
  bitvector := orAt bloom.bitvector other.bitvector (List.range 257)
  length_eq := (length_orAt _ _ _).trans bloom.length_eq

/-! ## Marks -/

/-- The bits that are set. -/
def marks (bloom : Bloom) : Set Nat := {l | l < 2048 ∧ byteAt bloom.bitvector l &&& bitLoc l ≠ 0}

def positions (e : Bytes) : Set Nat := Set.range (loc k e)

theorem mem_marks {bloom : Bloom} {l : Nat} :
    l ∈ bloom.marks ↔ l < 2048 ∧ byteAt bloom.bitvector l &&& bitLoc l ≠ 0 := Iff.rfl

theorem loc_lt (e : Bytes) (i : Fin 3) : loc k e i < 2048 :=
  Nat.lt_of_le_of_lt and_le_left (by decide)

theorem bit_ne_zero_iff : ∀ i < 8, ∀ j < 8,
    ((UInt8.ofNat (1 <<< i) &&& UInt8.ofNat (1 <<< j) : UInt8) ≠ 0 ↔ i = j) := by
  decide

theorem or_and_ne_zero (x y z : UInt8) : (x ||| y) &&& z ≠ 0 ↔ x &&& z ≠ 0 ∨ y &&& z ≠ 0 := by
  have hdistrib : (x ||| y) &&& z = x &&& z ||| y &&& z :=
    UInt8.toBitVec_inj.mp BitVec.and_or_distrib_right
  rw [hdistrib, ne_eq, UInt8.or_eq_zero_iff, not_and_or]

theorem byteAt_setBit (bloom : Bloom) {l loc : Nat} (hl : l < 2048) (hloc : loc < 2048) :
    byteAt (bloom.setBit loc).bitvector l =
      if byteLoc l = byteLoc loc then byteAt bloom.bitvector l ||| bitLoc loc
      else byteAt bloom.bitvector l := by
  have hindex : 256 - byteLoc loc - 1 = 256 - byteLoc l - 1 ↔ byteLoc l = byteLoc loc := by
    simp only [byteLoc, shiftRight_eq_div_pow]
    omega
  have hlength : 256 - byteLoc l - 1 < bloom.bitvector.length := by
    rw [bloom.length_eq]
    omega
  simp only [byteAt, setBit, getD_eq_getElem?_getD, getElem?_set, hindex]
  split_ifs with hsame hin
  · simp [hsame]
  · exact absurd (hsame ▸ hlength) hin
  · rfl

/-- A position is its byte and the bit in it. -/
theorem bitLoc_ne_zero_iff {l loc : Nat} (hbyte : byteLoc l = byteLoc loc) :
    bitLoc loc &&& bitLoc l ≠ 0 ↔ l = loc := by
  have hbit : bitLoc loc &&& bitLoc l ≠ 0 ↔ loc % 8 = l % 8 :=
    bit_ne_zero_iff _ (mod_lt _ (by decide)) _ (mod_lt _ (by decide))
  have hdiv : l / 8 = loc / 8 := by simpa [byteLoc, shiftRight_eq_div_pow] using hbyte
  rw [hbit]
  omega

theorem marks_setBit (bloom : Bloom) {loc : Nat} (hloc : loc < 2048) :
    (bloom.setBit loc).marks = insert loc bloom.marks := by
  apply Set.ext
  intro l
  by_cases hl : l < 2048
  · simp only [mem_marks, mem_insert_iff, hl, true_and, bloom.byteAt_setBit hl hloc]
    split_ifs with hbyte
    · rw [or_and_ne_zero, bitLoc_ne_zero_iff hbyte]
      exact or_comm
    · have hne : l ≠ loc := fun h => hbyte (congrArg byteLoc h)
      simp only [hne, false_or]
  · have hne : l ≠ loc := fun h => hl (h ▸ hloc)
    simp only [mem_marks, mem_insert_iff, hl, hne, false_and, false_or]

theorem marks_add (bloom : Bloom) (e : Bytes) :
    (bloom.add k e).marks = bloom.marks ∪ positions k e := by
  have hfoldl (is : List (Fin 3)) (bloom : Bloom) :
      (is.foldl (fun bloom i => bloom.setBit (loc k e i)) bloom).marks =
        bloom.marks ∪ {l | ∃ i ∈ is, loc k e i = l} := by
    induction is generalizing bloom with
    | nil => simp
    | cons i is ih =>
      rw [foldl_cons, ih, bloom.marks_setBit (loc_lt k e i)]
      apply Set.ext
      intro l
      simp only [mem_union, mem_insert_iff, mem_ofPred_eq, mem_cons, exists_eq_or_imp]
      grind
  have hpositions : positions k e = {l | ∃ i ∈ List.finRange 3, loc k e i = l} := by
    apply Set.ext
    intro l
    simp [positions]
  rw [hpositions]
  exact hfoldl _ bloom

/-- An element passes exactly where all its positions are marked. -/
theorem check_iff (bloom : Bloom) (e : Bytes) :
    bloom.check k e = true ↔ positions k e ⊆ bloom.marks := by
  simp only [check, all_eq_true, mem_finRange, forall_const, decide_eq_true_eq, positions,
    range_subset_iff, mem_marks, loc_lt, true_and]

theorem getD_orAt (v w : Bytes) (n : Nat) {i : Nat} (hi : i < v.length) :
    (orAt v w (List.range n)).getD i 0 = if i < n then v.getD i 0 ||| w.getD i 0 else v.getD i 0 := by
  induction n with
  | zero => rfl
  | succ n ih =>
    have hlast : orAt v w (List.range (n + 1)) =
        (orAt v w (List.range n)).set n ((orAt v w (List.range n)).getD n 0 ||| w.getD n 0) := by
      simp only [orAt, range_succ, foldl_append, foldl_cons, foldl_nil]
    have hlength : i < (orAt v w (List.range n)).length := by rwa [length_orAt]
    rw [hlast]
    by_cases hsame : n = i
    · subst hsame
      rw [ih]
      simp [hlength]
    · have hset : ((orAt v w (List.range n)).set n
          ((orAt v w (List.range n)).getD n 0 ||| w.getD n 0)).getD i 0 =
          (orAt v w (List.range n)).getD i 0 := by
        simp [hsame]
      have hlt : i < n + 1 ↔ i < n := by omega
      rw [hset, ih]
      simp only [hlt]

theorem marks_or (bloom other : Bloom) : (bloom.or other).marks = bloom.marks ∪ other.marks := by
  apply Set.ext
  intro l
  have hlength : 256 - byteLoc l - 1 < bloom.bitvector.length := by
    rw [bloom.length_eq]
    omega
  have hbyte : byteAt (bloom.or other).bitvector l =
      byteAt bloom.bitvector l ||| byteAt other.bitvector l := by
    have hrounds : 256 - byteLoc l - 1 < 257 := by omega
    have hor := getD_orAt bloom.bitvector other.bitvector 257 hlength
    rw [if_pos hrounds] at hor
    simp only [byteAt, or]
    exact hor
  simp only [mem_union, mem_marks, hbyte, or_and_ne_zero]
  exact and_or_left

/-! ## Blooms that are added to and merged -/

open BloomFilters (Op contents)

variable {ν : Type} [DecidableEq ν]

def step (blooms : ν → Bloom) : Op ν Bytes → ν → Bloom
  | .add i e => Function.update blooms i ((blooms i).add k e)
  | .or i j => Function.update blooms i ((blooms i).or (blooms j))

def run (blooms : ν → Bloom) (ops : List (Op ν Bytes)) : ν → Bloom := ops.foldl (step k) blooms

/-- An operation does to the marks what it does to filters. -/
theorem marks_step (blooms : ν → Bloom) (op : Op ν Bytes) : (fun i => (step k blooms op i).marks) =
      BloomFilters.marksStep (positions k) (fun i => (blooms i).marks) op := by
  cases op with
  | add i e =>
    simp only [step, BloomFilters.marksStep, ← marks_add]
    funext j
    exact apply_update (fun _ => marks) blooms i _ j
  | or i j =>
    simp only [step, BloomFilters.marksStep, ← marks_or]
    funext l
    exact apply_update (fun _ => marks) blooms i _ l

theorem marks_run (blooms : ν → Bloom) (ops : List (Op ν Bytes)) :
    (fun i => (run k blooms ops i).marks) =
      ops.foldl (BloomFilters.marksStep (positions k)) fun i => (blooms i).marks := by
  induction ops generalizing blooms with
  | nil => rfl
  | cons op ops ih =>
    rw [foldl_cons, ← marks_step]
    exact ih (step k blooms op)

/-- What was added to a bloom, or to one that was merged into it, passes it. -/
theorem check_run (blooms : ν → Bloom) (ops : List (Op ν Bytes)) {i : ν} {e : Bytes}
    (he : e ∈ contents ops i) : (run k blooms ops i).check k e = true := by
  have hempty : BloomFilters.Holds (positions k) (fun _ => ∅) fun i => (blooms i).marks :=
    BloomFilters.holds_empty _
  have hholds := hempty.foldl ops
  rw [← marks_run] at hholds
  exact (check_iff k _ e).mpr (hholds i e he)

theorem marks_foldl_add (es : List Bytes) (bloom : Bloom) :
    (es.foldl (·.add k ·) bloom).marks = bloom.marks ∪ {l | ∃ e ∈ es, l ∈ positions k e} := by
  induction es generalizing bloom with
  | nil => simp
  | cons e es ih =>
    rw [foldl_cons, ih, marks_add]
    apply Set.ext
    intro l
    simp only [mem_union, mem_ofPred_eq, mem_cons, exists_eq_or_imp, or_assoc]

end Bloom

/-! ## Transactions and blocks -/

/-- What is added to a bloom for a log. -/
def Log.elements (log : Log) : List Bytes := log.address :: log.topics

namespace VM

def txLogsBloom (k : KeccakFunction) : Option (List Log) → Bloom
  | none => .empty
  | some logs => logs.foldl (fun bloom log =>
      log.topics.foldl (·.add k ·) (bloom.add k log.address)) .empty

structure RunTxResult where
  logs : Option (List Log)
  totalGasSpent : Nat
  bloom : Bloom

/-- What `applyTransactions` has come to. -/
structure Applied (σ : Type) where
  state : σ
  bloom : Bloom
  gasUsed : Nat
  txResults : List RunTxResult

section ApplyTransactions

variable {σ τ : Type} (k : KeccakFunction)
  (execute : σ → τ → Nat → Except String (Option (List Log) × Nat × σ)) (gasLimit : τ → Nat)

/-- The end of `runTx`, where its results are parsed. -/
def runTx (state : σ) (tx : τ) (blockGasUsed : Nat) : Except String (RunTxResult × σ) := do
  let (logs, totalGasSpent, state) ← execute state tx blockGasUsed
  return ({ logs, totalGasSpent, bloom := txLogsBloom k logs }, state)

def applyTransaction (maxGasLimit : Nat) (applied : Applied σ) (tx : τ) :
    Except String (Applied σ) := do
  if maxGasLimit < gasLimit tx + applied.gasUsed then
    throw "tx has a higher gas limit than the block"
  let (txRes, state) ← runTx k execute applied.state tx applied.gasUsed
  return {
    state
    bloom := applied.bloom.or txRes.bloom
    gasUsed := applied.gasUsed + txRes.totalGasSpent
    txResults := applied.txResults ++ [txRes] }

def applyTransactions (maxGasLimit : Nat) (state : σ) (txs : List τ) :
    Except String (Applied σ) :=
  txs.foldlM (applyTransaction k execute gasLimit maxGasLimit) ⟨state, .empty, 0, []⟩

/-- The bloom has what is in the logs of the results, one for every transaction. -/
structure Applied.Logged (applied : Applied σ) (txs : List τ) : Prop where
  length : applied.txResults.length = txs.length
  marks : ∀ txRes ∈ applied.txResults, ∀ logs, txRes.logs = some logs → ∀ log ∈ logs,
    ∀ e ∈ log.elements, Bloom.positions k e ⊆ applied.bloom.marks

theorem positions_subset_txLogsBloom {logs : List Log} {log : Log} {e : Bytes} (hlog : log ∈ logs)
    (he : e ∈ log.elements) : Bloom.positions k e ⊆ (txLogsBloom k (some logs)).marks := by
  have hflat : txLogsBloom k (some logs) =
      (logs.flatMap Log.elements).foldl (·.add k ·) .empty := by
    simp only [txLogsBloom, foldl_flatMap, Log.elements, foldl_cons]
  rw [hflat, Bloom.marks_foldl_add]
  intro l hl
  exact .inr ⟨e, mem_flatMap.mpr ⟨log, hlog, he⟩, hl⟩

variable {k execute gasLimit} {maxGasLimit : Nat}

theorem Applied.Logged.step {applied applied' : Applied σ} {txs : List τ} {tx : τ}
    (h : applied.Logged k txs)
    (hok : applyTransaction k execute gasLimit maxGasLimit applied tx = .ok applied') :
    applied'.Logged k (txs ++ [tx]) := by
  unfold applyTransaction at hok
  split at hok
  · cases hok
  · obtain ⟨⟨txRes, state⟩, hrun, hok⟩ := bind_eq_ok.mp hok
    obtain ⟨⟨logs, totalGasSpent, state'⟩, -, hresult⟩ := bind_eq_ok.mp hrun
    obtain ⟨rfl, rfl⟩ := Prod.mk.inj (ok.inj hresult)
    obtain rfl := ok.inj hok
    refine ⟨by simp [h.length], fun txRes hmem logs' hlogs log hlog e he => ?_⟩
    simp only [Bloom.marks_or]
    rcases mem_append.mp hmem with hbefore | hlast
    · exact (h.marks txRes hbefore logs' hlogs log hlog e he).trans subset_union_left
    · obtain rfl := mem_singleton.mp hlast
      obtain rfl : logs = some logs' := hlogs
      exact (positions_subset_txLogsBloom k hlog he).trans subset_union_right

theorem Applied.Logged.run {applied applied' : Applied σ} {before txs : List τ}
    (h : applied.Logged k before)
    (hok : txs.foldlM (applyTransaction k execute gasLimit maxGasLimit) applied = .ok applied') :
    applied'.Logged k (before ++ txs) := by
  induction txs generalizing applied before with
  | nil =>
    obtain rfl := ok.inj hok
    simpa using h
  | cons tx txs ih =>
    rw [foldlM_cons] at hok
    obtain ⟨next, hnext, hok⟩ := bind_eq_ok.mp hok
    have hrest := ih (h.step hnext) hok
    rwa [append_assoc] at hrest

theorem logged_nil (state : σ) : Applied.Logged (τ := τ) k ⟨state, .empty, 0, []⟩ [] where
  length := rfl
  marks := fun _ hmem => absurd hmem not_mem_nil

end ApplyTransactions

/-- The hash of the byte `1`. -/
def sampleKeccak : KeccakFunction where
  keccak256 := MPT.tableHash
    [([1], 0x5fe7f977e71dba2ea1a68e21057beebb9be2ac30c6410aa38d4f3fbe41dcffd2)]
  length_keccak256 := MPT.length_tableHash _

end VM
