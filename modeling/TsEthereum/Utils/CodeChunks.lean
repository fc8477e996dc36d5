-- SUMMARY: The chunks that the binary tree stores code in, and how code is decoded from any of them on.
import TsEthereum.Evm.JumpAnalysis
import Mathlib.Algebra.Order.Floor.Div

/-!
# Code chunks

`chunkifyBinaryTreeCode` pads the code to whole chunks of 31 bytes, and writes in front
of each how many of its bytes are push data of an instruction in an earlier chunk.
-/

open List Nat

open InstructionStream

namespace CodeChunks

/-- The number of bytes that a PUSH takes as its data. -/
def pushdataBytes (opcode : UInt8) : Nat :=
  if 0x60 ≤ opcode ∧ opcode ≤ 0x7f then opcode.toNat - 0x5f else 0

def paddedCode (code : Bytes) : Bytes :=
  code ++ List.replicate ((31 - code.length % 31) % 31) 0

/-- The loop that writes `pushdataBytes - x` to `pos + x`. -/
def writeExecData (bytesToExecData : Bytes) (pos pushdataBytes : Nat) : Bytes :=
  (List.range pushdataBytes).foldl
    (fun table x => table.set (pos + x) (UInt8.ofNat (pushdataBytes - x))) bytesToExecData

/-- The loop over the instructions; every round of it moves `pos`. -/
def scan (paddedCode : Bytes) : Nat → Nat → Bytes → Bytes
  | 0, _, bytesToExecData => bytesToExecData
  | fuel + 1, pos, bytesToExecData =>
    match paddedCode[pos]? with
    | none => bytesToExecData
    | some opcode =>
      let n := pushdataBytes opcode
      scan paddedCode fuel (pos + 1 + n) (writeExecData bytesToExecData (pos + 1) n)

def bytesToExecData (paddedCode : Bytes) : Bytes :=
  scan paddedCode paddedCode.length 0 (List.replicate (paddedCode.length + 32) 0)

/-- A chunk of zeros with its first byte set and `bytes` copied behind it. -/
def chunkOf (first : UInt8) (bytes : Bytes) : Bytes :=
  first :: (bytes ++ List.replicate (31 - bytes.length) 0)

def chunkifyBinaryTreeCode (code : Bytes) : List Bytes :=
  let padded := paddedCode code
  let table := bytesToExecData padded
  (List.range ((padded.length + 30) / 31)).map fun i =>
    chunkOf (min (table.getD (31 * i) 0) 31) ((padded.drop (31 * i)).take 31)

/-! ## Padding -/

theorem length_paddedCode (code : Bytes) :
    (paddedCode code).length = 31 * ((code.length + 30) / 31) := by
  simp only [paddedCode, length_append, length_replicate]
  omega

theorem numChunks_eq (code : Bytes) :
    ((paddedCode code).length + 30) / 31 = (code.length + 30) / 31 := by
  rw [length_paddedCode]
  omega

/-! ## The scan -/

theorem pushSize_le (opcode : UInt8) : pushSize opcode ≤ 32 := by
  unfold pushSize
  split
  · next h =>
    have hle : opcode.toNat ≤ 0x7f := h.2
    omega
  · exact Nat.zero_le _

theorem length_rounds (table : Bytes) (pos n : Nat) (l : List Nat) :
    (l.foldl (fun table x => table.set (pos + x) (UInt8.ofNat (n - x))) table).length =
      table.length := by
  induction l generalizing table with
  | nil => rfl
  | cons x l ih => exact (ih _).trans length_set

@[simp] theorem length_writeExecData (table : Bytes) (pos n : Nat) :
    (writeExecData table pos n).length = table.length := length_rounds table pos n _

theorem writeExecData_getElem? (table : Bytes) (pos n k : Nat) (h : pos + n ≤ table.length) :
    (writeExecData table pos n)[k]? =
      if pos ≤ k ∧ k < pos + n then some (UInt8.ofNat (n - (k - pos))) else table[k]? := by
  -- over the first rounds of the loop
  have hrounds : ∀ m ≤ n, ((List.range m).foldl
      (fun table x => table.set (pos + x) (UInt8.ofNat (n - x))) table)[k]? =
      if pos ≤ k ∧ k < pos + m then some (UInt8.ofNat (n - (k - pos))) else table[k]? := by
    intro m hm
    induction m with
    | zero => exact (if_neg (by omega)).symm
    | succ m ih =>
      rw [range_succ, foldl_append, foldl_cons, foldl_nil, getElem?_set,
        ih (le_of_succ_le hm), length_rounds]
      rcases Nat.lt_trichotomy k (pos + m) with hlt | rfl | hgt
      · rw [if_neg (by omega)]
        exact if_congr (by omega) rfl rfl
      · rw [if_pos rfl, if_pos (by omega), if_pos (by omega), Nat.add_sub_cancel_left]
      · rw [if_neg (by omega), if_neg (by omega), if_neg (by omega)]
  exact hrounds n le_rfl

/-- The table in front of `pos`, where an instruction starts. -/
structure Filled (code : Bytes) (pos : Nat) (table : Bytes) : Prop where
  start : pos < code.length → pending pushSize 0 (code.take pos) = 0
  length : table.length = code.length + 32
  behind : ∀ k < pos, k < code.length →
    table[k]? = some (UInt8.ofNat (pending pushSize 0 (code.take k)))
  ahead : ∀ k, pos ≤ k → k < code.length → table[k]? = some 0

/-- What is pending behind an instruction and some of the bytes that follow it. -/
theorem pending_behind {code : Bytes} {pos : Nat} {opcode : UInt8}
    (hop : code[pos]? = some opcode) (hstart : pending pushSize 0 (code.take pos) = 0) {x : Nat}
    (hx : x ≤ pushSize opcode) (hlen : pos + 1 + x ≤ code.length) :
    pending pushSize 0 (code.take (pos + 1 + x)) = pushSize opcode - x := by
  obtain ⟨hpos, rfl⟩ := List.getElem?_eq_some_iff.mp hop
  have hsplit : code.take (pos + 1 + x) = code.take pos ++ code[pos] :: (code.drop (pos + 1)).take x := by
    rw [take_add, take_add_one, hop, append_assoc]
    rfl
  have hlength : ((code.drop (pos + 1)).take x).length = x := by
    rw [length_take, length_drop]
    omega
  rw [hsplit, pending_append, hstart]
  change pending pushSize (pushSize code[pos]) _ = _
  rw [pending_of_length_le (by omega), hlength]

/-- One round of the loop. -/
theorem Filled.round {code table : Bytes} {pos : Nat} {opcode : UInt8} (h : Filled code pos table)
    (hop : code[pos]? = some opcode) : Filled code (pos + 1 + pushSize opcode)
      (writeExecData table (pos + 1) (pushSize opcode)) := by
  obtain ⟨hpos, -⟩ := List.getElem?_eq_some_iff.mp hop
  have hle := pushSize_le opcode
  have hget := writeExecData_getElem? table (pos + 1) (pushSize opcode)
  refine ⟨fun hlt => ?_, ?_, fun k hk hlen => ?_, fun k hk hlen => ?_⟩
  · rw [pending_behind hop (h.start hpos) le_rfl (Nat.le_of_lt hlt), Nat.sub_self]
  · rw [length_writeExecData, h.length]
  · rw [hget k (by have := h.length; omega)]
    rcases Nat.lt_trichotomy k pos with hbefore | rfl | hbehind
    · rw [if_neg (by omega)]
      exact h.behind k hbefore hlen
    · rw [if_neg (by omega), h.ahead k le_rfl hlen, h.start hpos]
      rfl
    · obtain ⟨x, rfl⟩ : ∃ x, k = pos + 1 + x := ⟨k - (pos + 1), by omega⟩
      rw [if_pos (by omega), Nat.add_sub_cancel_left,
        pending_behind hop (h.start hpos) (by omega) (Nat.le_of_lt hlen)]
  · rw [hget k (by have := h.length; omega), if_neg (by omega)]
    exact h.ahead k (by omega) hlen

/-- The loop fills the table. -/
theorem scan_getElem? {code : Bytes} (fuel pos : Nat) (table : Bytes) (h : Filled code pos table)
    (hfuel : code.length ≤ pos + fuel) {k : Nat} (hk : k < code.length) :
    (scan code fuel pos table)[k]? = some (UInt8.ofNat (pending pushSize 0 (code.take k))) := by
  induction fuel generalizing pos table with
  | zero => exact h.behind k (Nat.lt_of_lt_of_le hk hfuel) hk
  | succ fuel ih =>
    unfold scan
    cases hop : code[pos]? with
    | none => exact h.behind k (Nat.lt_of_lt_of_le hk (List.getElem?_eq_none_iff.mp hop)) hk
    | some opcode => exact ih _ _ (h.round hop) (by omega)

theorem bytesToExecData_getElem? {code : Bytes} {k : Nat} (hk : k < code.length) :
    (bytesToExecData code)[k]? = some (UInt8.ofNat (pending pushSize 0 (code.take k))) := by
  refine scan_getElem? _ _ _ ⟨fun _ => rfl, length_replicate, fun k hk => ?_, fun k _ hk => ?_⟩
    (Nat.le_add_left _ _) hk
  · exact absurd hk (Nat.not_lt_zero k)
  · exact getElem?_replicate_of_lt (by omega)

/-! ## The chunks -/

/-- What the chunks hold behind their first bytes. -/
def payload (chunks : List Bytes) : Bytes := chunks.flatMap List.tail

/-- The positions from `start` on that hold push data of an instruction in front of `start`. -/
def pushDataFrom (code : Bytes) (start : Nat) : Set Nat :=
  {k | start ≤ k ∧ k < code.length ∧ ∃ i < start, OperandOf pushSize code i k}

/-- The chunks hold the code, and each of them what it takes to decode it alone. -/
structure ChunksOf (code : Bytes) (chunks : List Bytes) : Prop where
  count : chunks.length = code.length ⌈/⌉ 31
  lengths : ∀ chunk ∈ chunks, chunk.length = 32
  padded : ∃ zeros < 31, 31 ∣ code.length + zeros ∧
    payload chunks = code ++ List.replicate zeros 0
  pushData : ∀ (i : Nat) (chunk : Bytes), chunks[i]? = some chunk → ∃ first ∈ chunk.head?,
    first.toNat = min 31 (pushDataFrom (payload chunks) (31 * i)).ncard
  resumes : ∀ (i : Nat) (chunk : Bytes), chunks[i]? = some chunk → ∃ first ∈ chunk.head?,
    marks pushSize first.toNat chunk.tail =
      ((marks pushSize 0 (payload chunks)).drop (31 * i)).take 31

/-- The slices of whole chunks make up the bytes. -/
theorem flatMap_slices (n : Nat) (bytes : Bytes) (h : bytes.length = 31 * n) :
    ((List.range n).flatMap fun i => (bytes.drop (31 * i)).take 31) = bytes := by
  have htake : ∀ m ≤ n,
      ((List.range m).flatMap fun i => (bytes.drop (31 * i)).take 31) = bytes.take (31 * m) := by
    intro m hm
    induction m with
    | zero => rfl
    | succ m ih =>
      rw [range_succ, flatMap_append, ih (le_of_succ_le hm), mul_succ,
        take_add]
      simp
  rw [htake n le_rfl, ← h, take_length]

section Chunks

variable {code chunk : Bytes} {i : Nat}

theorem length_slice (hi : i < (code.length + 30) / 31) :
    (((paddedCode code).drop (31 * i)).take 31).length = 31 := by
  rw [length_take, length_drop, length_paddedCode]
  omega

theorem tail_chunkOf (first : UInt8) {bytes : Bytes} (h : bytes.length = 31) :
    (chunkOf first bytes).tail = bytes := by
  simp [chunkOf, h]

/-- Chunk `i` has the operands that are pending in front of it, and its slice of the code. -/
theorem getElem?_chunkify (h : (chunkifyBinaryTreeCode code)[i]? = some chunk) :
    i < (code.length + 30) / 31 ∧ ∃ first ∈ chunk.head?,
      first.toNat = min (pending pushSize 0 ((paddedCode code).take (31 * i))) 31 ∧
        chunk.tail = ((paddedCode code).drop (31 * i)).take 31 := by
  simp only [chunkifyBinaryTreeCode, numChunks_eq, getElem?_map, Option.map_eq_some_iff] at h
  obtain ⟨j, hj, rfl⟩ := h
  obtain ⟨hi, rfl⟩ := List.getElem?_eq_some_iff.mp hj
  rw [length_range] at hi
  rw [getElem_range]
  have hstart : 31 * i < (paddedCode code).length := by
    rw [length_paddedCode]
    omega
  have hle : pending pushSize 0 ((paddedCode code).take (31 * i)) ≤ 32 :=
    pending_le pushSize_le (Nat.zero_le 32) _
  refine ⟨hi, _, rfl, ?_, tail_chunkOf _ (length_slice hi)⟩
  rw [getD_eq_getElem?_getD, bytesToExecData_getElem? hstart, Option.getD_some]
  generalize pending pushSize 0 ((paddedCode code).take (31 * i)) = n at hle
  interval_cases n <;> rfl

theorem payload_chunkify (code : Bytes) :
    payload (chunkifyBinaryTreeCode code) = paddedCode code := by
  unfold payload chunkifyBinaryTreeCode
  rw [flatMap_map, numChunks_eq]
  refine Eq.trans ?_ (flatMap_slices _ (paddedCode code) (length_paddedCode code))
  apply flatMap_congr
  intro i hi
  exact tail_chunkOf _ (length_slice (List.mem_range.mp hi))

/-- The count of the push data behind a cut is what is pending there. -/
theorem min_ncard_pushDataFrom (hi : i < (code.length + 30) / 31) :
    min 31 (pushDataFrom (paddedCode code) (31 * i)).ncard =
      min (pending pushSize 0 ((paddedCode code).take (31 * i))) 31 := by
  have hlength := length_paddedCode code
  have hfront : ((paddedCode code).take (31 * i)).length = 31 * i := by
    rw [length_take]
    omega
  have hcount := @ncard_operands _ pushSize ((paddedCode code).take (31 * i))
    ((paddedCode code).drop (31 * i))
  rw [take_append_drop, hfront, length_drop, hlength] at hcount
  unfold pushDataFrom
  rw [hlength, hcount]
  omega

theorem chunkify_chunksOf (code : Bytes) : ChunksOf code (chunkifyBinaryTreeCode code) where
  count := by
    rw [ceilDiv_eq_add_pred_div, chunkifyBinaryTreeCode, length_map, length_range,
      numChunks_eq]
    rfl
  lengths := by
    intro chunk hchunk
    obtain ⟨i, hi⟩ := List.mem_iff_getElem?.mp hchunk
    obtain ⟨hlt, first, hfirst, -, htail⟩ := getElem?_chunkify hi
    rw [← cons_head?_tail hfirst, length_cons, htail, length_slice hlt]
  padded := by
    refine ⟨(31 - code.length % 31) % 31, mod_lt _ (by decide), ?_, payload_chunkify code⟩
    omega
  pushData := by
    intro i chunk h
    obtain ⟨hi, first, hfirst, hpending, -⟩ := getElem?_chunkify h
    refine ⟨first, hfirst, ?_⟩
    rw [payload_chunkify, min_ncard_pushDataFrom hi]
    exact hpending
  resumes := by
    intro i chunk h
    obtain ⟨hi, first, hfirst, hpending, htail⟩ := getElem?_chunkify h
    refine ⟨first, hfirst, ?_⟩
    have hlength : ((paddedCode code).take (31 * i)).length = 31 * i := by
      rw [length_take, length_paddedCode]
      omega
    have hfront : (marks pushSize 0 (paddedCode code)).drop (31 * i) =
        marks pushSize (pending pushSize 0 ((paddedCode code).take (31 * i)))
          ((paddedCode code).drop (31 * i)) := by
      conv_lhs => rw [← take_append_drop (31 * i) (paddedCode code), marks_append]
      exact drop_left' ((length_marks _ _).trans hlength)
    have hslice : ((paddedCode code).drop (31 * i)) =
        ((paddedCode code).drop (31 * i)).take 31 ++ ((paddedCode code).drop (31 * i)).drop 31 :=
      (take_append_drop 31 _).symm
    rw [payload_chunkify, hfront, hslice, marks_append,
      take_left' ((length_marks _ _).trans (length_slice hi)), htail, hpending]
    exact marks_min _ (length_slice hi).le

/-- The data of a PUSH2 at the end of a chunk. -/
example : (chunkifyBinaryTreeCode (List.replicate 30 0 ++ [0x61, 1, 2])).map List.head? =
    [some 0, some 2] := by decide

end Chunks

end CodeChunks
